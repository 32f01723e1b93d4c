/-
  A loop that reads pages without a cursor: it asks for a page, works it off, and asks again
  until a page is empty. Only the work keeps the next page from being the last one again.

  `Drains` is what one round has to do: show the first elements of what is left, and leave the
  others. `Drains.exists_pages` is what the loop then does: the pages are the list it began
  with, in order, in as many pages as the list fills. `drain_eq_some` takes a loop that ended
  apart again, round by round.
-/
import Mathlib

namespace Drain

variable {σ τ ε : Type}

/-- The pages before the first empty one, and the state that is left; `none` when the fuel ran
    out. The rounds are numbered. -/
def drain (query : σ → Except ε (List τ)) (work : Nat → List τ → σ → Except ε σ) :
    Nat → Nat → σ → Except ε (Option (List (List τ) × σ))
  | 0, _, _ => .ok none
  | fuel + 1, round, s => do
    let page ← query s
    if page.isEmpty then
      return some ([], s)
    let s' ← work round page s
    let rest ← drain query work fuel (round + 1) s'
    return rest.map fun (pages, last) => (page :: pages, last)

/-- `Holds round s left`: before the round, `left` is what is still to be read in `s`. A query
    shows its first `n` elements, and working them off leaves the others. -/
structure Drains (query : σ → Except ε (List τ)) (work : Nat → List τ → σ → Except ε σ)
    (n : Nat) (Holds : Nat → σ → List τ → Prop) : Prop where
  page : ∀ {round s left}, Holds round s left → query s = .ok (left.take n)
  rest : ∀ {round s left}, Holds round s left →
    ∃ s', work round (left.take n) s = .ok s' ∧ Holds (round + 1) s' (left.drop n)

/-- How many pages of `n` a list of `k` fills. -/
def pageCount (k n : Nat) : Nat := (k + n - 1) / n

theorem pageCount_zero {n : Nat} (hn : 0 < n) : pageCount 0 n = 0 := by
  unfold pageCount
  exact Nat.div_eq_of_lt (by omega)

theorem pageCount_sub {k n : Nat} (hn : 0 < n) (hk : 0 < k) :
    pageCount k n = pageCount (k - n) n + 1 := by
  unfold pageCount
  have hall : k + n - 1 = (k - 1) + n := by omega
  rw [hall, Nat.add_div_right _ hn]
  congr 1
  rcases Nat.lt_or_ge k n with hlt | hge
  · rw [Nat.div_eq_of_lt (by omega), Nat.div_eq_of_lt (by omega)]
  · congr 1
    omega

section

variable {query : σ → Except ε (List τ)} {work : Nat → List τ → σ → Except ε σ}

theorem drain_of_empty {s : σ} (h : query s = .ok []) (fuel round : Nat) :
    drain query work (fuel + 1) round s = .ok (some ([], s)) := by
  rw [drain, h]
  rfl

theorem drain_of_page {s s' : σ} {page : List τ} {round : Nat} (h : query s = .ok page)
    (hne : page ≠ []) (hwork : work round page s = .ok s') (fuel : Nat) :
    drain query work (fuel + 1) round s =
      (drain query work fuel (round + 1) s').map fun rest =>
        rest.map fun (pages, last) => (page :: pages, last) := by
  have hempty : page.isEmpty = false := by simpa using hne
  rw [drain, h]
  simp only [bind, Except.bind, hempty, hwork]
  cases drain query work fuel (round + 1) s' <;> rfl

/-- A loop that ended had an empty page, or worked off a page and ended from there. -/
theorem drain_eq_some {fuel round : Nat} {s last : σ} {pages : List (List τ)}
    (h : drain query work (fuel + 1) round s = .ok (some (pages, last))) :
    (query s = .ok [] ∧ pages = []) ∨
    ∃ page s' pages', query s = .ok page ∧ work round page s = .ok s' ∧
      drain query work fuel (round + 1) s' = .ok (some (pages', last)) ∧
      pages = page :: pages' := by
  cases hpage : query s with
  | error e =>
    rw [drain, hpage] at h
    cases h
  | ok page =>
    rcases eq_or_ne page [] with rfl | hne
    · rw [drain_of_empty hpage] at h
      cases h
      exact .inl ⟨rfl, rfl⟩
    · cases hwork : work round page s with
      | error e =>
        have hempty : page.isEmpty = false := by simpa using hne
        simp only [drain, hpage, bind, Except.bind, hempty, hwork] at h
        cases h
      | ok s' =>
        rw [drain_of_page hpage hne hwork] at h
        cases hrest : drain query work fuel (round + 1) s' with
        | error e =>
          rw [hrest] at h
          cases h
        | ok rest =>
          cases rest with
          | none =>
            rw [hrest] at h
            cases h
          | some rest =>
            rw [hrest] at h
            cases h
            exact .inr ⟨page, s', rest.1, rfl, hwork, hrest, rfl⟩

/-- **The loop ends, and its pages are what was there to read.** -/
theorem Drains.exists_pages {n : Nat} {Holds : Nat → σ → List τ → Prop}
    (h : Drains query work n Holds) (hn : 0 < n) {round : Nat} {s : σ} {left : List τ}
    (hs : Holds round s left) :
    ∃ pages last, (∀ fuel, pageCount left.length n < fuel →
        drain query work fuel round s = .ok (some (pages, last))) ∧
      (∃ round, Holds round last []) ∧ pages.flatten = left ∧ (∀ page ∈ pages, page ≠ []) ∧
      pages.length = pageCount left.length n := by
  -- on the number of elements left: each round takes at least one
  induction hk : left.length using Nat.strong_induction_on generalizing s left round with
  | _ k ih =>
    rcases Nat.eq_zero_or_pos k with rfl | hpos
    · obtain rfl := List.eq_nil_of_length_eq_zero hk
      refine ⟨[], s, fun fuel hfuel => ?_, ⟨round, hs⟩, rfl, by simp, (pageCount_zero hn).symm⟩
      obtain ⟨fuel, rfl⟩ : ∃ f, fuel = f + 1 := ⟨fuel - 1, by omega⟩
      exact drain_of_empty (by simpa using h.page hs) fuel round
    · obtain ⟨s', hwork, hs'⟩ := h.rest hs
      have hlen : (left.drop n).length = k - n := by rw [List.length_drop, hk]
      obtain ⟨pages, last, hrun, hlast, hflat, hne, hcount⟩ :=
        ih (k - n) (by omega) hs' hlen
      have hpage : left.take n ≠ [] := by
        intro hnil
        have := congrArg List.length hnil
        rw [List.length_take, hk, List.length_nil] at this
        omega
      have hsucc := pageCount_sub hn hpos
      refine ⟨left.take n :: pages, last, fun fuel hfuel => ?_, hlast, ?_, ?_, ?_⟩
      · obtain ⟨fuel, rfl⟩ : ∃ f, fuel = f + 1 := ⟨fuel - 1, by omega⟩
        rw [drain_of_page (h.page hs) hpage hwork, hrun fuel (by omega)]
        rfl
      · rw [List.flatten_cons, hflat, List.take_append_drop]
      · exact List.forall_mem_cons.mpr ⟨hpage, hne⟩
      · rw [List.length_cons, hcount, hsucc]

end

end Drain
