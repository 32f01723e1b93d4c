/-
  First occurrence of a pattern in a list, as `str::find` computes it on text.

  `findSub pat s` is the least index at which `pat` occurs in `s`. The rules below say when
  there is none (`findSub_eq_none_iff`), what an index means (`findSub_some`), and how the
  search distributes over a concatenation whose joint no occurrence can cross: a separator
  that is not in the pattern (`findSub_append_sep`), or a right part without the pattern's
  last element (`findSub_append_right`). The same rules for occurrence anywhere, `<:+:`, are
  `infix_append_sep`, `infix_append_left` and `infix_append_right`; `infix_intercalate_iff`
  is what they give for joined texts, `infix_splitOn_iff` and `prefix_splitOn_iff` for the
  pieces of a split.
-/
import Mathlib

namespace Search

variable {α : Type} [DecidableEq α]

/-- Least index at which `pat` occurs in the list. -/
def findSub (pat : List α) : List α → Option Nat
  | [] => if pat <+: [] then some 0 else none
  | c :: cs => if pat <+: c :: cs then some 0 else (findSub pat cs).map (· + 1)

theorem findSub_eq_none_iff {pat : List α} {s : List α} :
    findSub pat s = none ↔ ¬ pat <:+: s := by
  induction s with
  | nil => simp [findSub]
  | cons c cs ih =>
    simp only [findSub, List.infix_cons_iff]
    by_cases h : pat <+: c :: cs
    · simp [h]
    · simp [h, ih]

/-- The index returned is an occurrence, inside the list, and the first one. -/
theorem findSub_some {pat : List α} {s : List α} {i : Nat} (h : findSub pat s = some i) :
    i ≤ s.length ∧ pat <+: s.drop i ∧ ∀ j < i, ¬ pat <+: s.drop j := by
  induction s generalizing i with
  | nil =>
    simp only [findSub] at h
    split at h
    · rename_i hp
      obtain rfl : 0 = i := by simpa using h
      exact ⟨Nat.le_refl _, hp, by omega⟩
    · simp at h
  | cons c cs ih =>
    simp only [findSub] at h
    split at h
    · rename_i hp
      obtain rfl : 0 = i := by simpa using h
      exact ⟨Nat.zero_le _, by simpa using hp, by omega⟩
    · rename_i hp
      obtain ⟨j, hj, rfl⟩ := Option.map_eq_some_iff.mp h
      obtain ⟨hle, hocc, hfirst⟩ := ih hj
      refine ⟨by simpa using hle, by simpa using hocc, ?_⟩
      intro k hk
      cases k with
      | zero => simpa using hp
      | succ k => simpa using hfirst k (by omega)

/-- Nothing is found before the first occurrence. -/
theorem findSub_take {pat s : List α} (hne : pat ≠ []) {i : Nat} (h : findSub pat s = some i) :
    findSub pat (s.take i) = none := by
  rw [findSub_eq_none_iff]
  rintro ⟨u, v, huv⟩
  have hlen : u.length < i := by
    have h1 := congrArg List.length huv
    have h2 := List.length_pos_of_ne_nil hne
    simp only [List.length_append, List.length_take] at h1
    omega
  refine (findSub_some h).2.2 u.length hlen ?_
  obtain ⟨r, hr⟩ := List.take_prefix i s
  rw [← hr, ← huv, List.append_assoc, List.append_assoc, List.drop_left]
  exact ⟨v ++ r, by simp⟩

omit [DecidableEq α] in
/-- An occurrence at the start reaches past `A` only if what follows `A` can go on with it. -/
theorem prefix_append_iff {pat A X : List α}
    (h : ∀ p, pat = A ++ p → p ≠ [] → ¬ p <+: X) : pat <+: A ++ X ↔ pat <+: A := by
  constructor
  · intro hocc
    rcases Nat.lt_or_ge A.length pat.length with hlt | hle
    · exfalso
      obtain ⟨p, hp⟩ : A <+: pat :=
        List.prefix_of_prefix_length_le (List.prefix_append A X) hocc hlt.le
      subst hp
      have hne : p ≠ [] := by rintro rfl; simp at hlt
      exact h p rfl hne ((List.prefix_append_right_inj A).mp hocc)
    · exact List.prefix_of_prefix_length_le hocc (List.prefix_append A X) hle
  · exact fun hocc => hocc.trans (List.prefix_append _ _)

omit [DecidableEq α] in
theorem prefix_append_sep {pat A B : List α} {x : α} (hx : x ∉ pat) :
    pat <+: A ++ x :: B ↔ pat <+: A := by
  refine prefix_append_iff fun p hp hne hpre => ?_
  -- what is left of the pattern would start with the separator
  obtain ⟨y, p, rfl⟩ := List.exists_cons_of_ne_nil hne
  obtain ⟨rfl, -⟩ := List.cons_prefix_cons.mp hpre
  exact hx (by simp [hp])

theorem findSub_append_sep {pat A B : List α} {x : α} (hne : pat ≠ []) (hx : x ∉ pat) :
    findSub pat (A ++ x :: B) =
      (findSub pat A).or ((findSub pat B).map (· + (A.length + 1))) := by
  induction A with
  | nil =>
    have h0 : ¬ pat <+: x :: B := by
      rw [← List.nil_append (x :: B), prefix_append_sep hx]
      simpa using hne
    simp [findSub, h0, hne]
  | cons a A ih =>
    have hp : pat <+: a :: (A ++ x :: B) ↔ pat <+: a :: A := prefix_append_sep (A := a :: A) hx
    simp only [List.cons_append, findSub, hp]
    by_cases h : pat <+: a :: A
    · simp [h]
    · simp only [h, if_false, ih, List.length_cons]
      cases findSub pat A with
      | some i => simp
      | none => simp [Function.comp_def, Nat.add_assoc]

omit [DecidableEq α] in
theorem prefix_append_right {pat A X : List α} {z : α} (hz : pat.getLast? = some z)
    (hX : z ∉ X) : pat <+: A ++ X ↔ pat <+: A := by
  refine prefix_append_iff fun p hp hne hpre => hX (hpre.subset ?_)
  rw [hp, List.getLast?_append_of_ne_nil _ hne] at hz
  exact List.mem_of_getLast? hz

theorem findSub_eq_none_of_not_mem {pat X : List α} {z : α} (hz : z ∈ pat) (hX : z ∉ X) :
    findSub pat X = none :=
  findSub_eq_none_iff.mpr fun h => hX (h.subset hz)

theorem findSub_append_right {pat A X : List α} {z : α} (hz : pat.getLast? = some z)
    (hX : z ∉ X) : findSub pat (A ++ X) = findSub pat A := by
  induction A with
  | nil =>
    have hzp : z ∈ pat := List.mem_of_getLast? hz
    rw [List.nil_append, findSub_eq_none_of_not_mem hzp hX,
      findSub_eq_none_of_not_mem hzp (by simp)]
  | cons a A ih =>
    have hp : pat <+: a :: (A ++ X) ↔ pat <+: a :: A := prefix_append_right (A := a :: A) hz hX
    simp only [List.cons_append, findSub, ih, hp]

/-- A left part without the pattern's first element is passed over. -/
theorem findSub_append_left {pat A B : List α} {y : α} (hy : pat.head? = some y) (hA : y ∉ A) :
    findSub pat (A ++ B) = (findSub pat B).map (· + A.length) := by
  obtain ⟨pat, rfl⟩ := List.head?_eq_some_iff.mp hy
  induction A with
  | nil => simp
  | cons a A ih =>
    have hya : y ≠ a := fun h => hA (by simp [h])
    have hyA : y ∉ A := fun h => hA (by simp [h])
    rw [List.cons_append, findSub, if_neg (by simp [List.cons_prefix_cons, hya]), ih hyA,
      Option.map_map, List.length_cons]
    congr 1

/-! ## Occurrence anywhere -/

omit [DecidableEq α]

theorem infix_append_sep {pat A B : List α} {x : α} (hne : pat ≠ []) (hx : x ∉ pat) :
    pat <:+: A ++ x :: B ↔ pat <:+: A ∨ pat <:+: B := by
  induction A with
  | nil =>
    have hpre : ¬ pat <+: [] ++ x :: B := by
      rw [prefix_append_sep hx]
      simpa using hne
    rw [List.nil_append] at hpre
    simp [List.infix_cons_iff, hpre, hne]
  | cons a A ih =>
    have hpre : pat <+: a :: (A ++ x :: B) ↔ pat <+: a :: A :=
      prefix_append_sep (A := a :: A) hx
    rw [List.cons_append, List.infix_cons_iff, hpre, ih, List.infix_cons_iff, or_assoc]

/-- A left part without the pattern's first element. -/
theorem infix_append_left {A B pat : List α} {y : α} (hy : pat.head? = some y) (hA : y ∉ A) :
    pat <:+: A ++ B ↔ pat <:+: B := by
  obtain ⟨pat, rfl⟩ := List.head?_eq_some_iff.mp hy
  induction A with
  | nil => rfl
  | cons a A ih =>
    have hya : y ≠ a := fun h => hA (by simp [h])
    have hyA : y ∉ A := fun h => hA (by simp [h])
    rw [List.cons_append, List.infix_cons_iff, ih hyA, List.cons_prefix_cons]
    simp [hya]

/-- A right part without the pattern's last element. -/
theorem infix_append_right {pat A X : List α} {z : α} (hz : pat.getLast? = some z)
    (hX : z ∉ X) : pat <:+: A ++ X ↔ pat <:+: A := by
  induction A with
  | nil =>
    have hzp : z ∈ pat := List.mem_of_getLast? hz
    have hnil : ¬ pat <:+: [] := fun h => by simpa using h.subset hzp
    have hin : ¬ pat <:+: X := fun h => hX (h.subset hzp)
    simp only [List.nil_append, hnil, hin]
  | cons a A ih =>
    have hpre : pat <+: a :: (A ++ X) ↔ pat <+: a :: A :=
      prefix_append_right (A := a :: A) hz hX
    rw [List.cons_append, List.infix_cons_iff, hpre, ih, List.infix_cons_iff]

/-- The joints `u ++ x :: v` neither make nor break an occurrence: the pattern has no `x`,
    does not end in `u` and does not start in `v`. -/
theorem infix_intercalate_iff {pat u v : List α} {y z x : α} (hy : pat.head? = some y)
    (hz : pat.getLast? = some z) (hx : x ∉ pat) (hu : z ∉ u) (hv : y ∉ v)
    (parts : List (List α)) :
    pat <:+: (u ++ x :: v).intercalate parts ↔ ∃ part ∈ parts, pat <:+: part := by
  have hne : pat ≠ [] := by rintro rfl; simp at hy
  induction parts with
  | nil => simpa using hne
  | cons part parts ih =>
    cases parts with
    | nil => simp
    | cons next parts =>
      have hjoint : (u ++ x :: v).intercalate (part :: next :: parts) =
          (part ++ u) ++ x :: (v ++ (u ++ x :: v).intercalate (next :: parts)) := by
        simp [List.intercalate_cons_cons]
      rw [hjoint, infix_append_sep hne hx, infix_append_right hz hu, infix_append_left hy hv,
        List.exists_mem_cons_iff]
      exact or_congr_right ih

/-! ## The pieces of a split -/

section Split

variable [DecidableEq α] {w : List α} {x : α}

/-- An occurrence without the separator is in one piece. -/
theorem infix_splitOn_iff (hne : w ≠ []) (hx : x ∉ w) (s : List α) :
    w <:+: s ↔ ∃ piece ∈ s.splitOn x, w <:+: piece := by
  obtain ⟨y, hy⟩ := Option.ne_none_iff_exists'.mp (List.head?_eq_none_iff.not.mpr hne)
  obtain ⟨z, hz⟩ := Option.ne_none_iff_exists'.mp (List.getLast?_eq_none_iff.not.mpr hne)
  have hjoin := infix_intercalate_iff (u := []) (v := []) hy hz hx (by simp) (by simp)
    (s.splitOn x)
  rwa [List.nil_append, List.intercalate_splitOn] at hjoin

/-- The first piece starts as the list does, the others as the separators go on. -/
theorem prefix_splitOn (hx : x ∉ w) {s piece : List α} {pieces : List (List α)}
    (h : s.splitOn x = piece :: pieces) :
    (w <+: s ↔ w <+: piece) ∧ (x :: w <:+: s ↔ ∃ p ∈ pieces, w <+: p) := by
  induction s generalizing w piece pieces with
  | nil =>
    rw [List.splitOn_nil, List.cons.injEq] at h
    obtain ⟨rfl, rfl⟩ := h
    simp
  | cons c s ih =>
    obtain ⟨first, rest, hs⟩ := List.exists_cons_of_ne_nil (List.splitOn_ne_nil x s)
    rw [List.splitOn_cons_eq_if_modifyHead, hs] at h
    split at h
    · rename_i hc
      obtain rfl : c = x := eq_of_beq hc
      obtain ⟨rfl, rfl⟩ := List.cons.inj h
      obtain ⟨hfirst, hrest⟩ := ih hx hs
      have hw : w <+: c :: s ↔ w <+: [] := prefix_append_sep (A := []) hx
      rw [hw, List.infix_cons_iff, List.cons_prefix_cons, hrest, List.exists_mem_cons_iff, hfirst]
      simp
    · rename_i hc
      obtain ⟨rfl, rfl⟩ := List.cons.inj h
      have hcx : x ≠ c := fun he => hc (by simp [he])
      refine ⟨?_, ?_⟩
      · cases w with
        | nil => simp
        | cons y w =>
          rw [List.cons_prefix_cons, List.cons_prefix_cons, (ih (fun hm => hx (List.mem_cons_of_mem _ hm)) hs).1]
      · rw [List.infix_cons_iff, List.cons_prefix_cons, (ih hx hs).2]
        simp [hcx]

theorem prefix_splitOn_iff (hx : x ∉ w) (s : List α) :
    w <+: s ∨ x :: w <:+: s ↔ ∃ piece ∈ s.splitOn x, w <+: piece := by
  obtain ⟨piece, pieces, hs⟩ := List.exists_cons_of_ne_nil (List.splitOn_ne_nil x s)
  obtain ⟨hfirst, hrest⟩ := prefix_splitOn hx hs
  rw [hs, List.exists_mem_cons_iff, hfirst, hrest]

end Split

end Search
