/-
  Formats made of lines: a document is one entry after the other with a line break between
  two.

  An entry may have line breaks inside, so its reader says where it ends: it reads one at the
  start of a text and leaves the rest. `Document` says which texts are documents and of what
  entries; `read` finds out.

  * `read_eq_some_iff`: `read` finds them, if readers leave no more than they are given.
-/
import Mathlib

/-- What is read at the start of a text, with what is left of it. -/
structure LineFormat (α β : Type) where
  entry : List α → Option (β × List α)
  lineBreak : List α → Option (List α)

namespace LineFormat

variable {α β : Type} {F : LineFormat α β} {s : List α} {bs : List β}

inductive Document (F : LineFormat α β) : List α → List β → Prop
  | last {s b} : F.entry s = some (b, []) → Document F s [b]
  | line {s b rest s' bs} : F.entry s = some (b, rest) → F.lineBreak rest = some s' →
      Document F s' bs → Document F s (b :: bs)

/-- An entry leaves no more than there was, and a line break less. -/
structure Consumes (F : LineFormat α β) : Prop where
  entry_le : ∀ {s b rest}, F.entry s = some (b, rest) → rest.length ≤ s.length
  lineBreak_lt : ∀ {s s'}, F.lineBreak s = some s' → s'.length < s.length

/-- The entries of a document, with fuel for its lines. -/
def readLines (F : LineFormat α β) : Nat → List α → Option (List β)
  | 0, _ => none
  | fuel + 1, s =>
    match F.entry s with
    | some (b, []) => some [b]
    | some (b, c :: rest) =>
      match F.lineBreak (c :: rest) with
      | some s' => (F.readLines fuel s').map (b :: ·)
      | none => none
    | none => none

/-- A text has no more lines than one and its length. -/
def read (F : LineFormat α β) (s : List α) : Option (List β) := F.readLines (s.length + 1) s

theorem Consumes.lineBreak_nil (h : F.Consumes) : F.lineBreak [] = none := by
  cases hs : F.lineBreak [] with
  | none => rfl
  | some s' => exact absurd (h.lineBreak_lt hs) (Nat.not_lt_zero _)

/-- A document by its first entry. -/
theorem document_iff {b : β} {rest : List α} (hentry : F.entry s = some (b, rest)) :
    F.Document s bs ↔ (rest = [] ∧ bs = [b]) ∨
      ∃ s' bs', F.lineBreak rest = some s' ∧ F.Document s' bs' ∧ bs = b :: bs' := by
  constructor
  · intro h
    cases h with
    | last hlast =>
      obtain ⟨rfl, rfl⟩ := Prod.mk.inj (Option.some.inj (hentry.symm.trans hlast))
      exact .inl ⟨rfl, rfl⟩
    | line hline hbreak hdoc =>
      obtain ⟨rfl, rfl⟩ := Prod.mk.inj (Option.some.inj (hentry.symm.trans hline))
      exact .inr ⟨_, _, hbreak, hdoc, rfl⟩
  · rintro (⟨rfl, rfl⟩ | ⟨s', bs', hbreak, hdoc, rfl⟩)
    · exact .last hentry
    · exact .line hentry hbreak hdoc

theorem not_document (hentry : F.entry s = none) : ¬ F.Document s bs := by
  intro h
  cases h with
  | last hlast => rw [hentry] at hlast; cases hlast
  | line hline _ _ => rw [hentry] at hline; cases hline

theorem readLines_eq_some_iff (h : F.Consumes) {fuel : Nat} (hfuel : s.length < fuel) :
    F.readLines fuel s = some bs ↔ F.Document s bs := by
  induction fuel generalizing s bs with
  | zero => exact absurd hfuel (Nat.not_lt_zero _)
  | succ fuel ih =>
    rw [readLines]
    cases hentry : F.entry s with
    | none => simp [not_document hentry]
    | some p =>
      obtain ⟨b, rest⟩ := p
      rw [document_iff hentry]
      cases rest with
      | nil =>
        simp [h.lineBreak_nil, eq_comm]
      | cons c rest =>
        cases hbreak : F.lineBreak (c :: rest) with
        | none => simp [hbreak]
        | some s' =>
          have hlt := h.lineBreak_lt hbreak
          have hle := h.entry_le hentry
          have hread : ∀ bs', F.readLines fuel s' = some bs' ↔ F.Document s' bs' := fun bs' =>
            ih (by omega)
          simp [hbreak, hread, eq_comm]

theorem read_eq_some_iff (h : F.Consumes) : F.read s = some bs ↔ F.Document s bs :=
  readLines_eq_some_iff h (Nat.lt_succ_self _)

end LineFormat
