/-
  `INSERT … ON CONFLICT (target) DO UPDATE SET c = excluded.c, …`, and what a run of such
  statements leaves in a table.

  A column is how it is compared and how it is assigned. The statement puts a row at the end
  of the table, or updates the row that has the new one's value in the target column.

  Where the updated columns are none of the key's and the target tells the keys apart
  (`Keyed`):

  * `nodup_insert`: the keys stay distinct;
  * `find_insertAll`: what is found for a key after a run: nothing if no statement had the key,
    and else the row of the first one with the updated columns of the last (`settled`).
-/
import Mathlib

namespace Upsert

variable {χ α κ : Type}

structure Columns (χ α : Type) where
  /-- Two rows have the same value in the column. -/
  same : χ → α → α → Bool
  /-- The second row with the column of the first. -/
  assign : χ → α → α → α

structure OnConflict (χ : Type) where
  target : χ
  updates : List χ

def OnConflict.column (target : χ) : OnConflict χ := ⟨target, []⟩

def OnConflict.updateColumns (conflict : OnConflict χ) (columns : List χ) : OnConflict χ :=
  { conflict with updates := conflict.updates ++ columns }

namespace Columns

variable (C : Columns χ α) (conflict : OnConflict χ)

/-- `DO UPDATE SET` on the row that is there. -/
def update (excluded row : α) : α :=
  conflict.updates.foldl (fun row c => C.assign c excluded row) row

def insert (excluded : α) : List α → List α
  | [] => [excluded]
  | row :: rows =>
    if C.same conflict.target row excluded then
      C.update conflict excluded row :: rows
    else
      row :: insert excluded rows

/-- One statement after the other, from an empty table on. -/
def insertAll (writes : List α) : List α :=
  writes.foldl (fun rows excluded => C.insert conflict excluded rows) []

/-- What the writes of one key leave: the first one with the updated columns of the last. -/
def settled (writes : List α) : Option α :=
  writes.head?.bind fun first => writes.getLast?.map fun last => C.update conflict last first

/-- The target is the key's column, and an update sets columns outside of the key, the same ones
    each time. -/
structure Keyed (key : α → κ) : Prop where
  same_iff : ∀ a b, C.same conflict.target a b = true ↔ key a = key b
  key_update : ∀ excluded row, key (C.update conflict excluded row) = key row
  update_self : ∀ row, C.update conflict row row = row
  update_update : ∀ c b a, C.update conflict c (C.update conflict b a) = C.update conflict c a

variable {C conflict} {key : α → κ}

/-! ## One statement -/

theorem map_key_insert (h : Keyed C conflict key) (excluded : α) (rows : List α) :
    (C.insert conflict excluded rows).map key = rows.map key ∨
      key excluded ∉ rows.map key ∧
        (C.insert conflict excluded rows).map key = rows.map key ++ [key excluded] := by
  induction rows with
  | nil => exact .inr ⟨by simp, rfl⟩
  | cons row rows ih =>
    rw [insert]
    split
    · exact .inl (by rw [List.map_cons, List.map_cons, h.key_update])
    · rename_i hne
      have hkey : key row ≠ key excluded := fun he => hne ((h.same_iff _ _).mpr he)
      rcases ih with hsame | ⟨hnew, hkeys⟩
      · exact .inl (by rw [List.map_cons, List.map_cons, hsame])
      · refine .inr ⟨?_, by rw [List.map_cons, List.map_cons, hkeys, List.cons_append]⟩
        rw [List.map_cons, List.mem_cons, not_or]
        exact ⟨hkey.symm, hnew⟩

theorem nodup_insert (h : Keyed C conflict key) (excluded : α) {rows : List α}
    (hrows : (rows.map key).Nodup) : ((C.insert conflict excluded rows).map key).Nodup := by
  rcases map_key_insert h excluded rows with hsame | ⟨hnew, hkeys⟩
  · rwa [hsame]
  · rw [hkeys, ← List.concat_eq_append]
    exact hrows.concat hnew

variable [DecidableEq κ]

theorem find_insert_of_ne (h : Keyed C conflict key) {excluded : α} {k : κ}
    (hk : key excluded ≠ k) (rows : List α) :
    (C.insert conflict excluded rows).find? (key · = k) = rows.find? (key · = k) := by
  induction rows with
  | nil => simp [insert, hk]
  | cons row rows ih =>
    rw [insert]
    split
    · rename_i he
      have hrow : key row ≠ k := fun hrk => hk (((h.same_iff _ _).mp he).symm.trans hrk)
      simp [h.key_update, hrow]
    · rw [List.find?_cons, List.find?_cons, ih]

theorem find_insert_self (h : Keyed C conflict key) (excluded : α) (rows : List α) :
    (C.insert conflict excluded rows).find? (key · = key excluded) =
      some ((rows.find? (key · = key excluded)).elim excluded (C.update conflict excluded)) := by
  induction rows with
  | nil => simp [insert]
  | cons row rows ih =>
    rw [insert]
    split
    · rename_i he
      have hrow : key row = key excluded := (h.same_iff _ _).mp he
      simp [h.key_update, hrow]
    · rename_i hne
      have hrow : key row ≠ key excluded := fun he => hne ((h.same_iff _ _).mpr he)
      simp [hrow, ih]

/-! ## A run -/

omit [DecidableEq κ] in
theorem insertAll_append_one (writes : List α) (excluded : α) :
    C.insertAll conflict (writes ++ [excluded]) =
      C.insert conflict excluded (C.insertAll conflict writes) := by
  rw [insertAll, List.foldl_append]
  rfl

omit [DecidableEq κ] in
theorem nodup_insertAll (h : Keyed C conflict key) (writes : List α) :
    ((C.insertAll conflict writes).map key).Nodup := by
  induction writes using List.reverseRecOn with
  | nil => exact List.nodup_nil
  | append_singleton writes excluded ih =>
    rw [insertAll_append_one]
    exact nodup_insert h excluded ih

omit [DecidableEq κ] in
theorem settled_append_one (h : Keyed C conflict key) (writes : List α) (excluded : α) :
    C.settled conflict (writes ++ [excluded]) =
      some ((C.settled conflict writes).elim excluded (C.update conflict excluded)) := by
  cases writes with
  | nil => simp [settled, h.update_self]
  | cons first writes =>
    obtain ⟨last, hlast⟩ : ∃ last, (first :: writes).getLast? = some last :=
      ⟨_, List.getLast?_eq_some_getLast (List.cons_ne_nil _ _)⟩
    simp only [settled, List.head?_cons, Option.bind_some, hlast, Option.map_some,
      List.cons_append, Option.elim_some, h.update_update]
    rw [← List.cons_append, List.getLast?_concat, Option.map_some]

omit [DecidableEq κ] in
/-- A column that each update sets is the last one's. -/
theorem settled_map {β : Type} {f : α → β}
    (hf : ∀ excluded row, f (C.update conflict excluded row) = f excluded) (writes : List α) :
    (C.settled conflict writes).map f = writes.getLast?.map f := by
  cases writes with
  | nil => rfl
  | cons first writes =>
    rw [settled, List.head?_cons, Option.bind_some, Option.map_map]
    exact congrArg (Option.map · _) (funext fun last => hf last first)

/-- **What a run of upserts leaves for a key.** -/
theorem find_insertAll (h : Keyed C conflict key) (writes : List α) (k : κ) :
    (C.insertAll conflict writes).find? (key · = k) =
      C.settled conflict (writes.filter (key · = k)) := by
  induction writes using List.reverseRecOn with
  | nil => rfl
  | append_singleton writes excluded ih =>
    rw [insertAll_append_one, List.filter_append]
    by_cases hk : key excluded = k
    · subst hk
      rw [find_insert_self h, ih, List.filter_cons_of_pos (by simp), List.filter_nil,
        settled_append_one h]
    · rw [find_insert_of_ne h hk, ih, List.filter_cons_of_neg (by simp [hk]), List.filter_nil,
        List.append_nil]

end Columns

end Upsert
