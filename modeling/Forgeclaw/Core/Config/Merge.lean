/-
  `crates/core/src/config/merge.rs`: merging one TOML tree over another.

  * `lookup_deepMerge`: what the merged tree holds at a path where the overlay is in nobody's
    way;
  * `deepMerge_empty`, `deepMerge_self`: merging over the empty table, and over itself;
  * `wellFormed_deepMerge`: a merged tree is in order;
  * `unblocked_deepMerge_iff`: a path is free in the merged tree exactly if at each proper
    prefix the tree with precedence there holds a table or nothing.
-/
import Forgeclaw.Core.Config.Toml

namespace Forgeclaw.Core.Config

open Value

mutual

/-- Merge `overlay` into `base`: tables are merged recursively, else the overlay wins. -/
def deepMerge (base : Value) : Value → Value
  | .table overlayTable =>
    match base with
    | .table baseTable => .table (mergeEntries baseTable overlayTable)
    | _ => .table overlayTable
  | overlay => overlay

/-- The loop over the overlay's entries. -/
def mergeEntries (baseTable : Table) : List (String × Value) → Table
  | [] => baseTable
  | e :: rest => mergeEntries (mergeEntry baseTable e) rest

/-- One turn: take the key out of the base, merge, put the result in. -/
def mergeEntry (baseTable : Table) : String × Value → Table
  | (key, overlayVal) =>
    let merged :=
      match AssocMap.get key baseTable with
      | some baseVal => deepMerge baseVal overlayVal
      | none => overlayVal
    AssocMap.insert key merged (AssocMap.erase key baseTable)

end

/-! ## Looking up in a merged tree -/

/-- What a merge makes of what the two sides hold at one place. -/
def mergeAt : Option Value → Option Value → Option Value
  | base, none => base
  | none, some overlay => some overlay
  | some base, some overlay => some (deepMerge base overlay)

@[simp] theorem mergeAt_none (base : Option Value) : mergeAt base none = base := by
  unfold mergeAt
  rfl

@[simp] theorem none_mergeAt (overlay : Option Value) : mergeAt none overlay = overlay := by
  cases overlay <;> rfl

theorem deepMerge_table (baseTable overlayTable : Table) :
    deepMerge (.table baseTable) (.table overlayTable)
      = .table (mergeEntries baseTable overlayTable) := by
  rw [deepMerge]

theorem deepMerge_of_not_isTable_left {base : Value} (h : base.isTable = false)
    (overlay : Value) : deepMerge base overlay = overlay := by
  cases overlay with
  | table ot =>
    cases base with
    | table bt => simp [isTable] at h
    | _ => simp [deepMerge]
  | _ => simp [deepMerge]

theorem deepMerge_of_not_isTable_right {overlay : Value} (h : overlay.isTable = false)
    (base : Value) : deepMerge base overlay = overlay := by
  cases overlay with
  | table ot => simp [isTable] at h
  | _ => simp [deepMerge]

@[simp] theorem isTable_deepMerge (base overlay : Value) :
    (deepMerge base overlay).isTable = overlay.isTable := by
  cases hb : base.isTable with
  | false => rw [deepMerge_of_not_isTable_left hb]
  | true =>
    cases ho : overlay.isTable with
    | false => rw [deepMerge_of_not_isTable_right ho, ho]
    | true =>
      obtain ⟨bt, rfl⟩ := eq_table_of_isTable hb
      obtain ⟨ot, rfl⟩ := eq_table_of_isTable ho
      rw [deepMerge_table]
      rfl

theorem get_mergeEntry (baseTable : Table) (e : String × Value) (k : String) :
    AssocMap.get k (mergeEntry baseTable e)
      = if k = e.1 then mergeAt (AssocMap.get k baseTable) (some e.2)
        else AssocMap.get k baseTable := by
  obtain ⟨key, overlayVal⟩ := e
  rw [mergeEntry, AssocMap.get_insert]
  split
  · rename_i heq
    subst heq
    cases AssocMap.get k baseTable <;> rfl
  · rename_i hne
    rw [AssocMap.get_erase_of_ne hne]

/-- Entry by entry: each key is merged for itself. -/
theorem get_mergeEntries (baseTable : Table) {overlayTable : Table}
    (h : AssocMap.Ordered overlayTable) (k : String) :
    AssocMap.get k (mergeEntries baseTable overlayTable)
      = mergeAt (AssocMap.get k baseTable) (AssocMap.get k overlayTable) := by
  induction overlayTable generalizing baseTable with
  | nil => simp [mergeEntries]
  | cons e rest ih =>
    rw [mergeEntries, ih _ h.tail, get_mergeEntry, AssocMap.get]
    split
    · rename_i heq
      subst heq
      rw [h.get_tail, mergeAt_none]
    · rfl

theorem mergeEntries_append {baseTable overlayTable : Table}
    (h : AssocMap.Ordered (baseTable ++ overlayTable)) :
    mergeEntries baseTable overlayTable = baseTable ++ overlayTable := by
  induction overlayTable generalizing baseTable with
  | nil => simp [mergeEntries]
  | cons e rest ih =>
    obtain ⟨k, v⟩ := e
    have hlt : ∀ e ∈ baseTable, e.1 < k := fun e he =>
      (List.pairwise_append.mp h).2.2 e he (k, v) (by simp)
    have hne : ∀ e ∈ baseTable, e.1 ≠ k := fun e he => (hlt e he).ne
    have hstep : mergeEntry baseTable (k, v) = baseTable ++ [(k, v)] := by
      rw [mergeEntry, AssocMap.get_eq_none hne, AssocMap.erase_eq_self hne]
      exact AssocMap.insert_eq_append hlt v
    rw [mergeEntries, hstep, ih (by simpa using h), List.append_assoc, List.singleton_append]

/-- Merging a document over the empty table gives the document. -/
theorem deepMerge_empty (d : Document) : deepMerge (.table []) d.value = d.value := by
  have hord := (wellFormed_table.mp d.ordered).1
  rw [Document.value, deepMerge_table, mergeEntries_append (by simpa using hord)]
  rfl

theorem ordered_mergeEntries {baseTable : Table} (h : AssocMap.Ordered baseTable)
    (overlayTable : Table) : AssocMap.Ordered (mergeEntries baseTable overlayTable) := by
  induction overlayTable generalizing baseTable with
  | nil => simpa [mergeEntries] using h
  | cons e rest ih =>
    rw [mergeEntries]
    refine ih ?_
    rw [mergeEntry]
    exact (h.erase _).insert _ _

theorem wellFormed_deepMerge {base overlay : Value} (hb : base.wellFormed = true)
    (ho : overlay.wellFormed = true) : (deepMerge base overlay).wellFormed = true := by
  induction overlay using induction_tables generalizing base with
  | hleaf v hv => rwa [deepMerge_of_not_isTable_right hv]
  | htable ot ih =>
    cases hbt : base.isTable with
    | false => rwa [deepMerge_of_not_isTable_left hbt]
    | true =>
      obtain ⟨bt, rfl⟩ := eq_table_of_isTable hbt
      obtain ⟨hbo, hbe⟩ := wellFormed_table.mp hb
      obtain ⟨hoo, hoe⟩ := wellFormed_table.mp ho
      have hord := ordered_mergeEntries hbo ot
      rw [deepMerge_table, wellFormed_table]
      refine ⟨hord, fun e he => ?_⟩
      have hget := hord.get_of_mem he
      rw [get_mergeEntries bt hoo] at hget
      cases hgo : AssocMap.get e.1 ot with
      | none =>
        rw [hgo, mergeAt_none] at hget
        exact hbe _ (AssocMap.mem_of_get hget)
      | some o =>
        have hmem := AssocMap.mem_of_get hgo
        cases hgb : AssocMap.get e.1 bt with
        | none =>
          obtain rfl : o = e.2 := by simpa [hgo, hgb] using hget
          exact hoe _ hmem
        | some b =>
          obtain heq : deepMerge b o = e.2 := by simpa [hgo, hgb, mergeAt] using hget
          exact heq ▸ ih _ hmem (hbe _ (AssocMap.mem_of_get hgb)) (hoe _ hmem)

/-- Merging a tree over itself gives the tree. -/
theorem deepMerge_self {v : Value} (h : v.wellFormed = true) : deepMerge v v = v := by
  induction v using induction_tables with
  | hleaf v hv => exact deepMerge_of_not_isTable_right hv v
  | htable t ih =>
    obtain ⟨hord, hentries⟩ := wellFormed_table.mp h
    rw [deepMerge_table]
    refine congrArg _ ((ordered_mergeEntries hord t).ext hord fun k => ?_)
    rw [get_mergeEntries t hord]
    cases hget : AssocMap.get k t with
    | none => rfl
    | some c =>
      have hmem := AssocMap.mem_of_get hget
      simp [mergeAt, ih _ hmem (hentries _ hmem)]

theorem lookup_deepMerge {base overlay : Value} (hwf : overlay.wellFormed = true)
    {path : List String} (h : overlay.Unblocked path) :
    (deepMerge base overlay).lookup path
      = mergeAt (base.lookup path) (overlay.lookup path) := by
  induction path generalizing base overlay with
  | nil => simp [mergeAt]
  | cons k rest ih =>
    cases ho : overlay.isTable with
    | false => exact absurd h (not_unblocked_of_not_isTable ho k rest)
    | true =>
      obtain ⟨ot, rfl⟩ := eq_table_of_isTable ho
      obtain ⟨hord, hentries⟩ := wellFormed_table.mp hwf
      rw [unblocked_table_cons] at h
      cases hb : base.isTable with
      | false => rw [deepMerge_of_not_isTable_left hb, lookup_of_not_isTable hb, none_mergeAt]
      | true =>
        obtain ⟨bt, rfl⟩ := eq_table_of_isTable hb
        simp only [deepMerge_table, lookup_table_cons, get_mergeEntries bt hord]
        cases hgo : AssocMap.get k ot with
        | none => simp
        | some o =>
          cases hgb : AssocMap.get k bt with
          | none => simp
          | some b => exact ih (hentries (k, o) (AssocMap.mem_of_get hgo)) (h o hgo)

theorem unblocked_of_deepMerge {base overlay : Value} (hwf : overlay.wellFormed = true)
    {path : List String} (h : (deepMerge base overlay).Unblocked path) :
    overlay.Unblocked path := by
  induction path generalizing base overlay with
  | nil => simp
  | cons k rest ih =>
    cases ho : overlay.isTable with
    | false =>
      rw [deepMerge_of_not_isTable_right ho] at h
      exact h
    | true =>
      obtain ⟨ot, rfl⟩ := eq_table_of_isTable ho
      obtain ⟨hord, hentries⟩ := wellFormed_table.mp hwf
      cases hb : base.isTable with
      | false =>
        rw [deepMerge_of_not_isTable_left hb] at h
        exact h
      | true =>
        obtain ⟨bt, rfl⟩ := eq_table_of_isTable hb
        rw [deepMerge_table, unblocked_table_cons] at h
        refine (unblocked_table_cons ..).mpr fun o hgo => ?_
        have hget := get_mergeEntries bt hord k
        rw [hgo] at hget
        cases hgb : AssocMap.get k bt with
        | none =>
          rw [hgb] at hget
          exact h o hget
        | some b =>
          rw [hgb] at hget
          exact ih (hentries (k, o) (AssocMap.mem_of_get hgo)) (h _ hget)

theorem isTable_of_mergeAt {base overlay : Option Value} {x : Value} :
    (∀ y, mergeAt base overlay = some y → y.isTable = true) →
      overlay.or base = some x → x.isTable = true := by
  intro h hx
  cases overlay with
  | none => exact h x (by simpa using hx)
  | some o =>
    obtain rfl : o = x := by simpa using hx
    cases base with
    | none => exact h o rfl
    | some b => simpa using h _ rfl

theorem mergeAt_isTable {base overlay : Option Value} {y : Value}
    (h : ∀ x, overlay.or base = some x → x.isTable = true)
    (hy : mergeAt base overlay = some y) : y.isTable = true := by
  cases overlay with
  | none => exact h y (by simpa using hy)
  | some o =>
    cases base with
    | none => exact h y (by simpa using hy)
    | some b =>
      obtain rfl : deepMerge b o = y := by simpa [mergeAt] using hy
      simpa using h o rfl

/-- **A path through a merged tree is free iff it is free in the layer that decides.** -/
theorem unblocked_deepMerge_iff {base overlay : Value} (hwf : overlay.wellFormed = true)
    (path : List String) :
    (deepMerge base overlay).Unblocked path ↔
      ∀ q, q <+: path → q ≠ path →
        ∀ x, (overlay.lookup q).or (base.lookup q) = some x → x.isTable = true := by
  constructor
  · intro h q hq hne x hx
    have ho := (unblocked_of_deepMerge hwf h).of_isPrefix hq
    refine isTable_of_mergeAt (fun y hy => ?_) hx
    rw [← lookup_deepMerge hwf ho] at hy
    exact (unblocked_iff _ path).mp h q hq hne y hy
  · intro h
    have ho : overlay.Unblocked path :=
      (unblocked_iff _ path).mpr fun q hq hne x hx => h q hq hne x (by simp [hx])
    refine (unblocked_iff _ path).mpr fun q hq hne y hy => ?_
    rw [lookup_deepMerge hwf (ho.of_isPrefix hq)] at hy
    exact mergeAt_isTable (h q hq hne) hy

end Forgeclaw.Core.Config
