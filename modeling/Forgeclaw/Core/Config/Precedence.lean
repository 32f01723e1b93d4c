/-
  What `deep_merge` gives at each path.

  * `deepMerge_by_path`: the value at a path is the overlay's or the base's, or the merge of
    two tables, as the two sides' values at the path and the overlay's above it say; a merged
    table has the keys of both sides; a second merge of the same overlay changes nothing.
-/
import Forgeclaw.Core.Config.Merge

namespace Forgeclaw.Core.Config

open Value

/-! ## Where the overlay is in the way -/

theorem lookup_deepMerge_leaf {base overlay : Value} (hwf : overlay.wellFormed = true)
    {path : List String} {v : Value} (h : overlay.lookup path = some v)
    (hv : v.isTable = false) : (deepMerge base overlay).lookup path = some v := by
  rw [lookup_deepMerge hwf (unblocked_of_lookup h), h]
  cases base.lookup path with
  | none => rfl
  | some b => rw [mergeAt, deepMerge_of_not_isTable_right hv]

/-- Below a plain value of the overlay there is nothing. -/
theorem lookup_deepMerge_below {base overlay : Value} (hwf : overlay.wellFormed = true)
    {q path : List String} (hq : q <+: path) (hne : q ≠ path) {v : Value}
    (h : overlay.lookup q = some v) (hv : v.isTable = false) :
    (deepMerge base overlay).lookup path = none := by
  obtain ⟨r, rfl⟩ := hq
  obtain ⟨k, r, rfl⟩ := List.exists_cons_of_ne_nil (l := r) (by rintro rfl; simp at hne)
  rw [lookup_append, lookup_deepMerge_leaf hwf h hv, Option.bind_some, lookup_of_not_isTable hv]

/-! ## The keys of a merged table -/

theorem isSome_mergeAt (base overlay : Option Value) :
    (mergeAt base overlay).isSome = (overlay.isSome || base.isSome) := by
  cases base <;> cases overlay <;> rfl

theorem mem_keys_deepMerge {base overlay : Value} (hwf : overlay.wellFormed = true)
    {path : List String} {m : Table} (h : (deepMerge base overlay).lookup path = some (.table m))
    (k : String) :
    k ∈ m.map Prod.fst ↔
      (overlay.lookup (path ++ [k])).isSome ∨ (base.lookup (path ++ [k])).isSome := by
  have hk : (deepMerge base overlay).lookup (path ++ [k]) = AssocMap.get k m := by
    rw [lookup_key, h, Option.bind_some, lookup_table_key]
  have hfree : overlay.Unblocked (path ++ [k]) := by
    refine (unblocked_iff _ _).mpr fun q hq hne x hx => ?_
    by_contra hxt
    replace hxt : x.isTable = false := by simpa using hxt
    have hq' : q <+: path := by
      rcases List.prefix_concat_iff.mp hq with heq | hq
      · exact absurd heq hne
      · exact hq
    by_cases heq : q = path
    · subst heq
      rw [lookup_deepMerge_leaf hwf hx hxt] at h
      obtain rfl : x = .table m := by simpa using h
      cases hxt
    · rw [lookup_deepMerge_below hwf hq' heq hx hxt] at h
      cases h
  rw [← AssocMap.isSome_get, ← hk, lookup_deepMerge hwf hfree, isSome_mergeAt, Bool.or_eq_true]

/-! ## Merging twice -/

theorem deepMerge_again {base overlay : Value} (hb : base.wellFormed = true)
    (ho : overlay.wellFormed = true) :
    deepMerge (deepMerge base overlay) overlay = deepMerge base overlay := by
  induction overlay using induction_tables generalizing base with
  | hleaf v hv => rw [deepMerge_of_not_isTable_right hv, deepMerge_of_not_isTable_right hv]
  | htable ot ih =>
    cases hbt : base.isTable with
    | false => rw [deepMerge_of_not_isTable_left hbt, deepMerge_self ho]
    | true =>
      obtain ⟨bt, rfl⟩ := eq_table_of_isTable hbt
      obtain ⟨hbo, hbe⟩ := wellFormed_table.mp hb
      obtain ⟨hoo, hoe⟩ := wellFormed_table.mp ho
      have hord := ordered_mergeEntries hbo ot
      rw [deepMerge_table, deepMerge_table]
      refine congrArg _ ((ordered_mergeEntries hord ot).ext hord fun k => ?_)
      simp only [get_mergeEntries _ hoo]
      cases hgo : AssocMap.get k ot with
      | none => simp
      | some o =>
        have hmem := AssocMap.mem_of_get hgo
        cases hgb : AssocMap.get k bt with
        | none => simp [mergeAt, deepMerge_self (hoe _ hmem)]
        | some b => simp [mergeAt, ih _ hmem (hbe _ (AssocMap.mem_of_get hgb)) (hoe _ hmem)]

/-- **Merging is precedence, path by path.** At each path the merged tree holds the overlay's
    value if that is no table; the merge of the two tables if both sides have one there; the
    overlay's table if only it has one; nothing if the overlay has a plain value above; and
    what the base holds otherwise. A merged table has exactly the keys that a side has there,
    and merging the overlay again changes nothing. -/
theorem deepMerge_by_path (base overlay : Document) :
    (∀ path,
      (∀ v, overlay.value.lookup path = some v → v.isTable = false →
        (deepMerge base.value overlay.value).lookup path = some v) ∧
      (∀ b o, base.value.lookup path = some (.table b) →
        overlay.value.lookup path = some (.table o) →
        (deepMerge base.value overlay.value).lookup path
          = some (deepMerge (.table b) (.table o))) ∧
      (∀ o, overlay.value.lookup path = some (.table o) →
        (∀ b, base.value.lookup path = some b → b.isTable = false) →
        (deepMerge base.value overlay.value).lookup path = some (.table o)) ∧
      (∀ q v, q <+: path → q ≠ path → overlay.value.lookup q = some v → v.isTable = false →
        (deepMerge base.value overlay.value).lookup path = none) ∧
      (overlay.value.lookup path = none →
        (∀ q v, q <+: path → q ≠ path → overlay.value.lookup q = some v → v.isTable = true) →
        (deepMerge base.value overlay.value).lookup path = base.value.lookup path)) ∧
    (∀ path m, (deepMerge base.value overlay.value).lookup path = some (.table m) →
      ∀ k, k ∈ m.map Prod.fst ↔
        (overlay.value.lookup (path ++ [k])).isSome ∨
          (base.value.lookup (path ++ [k])).isSome) ∧
    deepMerge (deepMerge base.value overlay.value) overlay.value
      = deepMerge base.value overlay.value := by
  have hwf : overlay.value.wellFormed = true := overlay.ordered
  refine ⟨fun path => ⟨fun v h hv => lookup_deepMerge_leaf hwf h hv, ?_, ?_, ?_, ?_⟩, ?_,
    deepMerge_again base.ordered hwf⟩
  · intro b o hb ho
    rw [lookup_deepMerge hwf (unblocked_of_lookup ho), hb, ho]
    rfl
  · intro o ho hb
    rw [lookup_deepMerge hwf (unblocked_of_lookup ho), ho]
    cases hbase : base.value.lookup path with
    | none => rfl
    | some b => rw [mergeAt, deepMerge_of_not_isTable_left (hb b hbase)]
  · intro q v hq hne h hv
    exact lookup_deepMerge_below hwf hq hne h hv
  · intro ho habove
    have hfree : overlay.value.Unblocked path :=
      (unblocked_iff _ _).mpr fun q hq hne x hx => habove q x hq hne hx
    rw [lookup_deepMerge hwf hfree, ho, mergeAt_none]
  · intro path m h k
    exact mem_keys_deepMerge hwf h k

end Forgeclaw.Core.Config
