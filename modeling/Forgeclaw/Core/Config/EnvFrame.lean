/-
  What the environment's overrides leave alone.

  * `lookup_setNested_append`: setting below a value is setting inside it;
  * `overrides_filter`: only the overriding variables count;
  * `overrides_touch_nothing_else`: a path that no override's path leads to or starts from
    keeps its value, a table that is not replaced keeps its other keys, and variables that
    override nothing have no effect.
-/
import Forgeclaw.Core.Config.Overrides

namespace Forgeclaw.Core.Config

open Value

/-! ## Setting below a table -/

@[simp] theorem isTable_setNested (root : Value) (path : List String) (value : Value) :
    (setNested root path value).isTable = root.isTable := by
  cases hr : root.isTable with
  | false => rw [setNested_of_not_isTable hr, hr]
  | true =>
    obtain ⟨t, rfl⟩ := eq_table_of_isTable hr
    cases path with
    | nil => rfl
    | cons k rest =>
      rw [setNested_table_cons]
      rfl

theorem lookup_setNested_append {root x : Value} {q : List String} (h : root.lookup q = some x)
    {rest : List String} (hrest : rest ≠ []) (value : Value) :
    (setNested root (q ++ rest) value).lookup q = some (setNested x rest value) := by
  induction q generalizing root with
  | nil =>
    obtain rfl : root = x := by simpa using h
    simp
  | cons k q ih =>
    obtain ⟨t, rfl⟩ := eq_table_of_isTable (isTable_of_lookup h)
    rw [lookup_table_cons] at h
    obtain ⟨c, hc, hx⟩ := Option.bind_eq_some_iff.mp h
    rw [List.cons_append, lookup_setNested_cons_of_get hc (by simp [hrest]), ih hx]

theorem exists_table_setNested {root : Value} {q : List String} {t : Table}
    (h : root.lookup q = some (.table t)) {p : List String} (hp : ¬ p <+: q) (value : Value) :
    ∃ t', (setNested root p value).lookup q = some (.table t') := by
  by_cases hq : q <+: p
  · obtain ⟨rest, rfl⟩ := hq
    have hrest : rest ≠ [] := by
      rintro rfl
      simp at hp
    obtain ⟨t', ht'⟩ := eq_table_of_isTable (isTable_setNested (.table t) rest value)
    exact ⟨t', by rw [lookup_setNested_append h hrest, ht']⟩
  · exact ⟨t, by rw [(setNested_of_incomparable ⟨hp, hq⟩ root value).1, h]⟩

theorem exists_table_setAll {root : Value} {q : List String} {t : Table}
    (h : root.lookup q = some (.table t)) {sets : List (List String × Value)}
    (hsets : ∀ s ∈ sets, ¬ s.1 <+: q) : ∃ t', (setAll root sets).lookup q = some (.table t') := by
  induction sets generalizing root t with
  | nil => exact ⟨t, h⟩
  | cons s sets ih =>
    obtain ⟨t', h'⟩ := exists_table_setNested h (hsets s (by simp)) s.2
    rw [setAll_cons]
    exact ih h' fun s' hs' => hsets s' (by simp [hs'])

/-! ## The variables that override nothing -/

/-- The variable has the prefix and a section separator behind it. -/
def isOverride (key : String) : Bool :=
  (stripPrefix "FORGECLAW_".toList key.toList).any fun suffix => "__".toList <:+: suffix

section Env

variable (toLowercase : String → String) (fromStr : String → Option Value)

theorem isSome_overridePath (key : String) :
    (overridePath toLowercase key).isSome = isOverride key := by
  unfold overridePath isOverride
  cases stripPrefix "FORGECLAW_".toList key.toList with
  | none => rfl
  | some suffix =>
    simp only [Option.any_some]
    by_cases h : "__".toList <:+: suffix
    · rw [if_pos h, decide_eq_true h, Option.isSome_some]
    · rw [if_neg h, decide_eq_false h, Option.isSome_none]

theorem overrides_filter (envVars : List (String × String)) :
    overrides toLowercase fromStr (envVars.filter fun kv => isOverride kv.1)
      = overrides toLowercase fromStr envVars := by
  rw [overrides, overrides, List.filterMap_filter]
  refine List.filterMap_congr fun kv _ => ?_
  rw [← isSome_overridePath toLowercase]
  cases overridePath toLowercase kv.1 <;> rfl

theorem mem_overridePaths_of_mem {envVars : List (String × String)} {s : List String × Value}
    (h : s ∈ overrides toLowercase fromStr envVars) : s.1 ∈ overridePaths toLowercase envVars := by
  rw [← overrides_map_fst toLowercase fromStr]
  exact List.mem_map_of_mem h

theorem lookup_overrides {envVars : List (String × String)} {q : List String}
    (hq : ∀ p ∈ overridePaths toLowercase envVars, Incomparable p q) (base : Value) :
    (applyEnvOverrides toLowercase fromStr base envVars).lookup q = base.lookup q := by
  rw [applyEnvOverrides_eq]
  exact lookup_setAll_of_incomparable
    (fun s hs => hq s.1 (mem_overridePaths_of_mem toLowercase fromStr hs)) base

/-- **Overrides touch nothing else.** A path incomparable with the path of every overriding
    variable keeps its value or absence; a table with no override at it or above it stays a
    table and keeps each key that is not on the way to an override; and two environments with
    the same overriding variables in the same order give the same tree, whatever else they
    hold. -/
theorem overrides_touch_nothing_else (base : Value) (envVars : List (String × String)) :
    (∀ q, (∀ p ∈ overridePaths toLowercase envVars, Incomparable p q) →
      (applyEnvOverrides toLowercase fromStr base envVars).lookup q = base.lookup q) ∧
    (∀ q t, base.lookup q = some (.table t) →
      (∀ p ∈ overridePaths toLowercase envVars, ¬ p <+: q) →
      ∃ t', (applyEnvOverrides toLowercase fromStr base envVars).lookup q = some (.table t') ∧
        ∀ k, (∀ p ∈ overridePaths toLowercase envVars, ¬ q ++ [k] <+: p) →
          AssocMap.get k t' = AssocMap.get k t) ∧
    ∀ envVars', (envVars'.filter fun kv => isOverride kv.1)
        = (envVars.filter fun kv => isOverride kv.1) →
      applyEnvOverrides toLowercase fromStr base envVars'
        = applyEnvOverrides toLowercase fromStr base envVars := by
  refine ⟨fun q hq => lookup_overrides toLowercase fromStr hq base, ?_, ?_⟩
  · intro q t ht hq
    have hsets : ∀ s ∈ overrides toLowercase fromStr envVars, ¬ s.1 <+: q := fun s hs =>
      hq s.1 (mem_overridePaths_of_mem toLowercase fromStr hs)
    obtain ⟨t', ht'⟩ := exists_table_setAll ht hsets
    rw [← applyEnvOverrides_eq] at ht'
    refine ⟨t', ht', fun k hk => ?_⟩
    have hinc : ∀ p ∈ overridePaths toLowercase envVars, Incomparable p (q ++ [k]) := by
      intro p hp
      refine ⟨fun hpk => ?_, hk p hp⟩
      rcases List.prefix_concat_iff.mp hpk with rfl | hpq
      · exact hk _ hp (List.prefix_refl _)
      · exact hq p hp hpq
    have hkey := lookup_overrides toLowercase fromStr hinc base
    rw [lookup_key, lookup_key, ht', ht, Option.bind_some, Option.bind_some, lookup_table_key,
      lookup_table_key] at hkey
    exact hkey
  · intro envVars' h
    rw [applyEnvOverrides_eq, applyEnvOverrides_eq, ← overrides_filter _ _ envVars', h,
      overrides_filter]

end Env

end Forgeclaw.Core.Config
