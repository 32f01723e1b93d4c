/-
  Do the environment's overrides win?

  * `lookup_setNested_iff`: setting a value takes effect exactly where nothing is in the way;
  * `setNested_of_incomparable`: and is not felt at any other path;
  * `override_wins_iff`: in the tree handed to deserialization an override's path holds the
    variable's value iff no proper prefix of the path is a non-table in the file that decides.
-/
import Forgeclaw.Core.Config.Loading

namespace Forgeclaw.Core.Config

open Value

/-- Neither path is the other or leads to it. -/
def Incomparable (p q : List String) : Prop := ¬ p <+: q ∧ ¬ q <+: p

instance (p q : List String) : Decidable (Incomparable p q) :=
  inferInstanceAs (Decidable (_ ∧ _))

theorem Incomparable.symm {p q : List String} (h : Incomparable p q) : Incomparable q p :=
  ⟨h.2, h.1⟩

theorem incomparable_cons {k : String} {p q : List String} :
    Incomparable (k :: p) (k :: q) ↔ Incomparable p q := by
  simp [Incomparable, List.cons_prefix_cons]

theorem Incomparable.ne_nil {p q : List String} (h : Incomparable p q) : q ≠ [] := by
  rintro rfl
  exact h.2 (by simp)

/-! ## `set_nested` -/

theorem setNested_of_not_isTable {root : Value} (h : root.isTable = false)
    (path : List String) (value : Value) : setNested root path value = root := by
  cases root with
  | table t => simp [isTable] at h
  | _ =>
    cases path with
    | nil => rfl
    | cons k rest => cases rest <;> rfl

/-- The entry a step of `setNested` leaves behind. -/
def setChild (t : Table) (k : String) (rest : List String) (value : Value) : Value :=
  if rest = [] then value
  else setNested ((AssocMap.get k t).getD (.table [])) rest value

theorem setNested_table_cons (t : Table) (k : String) (rest : List String) (value : Value) :
    setNested (.table t) (k :: rest) value
      = .table (AssocMap.insert k (setChild t k rest value) t) := by
  cases rest with
  | nil => rfl
  | cons k' rest => simp [setNested, setChild]

theorem lookup_setNested_cons (t : Table) (k : String) (rest : List String) (value : Value) :
    (setNested (.table t) (k :: rest) value).lookup (k :: rest)
      = (setChild t k rest value).lookup rest := by
  rw [setNested_table_cons, lookup_table_cons, AssocMap.get_insert_self]
  rfl

theorem lookup_setNested_cons_of_get {t : Table} {k : String} {c : Value}
    (h : AssocMap.get k t = some c) {p : List String} (hp : p ≠ []) (value : Value)
    (q : List String) :
    (setNested (.table t) (k :: p) value).lookup (k :: q) = (setNested c p value).lookup q := by
  rw [setNested_table_cons, lookup_table_cons, AssocMap.get_insert_self, setChild, if_neg hp, h]
  rfl

/-- **Setting takes effect iff nothing is in the way.** -/
theorem lookup_setNested_iff {path : List String} (hpath : path ≠ []) (root value : Value) :
    (setNested root path value).lookup path = some value ↔ root.Unblocked path := by
  induction path generalizing root with
  | nil => exact absurd rfl hpath
  | cons k rest ih =>
    cases hr : root.isTable with
    | false =>
      rw [setNested_of_not_isTable hr, lookup_of_not_isTable hr]
      exact iff_of_false (by simp) (not_unblocked_of_not_isTable hr k rest)
    | true =>
      obtain ⟨t, rfl⟩ := eq_table_of_isTable hr
      rw [lookup_setNested_cons, unblocked_table_cons, setChild]
      by_cases hrest : rest = []
      · subst hrest
        simp
      · rw [if_neg hrest, ih hrest]
        cases AssocMap.get k t with
        | none => simp [unblocked_empty]
        | some c => simp

/-- Setting one path changes nothing on the way to another. -/
theorem setNested_of_incomparable {p q : List String} (h : Incomparable p q)
    (root value : Value) :
    (setNested root p value).lookup q = root.lookup q ∧
      ((setNested root p value).Unblocked q ↔ root.Unblocked q) := by
  induction p generalizing q root with
  | nil => exact absurd rfl h.symm.ne_nil
  | cons k rest ih =>
    cases hr : root.isTable with
    | false =>
      rw [setNested_of_not_isTable hr]
      exact ⟨rfl, Iff.rfl⟩
    | true =>
      obtain ⟨t, rfl⟩ := eq_table_of_isTable hr
      obtain ⟨k', rest', rfl⟩ := List.exists_cons_of_ne_nil h.ne_nil
      rw [setNested_table_cons, lookup_table_cons, lookup_table_cons, unblocked_table_cons,
        unblocked_table_cons, AssocMap.get_insert]
      by_cases heq : k' = k
      · subst heq
        have hrest := incomparable_cons.mp h
        obtain ⟨hlookup, hunblocked⟩ := ih hrest ((AssocMap.get k' t).getD (.table []))
        rw [if_pos rfl, setChild, if_neg hrest.symm.ne_nil, Option.bind_some, hlookup]
        obtain ⟨k'', rest'', rfl⟩ := List.exists_cons_of_ne_nil hrest.ne_nil
        cases hget : AssocMap.get k' t with
        | none => exact ⟨rfl, by simpa [hget, unblocked_empty] using hunblocked⟩
        | some c => exact ⟨by simp, by simpa [hget] using hunblocked⟩
      · rw [if_neg heq]
        exact ⟨rfl, Iff.rfl⟩

/-! ## The loop over the environment -/

/-- Set one override after the other. -/
def setAll (root : Value) (sets : List (List String × Value)) : Value :=
  sets.foldl (fun t s => setNested t s.1 s.2) root

theorem setAll_cons (root : Value) (s : List String × Value) (sets : List (List String × Value)) :
    setAll root (s :: sets) = setAll (setNested root s.1 s.2) sets := rfl

theorem setAll_append (root : Value) (sets sets' : List (List String × Value)) :
    setAll root (sets ++ sets') = setAll (setAll root sets) sets' :=
  List.foldl_append

theorem lookup_setAll_of_incomparable {sets : List (List String × Value)} {q : List String}
    (h : ∀ s ∈ sets, Incomparable s.1 q) (root : Value) :
    (setAll root sets).lookup q = root.lookup q := by
  induction sets generalizing root with
  | nil => rfl
  | cons s sets ih =>
    rw [setAll_cons, ih (fun s' hs' => h s' (by simp [hs']))]
    exact (setNested_of_incomparable (h s (by simp)) root s.2).1

theorem lookup_setAll_iff {sets : List (List String × Value)}
    (hinc : sets.Pairwise fun a b => Incomparable a.1 b.1) {path : List String} {value : Value}
    (hmem : (path, value) ∈ sets) (hpath : path ≠ []) (root : Value) :
    (setAll root sets).lookup path = some value ↔ root.Unblocked path := by
  induction sets generalizing root with
  | nil => simp at hmem
  | cons s sets ih =>
    obtain ⟨hhead, htail⟩ := List.pairwise_cons.mp hinc
    rw [setAll_cons]
    rcases List.mem_cons.mp hmem with rfl | hmem
    · rw [lookup_setAll_of_incomparable fun s' hs' => (hhead s' hs').symm]
      exact lookup_setNested_iff hpath root value
    · rw [ih htail hmem]
      exact (setNested_of_incomparable (hhead _ hmem) root s.2).2

theorem splitSeparator_ne_nil (piece s : List Char) : splitSeparator piece s ≠ [] := by
  fun_induction splitSeparator piece s <;> simp_all

section Env

variable (toLowercase : String → String) (fromStr : String → Option Value)

theorem normalizeEnvPath_ne_nil {parts : List String} (h : parts ≠ []) :
    normalizeEnvPath toLowercase parts ≠ [] := by
  simpa [normalizeEnvPath] using h

variable {toLowercase} in
theorem overridePath_ne_nil {key : String} {path : List String}
    (h : overridePath toLowercase key = some path) : path ≠ [] := by
  unfold overridePath at h
  split at h
  · split at h
    · cases h
      exact normalizeEnvPath_ne_nil toLowercase (splitSeparator_ne_nil _ _)
    · cases h
  · cases h

theorem applyEnvOverrides_cons (base : Value) (kv : String × String)
    (envVars : List (String × String)) :
    applyEnvOverrides toLowercase fromStr base (kv :: envVars)
      = applyEnvOverrides toLowercase fromStr
          (match overridePath toLowercase kv.1 with
            | some parts => setNested base parts (parseEnvValue fromStr kv.2)
            | none => base) envVars := rfl

theorem applyEnvOverrides_eq (base : Value) (envVars : List (String × String)) :
    applyEnvOverrides toLowercase fromStr base envVars
      = setAll base (overrides toLowercase fromStr envVars) := by
  induction envVars generalizing base with
  | nil => rfl
  | cons kv envVars ih =>
    rw [applyEnvOverrides_cons, ih, overrides, overrides, List.filterMap_cons]
    cases overridePath toLowercase kv.1 with
    | none => rfl
    | some parts => rfl

/-- The paths of the overriding variables, in order. -/
def overridePaths (envVars : List (String × String)) : List (List String) :=
  envVars.filterMap fun kv => overridePath toLowercase kv.1

theorem overrides_map_fst (envVars : List (String × String)) :
    (overrides toLowercase fromStr envVars).map Prod.fst = overridePaths toLowercase envVars := by
  simp [overrides, overridePaths, List.map_filterMap, Option.map_map, Function.comp_def]

/-! ## The two files -/

/-- What a config file holds at a path; an absent file holds nothing. -/
def fileValue (file : Option Document) (path : List String) : Option Value :=
  file.bind (·.value.lookup path)

theorem unblocked_mergeFiles_iff (userToml projectToml : Option Document) (path : List String) :
    (mergeFiles userToml projectToml).Unblocked path ↔
      ∀ q, q <+: path → q ≠ path →
        ∀ x, (fileValue projectToml q).or (fileValue userToml q) = some x → x.isTable = true := by
  cases userToml with
  | none =>
    cases projectToml with
    | none => simp [mergeFiles, unblocked_empty, fileValue]
    | some d => simp [mergeFiles, deepMerge_empty, unblocked_iff, fileValue]
  | some u =>
    cases projectToml with
    | none => simp [mergeFiles, deepMerge_empty, unblocked_iff, fileValue]
    | some d =>
      simp only [mergeFiles, deepMerge_empty]
      exact unblocked_deepMerge_iff d.ordered path

/-- **When an override wins.** Among overrides with incomparable paths, the path of a variable
    holds exactly the variable's value iff at each proper prefix of the path the project's
    file, or the user's where the project's has nothing, holds a table or nothing. -/
theorem override_wins_iff (userToml projectToml : Option Document)
    {envVars : List (String × String)}
    (hinc : (overridePaths toLowercase envVars).Pairwise Incomparable)
    {key raw : String} (hmem : (key, raw) ∈ envVars) {path : List String}
    (hpath : overridePath toLowercase key = some path) :
    (layeredTree toLowercase fromStr userToml projectToml envVars).lookup path
        = some (parseEnvValue fromStr raw) ↔
      ∀ q, q <+: path → q ≠ path →
        ∀ x, (fileValue projectToml q).or (fileValue userToml q) = some x → x.isTable = true := by
  rw [layeredTree, applyEnvOverrides_eq, ← unblocked_mergeFiles_iff]
  refine lookup_setAll_iff ?_ ?_ (overridePath_ne_nil hpath) _
  · rw [← overrides_map_fst toLowercase fromStr] at hinc
    exact List.pairwise_map.mp hinc
  · exact List.mem_filterMap.mpr ⟨(key, raw), hmem, by simp [hpath]⟩

end Env

/-- A project file with one channel setting, a plain value. -/
def retryOff : Document where
  entries := [("channels", .table [("web", .table [("settings",
    .table [("retry", .string "off")])])])]
  ordered := by decide

/-- Lowercasing on ASCII text. -/
def lower (s : String) : String := String.ofList (s.toList.map Char.toLower)

/-- The parser, on the one document the runs below need. -/
def parsed (s : String) : Option Value :=
  if s = "v = 3" then some (.table [("v", .integer 3)]) else none

theorem override_wins_iff_fresh :
    (layeredTree lower parsed none (some retryOff)
        [("FORGECLAW_CHANNELS__web__SETTINGS__ATTEMPTS", "3")]).lookup
        ["channels", "web", "settings", "attempts"]
      = some (parseEnvValue parsed "3") := by
  have hfree : (mergeFiles none (some retryOff)).Unblocked
      ["channels", "web", "settings", "attempts"] := by
    simp only [mergeFiles, deepMerge_empty]
    simp [Document.value, retryOff, unblocked_table_cons, AssocMap.get]
  exact (override_wins_iff lower parsed none (some retryOff) (by decide)
    (List.mem_singleton.mpr rfl) (by decide)).mpr
    ((unblocked_mergeFiles_iff none (some retryOff) _).mp hfree)

/-- The override of a key below a setting that is a plain value is lost. -/
theorem override_below_plain_lost :
    overridePath lower "FORGECLAW_CHANNELS__web__SETTINGS__RETRY__MAX"
        = some ["channels", "web", "settings", "retry", "max"] ∧
      (layeredTree lower parsed none (some retryOff)
          [("FORGECLAW_CHANNELS__web__SETTINGS__RETRY__MAX", "3")]).lookup
          ["channels", "web", "settings", "retry", "max"]
        ≠ some (parseEnvValue parsed "3") := by
  have hpath : overridePath lower "FORGECLAW_CHANNELS__web__SETTINGS__RETRY__MAX"
      = some ["channels", "web", "settings", "retry", "max"] := by decide
  refine ⟨hpath, fun h => ?_⟩
  have hnone : (layeredTree lower parsed none (some retryOff)
      [("FORGECLAW_CHANNELS__web__SETTINGS__RETRY__MAX", "3")]).lookup
      ["channels", "web", "settings", "retry", "max"] = none := rfl
  rw [hnone] at h
  cases h

end Forgeclaw.Core.Config
