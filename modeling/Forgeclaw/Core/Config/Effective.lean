/-
  From the two files and the environment to the configuration: what `load_layered` makes of each
  setting.

  * `load_written`: what is written is loaded again, by both loaders;
  * `nothing_unnoticed`: where `load_layered` succeeds, every key of the two files and every
    override is one of the schema, or goes on below one of its settings;
  * `effective_setting`: a setting of the loaded configuration is the override's, else the
    project's, else the user's, else the default.
-/
import Forgeclaw.Core.Config.Accepted
import Forgeclaw.Core.Config.EnvOrder
import Forgeclaw.Core.Config.Loaders
import Forgeclaw.Core.Config.Precedence

namespace Forgeclaw.Core.Config

open Value

/-! ## Overrides -/

/-- What is there stays there, as long as nothing is put over it. -/
theorem isSome_lookup_setAll {root : Value} {q : List String}
    {sets : List (List String × Value)} (hsets : ∀ s ∈ sets, ¬ s.1 <+: q)
    (h : (root.lookup q).isSome = true) : ((setAll root sets).lookup q).isSome = true := by
  induction sets generalizing root with
  | nil => exact h
  | cons s sets ih =>
    rw [setAll_cons]
    refine ih (fun s' hs' => hsets s' (by simp [hs'])) ?_
    have hs := hsets s (by simp)
    by_cases hq : q <+: s.1
    · obtain ⟨rest, hrest⟩ := hq
      have hne : rest ≠ [] := by
        rintro rfl
        simp [← hrest] at hs
      obtain ⟨x, hx⟩ := Option.isSome_iff_exists.mp h
      rw [← hrest, lookup_setNested_append hx hne]
      rfl
    · rw [(setNested_of_incomparable ⟨hs, hq⟩ root s.2).1]
      exact h

/-- What is no table stays as it is, as long as nothing is put over it. -/
theorem lookup_setAll_of_plain {root x : Value} {q : List String}
    {sets : List (List String × Value)} (hsets : ∀ s ∈ sets, ¬ s.1 <+: q)
    (hx : root.lookup q = some x) (hplain : x.isTable = false) :
    (setAll root sets).lookup q = some x := by
  induction sets generalizing root with
  | nil => exact hx
  | cons s sets ih =>
    rw [setAll_cons]
    refine ih (fun s' hs' => hsets s' (by simp [hs'])) ?_
    have hs := hsets s (by simp)
    by_cases hq : q <+: s.1
    · obtain ⟨rest, hrest⟩ := hq
      have hne : rest ≠ [] := by
        rintro rfl
        simp [← hrest] at hs
      rw [← hrest, lookup_setNested_append hx hne, setNested_of_not_isTable hplain]
    · rw [(setNested_of_incomparable ⟨hs, hq⟩ root s.2).1]
      exact hx

/-- Something that is no table is in the way. -/
theorem exists_plain_of_not_unblocked {v : Value} {path : List String} (h : ¬ v.Unblocked path) :
    ∃ q rest x, path = q ++ rest ∧ rest ≠ [] ∧ v.lookup q = some x ∧ x.isTable = false := by
  rw [unblocked_iff] at h
  push Not at h
  obtain ⟨q, ⟨rest, rfl⟩, hne, x, hx, hplain⟩ := h
  refine ⟨q, rest, x, rfl, ?_, hx, by simpa using hplain⟩
  rintro rfl
  simp at hne

/-- Of incomparable paths, none is on the way to another one. -/
theorem eq_of_isPrefix {paths : List (List String)} (hinc : paths.Pairwise Incomparable)
    {p q : List String} (hp : p ∈ paths) (hq : q ∈ paths) (h : p <+: q) : p = q := by
  by_contra hne
  have : Std.Symm Incomparable := ⟨fun _ _ h => h.symm⟩
  exact (hinc.forall hp hq hne).1 h

/-! ## The two files -/

/-- The user's file as a tree. -/
def userTree (user : Option Document) : Value := (user.map Document.value).getD (.table [])

theorem mergeFiles_eq (user project : Option Document) :
    mergeFiles user project
      = match project with
        | some d => deepMerge (userTree user) d.value
        | none => userTree user := by
  cases user with
  | none => cases project <;> rfl
  | some u =>
    cases project with
    | none => exact deepMerge_empty u
    | some d => exact congrArg (deepMerge · d.value) (deepMerge_empty u)

theorem lookup_userTree (user : Option Document) {path : List String} (hpath : path ≠ []) :
    (userTree user).lookup path = fileValue user path := by
  cases user with
  | none =>
    obtain ⟨k, rest, rfl⟩ := List.exists_cons_of_ne_nil hpath
    rfl
  | some u => rfl

theorem wellFormed_mergeFiles (user project : Option Document) :
    (mergeFiles user project).wellFormed = true := by
  have huser : (userTree user).wellFormed = true := by
    cases user with
    | none => rfl
    | some u => exact u.ordered
  rw [mergeFiles_eq]
  cases project with
  | none => exact huser
  | some d => exact wellFormed_deepMerge huser d.ordered

/-- The project's file has nothing but tables on the way. -/
def ProjectFree (project : Option Document) (path : List String) : Prop :=
  ∀ q x, q <+: path → q ≠ path → fileValue project q = some x → x.isTable = true

/-- At a place that the project's file leaves free, the merged files hold what the two hold. -/
theorem lookup_mergeFiles (user : Option Document) {project : Option Document}
    {path : List String} (hpath : path ≠ []) (h : ProjectFree project path) :
    (mergeFiles user project).lookup path
      = mergeAt (fileValue user path) (fileValue project path) := by
  rw [mergeFiles_eq]
  cases project with
  | none => exact (lookup_userTree user hpath).trans (mergeAt_none _).symm
  | some d =>
    have hfree : d.value.Unblocked path :=
      (unblocked_iff _ _).mpr fun q hq hne x hx => h q x hq hne hx
    exact (lookup_deepMerge d.ordered hfree).trans
      (congrArg (mergeAt · _) (lookup_userTree user hpath))

/-- What the project's file has in the way is in the way. -/
theorem exists_plain_of_not_free (user : Option Document) {project : Option Document}
    {path : List String} (h : ¬ ProjectFree project path) :
    ∃ q rest x, path = q ++ rest ∧ rest ≠ [] ∧
      (mergeFiles user project).lookup q = some x ∧ x.isTable = false := by
  unfold ProjectFree at h
  push Not at h
  obtain ⟨q, x, ⟨rest, rfl⟩, hne, hx, hplain⟩ := h
  replace hplain : x.isTable = false := by simpa using hplain
  refine ⟨q, rest, x, rfl, ?_, ?_, hplain⟩
  · rintro rfl
    simp at hne
  · rw [mergeFiles_eq]
    cases project with
    | none => cases hx
    | some d => exact lookup_deepMerge_leaf d.ordered hx hplain

theorem mergeAt_of_or {user project : Option Value} {value : Value}
    (h : project.or user = some value) (hscalar : value.isScalar = true) :
    mergeAt user project = some value := by
  cases project with
  | none => simpa using h
  | some p =>
    obtain rfl : p = value := by simpa using h
    have hplain : p.isTable = false := by cases p <;> first | rfl | cases hscalar
    cases user with
    | none => rfl
    | some u => rw [mergeAt, deepMerge_of_not_isTable_right hplain]

/-- What neither file holds, the merged files do not hold. -/
theorem lookup_mergeFiles_eq_none {user project : Option Document} {path : List String}
    (hpath : path ≠ []) (huser : fileValue user path = none)
    (hproject : fileValue project path = none) :
    (mergeFiles user project).lookup path = none := by
  by_cases hfree : ProjectFree project path
  · rw [lookup_mergeFiles user hpath hfree, huser, hproject]
    rfl
  · obtain ⟨q, rest, x, rfl, hrest, hx, hplain⟩ := exists_plain_of_not_free user hfree
    obtain ⟨key, rest, rfl⟩ := List.exists_cons_of_ne_nil hrest
    rw [lookup_append, hx, Option.bind_some, lookup_of_not_isTable hplain]

theorem projectFree_of_isSome {project : Option Document} {path : List String}
    (h : (fileValue project path).isSome = true) : ProjectFree project path := by
  intro q x hq hne hx
  cases project with
  | none => cases hx
  | some d =>
    obtain ⟨y, hy⟩ := Option.isSome_iff_exists.mp h
    exact (unblocked_iff _ _).mp (unblocked_of_lookup hy) q hq hne x hx

/-! ## Loading -/

section Load

variable {toLowercase : String → String} {fromStr : String → Except String Document}
  {tryInto : Value → Except String ForgeclawConfig} {fs : FileSystem}
  {projectPath : Option OsString} {env : List (OsString × OsString)}
  {envVars : List (String × String)} {c : ForgeclawConfig}

/-- What a layer reads: nothing where there is no file. -/
def layerOf (fromStr : String → Except String Document) (fs : FileSystem) (path : OsString) :
    Except ConfigError (Option Document) :=
  if fs.pathExists path then (readToml fromStr fs path).map some else .ok none

/-- `toml::from_str` as `parse_env_value` uses it. -/
def probe (fromStr : String → Except String Document) (s : String) : Option Value :=
  (fromStr s).toOption.map Document.value

theorem mergeLayer_eq_ok {path : OsString} {merged merged' : Value}
    (h : mergeLayer fromStr fs path merged = .ok merged') :
    ∃ layer, layerOf fromStr fs path = .ok layer ∧
      merged' = match layer with
        | some d => deepMerge merged d.value
        | none => merged := by
  unfold mergeLayer at h
  unfold layerOf
  split at h
  · rename_i hexists
    obtain ⟨d, hd, hmerge⟩ := Record.bind_eq_ok.mp h
    exact ⟨some d, by rw [if_pos hexists, hd]; rfl, (Except.ok.inj hmerge).symm⟩
  · rename_i hexists
    exact ⟨none, by rw [if_neg hexists], (Except.ok.inj h).symm⟩

/-- The user's file, if there is a home directory. -/
def userDocument (fromStr : String → Except String Document) (fs : FileSystem)
    (env : List (OsString × OsString)) : Except ConfigError (Option Document) :=
  match homeConfigPath env with
  | some home => layerOf fromStr fs home
  | none => .ok none

def projectDocument (fromStr : String → Except String Document) (fs : FileSystem)
    (projectPath : Option OsString) : Except ConfigError (Option Document) :=
  layerOf fromStr fs (projectPath.getD defaultProjectConfig)

theorem userLayer_eq_ok {merged : Value}
    (h : userLayer fromStr fs env (.table []) = .ok merged) :
    ∃ user, userDocument fromStr fs env = .ok user ∧ merged = userTree user := by
  unfold userLayer at h
  unfold userDocument
  cases hhome : homeConfigPath env with
  | none =>
    rw [hhome] at h
    exact ⟨none, rfl, (Except.ok.inj h).symm⟩
  | some home =>
    rw [hhome] at h
    obtain ⟨user, huser, rfl⟩ := mergeLayer_eq_ok h
    refine ⟨user, huser, ?_⟩
    cases user with
    | none => rfl
    | some d => exact deepMerge_empty d

theorem fileLayers_eq_ok {merged : Value}
    (h : fileLayers fromStr fs projectPath env = .ok merged) :
    ∃ user project, userDocument fromStr fs env = .ok user ∧
      projectDocument fromStr fs projectPath = .ok project ∧
      merged = mergeFiles user project := by
  obtain ⟨merged, hmerged, h⟩ := Record.bind_eq_ok.mp h
  obtain ⟨user, huser, rfl⟩ := userLayer_eq_ok hmerged
  obtain ⟨project, hproject, rfl⟩ := mergeLayer_eq_ok h
  exact ⟨user, project, huser, hproject, (mergeFiles_eq user project).symm⟩

/-- What a success of `load_layered` goes through. -/
theorem loadLayered_eq_ok (hvars : vars env = some envVars)
    (h : loadLayered toLowercase fromStr tryInto fs projectPath env = some (.ok c)) :
    ∃ user project, userDocument fromStr fs env = .ok user ∧
      projectDocument fromStr fs projectPath = .ok project ∧
      tryInto (layeredTree toLowercase (probe fromStr) user project envVars) = .ok c ∧
      c.validate = .ok () := by
  unfold loadLayered at h
  cases hlayers : fileLayers fromStr fs projectPath env with
  | error e =>
    rw [hlayers] at h
    cases h
  | ok merged =>
    obtain ⟨user, project, huser, hproject, rfl⟩ := fileLayers_eq_ok hlayers
    rw [hlayers, hvars] at h
    obtain ⟨c', hc', h⟩ := Record.bind_eq_ok.mp (Option.some.inj h)
    obtain ⟨_, hvalid, h⟩ := Record.bind_eq_ok.mp h
    cases h
    exact ⟨user, project, huser, hproject, Record.mapError_eq_ok.mp hc', hvalid⟩

/-! ### The tree that is read -/

theorem wellFormed_layeredTree (user project : Option Document) :
    (layeredTree toLowercase (probe fromStr) user project envVars).wellFormed = true := by
  have hprobe : ∀ s v, probe fromStr s = some v → v.wellFormed = true := by
    intro s v hv
    obtain ⟨d, -, rfl⟩ := Option.map_eq_some_iff.mp hv
    exact d.ordered
  rw [layeredTree, applyEnvOverrides_eq]
  refine wellFormed_setAll (wellFormed_mergeFiles user project) fun s hs => ?_
  obtain ⟨kv, -, hkv⟩ := List.mem_filterMap.mp hs
  obtain ⟨p, -, rfl⟩ := Option.map_eq_some_iff.mp hkv
  exact wellFormed_parseEnvValue hprobe kv.2

/-- An entry that is in the way of an override stays, with nothing put over it. -/
theorem lookup_layeredTree_of_plain (fromStr : String → Except String Document)
    {user project : Option Document} {q rest : List String} (hrest : rest ≠ [])
    (hcomparable : ∀ p ∈ overridePaths toLowercase envVars, p <+: q ++ rest → p = q ++ rest)
    {x : Value} (hx : (mergeFiles user project).lookup q = some x) (hplain : x.isTable = false) :
    (layeredTree toLowercase (probe fromStr) user project envVars).lookup q = some x := by
  rw [layeredTree, applyEnvOverrides_eq]
  refine lookup_setAll_of_plain (fun s hs hsq => hrest ?_) hx hplain
  have heq := hcomparable s.1 (mem_overridePaths_of_mem toLowercase (probe fromStr) hs)
    (hsq.trans (List.prefix_append q rest))
  rw [heq] at hsq
  simpa using hsq.length_le

end Load

section Effective

variable {ε : Type} {toml : Toml ε} {toLowercase : String → String}
  {fromStr : String → Except String Document} {fs : FileSystem}
  {projectPath : Option OsString} {env : List (OsString × OsString)}
  {envVars : List (String × String)} {c : ForgeclawConfig}

/-! ## Written and loaded again -/

theorem reads_of_tryInto {user project : Option Document}
    (h : tryInto toml (layeredTree toLowercase (probe fromStr) user project envVars) = .ok c) :
    Reads (ForgeclawConfig.codec toml)
      (layeredTree toLowercase (probe fromStr) user project envVars) c :=
  ⟨wellFormed_layeredTree user project, Record.mapError_eq_ok.mp h⟩

/-- What is there and no override is put over is one of the schema's. -/
theorem reaches_of_isSome (htoml : toml.Faithful) {user project : Option Document}
    (h : Reads (ForgeclawConfig.codec toml)
      (layeredTree toLowercase (probe fromStr) user project envVars) c) {path : List String}
    (hpath : ((mergeFiles user project).lookup path).isSome = true)
    (hover : ∀ p ∈ overridePaths toLowercase envVars, ¬ p <+: path) :
    Section.forgeclawConfig.reaches path = true := by
  have hsome : ((layeredTree toLowercase (probe fromStr) user project envVars).lookup
      path).isSome = true := by
    rw [layeredTree, applyEnvOverrides_eq]
    exact isSome_lookup_setAll
      (fun s hs => hover s.1 (mem_overridePaths_of_mem toLowercase (probe fromStr) hs)) hpath
  obtain ⟨x, hx⟩ := Option.isSome_iff_exists.mp hsome
  exact (follows_forgeclawConfig htoml).reaches h hx

/-- A plain value in the place of a struct or a map is the array that a struct is read from. -/
theorem array_of_plain (htoml : toml.Faithful) {v x : Value}
    (h : Reads (ForgeclawConfig.codec toml) v c) {q : List String} (hx : v.lookup q = some x)
    (hplain : x.isTable = false)
    (hat : ∃ sec, Section.forgeclawConfig.at? q = some sec ∧ sec.isInner = true) :
    ∃ items, x = .array items := by
  obtain ⟨sec, hsec, hinner⟩ := hat
  refine ((follows_forgeclawConfig htoml).shape h hx hsec hinner).resolve_left ?_
  rw [hplain]
  exact Bool.false_ne_true

/-- An override takes effect, or there is a plain value in its way. -/
theorem override_or_plain (user project : Option Document)
    (hinc : (overridePaths toLowercase envVars).Pairwise Incomparable) {path : List String}
    {value : Value} (hmem : (path, value) ∈ overrides toLowercase (probe fromStr) envVars) :
    (layeredTree toLowercase (probe fromStr) user project envVars).lookup path = some value ∨
    ∃ q rest x, path = q ++ rest ∧ rest ≠ [] ∧ (mergeFiles user project).lookup q = some x ∧
      (layeredTree toLowercase (probe fromStr) user project envVars).lookup q = some x ∧
      x.isTable = false := by
  have hpairwise : (overrides toLowercase (probe fromStr) envVars).Pairwise
      fun a b => Incomparable a.1 b.1 := by
    rw [← overrides_map_fst toLowercase (probe fromStr)] at hinc
    exact List.pairwise_map.mp hinc
  by_cases hfree : (mergeFiles user project).Unblocked path
  · refine .inl ?_
    rw [layeredTree, applyEnvOverrides_eq]
    exact (lookup_setAll_iff hpairwise hmem (path_ne_nil_of_mem toLowercase hmem) _).mpr hfree
  · obtain ⟨q, rest, x, rfl, hrest, hx, hplain⟩ := exists_plain_of_not_unblocked hfree
    have hpath := mem_overridePaths_of_mem toLowercase (probe fromStr) hmem
    refine .inr ⟨q, rest, x, rfl, hrest, hx, ?_, hplain⟩
    exact lookup_layeredTree_of_plain fromStr hrest (fun p hp => eq_of_isPrefix hinc hp hpath) hx
      hplain

/-- **Nothing goes unnoticed.** Where `load_layered` succeeds, every key in the project's file,
    and every key in the user's that the project's file is not in the way of, is one of the
    schema, unless an override replaces it or it is below a plain setting; and so is the path of
    every override, unless it goes on below a plain setting (where it is dropped if the files
    give the setting a value) or the files write a struct above it as an array. -/
theorem nothing_unnoticed (htoml : toml.Faithful) (hvars : vars env = some envVars)
    (h : loadLayered toLowercase fromStr (tryInto toml) fs projectPath env = some (.ok c)) :
    ∃ user project, userDocument fromStr fs env = .ok user ∧
      projectDocument fromStr fs projectPath = .ok project ∧
      (∀ path, (∀ p ∈ overridePaths toLowercase envVars, ¬ p <+: path) →
        ((fileValue project path).isSome = true ∨
          (fileValue user path).isSome = true ∧ ProjectFree project path) →
        Section.forgeclawConfig.allows path = true ∨ Section.forgeclawConfig.Beyond path) ∧
      ((overridePaths toLowercase envVars).Pairwise Incomparable →
        ∀ path ∈ overridePaths toLowercase envVars,
          (Section.forgeclawConfig.allows path = true ∨ Section.forgeclawConfig.Beyond path) ∨
            ∃ q items, q <+: path ∧ q ≠ path ∧
              (mergeFiles user project).lookup q = some (.array items)) := by
  obtain ⟨user, project, huser, hproject, hinto, -⟩ := loadLayered_eq_ok hvars h
  have hreads := reads_of_tryInto hinto
  refine ⟨user, project, huser, hproject, fun path hover hfile => ?_, fun hinc path hmem => ?_⟩
  · refine Section.allows_or_beyond ?_
    by_cases hpath : path = []
    · subst hpath
      rfl
    · refine reaches_of_isSome htoml hreads ?_ hover
      have hfree : ProjectFree project path := by
        rcases hfile with hsome | ⟨-, hfree⟩
        · exact projectFree_of_isSome hsome
        · exact hfree
      rw [lookup_mergeFiles user hpath hfree, isSome_mergeAt]
      rcases hfile with hsome | ⟨hsome, -⟩ <;> simp [hsome]
  · by_contra hnot
    push Not at hnot
    obtain ⟨⟨hnot, hbeyond⟩, harray⟩ := hnot
    have hreaches : Section.forgeclawConfig.reaches path = false := by
      by_contra hreaches
      rcases Section.allows_or_beyond (by simpa using hreaches) with h | h
      · exact hnot h
      · exact hbeyond h
    obtain ⟨⟨_, value⟩, hs, rfl⟩ :
        ∃ s ∈ overrides toLowercase (probe fromStr) envVars, s.1 = path := by
      rwa [← List.mem_map, overrides_map_fst toLowercase (probe fromStr)]
    rcases override_or_plain user project hinc hs with
      hvalue | ⟨q, rest, x, rfl, hrest, hq, hx, hplain⟩
    · rw [(follows_forgeclawConfig htoml).reaches hreads hvalue] at hreaches
      cases hreaches
    · have hat :=
        Section.inner_of_reaches ((follows_forgeclawConfig htoml).reaches hreads hx) hreaches
      obtain ⟨items, rfl⟩ := array_of_plain htoml hreads hx hplain hat
      exact harray q items (List.prefix_append q rest) (by simpa using hrest) hq

/-! ## Settings -/

/-- What decides about a setting: its override, else the project's file, else the user's. -/
def settingValue (toLowercase : String → String) (fromStr : String → Except String Document)
    (user project : Option Document) (envVars : List (String × String)) (path : List String) :
    Option Value :=
  ((overrides toLowercase (probe fromStr) envVars).lookup path).or
    ((fileValue project path).or (fileValue user path))

/-- A setting that no override is about is what the files say. -/
theorem lookup_layeredTree_of_incomparable {user project : Option Document} {path : List String}
    (h : ∀ p ∈ overridePaths toLowercase envVars, Incomparable p path) :
    (layeredTree toLowercase (probe fromStr) user project envVars).lookup path
      = (mergeFiles user project).lookup path :=
  lookup_overrides toLowercase (probe fromStr) h _

theorem incomparable_of_lookup_none {path : List String}
    (hover : ∀ p ∈ overridePaths toLowercase envVars, p = path ∨ Incomparable p path)
    (h : (overrides toLowercase (probe fromStr) envVars).lookup path = none) :
    ∀ p ∈ overridePaths toLowercase envVars, Incomparable p path := by
  intro p hp
  refine (hover p hp).resolve_left ?_
  rintro rfl
  rw [← overrides_map_fst toLowercase (probe fromStr)] at hp
  obtain ⟨s, hs, heq⟩ := List.mem_map.mp hp
  have hne := List.lookup_eq_none_iff.mp h s hs
  simp [heq] at hne

/-- What decides about a setting is in the tree, if it is a scalar and only tables are above. -/
theorem lookup_of_settingValue {user project : Option Document} {path : List String}
    {value : Value} (hne : path ≠ [])
    (hinc : (overridePaths toLowercase envVars).Pairwise Incomparable)
    (hover : ∀ p ∈ overridePaths toLowercase envVars, p = path ∨ Incomparable p path)
    (hway : ∀ q rest x, path = q ++ rest → rest ≠ [] →
      (mergeFiles user project).lookup q = some x →
      (layeredTree toLowercase (probe fromStr) user project envVars).lookup q = some x →
      x.isTable = true)
    (hvalue : settingValue toLowercase fromStr user project envVars path = some value)
    (hscalar : value.isScalar = true) :
    (layeredTree toLowercase (probe fromStr) user project envVars).lookup path = some value := by
  cases hset : (overrides toLowercase (probe fromStr) envVars).lookup path with
  | some v =>
    obtain rfl : v = value := by simpa [settingValue, hset] using hvalue
    obtain ⟨before, after, hmem, -⟩ := List.lookup_eq_some_iff.mp hset
    refine (override_or_plain user project hinc (by simp [hmem])).resolve_right ?_
    rintro ⟨q, rest, x, heq, hrest, hq, hx, hplain⟩
    rw [hway q rest x heq hrest hq hx] at hplain
    cases hplain
  | none =>
    rw [lookup_layeredTree_of_incomparable (incomparable_of_lookup_none hover hset)]
    by_cases hfree : ProjectFree project path
    · rw [lookup_mergeFiles user hne hfree]
      refine mergeAt_of_or ?_ hscalar
      simpa [settingValue, hset] using hvalue
    · obtain ⟨q, rest, x, rfl, hrest, hq, hplain⟩ := exists_plain_of_not_free user hfree
      have hx := lookup_layeredTree_of_plain fromStr hrest
        (fun p hp hle => (hover p hp).resolve_right fun hinc => hinc.1 hle) hq hplain
      rw [hway q rest x rfl hrest hq hx] at hplain
      cases hplain

theorem lookup_of_settingValue_none {user project : Option Document} {path : List String}
    (hne : path ≠ [])
    (hover : ∀ p ∈ overridePaths toLowercase envVars, p = path ∨ Incomparable p path)
    (hnone : settingValue toLowercase fromStr user project envVars path = none) :
    (layeredTree toLowercase (probe fromStr) user project envVars).lookup path = none := by
  obtain ⟨hset, hfiles⟩ := Option.or_eq_none_iff.mp hnone
  obtain ⟨hproject, huser⟩ := Option.or_eq_none_iff.mp hfiles
  rw [lookup_layeredTree_of_incomparable (incomparable_of_lookup_none hover hset)]
  exact lookup_mergeFiles_eq_none hne huser hproject

/-- **What a setting of the loaded configuration is.** For the path of a setting, with no other
    override on the same line and no struct above it written as an array: the configuration that
    `load_layered` gives holds, at that path, the scalar of the override, else of the project's
    file, else of the user's; and where none of them has a value, but the section is there, the
    default of the field, or nothing if it has none. -/
theorem effective_setting (htoml : toml.Faithful) (hvars : vars env = some envVars)
    (h : loadLayered toLowercase fromStr (tryInto toml) fs projectPath env = some (.ok c))
    {w : Value} (hw : (ForgeclawConfig.codec toml).serialize c = .ok w) {path : List String}
    (hpath : Section.forgeclawConfig.at? path = some .leaf)
    (hinc : (overridePaths toLowercase envVars).Pairwise Incomparable)
    (hover : ∀ p ∈ overridePaths toLowercase envVars, p = path ∨ Incomparable p path) :
    ∃ user project, userDocument fromStr fs env = .ok user ∧
      projectDocument fromStr fs projectPath = .ok project ∧
      (∀ value, settingValue toLowercase fromStr user project envVars path = some value →
        value.isScalar = true →
        (∀ q items, q <+: path → q ≠ path →
          (mergeFiles user project).lookup q ≠ some (.array items)) →
        w.lookup path = some value) ∧
      (settingValue toLowercase fromStr user project envVars path = none →
        ∀ above key t, path = above ++ [key] →
          (layeredTree toLowercase (probe fromStr) user project envVars).lookup above
            = some (.table t) →
          ∃ sec, Section.forgeclawConfig.at? above = some sec ∧
            w.lookup path = sec.defaults.lookup key) := by
  obtain ⟨user, project, huser, hproject, hinto, -⟩ := loadLayered_eq_ok hvars h
  have hreads := reads_of_tryInto hinto
  have hfollows := follows_forgeclawConfig htoml
  have hne : path ≠ [] := by
    rintro rfl
    cases hpath
  refine ⟨user, project, huser, hproject, fun value hvalue hscalar harray => ?_,
    fun hnone above key t heq ht => ?_⟩
  · have hway : ∀ q rest x, path = q ++ rest → rest ≠ [] →
        (mergeFiles user project).lookup q = some x →
        (layeredTree toLowercase (probe fromStr) user project envVars).lookup q = some x →
        x.isTable = true := by
      rintro q rest x rfl hrest hq hx
      by_contra hplain
      obtain ⟨items, rfl⟩ := array_of_plain htoml hreads hx (by simpa using hplain)
        (Section.inner_of_at? hrest hpath)
      exact harray q items (List.prefix_append q rest) (by simpa using hrest) hq
    have hT := lookup_of_settingValue hne hinc hover hway hvalue hscalar
    exact hfollows.keeps hreads hw hpath hT hscalar
  · have hT := lookup_of_settingValue_none hne hover hnone
    subst heq
    obtain ⟨sec, hsec, hinner⟩ := Section.inner_of_at? (by simp) hpath
    refine ⟨sec, hsec, hfollows.defaults hreads hw hsec hinner ht ?_⟩
    rwa [lookup_key, ht, Option.bind_some, lookup_table_key] at hT

end Effective

/-! ## A small configuration -/

/-- The reader, on plain values. -/
def sampleToml : Toml String where
  unknownField key _ := "unknown field " ++ key
  missingField key := "missing field " ++ key
  invalidLength n expected := s!"invalid length {n}, expected {expected}"
  atKey key message := message ++ " in " ++ key
  invalidType _ expected := "invalid type, expected " ++ expected
  integerTooLarge := "u64 value was too large"
  display := id
  string
    | .string s => .ok s
    | _ => .error "invalid type, expected a string"
  boolean
    | .boolean b => .ok b
    | _ => .error "invalid type, expected a boolean"
  unsigned max
    | .integer i => if 0 ≤ i ∧ i ≤ max then .ok i.toNat else .error "invalid value"
    | _ => .error "invalid type, expected an integer"
  float
    | .float bits => .ok bits
    | _ => .error "invalid type, expected a float"
  unitVariant variants
    | .string s =>
      match variants.lookup s with
      | some a => .ok a
      | none => .error ("unknown variant " ++ s)
    | _ => .error "string only"
  value v := .ok v
  ofValue v := .ok v

theorem faithful_sampleToml : sampleToml.Faithful where
  string {v} _ {s} := by cases v <;> simp [sampleToml]
  boolean {v} _ {b} := by cases v <;> simp [sampleToml]
  unsigned {v} _ {max n} := by
    cases v with
    | integer i =>
      simp only [sampleToml]
      split
      · simp only [Except.ok.injEq, Value.integer.injEq]
        omega
      · simp only [reduceCtorEq, Value.integer.injEq, false_iff]
        omega
    | _ => simp [sampleToml]
  float bits := rfl
  unitVariant {v} _ {α variants a} := by
    cases v with
    | string s =>
      simp only [sampleToml, Value.string.injEq]
      cases h : variants.lookup s <;> simp [h]
    | _ => simp [sampleToml]

/-- The small text with the fields that it leaves out. -/
def writtenText : String :=
  "[runtime]\ndata_dir = \u0022/tmp\u0022\nlog_level = \u0022info\u0022\n" ++
  "max_concurrent_containers = 1\nwarm_pool_size = 0\nevent_bus_capacity = 256\n" ++
  "[store]\nbackend = \u0022sqlite\u0022\nurl = \u0022sqlite:///tmp/test.db\u0022\n" ++
  "[container]\nimage = \u0022test:latest\u0022\ntimeout = \u002210m\u0022\nidle_ttl = \u00221m\u0022\n" ++
  "memory_limit = \u00221g\u0022\ncpu_limit = 1\n[providers]\n[budget_pools]\n[groups]\n[channels]\n"

/-- The tree of the text. -/
def writtenDocument : Document where
  entries := [
    ("budget_pools", .table []),
    ("channels", .table []),
    ("container", .table [("cpu_limit", .integer 1), ("idle_ttl", .string "1m"),
      ("image", .string "test:latest"), ("memory_limit", .string "1g"),
      ("timeout", .string "10m")]),
    ("groups", .table []),
    ("providers", .table []),
    ("runtime", .table [("data_dir", .string "/tmp"), ("event_bus_capacity", .integer 256),
      ("log_level", .string "info"), ("max_concurrent_containers", .integer 1),
      ("warm_pool_size", .integer 0)]),
    ("store", .table [("backend", .string "sqlite"), ("url", .string "sqlite:///tmp/test.db")])]
  ordered := by decide

/-- The parser, on this text. -/
def writtenFromStr (s : String) : Except String Document :=
  if s = writtenText then .ok writtenDocument else .error "expected the written text"

def writtenFile : File where
  len := writtenText.utf8ByteSize
  text := .ok writtenText
  len_eq s h := by cases h; rfl

def writtenFs : FileSystem where
  files path := if path = .unicode "forgeclaw.toml" then some writtenFile else none
  notFound := "No such file or directory (os error 2)"
  display path := path.toStr?.getD "\ufffd"

/-- An environment with an override. -/
def debugEnv : List (OsString × OsString) :=
  [(.unicode "FORGECLAW_RUNTIME__LOG_LEVEL", .unicode "debug")]

theorem vars_debugEnv : vars debugEnv = some [("FORGECLAW_RUNTIME__LOG_LEVEL", "debug")] := rfl

/-- The small configuration with another level of the log. -/
def debugConfig : ForgeclawConfig :=
  { smallConfig with runtime := { smallConfig.runtime with logLevel := "debug" } }

set_option maxRecDepth 20000 in
theorem load_debug :
    loadLayered lower writtenFromStr (tryInto sampleToml) writtenFs none debugEnv
      = some (.ok debugConfig) := by
  rfl

set_option maxRecDepth 20000 in
theorem nothing_unnoticed_debug :
    (∀ path, ¬ ["runtime", "log_level"] <+: path →
      (writtenDocument.value.lookup path).isSome = true →
      Section.forgeclawConfig.allows path = true ∨ Section.forgeclawConfig.Beyond path) ∧
    ((Section.forgeclawConfig.allows ["runtime", "log_level"] = true ∨
        Section.forgeclawConfig.Beyond ["runtime", "log_level"]) ∨
      ∃ q items, q <+: ["runtime", "log_level"] ∧ q ≠ ["runtime", "log_level"] ∧
        (mergeFiles none (some writtenDocument)).lookup q = some (.array items)) := by
  obtain ⟨user, project, huser, hproject, hfiles, hover⟩ :=
    nothing_unnoticed faithful_sampleToml vars_debugEnv load_debug
  have hpaths : overridePaths lower [("FORGECLAW_RUNTIME__LOG_LEVEL", "debug")]
      = [["runtime", "log_level"]] := by rfl
  obtain rfl : none = user := Except.ok.inj huser
  obtain rfl : some writtenDocument = project := Except.ok.inj (Eq.trans (by rfl) hproject)
  rw [hpaths] at hfiles hover
  refine ⟨fun path hprefix hsome => hfiles path (by simpa using hprefix) (.inl hsome), ?_⟩
  exact hover (List.pairwise_singleton _ _) _ (List.mem_singleton_self _)

set_option maxRecDepth 20000 in
/-- An override that goes on below a plain setting is dropped. -/
example : loadLayered lower writtenFromStr (tryInto sampleToml) writtenFs none
    [(.unicode "FORGECLAW_RUNTIME__LOG_LEVEL__X", .unicode "debug")]
      = some (.ok smallConfig) := by
  rfl

set_option maxRecDepth 20000 in
/-- The override's level of the log, not the file's. -/
theorem effective_setting_debug :
    ∃ w, (ForgeclawConfig.codec sampleToml).serialize debugConfig = .ok w ∧
      w.lookup ["runtime", "log_level"] = some (.string "debug") := by
  have hpaths : overridePaths lower [("FORGECLAW_RUNTIME__LOG_LEVEL", "debug")]
      = [["runtime", "log_level"]] := by rfl
  obtain ⟨w, hw⟩ : ∃ w, (ForgeclawConfig.codec sampleToml).serialize debugConfig = .ok w :=
    ⟨_, rfl⟩
  have hleaf : Section.forgeclawConfig.at? ["runtime", "log_level"] = some .leaf := rfl
  obtain ⟨user, project, huser, hproject, hvalue, -⟩ :=
    effective_setting faithful_sampleToml vars_debugEnv load_debug hw hleaf
      (by rw [hpaths]; exact List.pairwise_singleton _ _) (by rw [hpaths]; simp)
  obtain rfl : none = user := Except.ok.inj huser
  obtain rfl : some writtenDocument = project := Except.ok.inj (Eq.trans (by rfl) hproject)
  refine ⟨w, hw, hvalue (.string "debug") (by rfl) rfl fun q items hq hne hitems => ?_⟩
  obtain rfl | ⟨inRuntime, rfl, hq'⟩ := List.prefix_cons_iff.mp hq
  · cases hitems
  · obtain rfl | ⟨below, rfl, hbelow⟩ := List.prefix_cons_iff.mp hq'
    · cases Eq.trans (by rfl) hitems
    · obtain rfl := List.prefix_nil.mp hbelow
      exact hne rfl

end Forgeclaw.Core.Config
