/-
  The two loaders (`config/mod.rs`): `load` reads one file, `load_layered` merges the user's
  file, the project's file and the environment.

  From outside come the file system, `str::to_lowercase` and the TOML crate: `fromStr` and
  `fromStrConfig` are `toml::from_str` at the two types, `tryInto` converts a tree. The operating
  system's names and values need not be Unicode: `std::env::vars` panics at one that is not, and
  `load_layered` calls it once it has the files.

  * `loaders_agree_iff`: on one file, and without overrides in the environment, both give the
    same exactly if nothing in the environment makes the second one panic.
-/
import Forgeclaw.Core.Config.EnvFrame
import Forgeclaw.Core.Config.Validate
import Forgeclaw.Foundation.Record

namespace Forgeclaw.Core.Config

/-! ## The operating system's strings -/

/-- A text, or bytes that are not UTF-8. -/
inductive OsString where
  | unicode (s : String)
  | other (bytes : List UInt8)
  deriving DecidableEq

def OsString.toStr? : OsString → Option String
  | unicode s => some s
  | other _ => none

/-- `Path::join` with a relative path: a slash in between, unless the first part is empty or ends
    in one. Bytes that are not UTF-8 stay so with ASCII behind them. -/
def joinPath (base : OsString) (path : String) : OsString :=
  match base with
  | .unicode s =>
    .unicode (if s.toList.getLast?.all (· == '/') then s ++ path else s ++ "/" ++ path)
  | .other bytes =>
    .other (bytes ++ (if bytes.getLast?.all (· == 47) then [] else [47]) ++ path.toUTF8.toList)

/-- `std::env::vars`, taken to its end; `none` is its panic. -/
def vars (env : List (OsString × OsString)) : Option (List (String × String)) :=
  env.mapM fun kv => do
    let name ← kv.1.toStr?
    let value ← kv.2.toStr?
    pure (name, value)

/-! ## Files -/

/-- `MAX_CONFIG_SIZE` -/
def maxConfigSize : Nat := 1024 * 1024

/-- A file: its length in bytes, and what reading it as a string gives (a text or the operating
    system's error). -/
structure File where
  len : Nat
  text : Except String String
  len_eq : ∀ s, text = .ok s → len = s.utf8ByteSize

/-- The files under their paths, the operating system's error where there is none, and
    `Path::display`. -/
structure FileSystem where
  files : OsString → Option File
  notFound : String
  display : OsString → String

namespace FileSystem

def pathExists (fs : FileSystem) (path : OsString) : Bool := (fs.files path).isSome

def tooLarge (fs : FileSystem) (path : OsString) : ConfigError :=
  .validation [s!"config file {fs.display path} exceeds maximum size of {maxConfigSize} bytes"]

def readGuarded (fs : FileSystem) (path : OsString) : Except ConfigError String :=
  match fs.files path with
  | none => .error (.io fs.notFound)
  | some file =>
    if file.len > maxConfigSize then .error (fs.tooLarge path)
    else file.text.mapError .io

end FileSystem

/-- Platform-appropriate config directory. -/
def dirsPath (env : List (OsString × OsString)) : Option OsString :=
  (env.lookup (.unicode "HOME")).map fun h => joinPath h ".config"

/-- Where the environment puts the user's file. -/
def homeConfigPath (env : List (OsString × OsString)) : Option OsString :=
  (dirsPath env).map fun p => joinPath (joinPath p "forgeclaw") "config.toml"

/-- `DEFAULT_PROJECT_CONFIG` -/
def defaultProjectConfig : OsString := .unicode "forgeclaw.toml"

/-! ## Loading -/

section Load

variable (toLowercase : String → String) (fromStr : String → Except String Document)
  (fromStrConfig : String → Except String ForgeclawConfig)
  (tryInto : Value → Except String ForgeclawConfig)

def readToml (fs : FileSystem) (path : OsString) : Except ConfigError Document := do
  let contents ← fs.readGuarded path
  (fromStr contents).mapError .parse

def load (fs : FileSystem) (path : OsString) : Except ConfigError ForgeclawConfig := do
  let contents ← fs.readGuarded path
  let config ← (fromStrConfig contents).mapError .parse
  config.validate
  pure config

/-- One file layer: a file that exists is merged on top. -/
def mergeLayer (fs : FileSystem) (path : OsString) (merged : Value) : Except ConfigError Value :=
  if fs.pathExists path then do
    let layer ← readToml fromStr fs path
    pure (deepMerge merged layer.value)
  else pure merged

/-- Layer 1: the user's file, if there is a home directory. -/
def userLayer (fs : FileSystem) (env : List (OsString × OsString)) (merged : Value) :
    Except ConfigError Value :=
  match homeConfigPath env with
  | some home => mergeLayer fromStr fs home merged
  | none => pure merged

/-- The end of `load_layered`: conversion and validation. -/
def convert (merged : Value) : Except ConfigError ForgeclawConfig := do
  let config ← (tryInto merged).mapError .parse
  config.validate
  pure config

/-- Layers 1 and 2: the files. -/
def fileLayers (fs : FileSystem) (projectPath : Option OsString)
    (env : List (OsString × OsString)) : Except ConfigError Value := do
  let merged ← userLayer fromStr fs env (Value.table [])
  mergeLayer fromStr fs (projectPath.getD defaultProjectConfig) merged

/-- `none` is a panic, which comes when the layers of the files are read. -/
def loadLayered (fs : FileSystem) (projectPath : Option OsString)
    (env : List (OsString × OsString)) : Option (Except ConfigError ForgeclawConfig) :=
  match fileLayers fromStr fs projectPath env with
  | .error e => some (.error e)
  | .ok merged => do
    let envVars ← vars env
    let probe := fun s => (fromStr s).toOption.map Document.value
    pure (convert tryInto (applyEnvOverrides toLowercase probe merged envVars))

/-- The two loaders' results, as far as they are to agree: on a file of this content they load
    the same configuration, or stop at the same stage, with the same cross-reference errors. -/
inductive SameOutcome (file : File) :
    Except ConfigError ForgeclawConfig → Except ConfigError ForgeclawConfig → Prop
  | loaded (c : ForgeclawConfig) : file.len ≤ maxConfigSize → c.validate = .ok () →
      SameOutcome file (.ok c) (.ok c)
  | sizeGuard (fs : FileSystem) (path path' : OsString) : maxConfigSize < file.len →
      SameOutcome file (.error (fs.tooLarge path)) (.error (fs.tooLarge path'))
  | reading (e : String) : file.len ≤ maxConfigSize → file.text = .error e →
      SameOutcome file (.error (.io e)) (.error (.io e))
  | parsing (e e' : String) : file.len ≤ maxConfigSize →
      SameOutcome file (.error (.parse e)) (.error (.parse e'))
  | crossReferences (c : ForgeclawConfig) (errors : List String) : file.len ≤ maxConfigSize →
      c.validate = .error (.validation errors) →
      SameOutcome file (.error (.validation errors)) (.error (.validation errors))

/-- The second loader returns, with the first one's outcome. -/
def Agree (file : File) (direct : Except ConfigError ForgeclawConfig)
    (layered : Option (Except ConfigError ForgeclawConfig)) : Prop :=
  ∃ result, layered = some result ∧ SameOutcome file direct result

/-- A file that gives a tree: not too large, readable, and TOML. -/
def File.IsToml (file : File) : Prop :=
  file.len ≤ maxConfigSize ∧ ∃ s d, file.text = .ok s ∧ fromStr s = .ok d

/-! ## The stages -/

variable {fromStr fromStrConfig tryInto} {fs : FileSystem} {path path' : OsString} {file : File}
  {env : List (OsString × OsString)}

theorem readGuarded_tooLarge (hfile : fs.files path = some file) (hlen : maxConfigSize < file.len) :
    fs.readGuarded path = .error (fs.tooLarge path) := by
  rw [FileSystem.readGuarded, hfile]
  exact if_pos hlen

theorem readGuarded_eq (hfile : fs.files path = some file) (hlen : file.len ≤ maxConfigSize) :
    fs.readGuarded path = file.text.mapError .io := by
  rw [FileSystem.readGuarded, hfile]
  exact if_neg (not_lt_of_ge hlen)

/-- `load` is done when the text is read and the configuration holds together. -/
theorem load_of_config {c : ForgeclawConfig} {contents : String}
    (hguarded : fs.readGuarded path = .ok contents) (hconfig : fromStrConfig contents = .ok c)
    (hvalid : c.validate = .ok ()) : load fromStrConfig fs path = .ok c := by
  rw [load, hguarded]
  change ((fromStrConfig contents).mapError ConfigError.parse >>= fun config => _) = _
  rw [hconfig]
  change (c.validate >>= fun _ => _) = _
  rw [hvalid]
  rfl

theorem readToml_of_contents {contents : String} {d : Document}
    (hguarded : fs.readGuarded path = .ok contents) (hparse : fromStr contents = .ok d) :
    readToml fromStr fs path = .ok d := by
  rw [readToml, hguarded]
  change (fromStr contents).mapError ConfigError.parse = _
  rw [hparse]
  rfl

theorem mergeLayer_eq (hfile : fs.files path = some file) (merged : Value) :
    mergeLayer fromStr fs path merged
      = (readToml fromStr fs path).map fun layer => deepMerge merged layer.value := by
  rw [mergeLayer, FileSystem.pathExists, hfile]
  cases readToml fromStr fs path <;> rfl

theorem mergeLayer_of_none (hfile : fs.files path = none) (merged : Value) :
    mergeLayer fromStr fs path merged = .ok merged := by
  rw [mergeLayer, FileSystem.pathExists, hfile]
  rfl

theorem userLayer_of_home {home : OsString} (hhome : homeConfigPath env = some home)
    (hfile : fs.files home = some file) :
    userLayer fromStr fs env (.table []) = (readToml fromStr fs home).map Document.value := by
  rw [userLayer, hhome]
  refine (mergeLayer_eq hfile _).trans ?_
  simp only [deepMerge_empty]

/-- What is read from one path is read from another one with the same file. -/
theorem readToml_of_same {d : Document} (hfile : fs.files path = some file)
    (hfile' : fs.files path' = some file) (h : readToml fromStr fs path = .ok d) :
    readToml fromStr fs path' = .ok d := by
  unfold readToml at h ⊢
  rcases lt_or_ge maxConfigSize file.len with hlen | hlen
  · rw [readGuarded_tooLarge hfile hlen] at h
    cases h
  · rw [readGuarded_eq hfile hlen] at h
    rwa [readGuarded_eq hfile' hlen]

section Layers

variable {projectPath : Option OsString} {home : OsString}

theorem fileLayers_of_project
    (hproject : fs.files (projectPath.getD defaultProjectConfig) = some file)
    (hnone : ∀ home, homeConfigPath env = some home → fs.files home = none) :
    fileLayers fromStr fs projectPath env
      = (readToml fromStr fs (projectPath.getD defaultProjectConfig)).map Document.value := by
  have huser : userLayer fromStr fs env (.table []) = .ok (.table []) := by
    unfold userLayer
    cases hhome : homeConfigPath env with
    | none => rfl
    | some home => exact mergeLayer_of_none (hnone home hhome) _
  rw [fileLayers, huser]
  change mergeLayer fromStr fs (projectPath.getD defaultProjectConfig) (.table []) = _
  rw [mergeLayer_eq hproject]
  simp only [deepMerge_empty]

theorem fileLayers_of_home (hhome : homeConfigPath env = some home)
    (hfile : fs.files home = some file)
    (hproject : fs.files (projectPath.getD defaultProjectConfig) = none) :
    fileLayers fromStr fs projectPath env = (readToml fromStr fs home).map Document.value := by
  rw [fileLayers, userLayer_of_home hhome hfile]
  cases readToml fromStr fs home with
  | error e => rfl
  | ok d => exact mergeLayer_of_none hproject d.value

/-- The same file twice is as good as once. -/
theorem fileLayers_of_both (hhome : homeConfigPath env = some home)
    (hfile : fs.files home = some file)
    (hproject : fs.files (projectPath.getD defaultProjectConfig) = some file) :
    fileLayers fromStr fs projectPath env = (readToml fromStr fs home).map Document.value := by
  rw [fileLayers, userLayer_of_home hhome hfile]
  cases hd : readToml fromStr fs home with
  | error e => rfl
  | ok d =>
    change mergeLayer fromStr fs (projectPath.getD defaultProjectConfig) d.value = .ok d.value
    rw [mergeLayer_eq hproject, readToml_of_same hfile hproject hd]
    exact congrArg Except.ok (deepMerge_self d.ordered)

end Layers

theorem applyEnvOverrides_of_no_override {envVars : List (String × String)}
    (h : ∀ kv ∈ envVars, isOverride kv.1 = false) (probe : String → Option Value) (base : Value) :
    applyEnvOverrides toLowercase probe base envVars = base := by
  have hfilter : (envVars.filter fun kv => isOverride kv.1) = [] := by
    simpa [List.filter_eq_nil_iff] using h
  rw [applyEnvOverrides_eq, ← overrides_filter, hfilter]
  rfl

/-- What `vars` yields are variables of the environment. -/
theorem mem_of_vars {envVars : List (String × String)} (h : vars env = some envVars)
    {kv : String × String} (hkv : kv ∈ envVars) :
    (OsString.unicode kv.1, OsString.unicode kv.2) ∈ env := by
  induction env generalizing envVars with
  | nil =>
    cases h
    simp at hkv
  | cons head env ih =>
    obtain ⟨name, value⟩ := head
    cases name with
    | other bytes => cases h
    | unicode name =>
      cases value with
      | other bytes => cases h
      | unicode value =>
        obtain ⟨rest, hrest, heq⟩ : ∃ rest, vars env = some rest ∧
            (name, value) :: rest = envVars := by
          simpa [vars, OsString.toStr?, Option.bind_eq_some_iff] using h
        rw [← heq] at hkv
        rcases List.mem_cons.mp hkv with rfl | hkv
        · exact List.mem_cons_self
        · exact List.mem_cons_of_mem _ (ih hrest hkv)

/-- With one tree from the files and no overrides, the tree is what is converted, if the
    environment can be read. -/
theorem loadLayered_eq {projectPath : Option OsString}
    (henv : ∀ kv ∈ env, kv.1.toStr?.any isOverride = false)
    (hlayers : fileLayers fromStr fs projectPath env
      = (readToml fromStr fs path).map Document.value) :
    loadLayered toLowercase fromStr tryInto fs projectPath env
      = match readToml fromStr fs path with
        | .error e => some (.error e)
        | .ok d => (vars env).map fun _ => convert tryInto d.value := by
  rw [loadLayered, hlayers]
  cases readToml fromStr fs path with
  | error e => rfl
  | ok d =>
    cases hvars : vars env with
    | none => rfl
    | some envVars =>
      have hinert := applyEnvOverrides_of_no_override toLowercase
        (fun kv hkv => henv _ (mem_of_vars hvars hkv))
        (fun s => (fromStr s).toOption.map Document.value) d.value
      exact congrArg (fun v => some (convert tryInto v)) hinert

theorem validation_of_error {c : ForgeclawConfig} {e : ConfigError}
    (h : c.validate = .error e) : ∃ errors, e = .validation errors := by
  rw [ForgeclawConfig.validate_eq] at h
  split at h
  · cases h
  · exact ⟨_, (Except.error.inj h).symm⟩

theorem sameOutcome_validate (c : ForgeclawConfig) (hlen : file.len ≤ maxConfigSize) :
    SameOutcome file (c.validate.bind fun _ => .ok c) (c.validate.bind fun _ => .ok c) := by
  cases hv : c.validate with
  | error e =>
    obtain ⟨errors, rfl⟩ := validation_of_error hv
    exact .crossReferences c errors hlen hv
  | ok _ => exact .loaded c hlen hv

/-- Two ways to a configuration that succeed together, with the same one. -/
theorem sameOutcome_of_toOption {x y : Except String ForgeclawConfig}
    (h : x.toOption = y.toOption) (hlen : file.len ≤ maxConfigSize) :
    SameOutcome file ((x.mapError .parse).bind fun c => c.validate.bind fun _ => .ok c)
      ((y.mapError .parse).bind fun c => c.validate.bind fun _ => .ok c) := by
  cases x with
  | error e =>
    cases y with
    | error e' => exact .parsing e e' hlen
    | ok c => simp [Except.toOption] at h
  | ok c =>
    cases y with
    | error e' => simp [Except.toOption] at h
    | ok c' =>
      obtain rfl : c = c' := by simpa [Except.toOption] using h
      exact sameOutcome_validate c hlen

/-- Reading a file directly, and reading it as a tree that is then converted. -/
theorem load_sameOutcome
    (hdirect : ∀ s, file.text = .ok s → (fromStrConfig s).toOption
      = ((fromStr s).bind fun d => tryInto d.value).toOption)
    (hfile : fs.files path = some file) (hfile' : fs.files path' = some file) :
    SameOutcome file (load fromStrConfig fs path)
      ((readToml fromStr fs path').bind fun d => convert tryInto d.value) := by
  unfold load readToml
  rcases lt_or_ge maxConfigSize file.len with hlen | hlen
  · rw [readGuarded_tooLarge hfile hlen, readGuarded_tooLarge hfile' hlen]
    exact .sizeGuard fs path path' hlen
  · rw [readGuarded_eq hfile hlen, readGuarded_eq hfile' hlen]
    cases htext : file.text with
    | error e => exact .reading e hlen htext
    | ok s =>
      have hsame := sameOutcome_of_toOption (hdirect s htext) hlen
      have htree : (((fromStr s).bind fun d => tryInto d.value).mapError ConfigError.parse).bind
            (fun c => c.validate.bind fun _ => .ok c)
          = ((fromStr s).mapError .parse).bind fun d => convert tryInto d.value := by
        cases fromStr s <;> rfl
      rw [htree] at hsame
      exact hsame

theorem readToml_eq_ok_iff (hfile : fs.files path = some file) :
    (∃ d, readToml fromStr fs path = .ok d) ↔ file.IsToml fromStr := by
  unfold readToml File.IsToml
  rcases lt_or_ge maxConfigSize file.len with hlen | hlen
  · rw [readGuarded_tooLarge hfile hlen]
    constructor
    · rintro ⟨d, hd⟩
      cases hd
    · rintro ⟨hle, -⟩
      exact absurd hle (not_le_of_gt hlen)
  · rw [readGuarded_eq hfile hlen]
    cases htext : file.text with
    | error e =>
      constructor
      · rintro ⟨d, hd⟩
        cases hd
      · rintro ⟨-, s, d, hs, -⟩
        cases hs
    | ok s =>
      constructor
      · rintro ⟨d, hd⟩
        exact ⟨hlen, s, d, rfl, Record.mapError_eq_ok.mp hd⟩
      · rintro ⟨-, s', d, hs', hd⟩
        obtain rfl := Except.ok.inj hs'
        exact ⟨d, Record.mapError_eq_ok.mpr hd⟩

/-- One arrangement of the files. -/
theorem agree_iff {projectPath : Option OsString}
    (hdirect : ∀ s, file.text = .ok s → (fromStrConfig s).toOption
      = ((fromStr s).bind fun d => tryInto d.value).toOption)
    (henv : ∀ kv ∈ env, kv.1.toStr?.any isOverride = false)
    (hfile : fs.files path = some file) (hfile' : fs.files path' = some file)
    (hlayers : fileLayers fromStr fs projectPath env
      = (readToml fromStr fs path').map Document.value) :
    Agree file (load fromStrConfig fs path)
        (loadLayered toLowercase fromStr tryInto fs projectPath env) ↔
      (vars env).isSome = true ∨ ¬ file.IsToml fromStr := by
  have hsame := load_sameOutcome hdirect hfile hfile'
  rw [← readToml_eq_ok_iff hfile', loadLayered_eq toLowercase henv hlayers]
  cases hread : readToml fromStr fs path' with
  | error e =>
    rw [hread] at hsame
    exact ⟨fun _ => .inr (by rintro ⟨d, hd⟩; cases hd), fun _ => ⟨_, rfl, hsame⟩⟩
  | ok d =>
    rw [hread] at hsame
    cases hvars : vars env with
    | none =>
      constructor
      · rintro ⟨result, hresult, -⟩
        cases hresult
      · rintro (hsome | hnot)
        · cases hsome
        · exact absurd ⟨d, rfl⟩ hnot
    | some envVars => exact ⟨fun _ => .inl rfl, fun _ => ⟨_, rfl, hsame⟩⟩

/-- **When the two loaders agree.** Let no variable of the environment be an override, and let
    deserializing the file's text directly succeed exactly when converting its tree does, with the
    same result. Then `load` on the file and `load_layered` have the same outcome exactly if all
    of the environment is Unicode or the file gives no tree: if the file is the project's and
    there is no user file, if it is the user's and there is no project file, and if it is both. -/
theorem loaders_agree_iff (file : File)
    (hdirect : ∀ s, file.text = .ok s → (fromStrConfig s).toOption
      = ((fromStr s).bind fun d => tryInto d.value).toOption)
    (fs : FileSystem) (projectPath : Option OsString) (env : List (OsString × OsString))
    (henv : ∀ kv ∈ env, kv.1.toStr?.any isOverride = false) :
    (fs.files (projectPath.getD defaultProjectConfig) = some file →
      (∀ home, homeConfigPath env = some home → fs.files home = none) →
      (Agree file (load fromStrConfig fs (projectPath.getD defaultProjectConfig))
          (loadLayered toLowercase fromStr tryInto fs projectPath env) ↔
        (vars env).isSome = true ∨ ¬ file.IsToml fromStr)) ∧
    (∀ home, homeConfigPath env = some home → fs.files home = some file →
      fs.files (projectPath.getD defaultProjectConfig) = none →
      (Agree file (load fromStrConfig fs home)
          (loadLayered toLowercase fromStr tryInto fs projectPath env) ↔
        (vars env).isSome = true ∨ ¬ file.IsToml fromStr)) ∧
    ∀ home, homeConfigPath env = some home → fs.files home = some file →
      fs.files (projectPath.getD defaultProjectConfig) = some file →
      (Agree file (load fromStrConfig fs home)
          (loadLayered toLowercase fromStr tryInto fs projectPath env) ↔
        (vars env).isSome = true ∨ ¬ file.IsToml fromStr) ∧
      (Agree file (load fromStrConfig fs (projectPath.getD defaultProjectConfig))
          (loadLayered toLowercase fromStr tryInto fs projectPath env) ↔
        (vars env).isSome = true ∨ ¬ file.IsToml fromStr) := by
  refine ⟨fun hproject hnone => ?_, fun home hhome hfile hproject => ?_,
    fun home hhome hfile hproject => ?_⟩
  · exact agree_iff toLowercase hdirect henv hproject hproject
      (fileLayers_of_project hproject hnone)
  · exact agree_iff toLowercase hdirect henv hfile hfile
      (fileLayers_of_home hhome hfile hproject)
  · have hlayers : fileLayers fromStr fs projectPath env = _ :=
      fileLayers_of_both hhome hfile hproject
    exact ⟨agree_iff toLowercase hdirect henv hfile hfile hlayers,
      agree_iff toLowercase hdirect henv hproject hfile hlayers⟩

end Load

/-! ## A small file -/

def smallText : String :=
  "[runtime]\ndata_dir = \u0022/tmp\u0022\nmax_concurrent_containers = 1\nwarm_pool_size = 0\n" ++
  "[store]\nbackend = \u0022sqlite\u0022\nurl = \u0022sqlite:///tmp/test.db\u0022\n" ++
  "[container]\nimage = \u0022test:latest\u0022\ntimeout = \u002210m\u0022\nidle_ttl = \u00221m\u0022\n" ++
  "memory_limit = \u00221g\u0022\ncpu_limit = 1\n[providers]\n[groups]\n[channels]\n"

/-- The tree of the text. -/
def smallDocument : Document where
  entries := [
    ("channels", .table []),
    ("container", .table [("cpu_limit", .integer 1), ("idle_ttl", .string "1m"),
      ("image", .string "test:latest"), ("memory_limit", .string "1g"),
      ("timeout", .string "10m")]),
    ("groups", .table []),
    ("providers", .table []),
    ("runtime", .table [("data_dir", .string "/tmp"), ("max_concurrent_containers", .integer 1),
      ("warm_pool_size", .integer 0)]),
    ("store", .table [("backend", .string "sqlite"), ("url", .string "sqlite:///tmp/test.db")])]
  ordered := by decide

/-- The configuration of the tree. -/
def smallConfig : ForgeclawConfig where
  runtime := { dataDir := "/tmp", maxConcurrentContainers := 1, warmPoolSize := 0 }
  store := { backend := .sqlite, url := "sqlite:///tmp/test.db" }
  providers := ⟨[], by decide⟩
  budgetPools := ⟨[], by decide⟩
  groups := ⟨[], by decide⟩
  channels := ⟨[], by decide⟩
  container := { image := "test:latest", timeout := "10m", idleTtl := "1m", memoryLimit := "1g",
                 cpuLimit := 1 }
  tanren := none

/-- The parser, on the small text. -/
def smallFromStr (s : String) : Except String Document :=
  if s = smallText then .ok smallDocument else .error "expected the small text"

/-- The conversion, on the small tree. -/
def smallTryInto (v : Value) : Except String ForgeclawConfig :=
  match v.lookup ["runtime", "data_dir"] with
  | some (.string _) => .ok smallConfig
  | _ => .error "missing field runtime"

def smallFile : File where
  len := smallText.utf8ByteSize
  text := .ok smallText
  len_eq s h := by cases h; rfl

/-- The direct deserializer, on the small text. -/
def smallFromStrConfig (s : String) : Except String ForgeclawConfig :=
  if s = smallText then .ok smallConfig else .error "TOML parse error"

def smallFs : FileSystem where
  files path := if path = .unicode "forgeclaw.toml" then some smallFile else none
  notFound := "No such file or directory (os error 2)"
  display path := path.toStr?.getD "\ufffd"

theorem smallText_direct (s : String) (h : smallFile.text = .ok s) :
    (smallFromStrConfig s).toOption
      = ((smallFromStr s).bind fun d => smallTryInto d.value).toOption := by
  obtain rfl : smallText = s := Except.ok.inj h
  rw [smallFromStrConfig, smallFromStr, if_pos rfl, if_pos rfl]
  rfl

theorem smallFs_readGuarded :
    smallFs.readGuarded (.unicode "forgeclaw.toml") = .ok smallText :=
  readGuarded_eq (show smallFs.files _ = some smallFile from rfl) (by decide +kernel)

theorem load_small :
    load smallFromStrConfig smallFs (.unicode "forgeclaw.toml") = .ok smallConfig :=
  load_of_config smallFs_readGuarded (if_pos rfl) rfl

theorem smallFs_no_home {env : List (OsString × OsString)}
    (hhome : env.lookup (.unicode "HOME") = some (.unicode "/root")) (home : OsString)
    (h : homeConfigPath env = some home) : smallFs.files home = none := by
  have hpath : homeConfigPath env = some (.unicode "/root/.config/forgeclaw/config.toml") := by
    rw [homeConfigPath, dirsPath, hhome]
    decide +kernel
  obtain rfl := Option.some.inj (hpath.symm.trans h)
  rfl

/-- The small file is loaded by both loaders. -/
theorem loaders_agree_iff_small :
    load smallFromStrConfig smallFs (.unicode "forgeclaw.toml") = .ok smallConfig ∧
    loadLayered lower smallFromStr smallTryInto smallFs none
      [(.unicode "HOME", .unicode "/root"), (.unicode "FORGECLAW_DISCORD_TOKEN", .unicode "token")]
        = some (.ok smallConfig) := by
  have hagree := ((loaders_agree_iff lower smallFile smallText_direct smallFs none
    [(.unicode "HOME", .unicode "/root"), (.unicode "FORGECLAW_DISCORD_TOKEN", .unicode "token")]
    (by decide)).1 rfl (smallFs_no_home rfl)).mpr (.inl rfl)
  obtain ⟨result, hresult, hsame⟩ := hagree
  rw [show load smallFromStrConfig smallFs (Option.getD none defaultProjectConfig)
    = .ok smallConfig from load_small] at hsame
  cases hsame
  exact ⟨load_small, hresult⟩

/-- One variable whose value is not UTF-8, with a name that is not the program's: `load` loads
    the small file, `load_layered` panics. -/
theorem foreign_variable_panics :
    load smallFromStrConfig smallFs (.unicode "forgeclaw.toml") = .ok smallConfig ∧
    loadLayered lower smallFromStr smallTryInto smallFs none
      [(.unicode "HOME", .unicode "/root"), (.unicode "LC_X", .other [255])] = none ∧
    ¬ Agree smallFile (load smallFromStrConfig smallFs (.unicode "forgeclaw.toml"))
      (loadLayered lower smallFromStr smallTryInto smallFs none
        [(.unicode "HOME", .unicode "/root"), (.unicode "LC_X", .other [255])]) := by
  have hread : readToml smallFromStr smallFs (.unicode "forgeclaw.toml") = .ok smallDocument :=
    readToml_of_contents smallFs_readGuarded (if_pos rfl)
  have hlayers : fileLayers smallFromStr smallFs none
      [(.unicode "HOME", .unicode "/root"), (.unicode "LC_X", .other [255])]
        = (readToml smallFromStr smallFs (.unicode "forgeclaw.toml")).map Document.value :=
    fileLayers_of_project (show smallFs.files _ = some smallFile from rfl) (smallFs_no_home rfl)
  have hpanic : loadLayered lower smallFromStr smallTryInto smallFs none
      [(.unicode "HOME", .unicode "/root"), (.unicode "LC_X", .other [255])] = none := by
    rw [loadLayered_eq lower (by decide) hlayers, hread]
    rfl
  refine ⟨load_small, hpanic, ?_⟩
  rintro ⟨result, hresult, -⟩
  cases hpanic.symm.trans hresult

end Forgeclaw.Core.Config
