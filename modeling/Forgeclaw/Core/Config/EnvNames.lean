/-
  Which entries of the configuration can be named in the environment?

  * `splitSeparator_join`: the segments of a variable's name come back out of it;
  * `addressable_iff`: the variable of a path overrides that very path iff the setting names
    in it have no upper-case letter.
-/
import Forgeclaw.Core.Config.EnvFrame

namespace Forgeclaw.Core.Config

/-! ## The paths of the schema -/

/-- A step of a path: a field of a struct, or a key that the user chose. -/
inductive Segment where
  | field (name : String)
  | key (name : String)
  deriving DecidableEq, Repr

def Segment.name : Segment → String
  | field n => n
  | key n => n

/-- The types of `types.rs` that a path can lead to. -/
inductive Section where
  | forgeclawConfig
  | runtimeConfig
  | storeConfig
  | providers
  | providerConfig
  | budgetPools
  | budgetPoolConfig
  | groups
  | groupConfig
  | tokenBudget
  | channels
  | channelConfig
  | settings
  | containerDefaults
  | tanrenConfig
  | leaf
  deriving DecidableEq, Repr

namespace Section

/-- A struct's fields under their names in the file. -/
def fields : Section → List (String × Section)
  | forgeclawConfig =>
    [("runtime", runtimeConfig), ("store", storeConfig), ("providers", providers),
     ("budget_pools", budgetPools), ("groups", groups), ("channels", channels),
     ("container", containerDefaults), ("tanren", tanrenConfig)]
  | runtimeConfig =>
    [("data_dir", leaf), ("log_level", leaf), ("max_concurrent_containers", leaf),
     ("warm_pool_size", leaf), ("event_bus_capacity", leaf)]
  | storeConfig => [("backend", leaf), ("url", leaf)]
  | providerConfig => [("type", leaf), ("base_url", leaf)]
  | budgetPoolConfig =>
    [("daily_limit", leaf), ("monthly_limit", leaf), ("action_on_exhaust", leaf),
     ("alert_thresholds", leaf)]
  | groupConfig =>
    [("provider", leaf), ("model", leaf), ("fallback", leaf), ("channel", leaf),
     ("is_main", leaf), ("token_budget", tokenBudget), ("budget_pool", leaf),
     ("allowed_compose_services", leaf)]
  | tokenBudget => [("daily", leaf), ("monthly", leaf)]
  | channelConfig => [("type", leaf), ("name", leaf), ("settings", settings)]
  | containerDefaults =>
    [("image", leaf), ("timeout", leaf), ("idle_ttl", leaf), ("memory_limit", leaf),
     ("cpu_limit", leaf)]
  | tanrenConfig =>
    [("api_url", leaf), ("poll_interval", leaf), ("max_concurrent_dispatches", leaf)]
  | providers | budgetPools | groups | channels | settings | leaf => []

/-- What the keys of a map lead to; the settings hold TOML values of any shape. -/
def keys : Section → Option Section
  | providers => some providerConfig
  | budgetPools => some budgetPoolConfig
  | groups => some groupConfig
  | channels => some channelConfig
  | settings => some settings
  | _ => none

/-- Where a step leads. -/
def step (sec : Section) : Segment → Option Section
  | .field n => sec.fields.lookup n
  | .key _ => sec.keys

/-- The schema admits the path. -/
def admits (sec : Section) : List Segment → Bool
  | [] => true
  | s :: rest => (sec.step s).any (·.admits rest)

end Section

/-! ## The variable of a path -/

/-- `str::is_ascii` -/
def isAscii (s : String) : Bool := s.toList.all fun c => c.toNat < 128

/-- A key that can stand in a variable's name. -/
structure EnvKey (s : String) : Prop where
  nonempty : s ≠ ""
  ascii : isAscii s = true
  noSeparator : ¬ "__".toList <:+: s.toList
  head : s.toList.head? ≠ some '_'
  last : s.toList.getLast? ≠ some '_'

/-- Field names in upper case, keys as they are. -/
def Segment.inVariable : Segment → String
  | field n => String.ofList (n.toList.map Char.toUpper)
  | key n => n

def variableName (path : List Segment) : String :=
  "FORGECLAW_" ++ "__".intercalate (path.map Segment.inVariable)

/-! ## Splitting a name -/

theorem splitSeparator_cons {c : Char} {s : List Char} (piece : List Char)
    (h : ¬ (c = '_' ∧ s.head? = some '_')) :
    splitSeparator piece (c :: s) = splitSeparator (c :: piece) s := by
  rw [splitSeparator]
  rintro rest rfl rfl
  exact h ⟨rfl, rfl⟩

theorem not_separator_head {c : Char} {s : List Char} (h : ¬ ['_', '_'] <:+: c :: s) :
    ¬ (c = '_' ∧ s.head? = some '_') := by
  rintro ⟨rfl, hs⟩
  obtain ⟨rest, rfl⟩ := List.head?_eq_some_iff.mp hs
  exact h ⟨[], rest, rfl⟩

theorem splitSeparator_last {s : List Char} (h : ¬ ['_', '_'] <:+: s) (piece : List Char) :
    splitSeparator piece s = [String.ofList (piece.reverse ++ s)] := by
  induction s generalizing piece with
  | nil => simp [splitSeparator]
  | cons c s ih =>
    rw [splitSeparator_cons piece (not_separator_head h),
      ih (fun hs => h (hs.trans (List.infix_cons_iff.mpr (.inr (List.infix_refl s)))))]
    simp

theorem splitSeparator_append {s : List Char} (h : ¬ ['_', '_'] <:+: s)
    (hlast : s.getLast? ≠ some '_') (piece rest : List Char) :
    splitSeparator piece (s ++ '_' :: '_' :: rest)
      = String.ofList (piece.reverse ++ s) :: splitSeparator [] rest := by
  induction s generalizing piece with
  | nil => simp [splitSeparator]
  | cons c s ih =>
    have hhead : ¬ (c = '_' ∧ (s ++ '_' :: '_' :: rest).head? = some '_') := by
      cases s with
      | nil => simpa using hlast
      | cons c' s => simpa using not_separator_head h
    have hlast' : s.getLast? ≠ some '_' := by
      cases s with
      | nil => simp
      | cons c' s => simpa using hlast
    rw [List.cons_append, splitSeparator_cons piece hhead,
      ih (fun hs => h (hs.trans (List.infix_cons_iff.mpr (.inr (List.infix_refl s))))) hlast']
    simp

/-- A text that a split at the separators leaves whole. -/
def Whole (s : String) : Prop := ¬ ['_', '_'] <:+: s.toList ∧ s.toList.getLast? ≠ some '_'

instance (s : String) : Decidable (Whole s) := inferInstanceAs (Decidable (_ ∧ _))

/-- Joining and splitting. -/
theorem splitSeparator_join {segs : List String} (hne : segs ≠ []) (h : ∀ s ∈ segs, Whole s) :
    splitSeparator [] ("__".intercalate segs).toList = segs := by
  induction segs with
  | nil => exact absurd rfl hne
  | cons s segs ih =>
    obtain ⟨hs, hlast⟩ := h s (by simp)
    cases segs with
    | nil => simp [splitSeparator_last hs]
    | cons s' segs =>
      have htext : ("__".intercalate (s :: s' :: segs)).toList
          = s.toList ++ '_' :: '_' :: ("__".intercalate (s' :: segs)).toList := by
        simp [String.intercalate_cons_cons]
      rw [htext, splitSeparator_append hs hlast, ih (by simp) fun s'' hs'' => h s'' (by simp [hs''])]
      simp

/-! ## Normalizing the segments -/

/-- A field name can be written in upper case and read back. -/
structure FieldName (n : String) : Prop where
  whole : Whole (Segment.field n).inVariable
  ascii : isAscii (Segment.field n).inVariable = true
  lower : lower (Segment.field n).inVariable = n

namespace Section

theorem fieldName_of_mem {sec : Section} : ∀ e ∈ sec.fields, FieldName e.1 := by
  have h : ∀ e ∈ sec.fields, Whole (Segment.field e.1).inVariable ∧
      isAscii (Segment.field e.1).inVariable = true ∧
      Config.lower (Segment.field e.1).inVariable = e.1 := by
    cases sec <;> decide +kernel
  exact fun e he => ⟨(h e he).1, (h e he).2.1, (h e he).2.2⟩

theorem admits_cons {sec : Section} {s : Segment} {rest : List Segment} :
    sec.admits (s :: rest) = true ↔ ∃ sec', sec.step s = some sec' ∧ sec'.admits rest = true := by
  rw [admits]
  cases sec.step s <;> simp

theorem mem_fields_of_step {sec sec' : Section} {n : String}
    (h : sec.step (.field n) = some sec') : (n, sec') ∈ sec.fields := by
  obtain ⟨before, after, heq, -⟩ := List.lookup_eq_some_iff.mp h
  simp [heq]

theorem fieldName_of_admits {sec : Section} {path : List Segment}
    (h : sec.admits path = true) {n : String} (hn : .field n ∈ path) : FieldName n := by
  induction path generalizing sec with
  | nil => simp at hn
  | cons s rest ih =>
    obtain ⟨sec', hstep, hrest⟩ := admits_cons.mp h
    rcases List.mem_cons.mp hn with rfl | hn
    · exact fieldName_of_mem _ (mem_fields_of_step hstep)
    · exact ih hrest hn

/-- The second step is a key exactly in the map sections. -/
theorem second_of_admits {n : String} {s : Segment} {rest : List Segment}
    (h : forgeclawConfig.admits (.field n :: s :: rest) = true) :
    mapSections.contains n = true ↔ ∃ k, s = .key k := by
  obtain ⟨sec, hfirst, h⟩ := admits_cons.mp h
  obtain ⟨sec', hsecond, -⟩ := admits_cons.mp h
  have hmem := mem_fields_of_step hfirst
  simp only [fields, List.mem_cons, Prod.mk.injEq, List.not_mem_nil, or_false] at hmem
  rcases hmem with ⟨rfl, rfl⟩ | ⟨rfl, rfl⟩ | ⟨rfl, rfl⟩ | ⟨rfl, rfl⟩ | ⟨rfl, rfl⟩ |
      ⟨rfl, rfl⟩ | ⟨rfl, rfl⟩ | ⟨rfl, rfl⟩ <;>
    cases s <;> simp [step, keys, fields, mapSections] at hsecond ⊢

end Section

theorem EnvKey.whole {s : String} (h : EnvKey s) : Whole s := ⟨h.noSeparator, h.last⟩

theorem lower_eq_self_iff {s : String} : lower s = s ↔ ∀ c ∈ s.toList, c.isUpper = false := by
  have hlower : lower s = s ↔ s.toList.map Char.toLower = s.toList.map id := by
    rw [lower, ← String.toList_inj, String.toList_ofList, List.map_id]
  rw [hlower, List.map_eq_map_iff]
  refine forall₂_congr fun c _ => ⟨fun h => ?_, fun h => Char.toLower_eq_of_not_isUpper (by simp [h])⟩
  have hc : c.toLower = c := h
  rw [← hc, Char.isUpper_toLower_eq_false]

section Env

variable {toLowercase : String → String} {path : List Segment}

theorem normalizeEnvPath_cons_cons (a b : String) (rest : List String) :
    normalizeEnvPath toLowercase (a :: b :: rest)
      = toLowercase a :: (if mapSections.contains (toLowercase a) then b else toLowercase b) ::
        rest.map toLowercase := by
  have hrest : List.mapIdx (fun _ seg => toLowercase seg) rest = rest.map toLowercase :=
    List.ext_getElem (by simp) (by simp)
  simp [normalizeEnvPath, List.mapIdx_cons, hrest]

theorem exists_cons_cons (hlen : 2 ≤ path.length) : ∃ s s' rest, path = s :: s' :: rest := by
  cases path with
  | nil => simp at hlen
  | cons s path =>
    cases path with
    | nil => simp at hlen
    | cons s' rest => exact ⟨s, s', rest, rfl⟩

theorem overridePath_variableName (hlen : 2 ≤ path.length)
    (h : ∀ s ∈ path, Whole s.inVariable) :
    overridePath toLowercase (variableName path)
      = some (normalizeEnvPath toLowercase (path.map Segment.inVariable)) := by
  have hsegs : ∀ s ∈ path.map Segment.inVariable, Whole s := by simpa using h
  have hne : path.map Segment.inVariable ≠ [] := by
    rintro hnil
    simp [List.map_eq_nil_iff.mp hnil] at hlen
  have hsplit : stripPrefix "FORGECLAW_".toList (variableName path).toList
      = some ("__".intercalate (path.map Segment.inVariable)).toList := by
    rw [variableName, String.toList_append]
    simp [stripPrefix]
  have hsep : "__".toList <:+: ("__".intercalate (path.map Segment.inVariable)).toList := by
    obtain ⟨s, s', rest, rfl⟩ := exists_cons_cons hlen
    rw [List.map_cons, List.map_cons, String.intercalate_cons_cons, String.toList_append,
      String.toList_append]
    exact ⟨_, _, rfl⟩
  rw [overridePath, hsplit]
  simp only [if_pos hsep, splitSeparator_join hne hsegs]

/-- Reading a variable's name gives the path, with the later keys in lower case. -/
theorem overridePath_variableName_eq
    (hlower : ∀ s, isAscii s = true → toLowercase s = lower s)
    (hadm : Section.forgeclawConfig.admits path = true) (hlen : 2 ≤ path.length)
    (hkeys : ∀ k, .key k ∈ path → EnvKey k) :
    overridePath toLowercase (variableName path)
      = some ((path.take 2).map Segment.name
          ++ (path.drop 2).map fun s => toLowercase s.inVariable) := by
  have hwhole : ∀ s ∈ path, Whole s.inVariable := fun s hs => by
    cases s with
    | field n => exact (Section.fieldName_of_admits hadm hs).whole
    | key k => exact (hkeys k hs).whole
  rw [overridePath_variableName hlen hwhole]
  obtain ⟨s, s', rest, rfl⟩ := exists_cons_cons hlen
  have hfield : ∀ n, .field n ∈ s :: s' :: rest →
      toLowercase (Segment.field n).inVariable = n := fun n hn => by
    have hname := Section.fieldName_of_admits hadm hn
    rw [hlower _ hname.ascii, hname.lower]
  cases s with
  | key k => simp [Section.admits, Section.step, Section.keys] at hadm
  | field n =>
    have hsecond := Section.second_of_admits hadm
    rw [List.map_cons, List.map_cons, normalizeEnvPath_cons_cons, hfield n (by simp)]
    cases s' with
    | key k =>
      rw [if_pos (hsecond.mpr ⟨k, rfl⟩)]
      simp [Segment.name, Segment.inVariable]
    | field m =>
      rw [if_neg (by rw [hsecond]; simp), hfield m (by simp)]
      simp [Segment.name]

/-- **When an entry can be named in the environment.** For a path of the schema with at least
    two segments, whose keys can stand in a name: the variable of the path overrides exactly
    this path iff no key after the second segment (that is, no name of a channel's setting)
    has an upper-case letter. Then the override sets the entry with that very key. -/
theorem addressable_iff
    (hlower : ∀ s, isAscii s = true → toLowercase s = lower s) (fromStr : String → Option Value)
    (hadm : Section.forgeclawConfig.admits path = true) (hlen : 2 ≤ path.length)
    (hkeys : ∀ k, .key k ∈ path → EnvKey k) :
    (overridePath toLowercase (variableName path) = some (path.map Segment.name) ↔
      ∀ k, .key k ∈ path.drop 2 → ∀ c ∈ k.toList, c.isUpper = false) ∧
    ((∀ k, .key k ∈ path.drop 2 → ∀ c ∈ k.toList, c.isUpper = false) →
      ∀ base raw, applyEnvOverrides toLowercase fromStr base [(variableName path, raw)]
        = setNested base (path.map Segment.name) (parseEnvValue fromStr raw)) := by
  have hiff : overridePath toLowercase (variableName path) = some (path.map Segment.name) ↔
      ∀ k, .key k ∈ path.drop 2 → ∀ c ∈ k.toList, c.isUpper = false := by
    rw [overridePath_variableName_eq hlower hadm hlen hkeys, Option.some.injEq]
    nth_rewrite 3 [← List.take_append_drop 2 path]
    rw [List.map_append, List.append_cancel_left_eq, List.map_eq_map_iff]
    have hsub : ∀ s ∈ path.drop 2, s ∈ path := fun s hs => List.mem_of_mem_drop hs
    constructor
    · intro h k hk
      have hkey := h _ hk
      rw [Segment.inVariable, Segment.name, hlower _ (hkeys k (hsub _ hk)).ascii] at hkey
      exact lower_eq_self_iff.mp hkey
    · intro h s hs
      cases s with
      | field n =>
        have hname := Section.fieldName_of_admits hadm (hsub _ hs)
        rw [hlower _ hname.ascii, hname.lower, Segment.name]
      | key k =>
        rw [Segment.inVariable, Segment.name, hlower _ (hkeys k (hsub _ hs)).ascii]
        exact lower_eq_self_iff.mpr (h k hs)
  refine ⟨hiff, fun h base raw => ?_⟩
  rw [applyEnvOverrides_cons, hiff.mpr h]
  rfl

end Env

/-- A setting of a channel. -/
def settingPath (channel setting : String) : List Segment :=
  [.field "channels", .key channel, .field "settings", .key setting]

theorem addressable_iff_guild :
    overridePath lower "FORGECLAW_CHANNELS__MyBot__SETTINGS__guild_id"
      = some ["channels", "MyBot", "settings", "guild_id"] := by
  have hname : variableName (settingPath "MyBot" "guild_id")
      = "FORGECLAW_CHANNELS__MyBot__SETTINGS__guild_id" := by decide
  have hkeys : ∀ k, .key k ∈ settingPath "MyBot" "guild_id" → EnvKey k := by
    intro k hk
    obtain rfl | rfl : k = "MyBot" ∨ k = "guild_id" := by simpa [settingPath] using hk
    · exact ⟨by decide, by decide, by decide, by decide, by decide⟩
    · exact ⟨by decide, by decide, by decide, by decide, by decide⟩
  rw [← hname]
  refine (addressable_iff (fun _ _ => rfl) parsed (by decide) (by decide) hkeys).1.mpr ?_
  intro k hk
  obtain rfl : k = "guild_id" := by simpa [settingPath] using hk
  exact lower_eq_self_iff.mp (by decide)

/-- A setting whose name has upper-case letters: the variable overrides another one. -/
theorem setting_key_lowercased :
    Section.forgeclawConfig.admits (settingPath "web" "MaxRetries") = true ∧
      EnvKey "web" ∧ EnvKey "MaxRetries" ∧
      variableName (settingPath "web" "MaxRetries")
        = "FORGECLAW_CHANNELS__web__SETTINGS__MaxRetries" ∧
      overridePath lower "FORGECLAW_CHANNELS__web__SETTINGS__MaxRetries"
        = some ["channels", "web", "settings", "maxretries"] ∧
      overridePath lower "FORGECLAW_CHANNELS__web__SETTINGS__MaxRetries"
        ≠ some ((settingPath "web" "MaxRetries").map Segment.name) :=
  ⟨by decide, ⟨by decide, by decide, by decide, by decide, by decide⟩,
    ⟨by decide, by decide, by decide, by decide, by decide⟩, by decide, by decide, by decide⟩

end Forgeclaw.Core.Config
