/-
  `crates/core/src/config/mod.rs`: layering the two config files and applying the
  environment's overrides, up to the tree that is handed to deserialization.

  Two things come from outside: the TOML parser (`fromStr`, on a whole document) and
  `str::to_lowercase` (`toLowercase`, the Unicode map). Nothing is assumed of either.
-/
import Forgeclaw.Core.Config.Merge

namespace Forgeclaw.Core.Config

/-! ## Environment overrides -/

section Env

variable (toLowercase : String → String) (fromStr : String → Option Value)

/-- Top-level sections whose keys are names. -/
def mapSections : List String := ["providers", "groups", "channels", "budget_pools"]

/-- `str::strip_prefix` -/
def stripPrefix (pre s : List Char) : Option (List Char) :=
  if pre <+: s then some (s.drop pre.length) else none

/-- `str::split("__")`: the pieces between the separators, found from the left. -/
def splitSeparator (piece : List Char) : List Char → List String
  | '_' :: '_' :: rest => String.ofList piece.reverse :: splitSeparator [] rest
  | c :: rest => splitSeparator (c :: piece) rest
  | [] => [String.ofList piece.reverse]

/-- Lowercase a path's segments, but keep the key of a map section as it is. -/
def normalizeEnvPath (parts : List String) : List String :=
  parts.mapIdx fun i seg =>
    let isMapKey := i == 1 && parts.head?.any fun s => mapSections.contains (toLowercase s)
    if isMapKey then seg else toLowercase seg

/-- Parse an environment variable's value: as the value of a key, else as a plain string. -/
def parseEnvValue (raw : String) : Value :=
  let probe := "v = " ++ raw
  match fromStr probe with
  | some (.table t) =>
    match AssocMap.get "v" t with
    | some v => v
    | none => .string raw
  | _ => .string raw

/-- Set a value at a path, creating tables on the way as needed. -/
def setNested (root : Value) : List String → Value → Value
  | [], _ => root
  | [k], value =>
    match root with
    | .table t => .table (AssocMap.insert k value t)
    | _ => root
  | k :: k' :: rest, value =>
    match root with
    | .table t =>
      let child := (AssocMap.get k t).getD (.table [])
      .table (AssocMap.insert k (setNested child (k' :: rest) value) t)
    | _ => root

/-- The path a variable overrides: none without the prefix, and none for a flat name. -/
def overridePath (key : String) : Option (List String) :=
  match stripPrefix "FORGECLAW_".toList key.toList with
  | some suffix =>
    if "__".toList <:+: suffix then
      some (normalizeEnvPath toLowercase (splitSeparator [] suffix))
    else none
  | none => none

/-- The loop over the environment. -/
def applyEnvOverrides (base : Value) (envVars : List (String × String)) : Value :=
  envVars.foldl (fun base kv =>
    match overridePath toLowercase kv.1 with
    | some parts => setNested base parts (parseEnvValue fromStr kv.2)
    | none => base) base

/-! ## Layers -/

/-- Layers 1 and 2 of `load_layered`: the user's file, and the project's file on top. -/
def mergeFiles (userToml projectToml : Option Document) : Value :=
  let merged := Value.table []
  let merged :=
    match userToml with
    | some userToml => deepMerge merged userToml.value
    | none => merged
  match projectToml with
  | some projectToml => deepMerge merged projectToml.value
  | none => merged

/-- The tree `load_layered` hands to deserialization. -/
def layeredTree (userToml projectToml : Option Document) (envVars : List (String × String)) :
    Value :=
  applyEnvOverrides toLowercase fromStr (mergeFiles userToml projectToml) envVars

/-- The overrides in an environment: path and value of each overriding variable, in order. -/
def overrides (envVars : List (String × String)) : List (List String × Value) :=
  envVars.filterMap fun kv =>
    (overridePath toLowercase kv.1).map fun parts => (parts, parseEnvValue fromStr kv.2)

end Env

end Forgeclaw.Core.Config
