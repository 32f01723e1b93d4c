/-
  Reading the configuration from a TOML tree and writing it to one: the `Serialize` and
  `Deserialize` of the types in `config/types.rs` and of `ForgeclawConfig`, as serde derives them
  from the fields and their attributes.

  From outside comes the TOML crate: how it reads plain values, and its errors (`Toml`). A struct
  is read from a table, with unknown keys denied; serde also reads one from an array, by position.

  * `roundTrips`: a configuration is written to a tree that it is read back from.
-/
import Forgeclaw.Foundation.Record
import Forgeclaw.Core.Config.Types

namespace Forgeclaw.Core.Config

open Record Record.Field

variable {ε α γ ρ : Type}

/-! ## The TOML crate -/

/-- A value that holds no others, and no datetime. -/
def Value.isScalar : Value → Bool
  | .string _ | .integer _ | .float _ | .boolean _ => true
  | .datetime _ | .array _ | .table _ => false

/-- The crate's errors, how it reads plain values, and how a `toml::Value` is read from a tree
    and written to one. -/
structure Toml (ε : Type) extends Faults ε where
  /-- What was found, and what was expected. -/
  invalidType : Value → String → ε
  /-- An unsigned integer that no TOML integer (an `i64`) holds. -/
  integerTooLarge : ε
  display : ε → String
  string : Value → Except ε String
  boolean : Value → Except ε Bool
  /-- An unsigned integer type, with its largest value. -/
  unsigned : (max : Nat) → Value → Except ε Nat
  float : Value → Except ε UInt64
  /-- An enumeration, with the names of its variants. -/
  unitVariant : {α : Type} → List (String × α) → Value → Except ε α
  value : Value → Except ε Value
  ofValue : Value → Except ε Value

/-- What is relied on: scalars are read at their own types and no other ones. -/
structure Toml.Faithful (toml : Toml ε) : Prop where
  string {v : Value} (hv : v.isScalar = true) {s : String} :
    toml.string v = .ok s ↔ v = .string s
  boolean {v : Value} (hv : v.isScalar = true) {b : Bool} :
    toml.boolean v = .ok b ↔ v = .boolean b
  unsigned {v : Value} (hv : v.isScalar = true) {max n : Nat} :
    toml.unsigned max v = .ok n ↔ v = .integer n ∧ n ≤ max
  float (bits : UInt64) : toml.float (.float bits) = .ok bits
  unitVariant {v : Value} (hv : v.isScalar = true) {α : Type} {variants : List (String × α)}
    {a : α} : toml.unitVariant variants v = .ok a ↔ ∃ s, v = .string s ∧ variants.lookup s = some a

/-! ## Combinators -/

/-- `i64::MAX` -/
def i64Max : Nat := 2 ^ 63 - 1

/-- `u32::MAX` -/
def u32Max : Nat := 2 ^ 32 - 1

/-- `u64::MAX`, and `usize::MAX`. -/
def u64Max : Nat := 2 ^ 64 - 1

theorem BTreeMap.ext {β : Type} {m m' : BTreeMap β} (h : m.entries = m'.entries) : m = m' := by
  cases m
  cases m'
  cases h
  rfl

def BTreeMap.ofList {β : Type} (entries : List (String × β)) : BTreeMap β :=
  ⟨AssocMap.ofList entries, AssocMap.ordered_ofList entries⟩

theorem BTreeMap.entries_ofList {β : Type} {entries : List (String × β)}
    (h : AssocMap.Ordered entries) : (BTreeMap.ofList entries).entries = entries :=
  h.ofList_eq

namespace Toml

variable (toml : Toml ε)

def stringCodec : Codec ε Value String := ⟨fun s => .ok (.string s), toml.string⟩

def booleanCodec : Codec ε Value Bool := ⟨fun b => .ok (.boolean b), toml.boolean⟩

def floatCodec : Codec ε Value UInt64 := ⟨fun bits => .ok (.float bits), toml.float⟩

def valueCodec : Codec ε Value Value := ⟨toml.ofValue, toml.value⟩

def unsignedCodec (max : Nat) : Codec ε Value Nat where
  serialize n := if n ≤ i64Max then .ok (.integer n) else .error toml.integerTooLarge
  deserialize := toml.unsigned max

/-- An enumeration without data, its variants under their names. -/
def enumCodec (name : α → String) (variants : List α) : Codec ε Value α where
  serialize a := .ok (.string (name a))
  deserialize := toml.unitVariant (variants.map fun a => (name a, a))

/-- `Vec` -/
def vecCodec (c : Codec ε Value α) : Codec ε Value (List α) where
  serialize items := (items.mapM c.serialize).map .array
  deserialize
    | .array items => items.mapM c.deserialize
    | v => .error (toml.invalidType v "a sequence")

/-- `BTreeMap<String, _>` -/
def mapCodec (c : Codec ε Value α) : Codec ε Value (BTreeMap α) where
  serialize m := (toKeyed c m.entries).map fun t => .table (AssocMap.ofList t)
  deserialize
    | .table t => (fromKeyed toml.toFaults c t).map BTreeMap.ofList
    | v => .error (toml.invalidType v "a map")

/-- A struct with `deny_unknown_fields`. -/
def structCodec (name : String) (F : Fields ε Value γ) (parts : ρ → γ) (make : γ → ρ) :
    Codec ε Value ρ where
  serialize r := (F.toMap (parts r)).map .table
  deserialize
    | .table t => (F.fromEntries toml.toFaults t).map make
    | .array items =>
      (F.fromItems toml.toFaults s!"struct {name} with {F.names.length} elements" items).map make
    | v => .error (toml.invalidType v ("struct " ++ name))

end Toml

/-! ## The types -/

def defaultEventBusCapacity : Nat := 256

def defaultLogLevel : String := "info"

/-- `#[serde(rename_all = "lowercase")]` -/
def StoreBackend.rename : StoreBackend → String
  | sqlite => "sqlite"
  | postgres => "postgres"

/-- `#[serde(rename_all = "snake_case")]` -/
def ProviderKind.rename : ProviderKind → String
  | anthropic => "anthropic"
  | openaiCompat => "openai_compat"

/-- `#[serde(rename_all = "lowercase")]` -/
def ExhaustAction.rename : ExhaustAction → String
  | fallback => "fallback"
  | pause => "pause"
  | notify => "notify"

/-- `#[serde(rename_all = "snake_case")]` -/
def ChannelKind.rename : ChannelKind → String
  | discord => "discord"
  | telegram => "telegram"
  | slack => "slack"
  | webhook => "webhook"

section Types

variable (toml : Toml ε)

def RuntimeConfig.codec : Codec ε Value RuntimeConfig :=
  toml.structCodec "RuntimeConfig"
    (.cons (required "data_dir" toml.stringCodec) <|
     .cons (defaulted "log_level" toml.stringCodec defaultLogLevel) <|
     .cons (required "max_concurrent_containers" (toml.unsignedCodec u64Max)) <|
     .cons (required "warm_pool_size" (toml.unsignedCodec u64Max)) <|
     .cons (defaulted "event_bus_capacity" (toml.unsignedCodec u64Max)
       defaultEventBusCapacity) .nil)
    (fun c => (c.dataDir, c.logLevel, c.maxConcurrentContainers, c.warmPoolSize,
      c.eventBusCapacity, ()))
    fun (dataDir, logLevel, maxConcurrentContainers, warmPoolSize, eventBusCapacity, ()) =>
      { dataDir, logLevel, maxConcurrentContainers, warmPoolSize, eventBusCapacity }

def StoreBackend.codec : Codec ε Value StoreBackend :=
  toml.enumCodec StoreBackend.rename [.sqlite, .postgres]

def StoreConfig.codec : Codec ε Value StoreConfig :=
  toml.structCodec "StoreConfig"
    (.cons (required "backend" (StoreBackend.codec toml)) <|
     .cons (required "url" toml.stringCodec) .nil)
    (fun c => (c.backend, c.url, ()))
    fun (backend, url, ()) => { backend, url }

def ProviderKind.codec : Codec ε Value ProviderKind :=
  toml.enumCodec ProviderKind.rename [.anthropic, .openaiCompat]

def ProviderConfig.codec : Codec ε Value ProviderConfig :=
  toml.structCodec "ProviderConfig"
    (.cons (required "type" (ProviderKind.codec toml)) <|
     .cons (optional "base_url" toml.stringCodec) .nil)
    (fun c => (c.kind, c.baseUrl, ()))
    fun (kind, baseUrl, ()) => { kind, baseUrl }

def ExhaustAction.codec : Codec ε Value ExhaustAction :=
  toml.enumCodec ExhaustAction.rename [.fallback, .pause, .notify]

def BudgetPoolConfig.codec : Codec ε Value BudgetPoolConfig :=
  toml.structCodec "BudgetPoolConfig"
    (.cons (required "daily_limit" (toml.unsignedCodec u64Max)) <|
     .cons (required "monthly_limit" (toml.unsignedCodec u64Max)) <|
     .cons (required "action_on_exhaust" (ExhaustAction.codec toml)) <|
     .cons (defaulted "alert_thresholds" (toml.vecCodec toml.floatCodec) []) .nil)
    (fun c => (c.dailyLimit, c.monthlyLimit, c.actionOnExhaust, c.alertThresholds, ()))
    fun (dailyLimit, monthlyLimit, actionOnExhaust, alertThresholds, ()) =>
      { dailyLimit, monthlyLimit, actionOnExhaust, alertThresholds }

def FallbackEntry.codec : Codec ε Value FallbackEntry :=
  toml.structCodec "FallbackEntry"
    (.cons (required "provider" toml.stringCodec) <|
     .cons (required "model" toml.stringCodec) .nil)
    (fun c => (c.provider, c.model, ()))
    fun (provider, model, ()) => { provider, model }

def TokenBudget.codec : Codec ε Value TokenBudget :=
  toml.structCodec "TokenBudget"
    (.cons (required "daily" (toml.unsignedCodec u64Max)) <|
     .cons (required "monthly" (toml.unsignedCodec u64Max)) .nil)
    (fun c => (c.daily, c.monthly, ()))
    fun (daily, monthly, ()) => { daily, monthly }

def GroupConfig.codec : Codec ε Value GroupConfig :=
  toml.structCodec "GroupConfig"
    (.cons (required "provider" toml.stringCodec) <|
     .cons (required "model" toml.stringCodec) <|
     .cons (defaulted "fallback" (toml.vecCodec (FallbackEntry.codec toml)) []) <|
     .cons (required "channel" toml.stringCodec) <|
     .cons (defaulted "is_main" toml.booleanCodec false) <|
     .cons (optional "token_budget" (TokenBudget.codec toml)) <|
     .cons (optional "budget_pool" toml.stringCodec) <|
     .cons (defaulted "allowed_compose_services" (toml.vecCodec toml.stringCodec) []) .nil)
    (fun c => (c.provider, c.model, c.fallback, c.channel, c.isMain, c.tokenBudget, c.budgetPool,
      c.allowedComposeServices, ()))
    fun (provider, model, fallback, channel, isMain, tokenBudget, budgetPool,
      allowedComposeServices, ()) =>
      { provider, model, fallback, channel, isMain, tokenBudget, budgetPool,
        allowedComposeServices }

def ContainerDefaults.codec : Codec ε Value ContainerDefaults :=
  toml.structCodec "ContainerDefaults"
    (.cons (required "image" toml.stringCodec) <|
     .cons (required "timeout" toml.stringCodec) <|
     .cons (required "idle_ttl" toml.stringCodec) <|
     .cons (required "memory_limit" toml.stringCodec) <|
     .cons (required "cpu_limit" (toml.unsignedCodec u32Max)) .nil)
    (fun c => (c.image, c.timeout, c.idleTtl, c.memoryLimit, c.cpuLimit, ()))
    fun (image, timeout, idleTtl, memoryLimit, cpuLimit, ()) =>
      { image, timeout, idleTtl, memoryLimit, cpuLimit }

def TanrenConfig.codec : Codec ε Value TanrenConfig :=
  toml.structCodec "TanrenConfig"
    (.cons (required "api_url" toml.stringCodec) <|
     .cons (optional "poll_interval" toml.stringCodec) <|
     .cons (optional "max_concurrent_dispatches" (toml.unsignedCodec u64Max)) .nil)
    (fun c => (c.apiUrl, c.pollInterval, c.maxConcurrentDispatches, ()))
    fun (apiUrl, pollInterval, maxConcurrentDispatches, ()) =>
      { apiUrl, pollInterval, maxConcurrentDispatches }

def ChannelKind.codec : Codec ε Value ChannelKind :=
  toml.enumCodec ChannelKind.rename [.discord, .telegram, .slack, .webhook]

def ChannelConfig.codec : Codec ε Value ChannelConfig :=
  toml.structCodec "ChannelConfig"
    (.cons (required "type" (ChannelKind.codec toml)) <|
     .cons (optional "name" toml.stringCodec) <|
     .cons (defaulted "settings" (toml.mapCodec toml.valueCodec) (.ofList [])) .nil)
    (fun c => (c.kind, c.name, c.settings, ()))
    fun (kind, name, settings, ()) => { kind, name, settings }

def ForgeclawConfig.codec : Codec ε Value ForgeclawConfig :=
  toml.structCodec "ForgeclawConfig"
    (.cons (required "runtime" (RuntimeConfig.codec toml)) <|
     .cons (required "store" (StoreConfig.codec toml)) <|
     .cons (required "providers" (toml.mapCodec (ProviderConfig.codec toml))) <|
     .cons (defaulted "budget_pools" (toml.mapCodec (BudgetPoolConfig.codec toml)) (.ofList [])) <|
     .cons (required "groups" (toml.mapCodec (GroupConfig.codec toml))) <|
     .cons (required "channels" (toml.mapCodec (ChannelConfig.codec toml))) <|
     .cons (required "container" (ContainerDefaults.codec toml)) <|
     .cons (optional "tanren" (TanrenConfig.codec toml)) .nil)
    (fun c => (c.runtime, c.store, c.providers, c.budgetPools, c.groups, c.channels, c.container,
      c.tanren, ()))
    fun (runtime, store, providers, budgetPools, groups, channels, container, tanren, ()) =>
      { runtime, store, providers, budgetPools, groups, channels, container, tanren }

/-- `Value::try_into`, with the error as its text. -/
def tryInto (v : Value) : Except String ForgeclawConfig :=
  ((ForgeclawConfig.codec toml).deserialize v).mapError toml.display

end Types

/-! ## Round trips -/

/-- A number that the type and a TOML integer can hold. -/
def Fits (max n : Nat) : Prop := n ≤ max ∧ n ≤ i64Max

instance (max n : Nat) : Decidable (Fits max n) := inferInstanceAs (Decidable (_ ∧ _))

namespace Toml

variable {toml : Toml ε}

section Leaves

variable (htoml : toml.Faithful)
include htoml

theorem roundTrips_string (s : String) : toml.stringCodec.RoundTrips s :=
  ⟨_, rfl, (htoml.string rfl).mpr rfl⟩

theorem roundTrips_boolean (b : Bool) : toml.booleanCodec.RoundTrips b :=
  ⟨_, rfl, (htoml.boolean rfl).mpr rfl⟩

theorem roundTrips_float (bits : UInt64) : toml.floatCodec.RoundTrips bits :=
  ⟨_, rfl, htoml.float bits⟩

theorem roundTrips_unsigned {max n : Nat} (hn : Fits max n) :
    (toml.unsignedCodec max).RoundTrips n :=
  ⟨.integer n, if_pos hn.2, (htoml.unsigned rfl).mpr ⟨rfl, hn.1⟩⟩

theorem roundTrips_enum {name : α → String} {variants : List α} {a : α}
    (h : (variants.map fun a => (name a, a)).lookup (name a) = some a) :
    (toml.enumCodec name variants).RoundTrips a :=
  ⟨_, rfl, (htoml.unitVariant rfl).mpr ⟨_, rfl, h⟩⟩

end Leaves

theorem roundTrips_vec {c : Codec ε Value α} {items : List α}
    (h : ∀ a ∈ items, c.RoundTrips a) : (toml.vecCodec c).RoundTrips items := by
  obtain ⟨vs, hvs, hitems⟩ := Codec.mapM_roundTrips h
  exact ⟨.array vs, map_eq_ok.mpr ⟨vs, hvs, rfl⟩, hitems⟩

theorem roundTrips_map {c : Codec ε Value α} {m : BTreeMap α}
    (h : ∀ e ∈ m.entries, c.RoundTrips e.2) : (toml.mapCodec c).RoundTrips m := by
  obtain ⟨t, ht, hm, hkeys⟩ := keyed_roundTrips toml.toFaults h
  refine ⟨.table t, map_eq_ok.mpr ⟨t, ht, ?_⟩, map_eq_ok.mpr ⟨m.entries, hm, ?_⟩⟩
  · rw [(m.ordered.of_keys hkeys).ofList_eq]
  · exact BTreeMap.ext m.ordered.ofList_eq

theorem roundTrips_struct {name : String} {F : Fields ε Value γ} {parts : ρ → γ} {make : γ → ρ}
    {r : ρ} (hmake : make (parts r) = r) (hnodup : F.names.Nodup)
    (h : F.RoundTrips toml.toFaults (parts r)) :
    (toml.structCodec name F parts make).RoundTrips r := by
  obtain ⟨t, ht, hparts⟩ := Fields.fromEntries_toMap hnodup h
  exact ⟨.table t, map_eq_ok.mpr ⟨t, ht, rfl⟩, map_eq_ok.mpr ⟨_, hparts, hmake⟩⟩

end Toml

/-! ### What can be written -/

structure RuntimeConfig.Representable (c : RuntimeConfig) : Prop where
  maxConcurrentContainers : Fits u64Max c.maxConcurrentContainers
  warmPoolSize : Fits u64Max c.warmPoolSize
  eventBusCapacity : Fits u64Max c.eventBusCapacity

structure BudgetPoolConfig.Representable (c : BudgetPoolConfig) : Prop where
  dailyLimit : Fits u64Max c.dailyLimit
  monthlyLimit : Fits u64Max c.monthlyLimit

structure TokenBudget.Representable (c : TokenBudget) : Prop where
  daily : Fits u64Max c.daily
  monthly : Fits u64Max c.monthly

/-- Every number in the configuration fits, and the crate reads back the TOML values that are
    among the settings of the channels. -/
structure ForgeclawConfig.Representable (toml : Toml ε) (c : ForgeclawConfig) : Prop where
  runtime : c.runtime.Representable
  budgetPools : ∀ e ∈ c.budgetPools.entries, e.2.Representable
  groups : ∀ e ∈ c.groups.entries, ∀ budget ∈ e.2.tokenBudget, budget.Representable
  channels : ∀ e ∈ c.channels.entries, ∀ e' ∈ e.2.settings.entries,
    toml.valueCodec.RoundTrips e'.2
  container : Fits u32Max c.container.cpuLimit
  tanren : ∀ t ∈ c.tanren, ∀ n ∈ t.maxConcurrentDispatches, Fits u64Max n

section RoundTrips

variable {toml : Toml ε} (htoml : toml.Faithful)
include htoml

open Toml

theorem RuntimeConfig.roundTrips {c : RuntimeConfig} (h : c.Representable) :
    (codec toml).RoundTrips c :=
  roundTrips_struct rfl (by simp)
    ⟨roundTrips_required (roundTrips_string htoml _),
     roundTrips_defaulted (roundTrips_string htoml _),
     roundTrips_required (roundTrips_unsigned htoml h.maxConcurrentContainers),
     roundTrips_required (roundTrips_unsigned htoml h.warmPoolSize),
     roundTrips_defaulted (roundTrips_unsigned htoml h.eventBusCapacity), trivial⟩

theorem StoreConfig.roundTrips (c : StoreConfig) : (codec toml).RoundTrips c :=
  roundTrips_struct rfl (by simp)
    ⟨roundTrips_required (roundTrips_enum htoml (by cases c.backend <;> rfl)),
     roundTrips_required (roundTrips_string htoml _), trivial⟩

theorem ProviderConfig.roundTrips (c : ProviderConfig) : (codec toml).RoundTrips c :=
  roundTrips_struct rfl (by simp)
    ⟨roundTrips_required (roundTrips_enum htoml (by cases c.kind <;> rfl)),
     roundTrips_optional fun _ _ => roundTrips_string htoml _, trivial⟩

theorem BudgetPoolConfig.roundTrips {c : BudgetPoolConfig} (h : c.Representable) :
    (codec toml).RoundTrips c :=
  roundTrips_struct rfl (by simp)
    ⟨roundTrips_required (roundTrips_unsigned htoml h.dailyLimit),
     roundTrips_required (roundTrips_unsigned htoml h.monthlyLimit),
     roundTrips_required (roundTrips_enum htoml (by cases c.actionOnExhaust <;> rfl)),
     roundTrips_defaulted (roundTrips_vec fun _ _ => roundTrips_float htoml _), trivial⟩

theorem FallbackEntry.roundTrips (c : FallbackEntry) : (codec toml).RoundTrips c :=
  roundTrips_struct rfl (by simp)
    ⟨roundTrips_required (roundTrips_string htoml _),
     roundTrips_required (roundTrips_string htoml _), trivial⟩

theorem TokenBudget.roundTrips {c : TokenBudget} (h : c.Representable) :
    (codec toml).RoundTrips c :=
  roundTrips_struct rfl (by simp)
    ⟨roundTrips_required (roundTrips_unsigned htoml h.daily),
     roundTrips_required (roundTrips_unsigned htoml h.monthly), trivial⟩

theorem GroupConfig.roundTrips {c : GroupConfig} (h : ∀ b ∈ c.tokenBudget, b.Representable) :
    (codec toml).RoundTrips c :=
  roundTrips_struct rfl (by simp)
    ⟨roundTrips_required (roundTrips_string htoml _),
     roundTrips_required (roundTrips_string htoml _),
     roundTrips_defaulted (roundTrips_vec fun _ _ => FallbackEntry.roundTrips htoml _),
     roundTrips_required (roundTrips_string htoml _),
     roundTrips_defaulted (roundTrips_boolean htoml _),
     roundTrips_optional fun b hb => TokenBudget.roundTrips htoml (h b hb),
     roundTrips_optional fun _ _ => roundTrips_string htoml _,
     roundTrips_defaulted (roundTrips_vec fun _ _ => roundTrips_string htoml _), trivial⟩

theorem ContainerDefaults.roundTrips {c : ContainerDefaults} (h : Fits u32Max c.cpuLimit) :
    (codec toml).RoundTrips c :=
  roundTrips_struct rfl (by simp)
    ⟨roundTrips_required (roundTrips_string htoml _),
     roundTrips_required (roundTrips_string htoml _),
     roundTrips_required (roundTrips_string htoml _),
     roundTrips_required (roundTrips_string htoml _),
     roundTrips_required (roundTrips_unsigned htoml h), trivial⟩

theorem TanrenConfig.roundTrips {c : TanrenConfig}
    (h : ∀ n ∈ c.maxConcurrentDispatches, Fits u64Max n) : (codec toml).RoundTrips c :=
  roundTrips_struct rfl (by simp)
    ⟨roundTrips_required (roundTrips_string htoml _),
     roundTrips_optional fun _ _ => roundTrips_string htoml _,
     roundTrips_optional fun n hn => roundTrips_unsigned htoml (h n hn), trivial⟩

theorem ChannelConfig.roundTrips {c : ChannelConfig}
    (h : ∀ e ∈ c.settings.entries, toml.valueCodec.RoundTrips e.2) :
    (codec toml).RoundTrips c :=
  roundTrips_struct rfl (by simp)
    ⟨roundTrips_required (roundTrips_enum htoml (by cases c.kind <;> rfl)),
     roundTrips_optional fun _ _ => roundTrips_string htoml _,
     roundTrips_defaulted (roundTrips_map h), trivial⟩

theorem ForgeclawConfig.roundTrips {c : ForgeclawConfig} (h : c.Representable toml) :
    (codec toml).RoundTrips c :=
  roundTrips_struct rfl (by simp)
    ⟨roundTrips_required (RuntimeConfig.roundTrips htoml h.runtime),
     roundTrips_required (StoreConfig.roundTrips htoml _),
     roundTrips_required (roundTrips_map fun _ _ => ProviderConfig.roundTrips htoml _),
     roundTrips_defaulted
      (roundTrips_map fun e he => BudgetPoolConfig.roundTrips htoml (h.budgetPools e he)),
     roundTrips_required (roundTrips_map fun e he => GroupConfig.roundTrips htoml (h.groups e he)),
     roundTrips_required
      (roundTrips_map fun e he => ChannelConfig.roundTrips htoml (h.channels e he)),
     roundTrips_required (ContainerDefaults.roundTrips htoml h.container),
     roundTrips_optional fun t ht => TanrenConfig.roundTrips htoml (h.tanren t ht), trivial⟩

end RoundTrips

end Forgeclaw.Core.Config
