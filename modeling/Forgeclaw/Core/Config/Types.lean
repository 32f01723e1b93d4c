/-
  The configuration model (`config/types.rs`, and `ForgeclawConfig` of `config/mod.rs`).

  Unsigned integers are natural numbers, and floats are kept by their bits.
-/
import Forgeclaw.Core.Config.Toml

namespace Forgeclaw.Core.Config

/-- `BTreeMap<String, β>` -/
structure BTreeMap (β : Type) where
  entries : List (String × β)
  ordered : AssocMap.Ordered entries

namespace BTreeMap

variable {β : Type}

def containsKey (m : BTreeMap β) (k : String) : Bool := (AssocMap.get k m.entries).isSome

def isEmpty (m : BTreeMap β) : Bool := m.entries.isEmpty

theorem containsKey_of_isEmpty {m : BTreeMap β} (h : m.isEmpty = true) (k : String) :
    m.containsKey k = false := by
  rw [containsKey, List.isEmpty_iff.mp h]
  rfl

end BTreeMap

structure RuntimeConfig where
  dataDir : String
  logLevel : String := "info"
  maxConcurrentContainers : Nat
  warmPoolSize : Nat
  eventBusCapacity : Nat := 256

inductive StoreBackend where
  | sqlite
  | postgres
  deriving DecidableEq, Repr

structure StoreConfig where
  backend : StoreBackend
  url : String

inductive ProviderKind where
  | anthropic
  | openaiCompat
  deriving DecidableEq, Repr

structure ProviderConfig where
  kind : ProviderKind
  baseUrl : Option String

inductive ExhaustAction where
  | fallback
  | pause
  | notify
  deriving DecidableEq, Repr

structure BudgetPoolConfig where
  dailyLimit : Nat
  monthlyLimit : Nat
  actionOnExhaust : ExhaustAction
  alertThresholds : List UInt64 := []

/-- A provider and model in a group's fallback chain. -/
structure FallbackEntry where
  provider : String
  model : String

structure TokenBudget where
  daily : Nat
  monthly : Nat

structure GroupConfig where
  /-- A key of `providers`. -/
  provider : String
  model : String
  fallback : List FallbackEntry := []
  /-- A key of `channels`. -/
  channel : String
  isMain : Bool := false
  tokenBudget : Option TokenBudget
  /-- A key of `budgetPools`. -/
  budgetPool : Option String
  allowedComposeServices : List String := []

structure ContainerDefaults where
  image : String
  timeout : String
  idleTtl : String
  memoryLimit : String
  cpuLimit : Nat

structure TanrenConfig where
  apiUrl : String
  pollInterval : Option String
  maxConcurrentDispatches : Option Nat

inductive ChannelKind where
  | discord
  | telegram
  | slack
  | webhook
  deriving DecidableEq, Repr

structure ChannelConfig where
  kind : ChannelKind
  name : Option String
  settings : BTreeMap Value

structure ForgeclawConfig where
  runtime : RuntimeConfig
  store : StoreConfig
  providers : BTreeMap ProviderConfig
  budgetPools : BTreeMap BudgetPoolConfig
  groups : BTreeMap GroupConfig
  channels : BTreeMap ChannelConfig
  container : ContainerDefaults
  tanren : Option TanrenConfig

end Forgeclaw.Core.Config
