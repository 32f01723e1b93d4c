/-
  `crates/core/src/error.rs`: the error classes that decide how a caller recovers, and the
  errors of loading a configuration.
-/
import Mathlib

namespace Forgeclaw.Core

/-- `ErrorClass`. A duration is its number of milliseconds. -/
inductive ErrorClass where
  | transient (retryAfter : Nat)
  | auth (provider reason : String)
  | config (key reason : String)
  | container (id : Option String) (reason : String)
  | fatal (reason : String)
  deriving DecidableEq, Repr

namespace ErrorClass

def isRetriable : ErrorClass → Bool
  | transient _ => true
  | _ => false

/-- The free text of a class, for the classes that carry one. -/
def reason? : ErrorClass → Option String
  | transient _ => none
  | auth _ reason => some reason
  | config _ reason => some reason
  | container _ reason => some reason
  | fatal reason => some reason

end ErrorClass

/-- `ConfigError`. The errors of the file system and of the TOML crate are kept by their text. -/
inductive ConfigError where
  | io (error : String)
  | parse (error : String)
  | validation (errors : List String)
  deriving DecidableEq, Repr

end Forgeclaw.Core
