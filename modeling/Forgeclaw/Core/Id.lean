/-
  `crates/core/src/id/mod.rs`: identifiers, each a string of its own type. The store builds
  them unchecked, with `From<String>`, which is the constructor here; `as_ref` is `value`.
-/
import Mathlib

namespace Forgeclaw.Core

structure GroupId where
  value : String
  deriving DecidableEq, Repr

structure ChannelId where
  value : String
  deriving DecidableEq, Repr

structure TaskId where
  value : String
  deriving DecidableEq, Repr

end Forgeclaw.Core
