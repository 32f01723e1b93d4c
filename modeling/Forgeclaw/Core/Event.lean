/-
  `crates/core/src/event/bus.rs`: the event bus.

  The bus looks at no event, so that the events are of any type. The state is what the program
  holds: the channel of the bus, the clones of the bus and the subscribers. What was emitted for
  a subscriber and what it was given are kept for the statements only.
-/
import Forgeclaw.Foundation.Broadcast
import Forgeclaw.Foundation.Transition

namespace Forgeclaw.Core.Event

open Broadcast

/-- A receiver that `subscribe` returned. -/
structure Subscription (E : Type) where
  /-- The events emitted since then, as long as it is there. -/
  emitted : List E
  /-- What its `recv` gave, in order. -/
  trace : List (Received E)
  live : Bool
  deriving DecidableEq, Repr

namespace Subscription

variable {E : Type}

def new : Subscription E := ⟨[], [], true⟩

def emit (e : E) (u : Subscription E) : Subscription E :=
  if u.live then { u with emitted := u.emitted ++ [e] } else u

def recv (r : Received E) (u : Subscription E) : Subscription E :=
  { u with trace := u.trace ++ [r] }

def drop (u : Subscription E) : Subscription E := { u with live := false }

/-- How many events it has neither been given nor been told to have missed. -/
def backlog (u : Subscription E) : Nat := u.emitted.length - (u.trace.map Received.count).sum

end Subscription

section

variable {β ρ E : Type} [DecidableEq β] [DecidableEq ρ]

structure State (M : Channel E ρ) (β : Type) where
  chan : M.Chan
  buses : Finset β
  subs : ρ → Option (Subscription E)

variable (M : Channel E ρ)

variable {M} in
def State.ring (s : State M β) : Ring E ρ := M.state s.chan

/-- `EventBus::new`: the first bus is `b`, and the channel's first receiver, `_rx`, is dropped. -/
def new (capacity : Nat) (b : β) (rx : ρ) : State M β :=
  let effective := max capacity 1
  ⟨M.dropReceiver (M.channel effective rx) rx, {b}, fun _ => none⟩

/-- `emit`: `self.tx.send(event).unwrap_or(0)`. -/
def emit (chan : M.Chan) (event : E) : Nat × M.Chan :=
  match M.send chan event with
  | .ok (n, chan') => (n, chan')
  | .error _ => (0, chan)

inductive Act (β ρ E : Type) where
  | clone (b b' : β)
  | dropBus (b : β)
  | emit (b : β) (event : E)
  | subscribe (b : β) (x : ρ)
  | recv (x : ρ)
  | dropReceiver (x : ρ)
  deriving DecidableEq, Repr

open Function in
/-- What the tasks that share a bus do. A receiver that is dropped is not used again. -/
inductive Step : State M β → Act β ρ E → State M β → Prop
  | clone (s b b') : b ∈ s.buses → b' ∉ s.buses →
      Step s (.clone b b') { s with chan := M.clone s.chan, buses := insert b' s.buses }
  | dropBus (s b) : b ∈ s.buses →
      Step s (.dropBus b) { s with chan := M.dropSender s.chan, buses := s.buses.erase b }
  | emit (s b event) : b ∈ s.buses →
      Step s (.emit b event)
        { s with
          chan := (emit M s.chan event).2
          subs := fun x => (s.subs x).map (.emit event) }
  | subscribe (s b x) : b ∈ s.buses → s.subs x = none →
      Step s (.subscribe b x)
        { s with chan := M.subscribe s.chan x, subs := update s.subs x (some .new) }
  | recv (s x u r chan) : s.subs x = some u → u.live = true → M.recv s.chan x = some (r, chan) →
      Step s (.recv x) { s with chan := chan, subs := update s.subs x (some (u.recv r)) }
  | dropReceiver (s x u) : s.subs x = some u → u.live = true →
      Step s (.dropReceiver x)
        { s with chan := M.dropReceiver s.chan x, subs := update s.subs x (some u.drop) }

/-- A bus made with `capacity`, and everything that its clones and its subscribers can do. Beyond
    its limit, `broadcast::channel` panics. -/
def system (β : Type) [DecidableEq β] (capacity : Nat) :
    TransitionSystem (State M β) (Act β ρ E) where
  Init s := max capacity 1 ≤ M.limit ∧ ∃ b rx, s = new M capacity b rx
  Step := Step M

variable {M}

/-- **An event goes to every receiver there is, and their number is returned.** -/
theorem emit_eq (chan : M.Chan) (event : E) :
    (emit M chan event).1 = (M.state chan).receivers.card ∧
      M.state (emit M chan event).2 =
        if (M.state chan).receivers = ∅ then M.state chan else (M.state chan).push event := by
  unfold emit
  cases hsend : M.send chan event with
  | ok p =>
    obtain ⟨n, chan'⟩ := p
    obtain ⟨hn, hne, hstate⟩ := M.send_ok _ _ _ _ hsend
    exact ⟨hn, hstate.trans (if_neg hne.ne_empty).symm⟩
  | error e =>
    have hempty := M.send_error _ _ _ hsend
    exact ⟨by simp [hempty], (if_pos hempty).symm⟩

theorem recv_eq_some {chan chan' : M.Chan} {x : ρ} {r : Received E}
    (h : M.recv chan x = some (r, chan')) :
    (M.state chan).recv x = some (r, M.state chan') := by
  rw [← M.recv_eq, h]
  rfl

end

end Forgeclaw.Core.Event
