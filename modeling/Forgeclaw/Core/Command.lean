/-
  `crates/core/src/command/mod.rs`: the command bus.

  The state is what the program holds: the channel of the bus, the clones of the bus, the calls
  with where each of them waits, a response channel for each call, and for each response
  channel where its sending half is. `sent` and `yielded` are kept for the statements only.

  A step is what a task does between two waits. `call` borrows its bus, so that a bus is only
  dropped when no call of its own runs; `recv` and `respond` take what they need by `&mut` or by
  value, so that only a living receiver receives and a responder answers once.
-/
import Forgeclaw.Foundation.Channel
import Forgeclaw.Foundation.Transition
import Forgeclaw.Core.Error

namespace Forgeclaw.Core.Command

open Channel

/-- `CommandError`. -/
inductive CommandError where
  | handlerDropped
  | handler (e : ErrorClass)
  deriving DecidableEq, Repr

def CommandError.isRetriable : CommandError → Bool
  | handlerDropped => false
  | handler e => e.isRetriable

/-- `Envelope`. The responder is the sending half of the channel `χ`. -/
structure Envelope (C χ : Type) where
  command : C
  responder : χ

/-- Where a call is: at the first `await` of `call`, at the second, back at the caller, or
dropped by the caller. -/
inductive Phase (R : Type) where
  | sending
  | waiting
  | returned (res : Except CommandError R)
  | cancelled

def Phase.inFlight {R : Type} : Phase R → Bool
  | sending | waiting => true
  | returned _ | cancelled => false

/-- One `call` of a bus; `rx` is the channel whose receiving half is its `resp_rx`. -/
structure Call (β C χ R : Type) where
  bus : β
  command : C
  rx : χ
  phase : Phase R

def Call.envelope {β C χ R : Type} (c : Call β C χ R) : Envelope C χ := ⟨c.command, c.rx⟩

/-- What `call` makes of what its response channel resolves to:
`.map_err(|_| CommandError::HandlerDropped)?.map_err(CommandError::Handler)`. -/
def callResult {R : Type} (r : Except Unit (Except ErrorClass R)) : Except CommandError R := do
  let response ← r.mapError fun _ => .handlerDropped
  response.mapError .handler

/-- Where the sending half of a response channel is. -/
inductive Fate (R : Type) where
  /-- There is no such channel yet. -/
  | unborn
  /-- In the envelope that its call has not sent yet. -/
  | inCall
  | queued
  /-- With the handler, as a `Responder`. -/
  | held
  | answered (r : Except ErrorClass R)
  /-- The handler dropped the `Responder` without a response. -/
  | abandoned
  /-- Dropped in an envelope that nobody received. -/
  | lost

namespace Fate

variable {R : Type}

def received : Fate R → Bool
  | held | answered _ | abandoned => true
  | _ => false

def leftCall : Fate R → Bool
  | unborn | inCall => false
  | _ => true

end Fate

section

variable {β κ χ C R : Type} [DecidableEq β] [DecidableEq κ] [DecidableEq χ]

structure State (M : Mpsc (Envelope C χ)) (O : Oneshot (Except ErrorClass R)) (β κ : Type) where
  chan : M.Chan
  buses : Finset β
  calls : κ → Option (Call β C χ R)
  responses : χ → Option O.Chan
  fate : χ → Fate R
  sent : List (Envelope C χ)
  yielded : List (Envelope C χ)

variable (M : Mpsc (Envelope C χ)) (O : Oneshot (Except ErrorClass R))

variable {M O} in
/-- What is in the channel of the bus. -/
def State.queue (s : State M O β κ) : Queue (Envelope C χ) := M.state s.chan

/-- `CommandBus::new`: the first bus is `b`. -/
def new (capacity : Nat) (b : β) : State M O β κ :=
  ⟨M.channel (max capacity 1), {b}, fun _ => none, fun _ => none, fun _ => .unborn, [], []⟩

inductive Act (β κ χ : Type) where
  | clone (b b' : β)
  | dropBus (b : β)
  | call (k : κ)
  | sent (k : κ)
  | sendFailed (k : κ)
  | cancel (k : κ)
  | finish (k : κ)
  | recv
  | recvNone
  | respond (ch : χ)
  | dropResponder (ch : χ)
  | dropReceiver

open Function in
/-- What the tasks that share a bus do. -/
inductive Step : State M O β κ → Act β κ χ → State M O β κ → Prop
  | clone (s b b') : b ∈ s.buses → b' ∉ s.buses →
      Step s (.clone b b') { s with chan := M.clone s.chan, buses := insert b' s.buses }
  | dropBus (s b) : b ∈ s.buses →
      (∀ k c, s.calls k = some c → c.bus = b → c.phase.inFlight = false) →
      Step s (.dropBus b) { s with chan := M.dropSender s.chan, buses := s.buses.erase b }
  -- `call` up to the first `await`: the response channel is its own, and new.
  | call (s k b command rx) : b ∈ s.buses → s.calls k = none → s.responses rx = none →
      Step s (.call k)
        { s with
          calls := update s.calls k (some ⟨b, command, rx, .sending⟩)
          responses := update s.responses rx (some O.channel)
          fate := update s.fate rx .inCall }
  | sent (s k c chan) : s.calls k = some c → c.phase = .sending →
      M.send s.chan c.envelope = some (.ok chan) →
      Step s (.sent k)
        { s with
          chan := chan
          calls := update s.calls k (some { c with phase := .waiting })
          fate := update s.fate c.rx .queued
          sent := s.sent ++ [c.envelope] }
  -- The error holds the envelope, which `map_err(|_| ..)` drops.
  | sendFailed (s k c o e) : s.calls k = some c → c.phase = .sending →
      s.responses c.rx = some o → M.send s.chan c.envelope = some (.error e) →
      Step s (.sendFailed k)
        { s with
          calls := update s.calls k (some { c with phase := .returned (.error .handlerDropped) })
          responses := update s.responses c.rx (some (O.dropReceiver (O.dropSender o)))
          fate := update s.fate c.rx .lost }
  | cancelSending (s k c o) : s.calls k = some c → c.phase = .sending →
      s.responses c.rx = some o →
      Step s (.cancel k)
        { s with
          calls := update s.calls k (some { c with phase := .cancelled })
          responses := update s.responses c.rx (some (O.dropReceiver (O.dropSender o)))
          fate := update s.fate c.rx .lost }
  | cancelWaiting (s k c o) : s.calls k = some c → c.phase = .waiting →
      s.responses c.rx = some o →
      Step s (.cancel k)
        { s with
          calls := update s.calls k (some { c with phase := .cancelled })
          responses := update s.responses c.rx (some (O.dropReceiver o)) }
  | finish (s k c o r) : s.calls k = some c → c.phase = .waiting →
      s.responses c.rx = some o → O.recv o = some r →
      Step s (.finish k)
        { s with
          calls := update s.calls k (some { c with phase := .returned (callResult r) })
          responses := update s.responses c.rx (some (O.dropReceiver o)) }
  | recv (s e chan) : s.queue.receiver = true → M.recv s.chan = some (some e, chan) →
      Step s .recv
        { s with
          chan := chan
          fate := update s.fate e.responder .held
          yielded := s.yielded ++ [e] }
  | recvNone (s chan) : s.queue.receiver = true → M.recv s.chan = some (none, chan) →
      Step s .recvNone { s with chan := chan }
  -- `let _ = self.tx.send(result)`: a caller that has gone is no error.
  | respond (s ch o r) : s.fate ch = .held → s.responses ch = some o →
      Step s (.respond ch)
        { s with
          responses := update s.responses ch (some (O.send o r))
          fate := update s.fate ch (.answered r) }
  | dropResponder (s ch o) : s.fate ch = .held → s.responses ch = some o →
      Step s (.dropResponder ch)
        { s with
          responses := update s.responses ch (some (O.dropSender o))
          fate := update s.fate ch .abandoned }
  -- The queued envelopes go with the receiver, and the responders in them.
  | dropReceiver (s) : s.queue.receiver = true →
      Step s .dropReceiver
        { s with
          chan := M.dropReceiver s.chan
          responses := fun ch =>
            if ch ∈ s.queue.items.map Envelope.responder then (s.responses ch).map O.dropSender
            else s.responses ch
          fate := fun ch =>
            if ch ∈ s.queue.items.map Envelope.responder then .lost else s.fate ch }

/-- A bus made with `capacity`, and everything that its clones, their calls and its one receiver
can do. -/
def system (β κ : Type) [DecidableEq β] [DecidableEq κ] (capacity : Nat) :
    TransitionSystem (State M O β κ) (Act β κ χ) where
  Init s := ∃ b, s = new M O capacity b
  Step := Step M O

end

end Forgeclaw.Core.Command
