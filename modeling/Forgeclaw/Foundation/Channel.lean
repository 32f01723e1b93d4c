/-
  Channels of an asynchronous runtime: a bounded queue with many senders and one receiver, and
  a channel for a single value.

  `Queue` and `Cell` say what such a channel holds at any time. An implementation (`Mpsc`,
  `Oneshot`) has a representation and operations of its own, of which it promises only what
  they do to that: it may keep a sender waiting although there is room.

  * `Queue.mpsc`, `Cell.oneshot`: the descriptions, run as implementations.
-/
import Mathlib

namespace Channel

/-! ## A bounded queue -/

/-- What a bounded channel holds: its messages, the oldest first, the number of its senders and
whether its receiver is still there. -/
structure Queue (α : Type) where
  capacity : Nat
  items : List α
  senders : Nat
  receiver : Bool

namespace Queue

variable {α : Type}

def new (n : Nat) : Queue α := ⟨n, [], 1, true⟩

def push (q : Queue α) (a : α) : Queue α := { q with items := q.items ++ [a] }

/-- The receiver goes, and the messages that it has not received go with it. -/
def dropReceiver (q : Queue α) : Queue α := { q with items := [], receiver := false }

end Queue

/-- A bounded channel. An operation that has to wait gives `none`. A send is one step, which puts
    its message in and so has room for it; `channel` is for sizes that the runtime allows. -/
structure Mpsc (α : Type) where
  Chan : Type
  state : Chan → Queue α
  channel : Nat → Chan
  send : Chan → α → Option (Except Unit Chan)
  recv : Chan → Option (Option α × Chan)
  clone : Chan → Chan
  dropSender : Chan → Chan
  dropReceiver : Chan → Chan
  /-- Nothing is promised of a channel without room. -/
  state_channel : ∀ n, 0 < n → state (channel n) = .new n
  send_ok : ∀ c a c', send c a = some (.ok c') →
    (state c).receiver = true ∧ (state c).items.length < (state c).capacity ∧
      state c' = (state c).push a
  send_error : ∀ c a e, send c a = some (.error e) → (state c).receiver = false
  send_closed : ∀ c a, (state c).receiver = false → send c a = some (.error ())
  recv_some : ∀ c a c', recv c = some (some a, c') →
    ∃ rest, (state c).items = a :: rest ∧ state c' = { state c with items := rest }
  recv_none : ∀ c c', recv c = some (none, c') →
    (state c).items = [] ∧ (state c).senders = 0 ∧ state c' = state c
  state_clone : ∀ c, state (clone c) = { state c with senders := (state c).senders + 1 }
  state_dropSender : ∀ c, state (dropSender c) = { state c with senders := (state c).senders - 1 }
  state_dropReceiver : ∀ c, state (dropReceiver c) = (state c).dropReceiver

/-! ## A channel for one value -/

/-- What a channel for one value holds. When its receiver has gone, what is sent is lost. -/
inductive Cell (α : Type) where
  | empty
  | sent (a : α)
  | closed
  | deaf

namespace Cell

variable {α : Type}

def send (c : Cell α) (a : α) : Cell α :=
  match c with
  | empty => sent a
  | c => c

/-- The sender goes without a value. -/
def dropSender : Cell α → Cell α
  | empty => closed
  | c => c

def recv : Cell α → Option (Except Unit α)
  | sent a => some (.ok a)
  | closed => some (.error ())
  | _ => none

end Cell

/-- A channel for one value. -/
structure Oneshot (α : Type) where
  Chan : Type
  state : Chan → Cell α
  channel : Chan
  send : Chan → α → Chan
  dropSender : Chan → Chan
  dropReceiver : Chan → Chan
  recv : Chan → Option (Except Unit α)
  state_channel : state channel = .empty
  state_send : ∀ c a, state (send c a) = (state c).send a
  state_dropSender : ∀ c, state (dropSender c) = (state c).dropSender
  state_dropReceiver : ∀ c, state (dropReceiver c) = .deaf
  recv_eq : ∀ c, recv c = (state c).recv

attribute [simp] Mpsc.state_clone Mpsc.state_dropSender Mpsc.state_dropReceiver
attribute [simp] Oneshot.state_channel Oneshot.state_send Oneshot.state_dropSender
  Oneshot.state_dropReceiver

/-! ## The descriptions as implementations -/

def Queue.mpsc (α : Type) : Mpsc α where
  Chan := Queue α
  state q := q
  channel := .new
  send q a :=
    if q.receiver then if q.items.length < q.capacity then some (.ok (q.push a)) else none
    else some (.error ())
  recv q :=
    match q.items with
    | a :: rest => some (some a, { q with items := rest })
    | [] => if q.senders = 0 then some (none, q) else none
  clone q := { q with senders := q.senders + 1 }
  dropSender q := { q with senders := q.senders - 1 }
  dropReceiver := dropReceiver
  state_channel _ _ := rfl
  send_ok q a q' h := by
    split at h
    · split at h
      · cases h
        exact ⟨‹_›, ‹_›, rfl⟩
      · cases h
    · cases h
  send_error q a e h := by
    split at h
    · split at h <;> cases h
    · simp_all
  send_closed q a h := by simp [h]
  recv_some q a q' h := by
    split at h
    · cases h
      exact ⟨_, ‹_›, rfl⟩
    · split at h <;> cases h
  recv_none q q' h := by
    split at h
    · cases h
    · split at h
      · cases h
        exact ⟨‹_›, ‹_›, rfl⟩
      · cases h
  state_clone _ := rfl
  state_dropSender _ := rfl
  state_dropReceiver _ := rfl

def Cell.oneshot (α : Type) : Oneshot α where
  Chan := Cell α
  state c := c
  channel := .empty
  send := Cell.send
  dropSender := Cell.dropSender
  dropReceiver _ := .deaf
  recv := Cell.recv
  state_channel := rfl
  state_send _ _ := rfl
  state_dropSender _ := rfl
  state_dropReceiver _ := rfl
  recv_eq _ := rfl

end Channel
