/-
  Broadcast channels of an asynchronous runtime: many senders, many receivers, and each
  receiver is given what is sent after it subscribed.

  A channel retains a bounded number of values, for all receivers together (`Ring`). A receiver
  that is too slow is told how many values it missed. `Inbox` is the same from the side of one
  receiver, as if it had a buffer of its own.

  * `Ring.inbox_push`, `Ring.inbox_recv`: to each receiver the ring is an inbox;
  * `Account.push`, `Account.recv`: what a receiver was given, what it will be told that it
    missed and what waits for it are together all that was sent, in order;
  * `Inbox.receives_drain`: what a receiver still gets when nobody can send any more.
-/
import Mathlib

namespace Broadcast

variable {α ρ : Type}

/-- What a receiver is given: a value, the number of values it missed, or the news that no value
    can come any more. -/
inductive Received (α : Type) where
  | value (a : α)
  | lagged (n : Nat)
  | closed
  deriving DecidableEq, Repr

namespace Received

def value? : Received α → Option α
  | value a => some a
  | _ => none

/-- How many values it stands for. -/
def count : Received α → Nat
  | value _ => 1
  | lagged n => n
  | closed => 0

end Received

/-- The values of a trace. -/
def values (trace : List (Received α)) : List α := trace.filterMap Received.value?

/-- The trace stands for these values: each is given as it is, or is one of the values of a
    gap. -/
inductive Covers : List (Received α) → List α → Prop
  | nil : Covers [] []
  | value (a : α) {trace l} : Covers trace l → Covers (.value a :: trace) (a :: l)
  | lagged (gap : List α) {trace l} : Covers trace l →
      Covers (.lagged gap.length :: trace) (gap ++ l)
  | closed {trace l} : Covers trace l → Covers (.closed :: trace) l

namespace Covers

variable {trace trace' : List (Received α)} {l l' : List α}

theorem append (h : Covers trace l) (h' : Covers trace' l') :
    Covers (trace ++ trace') (l ++ l') := by
  induction h with
  | nil => exact h'
  | value a _ ih => exact .value a ih
  | lagged gap _ ih =>
    rw [List.append_assoc]
    exact .lagged gap ih
  | closed _ ih => exact .closed ih

theorem values_sublist (h : Covers trace l) : (values trace).Sublist l := by
  induction h with
  | nil => exact .refl _
  | value a _ ih => exact ih.cons_cons a
  | lagged gap _ ih => exact ih.trans (List.sublist_append_right gap _)
  | closed _ ih => exact ih

theorem length_eq (h : Covers trace l) : l.length = (trace.map Received.count).sum := by
  induction h with
  | nil => rfl
  | value a _ ih => simp [Received.count, ih, Nat.add_comm]
  | lagged gap _ ih => simp [Received.count, ih]
  | closed _ ih => simp [Received.count, ih]

theorem values_eq (h : Covers trace l) (hgap : ∀ n, .lagged n ∉ trace) : values trace = l := by
  induction h with
  | nil => rfl
  | value a _ ih =>
    exact congrArg (a :: ·) (ih fun n hn => hgap n (List.mem_cons_of_mem _ hn))
  | lagged gap _ _ => exact absurd List.mem_cons_self (hgap _)
  | closed _ ih => exact ih fun n hn => hgap n (List.mem_cons_of_mem _ hn)

end Covers

/-! ## One receiver -/

/-- What waits for a receiver: first the number of values that it missed, then values. -/
structure Inbox (α : Type) where
  missed : Nat
  pending : List α
  deriving DecidableEq, Repr

namespace Inbox

def new : Inbox α := ⟨0, []⟩

/-- A value arrives; the oldest one makes room for it. -/
def push (capacity : Nat) (a : α) (b : Inbox α) : Inbox α :=
  if b.pending.length < capacity then ⟨b.missed, b.pending ++ [a]⟩
  else ⟨b.missed + 1, (b.pending ++ [a]).drop 1⟩

/-- The next thing given to the receiver; `none` while it has to wait. -/
def recv (closed : Bool) (b : Inbox α) : Option (Received α × Inbox α) :=
  if 0 < b.missed then some (.lagged b.missed, ⟨0, b.pending⟩)
  else
    match b.pending with
    | a :: rest => some (.value a, ⟨0, rest⟩)
    | [] => if closed then some (.closed, b) else none

/-- A gap is there only when all room is taken. -/
structure Bounded (capacity : Nat) (b : Inbox α) : Prop where
  le : b.pending.length ≤ capacity
  full : 0 < b.missed → b.pending.length = capacity

variable {capacity : Nat} {b b' : Inbox α}

theorem bounded_new : Bounded capacity (new : Inbox α) :=
  ⟨Nat.zero_le _, fun h => absurd h (Nat.lt_irrefl 0)⟩

theorem Bounded.push (h : Bounded capacity b) (a : α) : Bounded capacity (b.push capacity a) := by
  unfold Inbox.push
  split
  · rename_i hroom
    refine ⟨?_, fun hmissed => absurd (h.full hmissed) (Nat.ne_of_lt hroom)⟩
    rw [List.length_append, List.length_singleton]
    exact hroom
  · rename_i hroom
    have hfull := Nat.le_antisymm h.le (Nat.le_of_not_lt hroom)
    have hlen : ((b.pending ++ [a]).drop 1).length = capacity := by
      rw [List.length_drop, List.length_append, List.length_singleton, hfull]
      exact Nat.add_sub_cancel _ _
    exact ⟨hlen.le, fun _ => hlen⟩

/-- What can be given to a receiver, and what is left then. -/
theorem recv_eq_some {closed : Bool} {r : Received α} (h : b.recv closed = some (r, b')) :
    (0 < b.missed ∧ r = .lagged b.missed ∧ b' = ⟨0, b.pending⟩) ∨
      (b.missed = 0 ∧ ∃ a rest, b.pending = a :: rest ∧ r = .value a ∧ b' = ⟨0, rest⟩) ∨
      (b.missed = 0 ∧ b.pending = [] ∧ closed = true ∧ r = .closed ∧ b' = b) := by
  unfold recv at h
  split at h
  · rename_i hmissed
    cases h
    exact .inl ⟨hmissed, rfl, rfl⟩
  · rename_i hmissed
    have hzero : b.missed = 0 := Nat.eq_zero_of_not_pos hmissed
    split at h
    · rename_i a rest hpending
      cases h
      exact .inr (.inl ⟨hzero, a, rest, hpending, rfl, rfl⟩)
    · rename_i hpending
      split at h
      · rename_i hclosed
        cases h
        exact .inr (.inr ⟨hzero, hpending, hclosed, rfl, rfl⟩)
      · cases h

theorem recv_eq_none {closed : Bool} (h : b.recv closed = none) :
    b.missed = 0 ∧ b.pending = [] := by
  unfold recv at h
  split at h
  · cases h
  · rename_i hmissed
    split at h
    · cases h
    · exact ⟨Nat.eq_zero_of_not_pos hmissed, ‹_›⟩

theorem Bounded.recv (h : Bounded capacity b) {closed : Bool} {r : Received α}
    (hr : b.recv closed = some (r, b')) : Bounded capacity b' := by
  obtain ⟨-, -, rfl⟩ | ⟨-, a, rest, hpending, -, rfl⟩ | ⟨-, -, -, -, rfl⟩ := recv_eq_some hr
  · exact ⟨h.le, fun hmissed => absurd hmissed (Nat.lt_irrefl 0)⟩
  · refine ⟨?_, fun hmissed => absurd hmissed (Nat.lt_irrefl 0)⟩
    have hle := h.le
    rw [hpending, List.length_cons] at hle
    exact Nat.le_of_succ_le hle
  · exact h

/-! ### When nobody can send any more -/

/-- What is given one after the other, once the channel is closed. -/
inductive Receives : Inbox α → List (Received α) → Inbox α → Prop
  | nil (b : Inbox α) : Receives b [] b
  | cons {b b' b'' : Inbox α} {r : Received α} {rs : List (Received α)} :
      b.recv true = some (r, b') → Receives b' rs b'' → Receives b (r :: rs) b''

/-- The gap if there is one, the values, and that this is all. -/
def drain (b : Inbox α) : List (Received α) :=
  (if b.missed = 0 then [] else [.lagged b.missed]) ++ b.pending.map .value ++ [.closed]

theorem receives_pending (l : List α) :
    Receives ⟨0, l⟩ (l.map .value ++ [.closed]) (new : Inbox α) := by
  induction l with
  | nil => exact .cons rfl (.nil _)
  | cons a l ih => exact .cons rfl ih

/-- **A closed channel gives what it retains, and then says that it is closed.** -/
theorem receives_drain (b : Inbox α) : Receives b b.drain new := by
  obtain ⟨missed, pending⟩ := b
  cases missed with
  | zero => exact receives_pending pending
  | succ missed => exact .cons rfl (receives_pending pending)

end Inbox

/-! ## The account of a receiver -/

/-- All that was sent since it subscribed: what the trace stands for, the gap to be told, and
    what waits. -/
def Account (sent : List α) (trace : List (Received α)) (b : Inbox α) : Prop :=
  ∃ told gap, Covers trace told ∧ gap.length = b.missed ∧ sent = told ++ (gap ++ b.pending)

namespace Account

variable {sent : List α} {trace : List (Received α)} {b b' : Inbox α}

theorem new : Account ([] : List α) [] Inbox.new := ⟨[], [], .nil, rfl, rfl⟩

theorem push (h : Account sent trace b) (capacity : Nat) (a : α) :
    Account (sent ++ [a]) trace (b.push capacity a) := by
  obtain ⟨told, gap, hcovers, hgap, rfl⟩ := h
  unfold Inbox.push
  split
  · exact ⟨told, gap, hcovers, hgap, by simp⟩
  · -- the oldest value joins the gap
    refine ⟨told, gap ++ (b.pending ++ [a]).take 1, hcovers, ?_, ?_⟩
    · show (gap ++ _).length = b.missed + 1
      rw [List.length_append, hgap, List.length_take, List.length_append, List.length_singleton]
      omega
    · rw [List.append_assoc gap, List.take_append_drop]
      simp

theorem recv (h : Account sent trace b) {closed : Bool} {r : Received α}
    (hr : b.recv closed = some (r, b')) : Account sent (trace ++ [r]) b' := by
  obtain ⟨told, gap, hcovers, hgap, rfl⟩ := h
  obtain ⟨-, rfl, rfl⟩ | ⟨hzero, a, rest, hpending, rfl, rfl⟩ | ⟨hzero, hpending, -, rfl, rfl⟩ :=
    Inbox.recv_eq_some hr
  · refine ⟨told ++ gap, [], hcovers.append ?_, rfl, by simp⟩
    rw [← hgap, ← List.append_nil gap]
    simpa using Covers.lagged gap .nil
  · obtain rfl := List.eq_nil_of_length_eq_zero (hgap.trans hzero)
    exact ⟨told ++ [a], [], hcovers.append (.value a .nil), rfl, by simp [hpending]⟩
  · refine ⟨told, gap, ?_, hgap, rfl⟩
    rw [← List.append_nil told]
    exact hcovers.append (.closed .nil)

/-- What it was given is an initial part of what was sent. -/
theorem told (h : Account sent trace b) : ∃ told, Covers trace told ∧ told <+: sent := by
  obtain ⟨told, gap, hcovers, -, rfl⟩ := h
  exact ⟨told, hcovers, List.prefix_append _ _⟩

theorem covers (h : Account sent trace b) (hmissed : b.missed = 0) (hpending : b.pending = []) :
    Covers trace sent := by
  obtain ⟨told, gap, hcovers, hgap, rfl⟩ := h
  obtain rfl := List.eq_nil_of_length_eq_zero (hgap.trans hmissed)
  rwa [hpending, List.append_nil, List.append_nil]

/-- What it still has to be told or given, in numbers. -/
theorem length (h : Account sent trace b) :
    sent.length = (trace.map Received.count).sum + (b.missed + b.pending.length) := by
  obtain ⟨told, gap, hcovers, hgap, rfl⟩ := h
  rw [List.length_append, List.length_append, hcovers.length_eq, hgap]

theorem receives (h : Account sent trace b) {rs : List (Received α)}
    (hrs : b.Receives rs b') : Account sent (trace ++ rs) b' := by
  induction hrs generalizing trace with
  | nil b => simpa using h
  | cons hr _ ih =>
    have hrest := ih (h.recv hr)
    rwa [List.append_assoc] at hrest

end Account

/-! ## The channel -/

/-- What a broadcast channel holds: the values that it retains, the oldest first, and for each
    receiver how many of all values ever sent it is past. -/
structure Ring (α ρ : Type) where
  capacity : Nat
  /-- The values that made room. -/
  released : Nat
  items : List α
  senders : Nat
  receivers : Finset ρ
  cursor : ρ → Nat
  pos : 0 < capacity
  bounded : items.length ≤ capacity
  reached : ∀ x, cursor x ≤ released + items.length

namespace Ring

variable [DecidableEq ρ]

/-- A channel with its first sender and its first receiver. -/
def new (capacity : Nat) (h : 0 < capacity) (x : ρ) : Ring α ρ where
  capacity := capacity
  released := 0
  items := []
  senders := 1
  receivers := {x}
  cursor _ := 0
  pos := h
  bounded := Nat.zero_le _
  reached _ := Nat.zero_le _

/-- A value arrives; when all room is taken, the oldest one is released. -/
def push (a : α) (r : Ring α ρ) : Ring α ρ where
  capacity := r.capacity
  released := r.released + (r.items.length + 1 - r.capacity)
  items := (r.items ++ [a]).drop (r.items.length + 1 - r.capacity)
  senders := r.senders
  receivers := r.receivers
  cursor := r.cursor
  pos := r.pos
  bounded := by
    have := r.pos
    rw [List.length_drop, List.length_append, List.length_singleton]
    omega
  reached x := by
    have := r.reached x
    have := r.pos
    rw [List.length_drop, List.length_append, List.length_singleton]
    omega

/-- A new receiver is past all that was sent before. -/
def subscribe (x : ρ) (r : Ring α ρ) : Ring α ρ :=
  { r with
    receivers := insert x r.receivers
    cursor := Function.update r.cursor x (r.released + r.items.length)
    reached := fun y => by
      rw [Function.update_apply]
      split
      · exact le_rfl
      · exact r.reached y }

def dropReceiver (x : ρ) (r : Ring α ρ) : Ring α ρ :=
  { r with receivers := r.receivers.erase x }

def setSenders (n : Nat) (r : Ring α ρ) : Ring α ρ := { r with senders := n }

def moveTo (x : ρ) (n : Nat) (r : Ring α ρ) (h : n ≤ r.released + r.items.length) : Ring α ρ :=
  { r with
    cursor := Function.update r.cursor x n
    reached := fun y => by
      rw [Function.update_apply]
      split
      · exact h
      · exact r.reached y }

/-- A receiver that is behind the retained values is told how far, and is past it. -/
def recv (x : ρ) (r : Ring α ρ) : Option (Received α × Ring α ρ) :=
  if r.cursor x < r.released then
    some (.lagged (r.released - r.cursor x), r.moveTo x r.released (Nat.le_add_right _ _))
  else if h : r.cursor x - r.released < r.items.length then
    some (.value r.items[r.cursor x - r.released], r.moveTo x (r.cursor x + 1) (by omega))
  else if r.senders = 0 then some (.closed, r)
  else none

/-- The ring from the side of one receiver. -/
def inbox (x : ρ) (r : Ring α ρ) : Inbox α :=
  ⟨r.released - r.cursor x, r.items.drop (r.cursor x - r.released)⟩

theorem moveTo_cursor (r : Ring α ρ) (x : ρ) : r.moveTo x (r.cursor x) (r.reached x) = r := by
  cases r
  simp [moveTo]

omit [DecidableEq ρ] in
/-- **What arrives in the ring arrives in the inbox of each receiver.** -/
theorem inbox_push (x : ρ) (r : Ring α ρ) (a : α) :
    (r.push a).inbox x = (r.inbox x).push r.capacity a := by
  have hpos := r.pos
  have hbounded := r.bounded
  have hreached := r.reached x
  have hdrop : (r.items ++ [a]).drop (r.cursor x - r.released)
      = r.items.drop (r.cursor x - r.released) ++ [a] :=
    List.drop_append_of_le_length (by omega)
  unfold Inbox.push inbox
  rw [List.length_drop]
  split
  · rename_i hroom
    simp only [push, List.drop_drop, Inbox.mk.injEq]
    refine ⟨by omega, ?_⟩
    rw [← hdrop]
    congr 1
    omega
  · rename_i hroom
    -- the ring is full, and nothing of it was given to the receiver
    simp only [push, List.drop_drop, Inbox.mk.injEq]
    refine ⟨by omega, ?_⟩
    rw [← hdrop, List.drop_drop]
    congr 1
    omega

theorem inbox_subscribe_self (x : ρ) (r : Ring α ρ) : (r.subscribe x).inbox x = .new := by
  simp [inbox, subscribe, Inbox.new]

theorem inbox_subscribe_of_ne {x y : ρ} (h : y ≠ x) (r : Ring α ρ) :
    (r.subscribe x).inbox y = r.inbox y := by
  simp [inbox, subscribe, h]

theorem inbox_moveTo_of_ne {x y : ρ} (h : y ≠ x) {n : Nat} {r : Ring α ρ}
    (hn : n ≤ r.released + r.items.length) : (r.moveTo x n hn).inbox y = r.inbox y := by
  simp [inbox, moveTo, h]

/-- **A receiver gets from the ring what it gets from its inbox.** -/
theorem inbox_recv (x : ρ) (r : Ring α ρ) :
    (r.recv x).map (fun p => (p.1, p.2.inbox x)) = (r.inbox x).recv (r.senders == 0) := by
  unfold recv Inbox.recv inbox
  by_cases hlag : r.cursor x < r.released
  · have hmissed : 0 < r.released - r.cursor x := Nat.sub_pos_of_lt hlag
    have hzero : r.cursor x - r.released = 0 := Nat.sub_eq_zero_of_le hlag.le
    simp [hlag, hzero, moveTo]
  · have hmissed : ¬ 0 < r.released - r.cursor x := by omega
    rw [if_neg hlag, if_neg hmissed]
    by_cases hitem : r.cursor x - r.released < r.items.length
    · have hsucc : r.cursor x + 1 - r.released = r.cursor x - r.released + 1 := by omega
      have hzero : r.released - (r.cursor x + 1) = 0 := by omega
      rw [dif_pos hitem, List.drop_eq_getElem_cons hitem]
      simp [moveTo, hsucc, hzero]
    · rw [dif_neg hitem, List.drop_eq_nil_of_le (Nat.le_of_not_lt hitem)]
      by_cases hsenders : r.senders = 0
      · have hnil := List.drop_eq_nil_of_le (Nat.le_of_not_lt hitem)
        simp [hsenders, hnil]
      · simp [hsenders]

theorem recv_inbox {x : ρ} {r r' : Ring α ρ} {v : Received α} (h : r.recv x = some (v, r')) :
    (r.inbox x).recv (r.senders == 0) = some (v, r'.inbox x) := by
  rw [← inbox_recv, h]
  rfl

/-- A receipt moves the cursor of its receiver and changes nothing else. -/
theorem recv_eq_some {x : ρ} {r r' : Ring α ρ} {v : Received α}
    (h : r.recv x = some (v, r')) : ∃ n hn, r' = r.moveTo x n hn := by
  unfold recv at h
  split at h
  · cases h
    exact ⟨_, _, rfl⟩
  · split at h
    · cases h
      exact ⟨_, _, rfl⟩
    · split at h
      · cases h
        exact ⟨r.cursor x, r.reached x, (r.moveTo_cursor x).symm⟩
      · cases h

end Ring

/-- A broadcast channel, with its receivers under names. What waits gives `none`; a value that
    is sent to nobody is given back. -/
structure Channel (α ρ : Type) [DecidableEq ρ] where
  Chan : Type
  state : Chan → Ring α ρ
  /-- The largest capacity that a channel is made with. -/
  limit : Nat
  channel : Nat → ρ → Chan
  send : Chan → α → Except α (Nat × Chan)
  recv : Chan → ρ → Option (Received α × Chan)
  subscribe : Chan → ρ → Chan
  clone : Chan → Chan
  dropSender : Chan → Chan
  dropReceiver : Chan → ρ → Chan
  /-- It may retain more than it was asked to. -/
  state_channel : ∀ n x, 0 < n → n ≤ limit →
    ∃ capacity h, n ≤ capacity ∧ state (channel n x) = .new capacity h x
  send_ok : ∀ c a n c', send c a = .ok (n, c') →
    n = (state c).receivers.card ∧ (state c).receivers.Nonempty ∧ state c' = (state c).push a
  send_error : ∀ c a e, send c a = .error e → (state c).receivers = ∅
  recv_eq : ∀ c x, (recv c x).map (fun p => (p.1, state p.2)) = (state c).recv x
  state_subscribe : ∀ c x, state (subscribe c x) = (state c).subscribe x
  state_clone : ∀ c, state (clone c) = (state c).setSenders ((state c).senders + 1)
  state_dropSender : ∀ c, state (dropSender c) = (state c).setSenders ((state c).senders - 1)
  state_dropReceiver : ∀ c x, state (dropReceiver c x) = (state c).dropReceiver x

attribute [simp] Channel.state_subscribe Channel.state_clone Channel.state_dropSender
  Channel.state_dropReceiver

/-- The description as an implementation. -/
def Ring.channel (α ρ : Type) [DecidableEq ρ] : Channel α ρ where
  Chan := Ring α ρ
  state r := r
  limit := 2 ^ 63 - 1
  channel n x := .new (max n 1) (Nat.le_max_right n 1) x
  send r a := if r.receivers = ∅ then .error a else .ok (r.receivers.card, r.push a)
  recv r x := r.recv x
  subscribe r x := r.subscribe x
  clone r := r.setSenders (r.senders + 1)
  dropSender r := r.setSenders (r.senders - 1)
  dropReceiver r x := r.dropReceiver x
  state_channel n x _ _ := ⟨max n 1, Nat.le_max_right n 1, Nat.le_max_left n 1, rfl⟩
  send_ok r a n r' h := by
    split at h
    · cases h
    · rename_i hne
      cases h
      exact ⟨rfl, Finset.nonempty_iff_ne_empty.mpr hne, rfl⟩
  send_error r a e h := by
    split at h
    · assumption
    · cases h
  recv_eq r x := by
    cases r.recv x <;> rfl
  state_subscribe _ _ := rfl
  state_clone _ := rfl
  state_dropSender _ := rfl
  state_dropReceiver _ _ := rfl

end Broadcast
