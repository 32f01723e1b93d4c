/-
  What a subscriber of the event bus is given, whatever the other subscribers do.

  Each subscriber sees the channel as a buffer of its own (`View`), so that what holds of such a
  buffer holds of the bus.

  * `step_view`: a step of the bus is a step of each subscriber's view;
  * `Served.step`: every step keeps the account of the subscriber;
  * `independent`, `delivered`, `no_loss`, `rest_after_close`: what a subscriber can rely on.
-/
import Forgeclaw.Core.Event

namespace Forgeclaw.Core.Event

open Broadcast

section

variable {β ρ E : Type} [DecidableEq β] [DecidableEq ρ] {M : Channel E ρ}

/-! ## The bus and its channel -/

structure Sound (capacity : Nat) (ring : Ring E ρ) (buses : Finset β)
    (subs : ρ → Option (Subscription E)) : Prop where
  room : max capacity 1 ≤ ring.capacity
  senders : ring.senders = buses.card
  receivers : ∀ x, x ∈ ring.receivers ↔ ∃ u, subs x = some u ∧ u.live = true

abbrev Inv (capacity : Nat) (s : State M β) : Prop := Sound capacity s.ring s.buses s.subs

namespace Sound

variable {capacity : Nat} {ring ring' : Ring E ρ} {buses : Finset β}
  {subs : ρ → Option (Subscription E)} {x : ρ} {u : Subscription E}

omit [DecidableEq β] [DecidableEq ρ] in
/-- Without a receiver there is no subscription that an event could be for. -/
theorem emit_of_empty (h : Sound capacity ring buses subs) (hempty : ring.receivers = ∅) (e : E) :
    (fun x => (subs x).map (.emit e)) = subs := by
  funext x
  cases hx : subs x with
  | none => rfl
  | some u =>
    have hu : ¬ u.live = true := fun hlive => by
      simpa [hempty] using (h.receivers x).2 ⟨u, hx, hlive⟩
    simp [Subscription.emit, hu]

omit [DecidableEq β] [DecidableEq ρ] in
theorem emit (h : Sound capacity ring buses subs) (e : E) :
    Sound capacity (ring.push e) buses (fun x => (subs x).map (.emit e)) := by
  refine ⟨h.room, h.senders, fun x => (h.receivers x).trans ?_⟩
  simp only [Option.map_eq_some_iff]
  constructor
  · rintro ⟨u, hu, hlive⟩
    exact ⟨u.emit e, ⟨u, hu, rfl⟩, by simp [Subscription.emit, hlive]⟩
  · rintro ⟨_, ⟨u, hu, rfl⟩, hlive⟩
    refine ⟨u, hu, ?_⟩
    unfold Subscription.emit at hlive
    split at hlive <;> exact hlive

omit [DecidableEq β] in
/-- A step of one subscriber. -/
theorem update (h : Sound capacity ring buses subs) (hcapacity : ring'.capacity = ring.capacity)
    (hsenders : ring'.senders = ring.senders)
    (hothers : ∀ y, y ≠ x → (y ∈ ring'.receivers ↔ y ∈ ring.receivers))
    (hlive : x ∈ ring'.receivers ↔ u.live = true) :
    Sound capacity ring' buses (Function.update subs x (some u)) := by
  refine ⟨hcapacity ▸ h.room, hsenders.trans h.senders, fun y => ?_⟩
  by_cases hy : y = x
  · subst hy
    simpa using hlive
  · rw [Function.update_of_ne hy, hothers y hy]
    exact h.receivers y

end Sound

omit [DecidableEq β] in
theorem inv_new {capacity : Nat} (hlimit : max capacity 1 ≤ M.limit) (b : β) (rx : ρ) :
    Inv capacity (new M capacity b rx) := by
  obtain ⟨n, hpos, hn, hstate⟩ := M.state_channel _ rx (Nat.le_max_right capacity 1) hlimit
  have hring : (new M capacity b rx).ring = (Ring.new n hpos rx).dropReceiver rx := by
    rw [← hstate]
    exact M.state_dropReceiver _ rx
  unfold Inv
  rw [hring]
  refine ⟨hn, rfl, fun x => ?_⟩
  simp [Ring.new, Ring.dropReceiver, new]

theorem step_inv {capacity : Nat} {s t : State M β} {a : Act β ρ E} (h : Inv capacity s)
    (hst : Step M s a t) : Inv capacity t := by
  cases hst with
  | clone b b' hb hb' =>
    show Sound _ (M.state (M.clone s.chan)) _ _
    rw [M.state_clone]
    refine ⟨h.room, ?_, h.receivers⟩
    rw [Finset.card_insert_of_notMem hb']
    exact congrArg (· + 1) h.senders
  | dropBus b hb =>
    show Sound _ (M.state (M.dropSender s.chan)) _ _
    rw [M.state_dropSender]
    refine ⟨h.room, ?_, h.receivers⟩
    rw [Finset.card_erase_of_mem hb]
    exact congrArg (· - 1) h.senders
  | emit b event hb =>
    show Sound _ (M.state (emit M s.chan event).2) _ _
    rw [(emit_eq s.chan event).2]
    split
    · rename_i hempty
      rw [h.emit_of_empty hempty]
      exact h
    · exact h.emit event
  | subscribe b x hb hx =>
    show Sound _ (M.state (M.subscribe s.chan x)) _ _
    rw [M.state_subscribe]
    refine h.update rfl rfl (fun y hy => ?_) ?_
    · simp [Ring.subscribe, hy, State.ring]
    · simp [Ring.subscribe, Subscription.new]
  | recv x u r chan hx hu hr =>
    obtain ⟨n, hn, hstate⟩ := Ring.recv_eq_some (recv_eq_some hr)
    show Sound _ (M.state chan) _ _
    rw [hstate]
    exact h.update rfl rfl (fun y hy => .rfl) (iff_of_true ((h.receivers x).2 ⟨u, hx, hu⟩) hu)
  | dropReceiver x u hx hu =>
    show Sound _ (M.state (M.dropReceiver s.chan x)) _ _
    rw [M.state_dropReceiver]
    refine h.update rfl rfl (fun y hy => ?_) ?_
    · simp [Ring.dropReceiver, hy, State.ring]
    · simp [Ring.dropReceiver, Subscription.drop]

theorem inv_of_reachable {capacity : Nat} {s : State M β}
    (h : (system M β capacity).Reachable s) : Inv capacity s :=
  h.invariant (fun ⟨hlimit, b, rx, hs⟩ => hs ▸ inv_new hlimit b rx) step_inv

/-! ## The bus as one subscriber sees it -/

/-- A subscriber, what waits for it as long as it is there, and the number of buses. -/
structure View (E : Type) where
  sub : Option (Subscription E)
  inbox : Inbox E
  senders : Nat

def isLive (sub : Option (Subscription E)) : Bool := sub.any Subscription.live

def viewOf (ring : Ring E ρ) (x : ρ) (sub : Option (Subscription E)) : View E :=
  ⟨sub, if isLive sub then ring.inbox x else .new, ring.senders⟩

def State.view (x : ρ) (s : State M β) : View E := viewOf s.ring x (s.subs x)

namespace View

def emit (capacity : Nat) (e : E) (v : View E) : View E :=
  { v with
    sub := v.sub.map (.emit e)
    inbox := if isLive v.sub then v.inbox.push capacity e else v.inbox }

def recv (v : View E) : View E :=
  if isLive v.sub then
    match v.inbox.recv (v.senders == 0) with
    | some (r, inbox) => { v with sub := v.sub.map (.recv r), inbox := inbox }
    | none => v
  else v

/-- What an action does for the subscriber `x`, that has a buffer of its own. -/
def step (capacity : Nat) (x : ρ) (v : View E) : Act β ρ E → View E
  | .clone _ _ => { v with senders := v.senders + 1 }
  | .dropBus _ => { v with senders := v.senders - 1 }
  | .emit _ e => v.emit capacity e
  | .subscribe _ y => if y = x then { v with sub := some .new, inbox := .new } else v
  | .recv y => if y = x then v.recv else v
  | .dropReceiver y => if y = x then { v with sub := v.sub.map .drop, inbox := .new } else v

end View

omit [DecidableEq ρ] in
theorem viewOf_push (ring : Ring E ρ) (x : ρ) (sub : Option (Subscription E)) (e : E) :
    viewOf (ring.push e) x (sub.map (.emit e)) = (viewOf ring x sub).emit ring.capacity e := by
  have hlive : isLive (sub.map (.emit e)) = isLive sub := by
    cases sub with
    | none => rfl
    | some u =>
      simp only [isLive, Option.map_some, Option.any_some, Subscription.emit]
      split <;> rfl
  unfold viewOf View.emit
  rw [hlive, Ring.inbox_push]
  cases isLive sub <;> rfl

omit [DecidableEq ρ] in
/-- An event for nobody. -/
theorem viewOf_emit_of_not_live (ring : Ring E ρ) (x : ρ) {sub : Option (Subscription E)}
    (h : isLive sub = false) (capacity : Nat) (e : E) :
    (viewOf ring x sub).emit capacity e = viewOf ring x sub := by
  unfold viewOf View.emit
  cases sub with
  | none => simp [isLive]
  | some u =>
    have hu : u.live = false := h
    simp [isLive, Subscription.emit, hu]

theorem viewOf_recv {ring ring' : Ring E ρ} {x : ρ} {u : Subscription E} (hu : u.live = true)
    {r : Received E} (hr : ring.recv x = some (r, ring')) :
    viewOf ring' x (some (u.recv r)) = (viewOf ring x (some u)).recv := by
  have hinbox := Ring.recv_inbox hr
  obtain ⟨n, hn, rfl⟩ := Ring.recv_eq_some hr
  have hlive : isLive (some u) = true := hu
  have hlive' : isLive (some (u.recv r)) = true := hu
  unfold View.recv viewOf
  simp only [hlive, hlive', if_true, hinbox]
  rfl

theorem viewOf_update_of_ne {ring ring' : Ring E ρ} {subs : ρ → Option (Subscription E)}
    {x y : ρ} (hyx : y ≠ x) {sub : Option (Subscription E)}
    (hinbox : ring'.inbox x = ring.inbox x) (hsenders : ring'.senders = ring.senders) :
    viewOf ring' x (Function.update subs y sub x) = viewOf ring x (subs x) := by
  unfold viewOf
  rw [Function.update_of_ne (Ne.symm hyx), hinbox, hsenders]

/-- **A step of the bus is a step of each subscriber's view.** -/
theorem step_view {capacity : Nat} {s t : State M β} {a : Act β ρ E} (h : Inv capacity s)
    (hst : Step M s a t) (x : ρ) :
    t.view x = (s.view x).step s.ring.capacity x a ∧ t.ring.capacity = s.ring.capacity := by
  cases hst with
  | clone b b' hb hb' =>
    show viewOf (M.state (M.clone s.chan)) x _ = _ ∧ (M.state (M.clone s.chan)).capacity = _
    rw [M.state_clone]
    exact ⟨rfl, rfl⟩
  | dropBus b hb =>
    show viewOf (M.state (M.dropSender s.chan)) x _ = _ ∧
      (M.state (M.dropSender s.chan)).capacity = _
    rw [M.state_dropSender]
    exact ⟨rfl, rfl⟩
  | emit b event hb =>
    show viewOf (M.state (emit M s.chan event).2) x ((s.subs x).map (.emit event)) =
      (s.view x).emit s.ring.capacity event ∧ (M.state (emit M s.chan event).2).capacity = _
    rw [(emit_eq s.chan event).2]
    split
    · rename_i hempty
      have hlive : isLive (s.subs x) = false := by
        cases hx : s.subs x with
        | none => rfl
        | some u =>
          refine Bool.eq_false_iff.2 fun hu => ?_
          simpa [State.ring, hempty] using (h.receivers x).2 ⟨u, hx, hu⟩
      rw [congrFun (h.emit_of_empty hempty event) x]
      exact ⟨(viewOf_emit_of_not_live _ x hlive _ event).symm, rfl⟩
    · exact ⟨viewOf_push _ x _ event, rfl⟩
  | subscribe b y hb hy =>
    show viewOf (M.state (M.subscribe s.chan y)) x (Function.update s.subs y _ x) =
      (if y = x then _ else s.view x) ∧ (M.state (M.subscribe s.chan y)).capacity = _
    rw [M.state_subscribe]
    refine ⟨?_, rfl⟩
    by_cases hyx : y = x
    · subst hyx
      rw [if_pos rfl, Function.update_self]
      simp only [viewOf, Ring.inbox_subscribe_self]
      rfl
    · rw [if_neg hyx]
      exact viewOf_update_of_ne hyx (Ring.inbox_subscribe_of_ne (Ne.symm hyx) _) rfl
  | recv y u r chan hy hu hr =>
    have hring := recv_eq_some hr
    obtain ⟨n, hn, hstate⟩ := Ring.recv_eq_some hring
    show viewOf (M.state chan) x (Function.update s.subs y _ x) =
      (if y = x then (s.view x).recv else s.view x) ∧ (M.state chan).capacity = _
    refine ⟨?_, by rw [hstate]; rfl⟩
    by_cases hyx : y = x
    · subst hyx
      rw [if_pos rfl, Function.update_self, State.view, hy, viewOf_recv hu hring]
      rfl
    · rw [if_neg hyx, hstate]
      exact viewOf_update_of_ne hyx (Ring.inbox_moveTo_of_ne (Ne.symm hyx) hn) rfl
  | dropReceiver y u hy hu =>
    show viewOf (M.state (M.dropReceiver s.chan y)) x (Function.update s.subs y _ x) =
      (if y = x then _ else s.view x) ∧ (M.state (M.dropReceiver s.chan y)).capacity = _
    rw [M.state_dropReceiver]
    refine ⟨?_, rfl⟩
    by_cases hyx : y = x
    · subst hyx
      rw [if_pos rfl, Function.update_self, State.view, hy]
      rfl
    · rw [if_neg hyx]
      exact viewOf_update_of_ne hyx rfl rfl

/-! ## The account of a subscriber -/

/-- What it was given and what waits for it, as far as it is there, are what was emitted. -/
def Served (capacity : Nat) (v : View E) : Prop :=
  ∀ u, v.sub = some u → ∃ b, Account u.emitted u.trace b ∧ b.Bounded capacity ∧
    (u.live = true → v.inbox = b)

namespace Served

variable {capacity : Nat} {v : View E}

theorem emit (h : Served capacity v) (e : E) : Served capacity (v.emit capacity e) := by
  intro u hu
  obtain ⟨w, hw, rfl⟩ := Option.map_eq_some_iff.1 hu
  obtain ⟨b, haccount, hbounded, hlive⟩ := h w hw
  unfold Subscription.emit View.emit
  rw [hw]
  by_cases hwlive : w.live = true
  · refine ⟨b.push capacity e, ?_, hbounded.push e, fun _ => ?_⟩
    · simpa [hwlive] using haccount.push capacity e
    · simp [isLive, hwlive, hlive hwlive]
  · refine ⟨b, ?_, hbounded, fun hu' => ?_⟩
    · simpa [hwlive] using haccount
    · simp [hwlive] at hu'

theorem recv (h : Served capacity v) : Served capacity v.recv := by
  unfold View.recv
  split
  · rename_i hvlive
    split
    · rename_i r inbox hr
      intro u hu
      obtain ⟨w, hw, rfl⟩ := Option.map_eq_some_iff.1 hu
      obtain ⟨b, haccount, hbounded, hlive⟩ := h w hw
      rw [hw] at hvlive
      obtain rfl := hlive hvlive
      exact ⟨inbox, haccount.recv hr, hbounded.recv hr, fun _ => rfl⟩
    · exact h
  · exact h

theorem new {senders : Nat} : Served capacity ⟨some (.new : Subscription E), .new, senders⟩ := by
  intro u hu
  obtain rfl := Option.some.inj hu
  exact ⟨.new, .new, Inbox.bounded_new, fun _ => rfl⟩

theorem drop (h : Served capacity v) :
    Served capacity { v with sub := v.sub.map .drop, inbox := .new } := by
  intro u hu
  obtain ⟨w, hw, rfl⟩ := Option.map_eq_some_iff.1 hu
  obtain ⟨b, haccount, hbounded, -⟩ := h w hw
  exact ⟨b, haccount, hbounded, fun hlive => by cases hlive⟩

omit [DecidableEq β] in
/-- **Every step keeps the account of the subscriber.** -/
theorem step (h : Served capacity v) (x : ρ) (a : Act β ρ E) :
    Served capacity (v.step capacity x a) := by
  cases a with
  | clone b b' => exact h
  | dropBus b => exact h
  | emit b e => exact h.emit e
  | subscribe b y =>
    show Served _ (if y = x then _ else v)
    split
    · exact new
    · exact h
  | recv y =>
    show Served _ (if y = x then _ else v)
    split
    · exact h.recv
    · exact h
  | dropReceiver y =>
    show Served _ (if y = x then _ else v)
    split
    · exact h.drop
    · exact h

end Served

theorem served_of_reachable {capacity : Nat} {s : State M β}
    (h : (system M β capacity).Reachable s) (x : ρ) : Served s.ring.capacity (s.view x) := by
  refine (h.invariant (I := fun s : State M β => Inv capacity s ∧
    Served s.ring.capacity (s.view x)) ?_ fun hs hst => ?_).2
  · rintro _ ⟨hlimit, b, rx, rfl⟩
    exact ⟨inv_new hlimit b rx, fun u hu => by cases hu⟩
  · obtain ⟨hview, hcapacity⟩ := step_view hs.1 hst x
    rw [hview, hcapacity]
    exact ⟨step_inv hs.1 hst, hs.2.step x _⟩

/-- What waits for a subscriber that is there. -/
theorem account_of_reachable {capacity : Nat} {s : State M β}
    (h : (system M β capacity).Reachable s) {x : ρ} {u : Subscription E} (hx : s.subs x = some u)
    (hu : u.live = true) :
    Account u.emitted u.trace (s.ring.inbox x) ∧ (s.ring.inbox x).Bounded s.ring.capacity := by
  obtain ⟨b, haccount, hbounded, hlive⟩ := served_of_reachable h x u hx
  have hinbox : (s.view x).inbox = s.ring.inbox x := by
    unfold State.view viewOf
    rw [hx]
    exact if_pos hu
  rw [← hinbox, hlive hu]
  exact ⟨haccount, hbounded⟩

theorem recv_inbox (chan : M.Chan) (x : ρ) :
    (M.recv chan x).map Prod.fst =
      (((M.state chan).inbox x).recv ((M.state chan).senders == 0)).map Prod.fst := by
  rw [← Ring.inbox_recv, ← M.recv_eq, Option.map_map, Option.map_map]
  rfl

/-! ## What a subscriber can rely on -/

/-- **What a subscriber is given.** Its trace stands for an initial part of the events emitted
since it subscribed: in order, each once, with the exact number of the missed ones where they
are missing. When it has to wait, or learns that the bus is gone, that is all of them. Events
are only missing when it was more than the capacity behind. An event counts the subscribers. -/
theorem delivered {capacity : Nat} {s : State M β} (h : (system M β capacity).Reachable s) :
    (∀ x u, s.subs x = some u →
      (∃ told, Covers u.trace told ∧ told <+: u.emitted) ∧
      (values u.trace).Sublist u.emitted ∧
      (u.live = true →
        (M.recv s.chan x = none → Covers u.trace u.emitted) ∧
        (∀ chan, M.recv s.chan x = some (.closed, chan) →
          s.buses = ∅ ∧ Covers u.trace u.emitted) ∧
        ∀ n chan, M.recv s.chan x = some (.lagged n, chan) →
          n + max capacity 1 ≤ u.backlog)) ∧
    ∃ live : Finset ρ, (∀ x, x ∈ live ↔ ∃ u, s.subs x = some u ∧ u.live = true) ∧
      ∀ event, (emit M s.chan event).1 = live.card := by
  have hi := inv_of_reachable h
  refine ⟨fun x u hx => ?_, s.ring.receivers, hi.receivers, fun e => (emit_eq s.chan e).1⟩
  obtain ⟨b, haccount, -, -⟩ := served_of_reachable h x u hx
  obtain ⟨told, hcovers, htold⟩ := haccount.told
  refine ⟨⟨told, hcovers, htold⟩, hcovers.values_sublist.trans htold.sublist, fun hu => ?_⟩
  obtain ⟨haccount, hbounded⟩ := account_of_reachable h hx hu
  refine ⟨fun hnone => ?_, fun chan hsome => ?_, fun n chan hsome => ?_⟩
  · have hrecv := (recv_inbox s.chan x).symm
    rw [hnone] at hrecv
    obtain ⟨hmissed, hpending⟩ := Inbox.recv_eq_none (Option.map_eq_none_iff.1 hrecv)
    exact haccount.covers hmissed hpending
  · obtain ⟨-, hr, -⟩ | ⟨-, _, _, -, hr, -⟩ | ⟨hmissed, hpending, hclosed, -, -⟩ :=
      Inbox.recv_eq_some (Ring.recv_inbox (recv_eq_some hsome))
    · cases hr
    · cases hr
    · refine ⟨Finset.card_eq_zero.1 (hi.senders.symm.trans ?_), haccount.covers hmissed hpending⟩
      exact beq_iff_eq.1 hclosed
  · obtain ⟨hmissed, hr, -⟩ | ⟨-, _, _, -, hr, -⟩ | ⟨-, -, -, hr, -⟩ :=
      Inbox.recv_eq_some (Ring.recv_inbox (recv_eq_some hsome))
    · cases hr
      have hlength := haccount.length
      have hfull := hbounded.full hmissed
      have hroom := hi.room
      unfold Subscription.backlog
      show (s.ring.inbox x).missed + _ ≤ _
      omega
    · cases hr
    · cases hr

/-- An event is emitted only while `x` is less than the capacity behind. -/
def KeepsUp (capacity : Nat) (x : ρ) (s : State M β) (a : Act β ρ E) : Prop :=
  ∀ b e u, a = .emit b e → s.subs x = some u → u.live = true → u.backlog < max capacity 1

/-- It missed nothing, and nothing is missing from what waits for it. -/
def NoGap (v : View E) : Prop :=
  ∀ u, v.sub = some u → (∀ n, .lagged n ∉ u.trace) ∧ (u.live = true → v.inbox.missed = 0)

namespace NoGap

variable {capacity : Nat} {v : View E}

theorem emit (h : NoGap v) (hserved : Served capacity v)
    (hroom : ∀ u, v.sub = some u → u.live = true → u.backlog < capacity) (e : E) :
    NoGap (v.emit capacity e) := by
  intro u hu
  obtain ⟨w, hw, rfl⟩ := Option.map_eq_some_iff.1 hu
  obtain ⟨hgap, hmissed⟩ := h w hw
  by_cases hwlive : w.live = true
  · obtain ⟨b, haccount, -, hlive⟩ := hserved w hw
    obtain rfl := hlive hwlive
    have hzero := hmissed hwlive
    have hlength := haccount.length
    have hbacklog := hroom w hw hwlive
    unfold Subscription.backlog at hbacklog
    have hpending : v.inbox.pending.length < capacity := by omega
    refine ⟨?_, fun _ => ?_⟩
    · simpa [Subscription.emit, hwlive] using hgap
    · simp [View.emit, hw, isLive, hwlive, Inbox.push, hpending, hzero]
  · refine ⟨?_, fun hu' => ?_⟩
    · simpa [Subscription.emit, hwlive] using hgap
    · simp [Subscription.emit, hwlive] at hu'

theorem recv (h : NoGap v) : NoGap v.recv := by
  unfold View.recv
  split
  · rename_i hvlive
    split
    · rename_i r inbox hr
      intro u hu
      obtain ⟨w, hw, rfl⟩ := Option.map_eq_some_iff.1 hu
      obtain ⟨hgap, hmissed⟩ := h w hw
      rw [hw] at hvlive
      have hzero := hmissed hvlive
      obtain ⟨hpos, -, -⟩ | ⟨-, a, rest, -, rfl, rfl⟩ | ⟨-, -, -, rfl, rfl⟩ :=
        Inbox.recv_eq_some hr
      · exact absurd hzero (Nat.ne_of_gt hpos)
      · exact ⟨fun n => by simp [Subscription.recv, hgap n], fun _ => rfl⟩
      · exact ⟨fun n => by simp [Subscription.recv, hgap n], fun _ => hzero⟩
    · exact h
  · exact h

omit [DecidableEq β] in
theorem step (h : NoGap v) (hserved : Served capacity v) (x : ρ) {a : Act β ρ E}
    (hroom : ∀ b e u, a = .emit b e → v.sub = some u → u.live = true → u.backlog < capacity) :
    NoGap (v.step capacity x a) := by
  cases a with
  | clone b b' => exact h
  | dropBus b => exact h
  | emit b e => exact h.emit hserved (fun u => hroom b e u rfl) e
  | subscribe b y =>
    show NoGap (if y = x then _ else v)
    split
    · intro u hu
      obtain rfl := Option.some.inj hu
      exact ⟨fun n => List.not_mem_nil, fun _ => rfl⟩
    · exact h
  | recv y =>
    show NoGap (if y = x then _ else v)
    split
    · exact h.recv
    · exact h
  | dropReceiver y =>
    show NoGap (if y = x then _ else v)
    split
    · intro u hu
      obtain ⟨w, hw, rfl⟩ := Option.map_eq_some_iff.1 hu
      exact ⟨(h w hw).1, fun _ => rfl⟩
    · exact h

end NoGap

/-- **A subscriber that keeps up loses nothing.** Where it is less than the capacity behind
whenever an event is emitted, it is given the events themselves, and all of them when it has to
wait. -/
theorem no_loss {capacity : Nat} {x : ρ} {s : State M β} {u : Subscription E}
    (h : ((system M β capacity).restrict (KeepsUp capacity x)).Reachable s)
    (hx : s.subs x = some u) :
    values u.trace <+: u.emitted ∧
      (u.live = true → M.recv s.chan x = none → values u.trace = u.emitted) := by
  have hnogap : NoGap (s.view x) := by
    refine (h.invariant (I := fun s : State M β => (system M β capacity).Reachable s ∧
      NoGap (s.view x)) ?_ ?_).2
    · intro s hs
      refine ⟨.init hs, ?_⟩
      obtain ⟨-, b, rx, rfl⟩ := hs
      exact fun u hu => by cases hu
    · intro s a t hs hst
      obtain ⟨hkeeps, hstep⟩ := hst
      have hi := inv_of_reachable hs.1
      refine ⟨hs.1.step hstep, ?_⟩
      rw [(step_view hi hstep x).1]
      refine hs.2.step (served_of_reachable hs.1 x) x fun b e u ha hu hlive => ?_
      exact Nat.lt_of_lt_of_le (hkeeps b e u ha hu hlive) hi.room
  obtain ⟨hgap, hmissed⟩ := hnogap u hx
  obtain ⟨b, haccount, -, -⟩ := served_of_reachable h.of_restrict x u hx
  obtain ⟨told, hcovers, htold⟩ := haccount.told
  refine ⟨hcovers.values_eq hgap ▸ htold, fun hu hnone => ?_⟩
  have hrecv := (recv_inbox s.chan x).symm
  rw [hnone] at hrecv
  obtain ⟨hzero, hpending⟩ := Inbox.recv_eq_none (Option.map_eq_none_iff.1 hrecv)
  exact ((account_of_reachable h.of_restrict hx hu).1.covers hzero hpending).values_eq hgap

/-! ### Whatever the others do -/

/-- What makes a difference to `x`: not what the other subscribers do. -/
def Act.concerns (x : ρ) : Act β ρ E → Bool
  | .subscribe _ y | .recv y | .dropReceiver y => y = x
  | .clone _ _ | .dropBus _ | .emit _ _ => true

omit [DecidableEq β] in
theorem View.step_of_not_concerns {capacity : Nat} {x : ρ} {a : Act β ρ E}
    (h : ¬ a.concerns x = true) (v : View E) : v.step capacity x a = v := by
  cases a with
  | clone b b' => exact absurd rfl h
  | dropBus b => exact absurd rfl h
  | emit b e => exact absurd rfl h
  | subscribe b y => exact if_neg fun hy => h (decide_eq_true hy)
  | recv y => exact if_neg fun hy => h (decide_eq_true hy)
  | dropReceiver y => exact if_neg fun hy => h (decide_eq_true hy)

theorem run_view {capacity : Nat} {s t : State M β} {as : List (Act β ρ E)}
    (hs : Inv capacity s) (h : (system M β capacity).Run s as t) (x : ρ) :
    t.view x = (as.filter (Act.concerns x)).foldl (View.step s.ring.capacity x) (s.view x) := by
  have hview := h.foldl_of_invariant (f := State.view x) (g := View.step s.ring.capacity x)
    (I := fun t : State M β => Inv capacity t ∧ t.ring.capacity = s.ring.capacity)
    (fun hi hst => ⟨step_inv hi.1 hst, (step_view hi.1 hst x).2.trans hi.2⟩)
    (fun hi hst => hi.2 ▸ (step_view hi.1 hst x).1) ⟨hs, rfl⟩
  rw [hview, List.foldl_filter]
  congr 1
  funext v a
  split
  · rfl
  · exact View.step_of_not_concerns ‹_› v

/-- **The other subscribers make no difference.** When two runs from the same state differ only
in what the others do (who subscribes, receives, is slow or goes away, and when), a subscriber
is given the same in both, and gets the same next. -/
theorem independent {capacity : Nat} {s t t' : State M β} {as as' : List (Act β ρ E)}
    (hs : (system M β capacity).Reachable s) (h : (system M β capacity).Run s as t)
    (h' : (system M β capacity).Run s as' t') {x : ρ}
    (hsame : as.filter (Act.concerns x) = as'.filter (Act.concerns x)) :
    t.subs x = t'.subs x ∧ ∀ u, t.subs x = some u → u.live = true →
      (M.recv t.chan x).map Prod.fst = (M.recv t'.chan x).map Prod.fst := by
  have hi := inv_of_reachable hs
  have hview : t.view x = t'.view x := by
    rw [run_view hi h, run_view hi h', hsame]
  have hsub : t.subs x = t'.subs x := congrArg View.sub hview
  refine ⟨hsub, fun u hu hlive => ?_⟩
  have hinbox : t.ring.inbox x = t'.ring.inbox x := by
    have hinbox := congrArg View.inbox hview
    unfold State.view viewOf at hinbox
    rw [← hsub, hu] at hinbox
    simpa only [isLive, Option.any_some, hlive, if_true] using hinbox
  have hsenders : t.ring.senders = t'.ring.senders := congrArg View.senders hview
  rw [recv_inbox, recv_inbox]
  exact congrArg₂ (fun b n => (Inbox.recv (n == 0) b).map Prod.fst) hinbox hsenders

/-! ### When the bus is gone -/

/-- What a closed channel gives one after the other is received by as many steps. -/
theorem run_receives (capacity : Nat) {x : ρ} {b b' : Inbox E} {rs : List (Received E)}
    (hrs : b.Receives rs b') {s : State M β} (hb : s.ring.inbox x = b)
    (hsenders : s.ring.senders = 0) {u : Subscription E} (hx : s.subs x = some u)
    (hu : u.live = true) :
    ∃ t, (system M β capacity).Run s (rs.map fun _ => .recv x) t ∧
      t.subs x = some { u with trace := u.trace ++ rs } := by
  induction hrs generalizing s u with
  | nil b =>
    refine ⟨s, .nil, ?_⟩
    rw [hx, List.append_nil]
  | @cons b b₁ b' r rs hr _ ih =>
    obtain ⟨chan, hchan⟩ : ∃ chan, M.recv s.chan x = some (r, chan) := by
      have hrecv : (M.recv s.chan x).map Prod.fst = some r := by
        rw [recv_inbox]
        show Option.map _ (Inbox.recv (s.ring.senders == 0) (s.ring.inbox x)) = _
        rw [hb, hsenders]
        exact congrArg (Option.map Prod.fst) hr
      obtain ⟨⟨r', chan⟩, hp, rfl⟩ := Option.map_eq_some_iff.1 hrecv
      exact ⟨chan, hp⟩
    have hring := recv_eq_some hchan
    have hinbox := Ring.recv_inbox hring
    rw [show (M.state s.chan).inbox x = b from hb,
      show (M.state s.chan).senders = 0 from hsenders] at hinbox
    obtain ⟨n, hn, hstate⟩ := Ring.recv_eq_some hring
    obtain ⟨t, hrun, ht⟩ := ih (s := ⟨chan, s.buses, Function.update s.subs x (some (u.recv r))⟩)
      (u := u.recv r) (congrArg Prod.snd (Option.some.inj (hinbox.symm.trans hr)))
      (by
        show (M.state chan).senders = 0
        rw [hstate]
        exact hsenders)
      (Function.update_self ..) hu
    refine ⟨t, hrun.cons (.recv s x u r chan hx hu hchan), ?_⟩
    rw [ht]
    simp [Subscription.recv]

/-- **What a bus that is gone still gives.** A subscriber receives, without waiting, the rest of
its events and then the news that there is no bus: at most one gap comes before them, and after
a gap at least as many events as the capacity. -/
theorem rest_after_close {capacity : Nat} {s : State M β} (h : (system M β capacity).Reachable s)
    (hbuses : s.buses = ∅) {x : ρ} {u : Subscription E} (hx : s.subs x = some u)
    (hu : u.live = true) :
    ∃ (gap rs : List (Received E)) (rest : List E) (t : State M β),
      rs = gap ++ rest.map .value ++ [.closed] ∧
      (gap = [] ∨ ∃ n, gap = [.lagged n] ∧ max capacity 1 ≤ rest.length) ∧
      Covers (u.trace ++ rs) u.emitted ∧
      (system M β capacity).Run s (rs.map fun _ => .recv x) t ∧
      t.subs x = some { u with trace := u.trace ++ rs } := by
  have hi := inv_of_reachable h
  obtain ⟨haccount, hbounded⟩ := account_of_reachable h hx hu
  have hreceives := (s.ring.inbox x).receives_drain
  have hcovers := (haccount.receives hreceives).covers rfl rfl
  have hsenders : s.ring.senders = 0 := by
    rw [hi.senders, hbuses]
    rfl
  obtain ⟨t, hrun, ht⟩ := run_receives capacity hreceives rfl hsenders hx hu
  refine ⟨if (s.ring.inbox x).missed = 0 then [] else [.lagged (s.ring.inbox x).missed], _,
    (s.ring.inbox x).pending, t, rfl, ?_, hcovers, hrun, ht⟩
  split
  · exact .inl rfl
  · rename_i hmissed
    refine .inr ⟨_, rfl, ?_⟩
    rw [hbounded.full (Nat.pos_of_ne_zero hmissed)]
    exact hi.room

end

/-! ## A slow subscriber -/

/-- Room for two events, one bus, and the subscriber `0`. -/
def sampleState : State (Ring.channel Nat Nat) Nat :=
  let s := new (Ring.channel Nat Nat) 2 0 0
  { s with
    chan := s.chan.subscribe 0
    subs := Function.update s.subs 0 (some .new) }

theorem sampleState_reachable : (system (Ring.channel Nat Nat) Nat 2).Reachable sampleState := by
  have h₀ : (system (Ring.channel Nat Nat) Nat 2).Reachable (new _ 2 0 0) :=
    .init ⟨by decide, 0, 0, rfl⟩
  exact h₀.step (.subscribe _ 0 0 (Finset.mem_singleton_self 0) rfl)

/-- After three events it is told of one, and is given the next. -/
theorem delivered_lagged :
    ∃ (s : State (Ring.channel Nat Nat) Nat) (u : Subscription Nat),
      (system (Ring.channel Nat Nat) Nat 2).Reachable s ∧ s.subs 0 = some u ∧
        u.trace = [.lagged 1, .value 8] ∧ ∃ told, Covers u.trace told ∧ told <+: [7, 8, 9] := by
  have h₁ := sampleState_reachable.step (.emit _ 0 7 (Finset.mem_singleton_self 0))
  have h₂ := h₁.step (.emit _ 0 8 (Finset.mem_singleton_self 0))
  have h₃ := h₂.step (.emit _ 0 9 (Finset.mem_singleton_self 0))
  have h₄ := h₃.step (.recv _ 0 ⟨[7, 8, 9], [], true⟩ (.lagged 1) _ rfl rfl rfl)
  have h₅ := h₄.step (.recv _ 0 ⟨[7, 8, 9], [.lagged 1], true⟩ (.value 8) _ rfl rfl rfl)
  exact ⟨_, ⟨[7, 8, 9], [.lagged 1, .value 8], true⟩, h₅, rfl, rfl,
    ((delivered h₅).1 0 _ rfl).1⟩

/-- Two events fit. -/
theorem no_loss_two :
    ∃ (s : State (Ring.channel Nat Nat) Nat) (u : Subscription Nat),
      ((system (Ring.channel Nat Nat) Nat 2).restrict (KeepsUp 2 0)).Reachable s ∧
        s.subs 0 = some u ∧ u.emitted = [7, 8] ∧ values u.trace <+: [7, 8] := by
  have h₀ : ((system (Ring.channel Nat Nat) Nat 2).restrict (KeepsUp 2 0)).Reachable
    (new _ 2 0 0) := .init ⟨by decide, 0, 0, rfl⟩
  have h₁ := h₀.step ⟨fun b e u ha => (by cases ha),
    .subscribe _ 0 0 (Finset.mem_singleton_self 0) rfl⟩
  have h₂ := h₁.step ⟨fun b e u _ hu _ => (by cases hu; decide),
    .emit _ 0 7 (Finset.mem_singleton_self 0)⟩
  have h₃ := h₂.step ⟨fun b e u _ hu _ => (by cases hu; decide),
    .emit _ 0 8 (Finset.mem_singleton_self 0)⟩
  exact ⟨_, ⟨[7, 8], [], true⟩, h₃, rfl, rfl, (no_loss h₃ rfl).1⟩

/-- Another subscriber comes, and is slow. -/
theorem independent_of_another :
    ∃ (t t' : State (Ring.channel Nat Nat) Nat),
      (system (Ring.channel Nat Nat) Nat 2).Run sampleState [.emit 0 7, .recv 0] t ∧
        (system (Ring.channel Nat Nat) Nat 2).Run sampleState
          [.subscribe 0 1, .emit 0 7, .recv 0] t' ∧
        t.subs 0 = t'.subs 0 := by
  have h₁ := TransitionSystem.Run.nil (T := system (Ring.channel Nat Nat) Nat 2) |>.concat
    (.emit sampleState 0 7 (Finset.mem_singleton_self 0))
  have h₂ := h₁.concat (.recv _ 0 ⟨[7], [], true⟩ (.value 7) _ rfl rfl rfl)
  have h₁' := TransitionSystem.Run.nil (T := system (Ring.channel Nat Nat) Nat 2) |>.concat
    (.subscribe sampleState 0 1 (Finset.mem_singleton_self 0) rfl)
  have h₂' := h₁'.concat (.emit _ 0 7 (Finset.mem_singleton_self 0))
  have h₃' := h₂'.concat (.recv _ 0 ⟨[7], [], true⟩ (.value 7) _ rfl rfl rfl)
  exact ⟨_, _, h₂, h₃', (independent sampleState_reachable h₂ h₃' rfl).1⟩

/-- The bus goes with an event that was not received yet. -/
theorem rest_after_close_one :
    ∃ (s t : State (Ring.channel Nat Nat) Nat) (u : Subscription Nat),
      (system (Ring.channel Nat Nat) Nat 2).Reachable s ∧ s.subs 0 = some ⟨[7], [], true⟩ ∧
        t.subs 0 = some u ∧ Covers u.trace [7] := by
  have h₁ := sampleState_reachable.step (.emit _ 0 7 (Finset.mem_singleton_self 0))
  have h₂ := h₁.step (.dropBus _ 0 (Finset.mem_singleton_self 0))
  have hbuses : ({0} : Finset Nat).erase 0 = ∅ := by decide
  obtain ⟨gap, rs, rest, t, -, -, hcovers, -, ht⟩ :=
    rest_after_close h₂ (x := 0) (u := ⟨[7], [], true⟩) hbuses rfl rfl
  exact ⟨_, t, _, h₂, rfl, ht, hcovers⟩

end Forgeclaw.Core.Event
