/-
  What a caller of the command bus can rely on, whatever the other callers, the handler and the
  channels do, and whoever goes away when.

  * `step_inv`: the parts of the bus keep together at every step;
  * `call_safe`: commands arrive once and in order, a response is the call's own, and a call
    that nobody can answer any more returns.
-/
import Forgeclaw.Core.CommandRouting

namespace Forgeclaw.Core.Command

open Channel

section

variable {β κ χ C R : Type} [DecidableEq β] [DecidableEq κ] [DecidableEq χ]
variable {M : Mpsc (Envelope C χ)} {O : Oneshot (Except ErrorClass R)}

/-! ## The invariant -/

structure Inv (capacity : Nat) (s : State M O β κ) : Prop where
  delivered : Delivered (max capacity 1) s.queue s.sent s.yielded
  senders : s.queue.senders = s.buses.card
  custody : Custody s.queue.items s.sent s.yielded s.fate
  routed : Routed O s.queue.receiver s.calls s.responses s.fate s.sent

namespace Inv

variable {capacity : Nat} {s : State M O β κ}

omit [DecidableEq β] [DecidableEq κ] [DecidableEq χ] in
theorem of_queue {q : Queue (Envelope C χ)} (hq : s.queue = q)
    (hdelivered : Delivered (max capacity 1) q s.sent s.yielded)
    (hsenders : q.senders = s.buses.card) (hcustody : Custody q.items s.sent s.yielded s.fate)
    (hrouted : Routed O q.receiver s.calls s.responses s.fate s.sent) : Inv capacity s := by
  subst hq
  exact ⟨hdelivered, hsenders, hcustody, hrouted⟩

omit [DecidableEq β] [DecidableEq κ] [DecidableEq χ] in
/-- A step of the bus that leaves its queue alone, and the calls with it. -/
theorem of_senders (h : Inv capacity s) {chan : M.Chan} {buses : Finset β} {m : Nat}
    (hchan : M.state chan = { M.state s.chan with senders := m }) (hm : m = buses.card) :
    Inv capacity { s with chan := chan, buses := buses } :=
  .of_queue hchan (h.delivered.senders m) hm h.custody h.routed

omit [DecidableEq β] [DecidableEq κ] [DecidableEq χ] in
/-- A responder that its call still has was never sent. -/
theorem not_sent (h : Inv capacity s) {ch : χ} (hch : s.fate ch = .inCall) :
    ch ∉ s.sent.map Envelope.responder := by
  intro hmem
  have := (h.custody ch).leftCall hmem
  rw [hch] at this
  cases this

omit [DecidableEq β] [DecidableEq κ] [DecidableEq χ] in
theorem fate_of_sending (h : Inv capacity s) {k : κ} {c : Call β C χ R}
    (hk : s.calls k = some c) (hp : c.phase = .sending) : s.fate c.rx = .inCall := by
  obtain ⟨o, -, hagree⟩ := h.routed.agree k c hk
  rw [hp] at hagree
  exact hagree.of_sending

omit [DecidableEq β] [DecidableEq κ] [DecidableEq χ] in
theorem agree_of_waiting (h : Inv capacity s) {k : κ} {c : Call β C χ R}
    (hk : s.calls k = some c) (hp : c.phase = .waiting) {o : O.Chan}
    (ho : s.responses c.rx = some o) :
    Agree s.queue.receiver .waiting (s.fate c.rx) (O.state o) := by
  obtain ⟨o', ho', hagree⟩ := h.routed.agree k c hk
  obtain rfl := Option.some.inj (ho.symm.trans ho')
  rw [← hp]
  exact hagree

omit [DecidableEq β] [DecidableEq κ] [DecidableEq χ] in
/-- The command at the head of the queue has a response channel and a responder in the queue. -/
theorem head (h : Inv capacity s) {e : Envelope C χ} {rest : List (Envelope C χ)}
    (hrx : s.queue.receiver = true) (hq : s.queue.items = e :: rest) :
    s.fate e.responder = .queued ∧ (∃ o, s.responses e.responder = some o) ∧
      e.responder ∉ rest.map Envelope.responder := by
  refine ⟨(h.custody e.responder).queued.1 ?_, ?_, ?_⟩
  · simp [hq]
  · have he : e ∈ s.sent := by simp [← h.delivered.pending hrx, hq]
    obtain ⟨k, c, hk, rfl⟩ := h.routed.sender e he
    obtain ⟨o, ho, -⟩ := h.routed.agree k c hk
    exact ⟨o, ho⟩
  · have := h.delivered.nodup_responders
    rw [hq, List.map_append, List.map_cons] at this
    exact (List.nodup_cons.1 (List.nodup_append.1 this).2.1).1

end Inv

omit [DecidableEq β] [DecidableEq κ] [DecidableEq χ] in
theorem inv_new (capacity : Nat) (b : β) :
    Inv capacity (new M O capacity b : State M O β κ) := by
  have hq : (new M O capacity b : State M O β κ).queue = .new (max capacity 1) :=
    M.state_channel _ (by omega)
  refine .of_queue hq (Delivered.new _) rfl Custody.new ⟨?_, ?_, ?_, ?_⟩
  · simp [new]
  · simp [new]
  · simp [new]
  · exact fun _ _ => rfl

/-- **Every step keeps the invariant.** -/
theorem step_inv {capacity : Nat} {s t : State M O β κ} {a : Act β κ χ} (h : Inv capacity s)
    (hst : Step M O s a t) : Inv capacity t := by
  cases hst with
  | clone b b' hb hb' =>
    apply h.of_senders (M.state_clone s.chan)
    rw [Finset.card_insert_of_notMem hb']
    exact congrArg (· + 1) h.senders
  | dropBus b hb hidle =>
    apply h.of_senders (M.state_dropSender s.chan)
    rw [Finset.card_erase_of_mem hb]
    exact congrArg (· - 1) h.senders
  | call k b command rx hb hk hrx =>
    have hf : s.fate rx = .unborn := h.routed.fresh rx hrx
    exact ⟨h.delivered, h.senders, h.custody.start hf, h.routed.start hk hrx rfl⟩
  | sent k c chan hk hp hsend =>
    obtain ⟨hrx, hroom, hstate⟩ := M.send_ok _ _ _ hsend
    have hf := h.fate_of_sending hk hp
    obtain ⟨o, ho, hagree⟩ := h.routed.agree k c hk
    rw [hp] at hagree
    refine .of_queue hstate (h.delivered.push hrx hroom (h.not_sent hf)) h.senders
      (h.custody.push hf) (h.routed.advance hk (fun e he => ?_) (fun _ _ => rfl)
        (fun ch hch => Function.update_of_ne hch _ _) ho (Function.update_self ..) hagree.sent)
    simpa using he
  | sendFailed k c o e hk hp ho hsend =>
    have hdead := M.send_error _ _ _ hsend
    exact ⟨h.delivered, h.senders, h.custody.lose (h.fate_of_sending hk hp),
      h.routed.leave hk (.returnedLost _ hdead)⟩
  | cancelSending k c o hk hp ho =>
    exact ⟨h.delivered, h.senders, h.custody.lose (h.fate_of_sending hk hp),
      h.routed.leave hk (.cancelled _ _ rfl)⟩
  | cancelWaiting k c o hk hp ho =>
    have hleft := (h.agree_of_waiting hk hp ho).leftCall
    have hrouted := h.routed.leave (o := O.dropReceiver o) hk (.cancelled _ _ hleft)
    rw [Function.update_eq_self] at hrouted
    exact ⟨h.delivered, h.senders, h.custody, hrouted⟩
  | finish k c o r hk hp ho hr =>
    rw [O.recv_eq] at hr
    have hagree := (h.agree_of_waiting hk hp ho).finish hr (O.state (O.dropReceiver o))
    have hrouted := h.routed.leave hk hagree
    rw [Function.update_eq_self] at hrouted
    exact ⟨h.delivered, h.senders, h.custody, hrouted⟩
  | recv e chan hrx hrecv =>
    obtain ⟨rest, hitems, hstate⟩ := M.recv_some _ _ _ hrecv
    obtain ⟨hf, ⟨o, ho⟩, hnot⟩ := h.head hrx hitems
    have hcustody := h.custody
    rw [show s.queue.items = e :: rest from hitems] at hcustody
    have hrouted := h.routed.touch ho fun p hp => (hf ▸ hp).recv
    rw [← ho, Function.update_eq_self] at hrouted
    exact .of_queue hstate (h.delivered.pop hrx hitems) h.senders (hcustody.pop hnot) hrouted
  | recvNone chan hrx hrecv =>
    exact h.of_senders (M.recv_none _ _ hrecv).2.2 h.senders
  | respond ch o r hf ho =>
    refine ⟨h.delivered, h.senders, h.custody.settle hf rfl, h.routed.touch ho fun p hp => ?_⟩
    rw [O.state_send]
    exact (hf ▸ hp).respond r
  | dropResponder ch o hf ho =>
    refine ⟨h.delivered, h.senders, h.custody.settle hf rfl, h.routed.touch ho fun p hp => ?_⟩
    rw [O.state_dropSender]
    exact (hf ▸ hp).abandon
  | dropReceiver hrx =>
    exact .of_queue (M.state_dropReceiver s.chan) h.delivered.dropReceiver h.senders
      h.custody.dropReceiver (h.routed.dropReceiver fun ch => (h.custody ch).queued)

theorem inv_of_reachable {capacity : Nat} {s : State M O β κ}
    (h : (system M O β κ capacity).Reachable s) : Inv capacity s :=
  h.invariant (fun ⟨b, hs⟩ => hs ▸ inv_new capacity b) step_inv

/-! ## What a caller gets -/

namespace Inv

variable {capacity : Nat} {s : State M O β κ}

omit [DecidableEq β] [DecidableEq κ] [DecidableEq χ]

theorem mem_yielded_iff (h : Inv capacity s) {k : κ} {c : Call β C χ R}
    (hk : s.calls k = some c) : c.envelope ∈ s.yielded ↔ (s.fate c.rx).received = true := by
  rw [← (h.custody c.rx).received]
  refine ⟨fun hmem => List.mem_map_of_mem hmem, fun hmem => ?_⟩
  obtain ⟨e, he, heq⟩ := List.mem_map.1 hmem
  obtain ⟨k', c', hk', rfl⟩ := h.routed.sender e (h.delivered.ordered.subset he)
  obtain rfl := h.routed.owner k' k c' c hk' hk heq
  obtain rfl := Option.some.inj (hk.symm.trans hk')
  exact he

theorem answered (h : Inv capacity s) {k : κ} {c : Call β C χ R} (hk : s.calls k = some c)
    {r : Except ErrorClass R} (hf : s.fate c.rx = .answered r) : c.envelope ∈ s.yielded := by
  rw [h.mem_yielded_iff hk, hf]
  rfl

theorem handlerDropped (h : Inv capacity s) {k : κ} {c : Call β C χ R}
    (hk : s.calls k = some c) (hp : c.phase = .returned (.error .handlerDropped)) :
    s.queue.receiver = false ∧ c.envelope ∉ s.yielded ∨ s.fate c.rx = .abandoned := by
  obtain ⟨o, -, hagree⟩ := h.routed.agree k c hk
  rw [hp] at hagree
  rcases hagree.of_handlerDropped with hf | ⟨hf, hdead⟩
  · exact .inr hf
  · refine .inl ⟨hdead, ?_⟩
    rw [h.mem_yielded_iff hk, hf]
    exact Bool.false_ne_true

/-- An error asks for another try only where the handler gave such an error. -/
theorem retriable (h : Inv capacity s) {k : κ} {c : Call β C χ R} (hk : s.calls k = some c)
    {e : CommandError} (hp : c.phase = .returned (.error e)) (hretry : e.isRetriable = true) :
    ∃ cause, s.fate c.rx = .answered (.error cause) ∧ cause.isRetriable = true := by
  obtain ⟨o, -, hagree⟩ := h.routed.agree k c hk
  rw [hp] at hagree
  cases e with
  | handlerDropped => cases hretry
  | handler cause => exact ⟨cause, hagree.of_handler, hretry⟩

end Inv

/-- A call that waits for a handler that is not there can return. -/
theorem Inv.can_return {capacity : Nat} {s : State M O β κ} (h : Inv capacity s)
    (hdead : s.queue.receiver = false) (hheld : ∀ ch, s.fate ch ≠ .held) {k : κ}
    {c : Call β C χ R} (hk : s.calls k = some c) (hp : c.phase.inFlight = true) :
    ∃ a t res, Step M O s a t ∧ t.calls k = some { c with phase := .returned res } := by
  obtain ⟨o, ho, hagree⟩ := h.routed.agree k c hk
  cases hphase : c.phase with
  | sending =>
    exact ⟨_, _, _, .sendFailed s k c o () hk hphase ho (M.send_closed _ _ hdead),
      Function.update_self ..⟩
  | waiting =>
    have hqueued : s.fate c.rx ≠ .queued := by
      rw [Ne, ← (h.custody c.rx).queued, h.delivered.drained hdead]
      exact List.not_mem_nil
    rw [hphase] at hagree
    obtain ⟨r, hr⟩ := hagree.recv_isSome hqueued (hheld c.rx)
    rw [← O.recv_eq] at hr
    exact ⟨_, _, _, .finish s k c o r hk hphase ho hr, Function.update_self ..⟩
  | returned res =>
    rw [hphase] at hp
    cases hp
  | cancelled =>
    rw [hphase] at hp
    cases hp

/-- **The command bus is safe.** Commands are received once and in the order in which they were
sent, each of one call; a response is what the responder of the call's own command was given,
and `HandlerDropped` means that nobody will give one; the queue keeps its bound; `recv` ends
when there is nothing left to come; and no call waits for what cannot come any more. -/
theorem call_safe {capacity : Nat} {s : State M O β κ}
    (h : (system M O β κ capacity).Reachable s) :
    (s.yielded <+: s.sent ∧ (s.sent.map Envelope.responder).Nodup ∧
      ∀ e ∈ s.sent, ∃ k c, s.calls k = some c ∧ c.envelope = e) ∧
    (∀ k k' c c', s.calls k = some c → s.calls k' = some c' → c.rx = c'.rx → k = k') ∧
    (∀ k c r, s.calls k = some c → c.phase = .returned (.ok r) →
      c.envelope ∈ s.yielded ∧ s.fate c.rx = .answered (.ok r)) ∧
    (∀ k c e, s.calls k = some c → c.phase = .returned (.error (.handler e)) →
      c.envelope ∈ s.yielded ∧ s.fate c.rx = .answered (.error e)) ∧
    (∀ k c, s.calls k = some c → c.phase = .returned (.error .handlerDropped) →
      s.queue.receiver = false ∧ c.envelope ∉ s.yielded ∨ s.fate c.rx = .abandoned) ∧
    s.queue.items.length ≤ max 1 capacity ∧
    (∀ t, Step M O s .recvNone t → s.buses = ∅ ∧ s.yielded = s.sent) ∧
    (s.queue.receiver = false → (∀ ch, s.fate ch ≠ .held) →
      ∀ k c, s.calls k = some c → c.phase.inFlight = true →
        ∃ a t res, Step M O s a t ∧ t.calls k = some { c with phase := .returned res }) := by
  have hi := inv_of_reachable h
  refine ⟨⟨hi.delivered.ordered, hi.delivered.nodup, hi.routed.sender⟩, hi.routed.owner,
    fun k c r hk hp => ?_, fun k c e hk hp => ?_, fun k c => hi.handlerDropped, ?_,
    fun t hst => ?_, fun hdead hheld k c => hi.can_return hdead hheld⟩
  · obtain ⟨o, -, hagree⟩ := hi.routed.agree k c hk
    have hf := (hp ▸ hagree).of_ok
    exact ⟨hi.answered hk hf, hf⟩
  · obtain ⟨o, -, hagree⟩ := hi.routed.agree k c hk
    have hf := (hp ▸ hagree).of_handler
    exact ⟨hi.answered hk hf, hf⟩
  · rw [max_comm]
    exact hi.delivered.bounded
  · cases hst with
    | recvNone chan hrx hrecv =>
      obtain ⟨hitems, hsenders, -⟩ := M.recv_none _ _ hrecv
      refine ⟨Finset.card_eq_zero.1 (hi.senders.symm.trans hsenders), ?_⟩
      have := hi.delivered.pending hrx
      rwa [show s.queue.items = [] from hitems, List.append_nil] at this

end

/-- A bus without room of its own takes the commands of two callers at the same time, the second
one's first, and returns to each the response to its own. -/
theorem call_safe_answered :
    ∃ (s : State (Queue.mpsc (Envelope Nat Nat)) (Cell.oneshot (Except ErrorClass Nat)) Nat Nat)
      (c c' : Call Nat Nat Nat Nat),
      (system _ _ Nat Nat 0).Reachable s ∧
        (s.calls 0 = some c ∧ c.phase = .returned (.ok 7) ∧
          c.envelope ∈ s.yielded ∧ s.fate c.rx = .answered (.ok 7)) ∧
        (s.calls 1 = some c' ∧ c'.phase = .returned (.ok 8) ∧
          c'.envelope ∈ s.yielded ∧ s.fate c'.rx = .answered (.ok 8)) ∧
        s.yielded = [c'.envelope, c.envelope] := by
  have h₀ : (system (Queue.mpsc (Envelope Nat Nat)) (Cell.oneshot (Except ErrorClass Nat)) Nat Nat
      0).Reachable _ := .init ⟨0, rfl⟩
  have h₁ := h₀.step (.call _ 0 0 5 9 (Finset.mem_singleton_self 0) rfl rfl)
  have h₂ := h₁.step (.call _ 1 0 6 10 (Finset.mem_singleton_self 0) rfl rfl)
  have h₃ := h₂.step (.sent _ 1 ⟨0, 6, 10, .sending⟩ _ rfl rfl rfl)
  have h₄ := h₃.step (.recv _ ⟨6, 10⟩ _ rfl rfl)
  have h₅ := h₄.step (.sent _ 0 ⟨0, 5, 9, .sending⟩ _ rfl rfl rfl)
  have h₆ := h₅.step (.recv _ ⟨5, 9⟩ _ rfl rfl)
  have h₇ := h₆.step (.respond _ 9 Cell.empty (.ok 7) rfl rfl)
  have h₈ := h₇.step (.respond _ 10 Cell.empty (.ok 8) rfl rfl)
  have h₉ := h₈.step (.finish _ 1 ⟨0, 6, 10, .waiting⟩ (Cell.sent (.ok 8)) (.ok (.ok 8)) rfl rfl
    rfl rfl)
  have h₁₀ := h₉.step (.finish _ 0 ⟨0, 5, 9, .waiting⟩ (Cell.sent (.ok 7)) (.ok (.ok 7)) rfl rfl
    rfl rfl)
  have hanswered := (call_safe h₁₀).2.2.1
  exact ⟨_, ⟨0, 5, 9, .returned (.ok 7)⟩, ⟨0, 6, 10, .returned (.ok 8)⟩, h₁₀,
    ⟨rfl, rfl, hanswered 0 _ 7 rfl rfl⟩, ⟨rfl, rfl, hanswered 1 _ 8 rfl rfl⟩, rfl⟩

end Forgeclaw.Core.Command
