/-
  What comes of the calls of a command bus in the long run.

  `Fair` is what is asked of the others: the handler takes what is there and does not sit on a
  command for ever, the channel does not pass over one of its senders again and again, and a
  caller whose response is there is woken.

  * `every_call_returns`: a call that its caller does not give up returns;
  * `handler_loop_ends`: when all buses are gone, `recv` gives every command that was sent, and
    then `None`.
-/
import Forgeclaw.Core.CommandSafety
import Forgeclaw.Foundation.LeadsTo

namespace Forgeclaw.Core.Command

open Channel TransitionSystem Filter

section

variable {β κ χ C R : Type} [DecidableEq β] [DecidableEq κ] [DecidableEq χ]
variable {M : Mpsc (Envelope C χ)} {O : Oneshot (Except ErrorClass R)}
variable {capacity : Nat} {s s' : State M O β κ} {a : Act β κ χ} {k : κ} {c : Call β C χ R}

/-! ## What a step does -/

/-- A call waits where it is, goes on, returns, or is given up by its caller. -/
theorem step_call (hst : Step M O s a s') (hk : s.calls k = some c) :
    s'.calls k = some c ∨
      c.phase = .sending ∧ s'.calls k = some { c with phase := .waiting } ∨
      (∃ res, s'.calls k = some { c with phase := .returned res }) ∨
      a = .cancel k ∧ s'.calls k = some { c with phase := .cancelled } := by
  cases hst with
  | call k' b command rx _ hk' =>
    refine .inl ((Function.update_of_ne ?_ ..).trans hk)
    rintro rfl
    rw [hk'] at hk
    cases hk
  | sent k' c' chan hk' hp =>
    by_cases heq : k = k'
    · subst heq
      obtain rfl := Option.some.inj (hk.symm.trans hk')
      exact .inr (.inl ⟨hp, Function.update_self ..⟩)
    · exact .inl ((Function.update_of_ne heq ..).trans hk)
  | sendFailed k' c' o e hk' =>
    by_cases heq : k = k'
    · subst heq
      obtain rfl := Option.some.inj (hk.symm.trans hk')
      exact .inr (.inr (.inl ⟨_, Function.update_self ..⟩))
    · exact .inl ((Function.update_of_ne heq ..).trans hk)
  | finish k' c' o r hk' =>
    by_cases heq : k = k'
    · subst heq
      obtain rfl := Option.some.inj (hk.symm.trans hk')
      exact .inr (.inr (.inl ⟨_, Function.update_self ..⟩))
    · exact .inl ((Function.update_of_ne heq ..).trans hk)
  | cancelSending k' c' o hk' | cancelWaiting k' c' o hk' =>
    by_cases heq : k = k'
    · subst heq
      obtain rfl := Option.some.inj (hk.symm.trans hk')
      exact .inr (.inr (.inr ⟨rfl, Function.update_self ..⟩))
    · exact .inl ((Function.update_of_ne heq ..).trans hk)
  | _ => exact .inl hk

/-- Where a responder can go. -/
inductive Fate.Next : Fate R → Fate R → Prop
  | same (f) : Next f f
  | start : Next .unborn .inCall
  | queue : Next .inCall .queued
  | lose : Next .inCall .lost
  | recv : Next .queued .held
  | drop : Next .queued .lost
  | answer (r) : Next .held (.answered r)
  | abandon : Next .held .abandoned

omit [DecidableEq β] [DecidableEq κ] in
theorem Fate.Next.update {fate : χ → Fate R} {ch : χ} {f : Fate R} (h : (fate ch).Next f)
    (ch' : χ) : (fate ch').Next (Function.update fate ch f ch') := by
  by_cases heq : ch' = ch
  · subst heq
    rw [Function.update_self]
    exact h
  · rw [Function.update_of_ne heq]
    exact .same _

/-- Nothing comes after a response, or after there can be none. -/
def Fate.settled : Fate R → Bool
  | answered _ | abandoned | lost => true
  | _ => false

theorem Fate.Next.of_held {f : Fate R} (h : Fate.held.Next f) : f = .held ∨ f.settled = true := by
  cases h with
  | same => exact .inl rfl
  | answer r => exact .inr rfl
  | abandon => exact .inr rfl

theorem Fate.Next.of_settled {f f' : Fate R} (h : f.Next f') (hf : f.settled = true) :
    f'.settled = true := by
  cases h with
  | same => exact hf
  | _ => cases hf

theorem step_fate (h : Inv capacity s) (hst : Step M O s a s') (ch : χ) :
    (s.fate ch).Next (s'.fate ch) := by
  cases hst with
  | call k b command rx _ _ hrx =>
    refine Fate.Next.update ?_ ch
    rw [h.routed.fresh rx hrx]
    exact .start
  | sent k c chan hk hp =>
    refine Fate.Next.update ?_ ch
    rw [h.fate_of_sending hk hp]
    exact .queue
  | sendFailed k c o e hk hp | cancelSending k c o hk hp =>
    refine Fate.Next.update ?_ ch
    rw [h.fate_of_sending hk hp]
    exact .lose
  | recv e chan hrx hrecv =>
    obtain ⟨rest, hitems, -⟩ := M.recv_some _ _ _ hrecv
    refine Fate.Next.update ?_ ch
    rw [(h.head hrx hitems).1]
    exact .recv
  | respond ch' o r hf =>
    refine Fate.Next.update ?_ ch
    rw [hf]
    exact .answer r
  | dropResponder ch' o hf =>
    refine Fate.Next.update ?_ ch
    rw [hf]
    exact .abandon
  | dropReceiver hrx =>
    dsimp only
    split
    · rename_i hmem
      rw [(h.custody ch).queued.mp hmem]
      exact .drop
    · exact .same _
  | _ => exact .same _

/-- With a command received, what is queued behind it moves up. -/
theorem step_recv (hst : Step M O s .recv s') :
    ∃ e, s.queue.items = e :: s'.queue.items ∧ s'.fate e.responder = .held := by
  cases hst with
  | recv e chan hrx hrecv =>
    obtain ⟨rest, hitems, hstate⟩ := M.recv_some _ _ _ hrecv
    refine ⟨e, ?_, Function.update_self ..⟩
    rw [State.queue, State.queue, hitems, hstate]

theorem step_recvNone (hst : Step M O s .recvNone s') :
    s.queue.receiver = true ∧ s.queue.items = [] ∧ s.queue.senders = 0 := by
  cases hst with
  | recvNone chan hrx hrecv =>
    obtain ⟨hnil, hsenders, -⟩ := M.recv_none _ _ hrecv
    exact ⟨hrx, hnil, hsenders⟩

/-- The queue stays, or grows at its end, or loses its first command, or all of them. -/
theorem step_queue (hst : Step M O s a s') :
    (∃ more, s'.queue.items = s.queue.items ++ more) ∨
      (∃ e, s.queue.items = e :: s'.queue.items ∧ s'.fate e.responder = .held) ∨
      s'.queue.items = [] := by
  cases hst with
  | clone b b' _ _ => exact .inl ⟨[], by simp [State.queue]⟩
  | dropBus b _ _ => exact .inl ⟨[], by simp [State.queue]⟩
  | sent k c chan _ _ hsend =>
    obtain ⟨-, -, hstate⟩ := M.send_ok _ _ _ hsend
    exact .inl ⟨[c.envelope], congrArg Queue.items hstate⟩
  | recv e chan hrx hrecv => exact .inr (.inl (step_recv (.recv s e chan hrx hrecv)))
  | recvNone chan _ hrecv =>
    exact .inl ⟨[], by simp [State.queue, (M.recv_none _ _ hrecv).2.2]⟩
  | dropReceiver _ => exact .inr (.inr (by simp [State.queue, Queue.dropReceiver]))
  | _ => exact .inl ⟨[], (List.append_nil _).symm⟩

theorem step_receiver (hst : Step M O s a s') (ha : a ≠ .dropReceiver)
    (h : s.queue.receiver = true) : s'.queue.receiver = true := by
  cases hst with
  | sent k c chan _ _ hsend =>
    obtain ⟨-, -, hstate⟩ := M.send_ok _ _ _ hsend
    exact (congrArg Queue.receiver hstate).trans h
  | recv e chan _ hrecv =>
    obtain ⟨rest, -, hstate⟩ := M.recv_some _ _ _ hrecv
    exact (congrArg Queue.receiver hstate).trans h
  | recvNone chan _ hrecv => exact (congrArg Queue.receiver (M.recv_none _ _ hrecv).2.2).trans h
  | clone b b' _ _ => exact (congrArg Queue.receiver (M.state_clone s.chan)).trans h
  | dropBus b _ _ => exact (congrArg Queue.receiver (M.state_dropSender s.chan)).trans h
  | dropReceiver _ => exact (ha rfl).elim
  | _ => exact h

/-! ## The stages of a call -/

/-- The call is at this point. -/
def At (k : κ) (c : Call β C χ R) (p : Phase R) (s : State M O β κ) : Prop :=
  s.calls k = some { c with phase := p }

/-- The call has returned, or its caller has given it up. -/
def Over (k : κ) (c : Call β C χ R) (s : State M O β κ) : Prop :=
  ∃ p, p.inFlight = false ∧ At k c p s

/-- The command is in the queue, with `n` others before it. -/
def Behind (n : Nat) (k : κ) (c : Call β C χ R) (s : State M O β κ) : Prop :=
  At k c .waiting s ∧ ∃ before after, s.queue.items = before ++ c.envelope :: after ∧
    before.length = n

/-- The handler has the responder. -/
def Held (k : κ) (c : Call β C χ R) (s : State M O β κ) : Prop :=
  At k c .waiting s ∧ s.fate c.rx = .held

/-- The response channel has come to something. -/
def Resolved (k : κ) (c : Call β C χ R) (s : State M O β κ) : Prop :=
  At k c .waiting s ∧ (s.fate c.rx).settled = true

omit [DecidableEq β] [DecidableEq κ] [DecidableEq χ] in
theorem Over.returned {res : Except CommandError R} (h : At k c (.returned res) s) : Over k c s :=
  ⟨_, rfl, h⟩

omit [DecidableEq β] [DecidableEq κ] [DecidableEq χ] in
theorem Over.cancelled (h : At k c .cancelled s) : Over k c s := ⟨_, rfl, h⟩

theorem step_waiting (hst : Step M O s a s') (h : At k c .waiting s) :
    At k c .waiting s' ∨ Over k c s' := by
  rcases step_call hst h with h | ⟨hp, -⟩ | ⟨res, h⟩ | ⟨-, h⟩
  · exact .inl h
  · cases hp
  · exact .inr (.returned h)
  · exact .inr (.cancelled h)

omit [DecidableEq β] [DecidableEq κ] [DecidableEq χ] in
theorem held_or_resolved (h : Inv capacity s) (hk : At k c .waiting s)
    (hf : s.fate c.rx ≠ .queued) : Held k c s ∨ Resolved k c s := by
  obtain ⟨o, -, hagree⟩ := h.routed.agree k _ hk
  have hcases : s.fate c.rx = .held ∨ (s.fate c.rx).settled = true := by
    generalize s.fate c.rx = f, O.state o = cell at hf hagree
    cases hagree with
    | queued => exact (hf rfl).elim
    | held => exact .inl rfl
    | _ => exact .inr rfl
  exact hcases.imp (⟨hk, ·⟩) (⟨hk, ·⟩)

omit [DecidableEq β] [DecidableEq κ] [DecidableEq χ] in
theorem behind_of_queued (h : Inv capacity s) (hk : At k c .waiting s)
    (hf : s.fate c.rx = .queued) : ∃ n, Behind n k c s := by
  obtain ⟨e, he, hrx⟩ := List.mem_map.mp ((h.custody c.rx).queued.mpr hf)
  have hreceiver : s.queue.receiver = true := by
    by_contra hdead
    rw [h.delivered.drained (by simpa using hdead)] at he
    exact List.not_mem_nil he
  have hsent : e ∈ s.sent := by
    rw [← h.delivered.pending hreceiver]
    exact List.mem_append_right _ he
  obtain ⟨k', c', hk', rfl⟩ := h.routed.sender e hsent
  obtain rfl := h.routed.owner k' k c' _ hk' hk hrx
  obtain rfl := Option.some.inj (hk'.symm.trans hk)
  obtain ⟨before, after, hitems⟩ := List.append_of_mem he
  exact ⟨before.length, hk, before, after, hitems, rfl⟩

omit [DecidableEq β] [DecidableEq κ] [DecidableEq χ] in
/-- With the first command received, the others move up. -/
theorem Behind.move {n : Nat} (h : Behind n k c s) (hk : At k c .waiting s') {e : Envelope C χ}
    (hitems : s.queue.items = e :: s'.queue.items) (he : s'.fate e.responder = .held) :
    (∃ m, m < n ∧ Behind m k c s') ∨ Held k c s' := by
  obtain ⟨-, before, after, hq, rfl⟩ := h
  rw [hitems] at hq
  cases before with
  | nil =>
    obtain ⟨rfl, -⟩ := List.cons.inj hq
    exact .inr ⟨hk, he⟩
  | cons b before =>
    obtain ⟨-, hq⟩ := List.cons.inj hq
    exact .inl ⟨before.length, Nat.lt_succ_self _, hk, before, after, hq, rfl⟩

/-! ## Fairness -/

/-- The call waits to send, and there is room, or nobody to receive. -/
def CanSend (k : κ) (s : State M O β κ) : Prop :=
  ∃ c, s.calls k = some c ∧ c.phase = .sending ∧
    (s.queue.receiver = true → s.queue.items.length < s.queue.capacity)

/-- The call waits for a response that is there, or will never be. -/
def CanFinish (k : κ) (s : State M O β κ) : Prop :=
  ∃ c o r, s.calls k = some c ∧ c.phase = .waiting ∧ s.responses c.rx = some o ∧
    O.recv o = some r

/-- What is asked of the channel, the handler and the runtime. -/
structure Fair (r : (system M O β κ capacity).Trace) : Prop where
  sends (k : κ) : r.StronglyFair (CanSend k) fun a => a = .sent k ∨ a = .sendFailed k
  recvs : r.WeaklyFair (fun s => s.queue.receiver = true ∧ s.queue.items ≠ []) (· = .recv)
  answers (ch : χ) :
    r.WeaklyFair (fun s => s.fate ch = .held) fun a => a = .respond ch ∨ a = .dropResponder ch
  wakes (k : κ) : r.WeaklyFair (CanFinish k) (· = .finish k)

/-! ## From stage to stage -/

section

variable {r : (system M O β κ capacity).Trace}

omit [DecidableEq β] [DecidableEq κ] [DecidableEq χ] in
/-- A call that cannot send faces a full queue. -/
theorem canSend_or_full (hk : At k c .sending s) :
    s.queue.receiver = true ∧ s.queue.capacity ≤ s.queue.items.length ∨ CanSend k s := by
  by_cases h : s.queue.receiver = true → s.queue.items.length < s.queue.capacity
  · exact .inr ⟨_, hk, rfl, h⟩
  · push Not at h
    exact .inl h

theorem step_sending (hst : Step M O s a s') (h : At k c .sending s) :
    At k c .sending s' ∨ At k c .waiting s' ∨ Over k c s' := by
  rcases step_call hst h with h | ⟨-, h⟩ | ⟨res, h⟩ | ⟨-, h⟩
  · exact .inl h
  · exact .inr (.inl h)
  · exact .inr (.inr (.returned h))
  · exact .inr (.inr (.cancelled h))

/-- The handler makes room. -/
theorem sending_leadsTo_canSend (hfair : Fair r) :
    r.LeadsTo (At k c .sending) fun s => CanSend k s ∨ At k c .waiting s ∨ Over k c s := by
  have hfull : r.LeadsTo
      (fun s => At k c .sending s ∧ s.queue.receiver = true ∧
        s.queue.capacity ≤ s.queue.items.length)
      fun s => CanSend k s ∨ At k c .waiting s ∨ Over k c s := by
    refine Trace.leadsTo_of_weak hfair.recvs ?_ ?_ ?_
    · rintro s hs ⟨-, hrx, hlen⟩
      refine ⟨hrx, fun hnil => ?_⟩
      rw [(inv_of_reachable hs).delivered.capacity, hnil] at hlen
      simp at hlen
    · rintro s a s' - hst ⟨hk, -⟩
      rcases step_sending hst hk with hk | hout
      · rcases canSend_or_full hk with hfull | hcan
        · exact .inl ⟨hk, hfull⟩
        · exact .inr (.inl hcan)
      · exact .inr (.inr hout)
    · rintro s a s' hs hst rfl ⟨hk, -, -⟩
      rcases step_sending hst hk with hk | hout
      · obtain ⟨e, hitems, -⟩ := step_recv hst
        have hinv := inv_of_reachable hs
        refine .inl ⟨_, hk, rfl, fun _ => ?_⟩
        have hbound := hinv.delivered.bounded
        rw [hitems, List.length_cons] at hbound
        rw [(inv_of_reachable (hs.step hst)).delivered.capacity]
        omega
      · exact .inr hout
  refine Trace.LeadsTo.via (.of_imp fun s _ hk => ?_) hfull
  rcases canSend_or_full hk with hfull | hcan
  · exact .inl ⟨hk, hfull⟩
  · exact .inr (.inl hcan)

theorem sending_leadsTo (hfair : Fair r) :
    r.LeadsTo (At k c .sending) fun s => At k c .waiting s ∨ Over k c s := by
  refine Trace.leadsTo_of_strong (hfair.sends k) (sending_leadsTo_canSend hfair) ?_ ?_
  · exact fun _ hst hk => step_sending hst hk
  · rintro s a s' - hst (rfl | rfl) hk
    · cases hst with
      | sent _ c' chan hk' =>
        obtain rfl := Option.some.inj (hk.symm.trans hk')
        exact .inl (Function.update_self ..)
    · cases hst with
      | sendFailed _ c' o e hk' =>
        obtain rfl := Option.some.inj (hk.symm.trans hk')
        exact .inr (.returned (Function.update_self ..))

/-- The commands before it are received one after the other. -/
theorem behind_leadsTo (hfair : Fair r) (n : Nat) :
    r.LeadsTo (Behind n k c) fun s => (Held k c s ∨ Resolved k c s) ∨ Over k c s := by
  refine Trace.LeadsTo.descent (P := fun n => Behind n k c)
    (fun n => Trace.leadsTo_of_weak hfair.recvs ?_ ?_ ?_) n
  · rintro s hs ⟨-, before, after, hq, -⟩
    have hne : s.queue.items ≠ [] := by simp [hq]
    refine ⟨?_, hne⟩
    by_contra hdead
    exact hne ((inv_of_reachable hs).delivered.drained (by simpa using hdead))
  · intro s a s' hs hst h
    rcases step_waiting hst h.1 with hk | hover
    · rcases step_queue hst with ⟨more, hmore⟩ | ⟨e, hitems, he⟩ | hnil
      · obtain ⟨-, before, after, hq, hn⟩ := h
        exact .inl ⟨hk, before, after ++ more, by simp [hmore, hq], hn⟩
      · rcases h.move hk hitems he with hless | hheld
        · exact .inr (.inl hless)
        · exact .inr (.inr (.inl (.inl hheld)))
      · have hinv := inv_of_reachable (hs.step hst)
        refine .inr (.inr (.inl (held_or_resolved hinv hk fun hf => ?_)))
        have hmem := (hinv.custody c.rx).queued.mpr hf
        simp [hnil] at hmem
    · exact .inr (.inr (.inr hover))
  · rintro s a s' - hst rfl h
    rcases step_waiting hst h.1 with hk | hover
    · obtain ⟨e, hitems, he⟩ := step_recv hst
      rcases h.move hk hitems he with hless | hheld
      · exact .inl hless
      · exact .inr (.inl (.inl hheld))
    · exact .inr (.inr hover)

theorem held_leadsTo (hfair : Fair r) :
    r.LeadsTo (Held k c) fun s => Resolved k c s ∨ Over k c s := by
  refine Trace.leadsTo_of_weak (hfair.answers c.rx) (fun _ _ h => h.2) ?_ ?_
  · rintro s a s' hs hst ⟨hk, hf⟩
    rcases step_waiting hst hk with hk | hover
    · have hnext := step_fate (inv_of_reachable hs) hst c.rx
      rw [hf] at hnext
      rcases hnext.of_held with hheld | hsettled
      · exact .inl ⟨hk, hheld⟩
      · exact .inr (.inl ⟨hk, hsettled⟩)
    · exact .inr (.inr hover)
  · rintro s a s' - hst hA ⟨hk, hf⟩
    rcases step_waiting hst hk with hk | hover
    · refine .inl ⟨hk, ?_⟩
      rcases hA with rfl | rfl
      · cases hst with
        | respond _ o r => simp [Fate.settled]
      · cases hst with
        | dropResponder _ o => simp [Fate.settled]
    · exact .inr hover

theorem resolved_leadsTo (hfair : Fair r) : r.LeadsTo (Resolved k c) (Over k c) := by
  refine Trace.leadsTo_of_weak (hfair.wakes k) ?_ ?_ ?_
  · rintro s hs ⟨hk, hf⟩
    obtain ⟨o, ho, hagree⟩ := (inv_of_reachable hs).routed.agree k _ hk
    obtain ⟨r, hr⟩ := hagree.recv_isSome (fun h => by rw [h] at hf; cases hf)
      (fun h => by rw [h] at hf; cases hf)
    exact ⟨_, o, r, hk, rfl, ho, (O.recv_eq o).trans hr⟩
  · rintro s a s' hs hst ⟨hk, hf⟩
    rcases step_waiting hst hk with hk | hover
    · exact .inl ⟨hk, (step_fate (inv_of_reachable hs) hst c.rx).of_settled hf⟩
    · exact .inr hover
  · rintro s a s' - hst rfl ⟨hk, -⟩
    cases hst with
    | finish _ c' o r hk' =>
      obtain rfl := Option.some.inj (hk.symm.trans hk')
      exact .returned (Function.update_self ..)

theorem waiting_leadsTo (hfair : Fair r) : r.LeadsTo (At k c .waiting) (Over k c) := by
  have hheld : r.LeadsTo (Held k c) (Over k c) :=
    (held_leadsTo hfair).via (resolved_leadsTo hfair)
  have hbehind : ∀ n, r.LeadsTo (Behind n k c) (Over k c) := fun n => by
    refine (behind_leadsTo hfair n).via fun t h => ?_
    rcases h with h | h
    · exact hheld t h
    · exact resolved_leadsTo hfair t h
  intro t hk
  have hinv := inv_of_reachable (r.reachable t)
  by_cases hf : (r.state t).fate c.rx = .queued
  · obtain ⟨n, hn⟩ := behind_of_queued hinv hk hf
    exact hbehind n t hn
  · rcases held_or_resolved hinv hk hf with h | h
    · exact hheld t h
    · exact resolved_leadsTo hfair t h

/-- No call stays on its way for ever. -/
theorem inFlight_leadsTo (hfair : Fair r) (hp : c.phase.inFlight = true) :
    r.LeadsTo (fun s => s.calls k = some c) (Over k c) := by
  intro t hk
  cases hphase : c.phase with
  | sending =>
    have hsending : At k c .sending (r.state t) := by rw [At, ← hphase]; exact hk
    exact (sending_leadsTo hfair).via (waiting_leadsTo hfair) t hsending
  | waiting =>
    have hwaiting : At k c .waiting (r.state t) := by rw [At, ← hphase]; exact hk
    exact waiting_leadsTo hfair t hwaiting
  | _ =>
    rw [hphase] at hp
    cases hp

/-- Only its caller gives a call up. -/
theorem not_cancelled {p : Phase R} (hp : p ≠ .cancelled) {t : Nat} (hk : At k c p (r.state t))
    (hcancel : ∀ u, t ≤ u → r.act u ≠ some (.cancel k)) {u : Nat} (htu : t ≤ u) :
    ∃ p, p ≠ .cancelled ∧ At k c p (r.state u) := by
  refine Trace.keeps (P := fun s => ∃ p, p ≠ .cancelled ∧ At k c p s) ⟨p, hp, hk⟩ ?_ u htu
  intro u a htu ha hu
  obtain ⟨p, hp, hk⟩ := hu
  rcases step_call (r.step u a ha) hk with hk | ⟨-, hk⟩ | ⟨res, hk⟩ | ⟨rfl, -⟩
  · exact ⟨p, hp, hk⟩
  · exact ⟨_, by simp, hk⟩
  · exact ⟨_, by simp, hk⟩
  · exact (hcancel u htu ha).elim

omit [DecidableEq β] [DecidableEq κ] [DecidableEq χ] in
/-- What a call returns is its own answer, or there will be none. -/
theorem outcome (h : Inv capacity s) {res : Except CommandError R}
    (hk : At k c (.returned res) s) :
    (∃ answer, s.fate c.rx = .answered answer ∧ res = callResult (.ok answer)) ∨
      res = .error .handlerDropped ∧
        (s.fate c.rx = .abandoned ∨ s.fate c.rx = .lost ∧ s.queue.receiver = false) := by
  obtain ⟨o, -, hagree⟩ := h.routed.agree k _ hk
  dsimp only at hagree
  generalize s.fate c.rx = f, O.state o = cell at hagree
  cases hagree with
  | returnedAnswered answer _ _ hres => exact .inl ⟨answer, rfl, hres.symm⟩
  | returnedAbandoned => exact .inr ⟨rfl, .inl rfl⟩
  | returnedLost _ hdead => exact .inr ⟨rfl, .inr ⟨rfl, hdead⟩⟩

/-- **Every call returns.** However many callers there are and whatever they do: in a fair run a
call that its caller does not give up returns, with the answer that its own command was given,
or with `HandlerDropped` where the handler dropped the responder or went away before it received
the command. -/
theorem every_call_returns (hfair : Fair r) {t : Nat} (hk : (r.state t).calls k = some c)
    (hp : c.phase.inFlight = true) (hcancel : ∀ u, t ≤ u → r.act u ≠ some (.cancel k)) :
    ∃ u res, t ≤ u ∧ (r.state u).calls k = some { c with phase := .returned res } ∧
      ((∃ answer, (r.state u).fate c.rx = .answered answer ∧ res = callResult (.ok answer)) ∨
        res = .error .handlerDropped ∧
          ((r.state u).fate c.rx = .abandoned ∨
            (r.state u).fate c.rx = .lost ∧ (r.state u).queue.receiver = false)) := by
  obtain ⟨u, htu, q, hq, hover⟩ := inFlight_leadsTo hfair hp t hk
  have hphase : c.phase ≠ .cancelled := by
    intro h
    rw [h] at hp
    cases hp
  obtain ⟨p, hnot, hat⟩ := not_cancelled hphase hk hcancel htu
  obtain rfl : q = p := congrArg Call.phase (Option.some.inj (hover.symm.trans hat))
  cases q with
  | returned res => exact ⟨u, res, htu, hover, outcome (inv_of_reachable (r.reachable u)) hover⟩
  | cancelled => exact (hnot rfl).elim
  | _ => cases hq

/-! ## When all buses are gone -/

/-- Who is on its way has a bus. -/
def Manned (s : State M O β κ) : Prop :=
  ∀ k c, s.calls k = some c → c.phase.inFlight = true → c.bus ∈ s.buses

omit [DecidableEq β] [DecidableEq χ] in
theorem Manned.update (h : Manned s) {k : κ} {c : Call β C χ R}
    (hc : c.phase.inFlight = true → c.bus ∈ s.buses) {k' : κ} {c' : Call β C χ R}
    (hk' : Function.update s.calls k (some c) k' = some c') (hp : c'.phase.inFlight = true) :
    c'.bus ∈ s.buses := by
  by_cases heq : k' = k
  · subst heq
    rw [Function.update_self] at hk'
    obtain rfl := Option.some.inj hk'
    exact hc hp
  · rw [Function.update_of_ne heq] at hk'
    exact h k' c' hk' hp

theorem step_manned (h : Manned s) (hst : Step M O s a s') : Manned s' := by
  cases hst with
  | clone b b' _ _ => exact fun k c hk hp => Finset.mem_insert_of_mem (h k c hk hp)
  | dropBus b _ hidle =>
    refine fun k c hk hp => Finset.mem_erase.mpr ⟨fun hb => ?_, h k c hk hp⟩
    rw [hidle k c hk hb] at hp
    cases hp
  | call k b command rx hb _ _ => exact fun k' c' hk' hp => h.update (fun _ => hb) hk' hp
  | sent k c chan hk hp | sendFailed k c o e hk hp | cancelSending k c o hk hp
  | cancelWaiting k c o hk hp | finish k c o r hk hp =>
    intro k' c' hk' hp'
    refine h.update ?_ hk' hp'
    exact fun _ => h k c hk (by rw [hp]; rfl)
  | _ => exact h

/-- All buses are gone. -/
def Gone (s : State M O β κ) : Prop := Manned s ∧ s.buses = ∅

omit [DecidableEq β] [DecidableEq κ] [DecidableEq χ] in
theorem Gone.idle (h : Gone s) (hk : s.calls k = some c) : c.phase.inFlight = false := by
  by_contra hp
  have hmem := h.1 k c hk (by simpa using hp)
  rw [h.2] at hmem
  exact Finset.notMem_empty _ hmem

/-- Without buses there are no further commands. -/
theorem step_gone (h : Gone s) (hst : Step M O s a s') :
    Gone s' ∧ s'.queue.items.length ≤ s.queue.items.length := by
  refine ⟨⟨step_manned h.1 hst, ?_⟩, ?_⟩
  · cases hst with
    | clone b b' hb _ =>
      rw [h.2] at hb
      exact (Finset.notMem_empty _ hb).elim
    | dropBus b _ _ => simp [h.2]
    | _ => exact h.2
  · cases hst with
    | sent k c chan hk hp =>
      have := h.idle hk
      rw [hp] at this
      cases this
    | recv e chan hrx hrecv =>
      obtain ⟨e, hitems, -⟩ := step_recv (.recv s e chan hrx hrecv)
      rw [hitems]
      exact Nat.le_succ _
    | clone | dropBus | dropReceiver => simp [State.queue, Queue.dropReceiver]
    | recvNone chan _ hrecv => simp [State.queue, (M.recv_none _ _ hrecv).2.2]
    | _ => exact Nat.le_refl _

/-- The handler receives what is left. -/
theorem gone_leadsTo
    (hrecvs : r.WeaklyFair (fun s => s.queue.receiver = true ∧ s.queue.items ≠ []) (· = .recv))
    (n : Nat) :
    r.LeadsTo (fun s => Gone s ∧ s.queue.items.length = n)
      fun s => Gone s ∧ s.queue.items = [] := by
  refine Trace.LeadsTo.descent (P := fun n s => Gone s ∧ s.queue.items.length = n)
    (fun n => ?_) n
  cases n with
  | zero => exact .of_imp fun s _ h => .inr ⟨h.1, List.eq_nil_of_length_eq_zero h.2⟩
  | succ n =>
    refine Trace.leadsTo_of_weak hrecvs ?_ ?_ ?_
    · rintro s hs ⟨-, hn⟩
      have hne : s.queue.items ≠ [] := fun hnil => by simp [hnil] at hn
      refine ⟨?_, hne⟩
      by_contra hdead
      exact hne ((inv_of_reachable hs).delivered.drained (by simpa using hdead))
    · rintro s a s' - hst ⟨hgone, hn⟩
      obtain ⟨hgone', hle⟩ := step_gone hgone hst
      by_cases heq : s'.queue.items.length = n + 1
      · exact .inl ⟨hgone', heq⟩
      · exact .inr (.inl ⟨_, by omega, hgone', rfl⟩)
    · rintro s a s' - hst rfl ⟨hgone, hn⟩
      obtain ⟨e, hitems, -⟩ := step_recv hst
      rw [hitems, List.length_cons] at hn
      exact .inl ⟨_, by omega, (step_gone hgone hst).1, rfl⟩

theorem gone_stays {t u : Nat} (h : Gone (r.state t) ∧ (r.state t).queue.items = []) (htu : t ≤ u) :
    Gone (r.state u) ∧ (r.state u).queue.items = [] := by
  refine Trace.stays (P := fun s => Gone s ∧ s.queue.items = []) (Q := fun _ => False) ?_ h
    (fun _ _ h => h) u htu
  rintro s a s' - hst ⟨hgone, hnil⟩
  obtain ⟨hgone', hle⟩ := step_gone hgone hst
  rw [hnil] at hle
  exact .inl ⟨hgone', List.eq_nil_of_length_eq_zero (Nat.le_zero.mp hle)⟩

theorem manned_of_reachable (h : (system M O β κ capacity).Reachable s) : Manned s := by
  refine h.invariant ?_ step_manned
  rintro s ⟨b, rfl⟩ k c hk
  cases hk

/-- A receiver that is not dropped is there. -/
theorem receiver_stays (hkeeps : ∀ t, r.act t ≠ some .dropReceiver) (t : Nat) :
    (r.state t).queue.receiver = true := by
  have hinit : (r.state 0).queue.receiver = true := by
    obtain ⟨b, hb⟩ := r.init
    rw [hb]
    exact congrArg Queue.receiver (M.state_channel _ (by omega))
  refine Trace.keeps (P := fun s : State M O β κ => s.queue.receiver = true) hinit ?_ t (Nat.zero_le t)
  intro u a _ ha hu
  exact step_receiver (r.step u a ha) (fun hdrop => hkeeps u (hdrop ▸ ha)) hu

/-- **The handler's loop ends.** When all buses are gone, a handler that receives until it gets
`None` gets it: by then it has been given every command that was ever sent, and nobody waits for
it. -/
theorem handler_loop_ends
    (hrecvs : r.WeaklyFair (fun s => s.queue.receiver = true ∧ s.queue.items ≠ []) (· = .recv))
    (hnone : (∀ᶠ u in atTop, (r.state u).queue.receiver = true ∧ (r.state u).queue.items = [] ∧
      (r.state u).queue.senders = 0) → ∃ u, r.act u = some .recvNone)
    (hloop : ∀ u, r.act u = some .dropReceiver → ∃ v, v < u ∧ r.act v = some .recvNone)
    {t : Nat} (hgone : (r.state t).buses = ∅) :
    ∃ u, r.act u = some .recvNone ∧ (r.state u).buses = ∅ ∧
      (r.state u).yielded = (r.state u).sent ∧
      ∀ k c, (r.state u).calls k = some c → c.phase.inFlight = false := by
  obtain ⟨u, hu⟩ : ∃ u, r.act u = some .recvNone := by
    by_contra hnever
    push Not at hnever
    have hreceiver := receiver_stays fun u hu => (hloop u hu).elim fun v hv => hnever v hv.2
    have hgone : Gone (r.state t) := ⟨manned_of_reachable (r.reachable t), hgone⟩
    obtain ⟨v, -, hempty⟩ := gone_leadsTo hrecvs _ t ⟨hgone, rfl⟩
    obtain ⟨u, hu⟩ := hnone (eventually_atTop.mpr ⟨v, fun u hvu => by
      obtain ⟨hgone, hnil⟩ := gone_stays hempty hvu
      refine ⟨hreceiver u, hnil, ?_⟩
      rw [(inv_of_reachable (r.reachable u)).senders, hgone.2]
      rfl⟩)
    exact hnever u hu
  have hinv := inv_of_reachable (r.reachable u)
  obtain ⟨hrx, hnil, hsenders⟩ := step_recvNone (r.step u _ hu)
  have hbuses : (r.state u).buses = ∅ := Finset.card_eq_zero.mp (hinv.senders.symm.trans hsenders)
  have hpending := hinv.delivered.pending hrx
  rw [hnil, List.append_nil] at hpending
  have hgone : Gone (r.state u) := ⟨manned_of_reachable (r.reachable u), hbuses⟩
  exact ⟨u, hu, hbuses, hpending, fun k c hk => hgone.idle hk⟩

end

end

/-! ## A command that is answered -/

/-- Where nobody waits for anything, no trace has been unfair. -/
theorem fair_of_rest {β κ χ C R : Type} [DecidableEq β] [DecidableEq κ] [DecidableEq χ]
    {M : Mpsc (Envelope C χ)} {O : Oneshot (Except ErrorClass R)} {capacity : Nat}
    {r : (system M O β κ capacity).Trace} {s : State M O β κ}
    (hrest : ∀ᶠ t in atTop, r.state t = s)
    (hcalls : ∀ k c, s.calls k = some c → c.phase.inFlight = false) (hitems : s.queue.items = [])
    (hheld : ∀ ch, s.fate ch ≠ .held) : Fair r where
  sends k := Trace.stronglyFair_of_rest (hrest.mono fun t ht => by
    rw [ht]
    rintro ⟨c, hk, hp, -⟩
    have := hcalls k c hk
    rw [hp] at this
    cases this)
  recvs := Trace.weaklyFair_of_rest (hrest.mono fun t ht => by
    rw [ht]
    exact fun h => h.2 hitems)
  answers ch := Trace.weaklyFair_of_rest (hrest.mono fun t ht => by
    rw [ht]
    exact hheld ch)
  wakes k := Trace.weaklyFair_of_rest (hrest.mono fun t ht => by
    rw [ht]
    rintro ⟨c, o, res, hk, hp, -⟩
    have := hcalls k c hk
    rw [hp] at this
    cases this)

abbrev sampleSystem := system (Queue.mpsc (Envelope Nat Nat)) (Cell.oneshot (Except ErrorClass Nat))
  Nat Nat 0

/-- One call, on a bus without room of its own, up to the response. -/
def responded : sampleSystem.Trace :=
  let r₀ : sampleSystem.Trace := .rest (new _ _ 0 0) ⟨0, rfl⟩
  let r₁ := r₀.stop 0 _ _ (.call _ 0 0 5 9 (Finset.mem_singleton_self 0) rfl rfl)
  let r₂ := r₁.stop 1 _ _ (.sent _ 0 ⟨0, 5, 9, .sending⟩ _ rfl rfl rfl)
  let r₃ := r₂.stop 2 _ _ (.recv _ ⟨5, 9⟩ _ rfl rfl)
  r₃.stop 3 _ _ (.respond _ 9 Cell.empty (.ok 7) rfl rfl)

/-- The same with what `call` returns, and nothing more. -/
def answered : sampleSystem.Trace :=
  responded.stop 4 _ _ (.finish _ 0 ⟨0, 5, 9, .waiting⟩ (Cell.sent (.ok 7)) (.ok (.ok 7)) rfl rfl
    rfl rfl)

theorem act_answered :
    ∀ t, answered.act t = [.call 0, .sent 0, .recv, .respond 9, .finish 0][t]?
  | 0 | 1 | 2 | 3 | 4 => rfl
  | t + 5 => by simp [answered, responded, Trace.stop, Trace.rest]

theorem idle_answered {k : Nat} {c : Call Nat Nat Nat Nat}
    (hk : (answered.state 5).calls k = some c) : c.phase.inFlight = false := by
  cases k with
  | zero =>
    cases hk
    rfl
  | succ k =>
    have hnone : none = some c := hk
    cases hnone

theorem fair_answered : Fair answered := by
  refine fair_of_rest (Trace.comes_to_rest act_answered) (fun _ _ => idle_answered) rfl fun ch => ?_
  by_cases h : ch = 9
  · subst h
    exact fun hheld => by cases hheld
  · have hunborn : Fate.unborn = (answered.state 5).fate ch := by
      simp [answered, responded, Trace.stop, Trace.rest, new, h]
    exact fun hheld => by cases hunborn.trans hheld

theorem every_call_returns_one :
    ∃ u res, 1 ≤ u ∧ (answered.state u).calls 0 = some ⟨0, 5, 9, .returned res⟩ := by
  have hcancel : ∀ u, 1 ≤ u → answered.act u ≠ some (.cancel 0) := fun u _ h => by
    simpa using List.mem_of_getElem? ((act_answered u).symm.trans h)
  have hk : (answered.state 1).calls 0 = some ⟨0, 5, 9, .sending⟩ := rfl
  obtain ⟨u, res, hu, hres, -⟩ := every_call_returns fair_answered hk rfl hcancel
  exact ⟨u, res, hu, hres⟩

/-- The bus goes after the call, and the handler is told. -/
def stopped : sampleSystem.Trace :=
  let r := answered.stop 5 _ _ (.dropBus _ 0 (Finset.mem_singleton_self 0) fun _ _ hk _ =>
    idle_answered hk)
  r.stop 6 _ _ (.recvNone _ _ rfl rfl)

theorem act_stopped :
    ∀ t, stopped.act t =
      [.call 0, .sent 0, .recv, .respond 9, .finish 0, .dropBus 0, .recvNone][t]?
  | 0 | 1 | 2 | 3 | 4 | 5 | 6 => rfl
  | t + 7 => by simp [stopped, answered, responded, Trace.stop, Trace.rest]

theorem handler_loop_ends_one :
    ∃ u, stopped.act u = some .recvNone ∧ (stopped.state u).yielded = (stopped.state u).sent := by
  have hrecvs : stopped.WeaklyFair
      (fun s => s.queue.receiver = true ∧ s.queue.items ≠ []) (· = .recv) :=
    Trace.weaklyFair_of_rest ((Trace.comes_to_rest act_stopped).mono fun t ht => by
      rw [ht]
      exact fun h => h.2 rfl)
  have hloop : ∀ u, stopped.act u = some .dropReceiver →
      ∃ v, v < u ∧ stopped.act v = some .recvNone := fun u h => by
    simpa using List.mem_of_getElem? ((act_stopped u).symm.trans h)
  have hgone : (stopped.state 6).buses = ∅ := Finset.erase_singleton 0
  obtain ⟨u, hu, -, hall, -⟩ := handler_loop_ends hrecvs (fun _ => ⟨6, rfl⟩) hloop hgone
  exact ⟨u, hu, hall⟩

end Forgeclaw.Core.Command
