/-
  The three parts of the command bus, each with what the steps do to it.

  * `Delivered`: the queue is what was sent and not yet received;
  * `Custody`: every responder is where the queue and the received commands say it is;
  * `Routed`: each call agrees with its own response channel.
-/
import Forgeclaw.Core.Command

namespace Forgeclaw.Core.Command

open Channel

section

variable {β κ χ C R : Type}

/-! ## The result of a call -/

@[simp] theorem callResult_ok (r : R) : callResult (.ok (.ok r)) = .ok r := rfl

@[simp] theorem callResult_handler (e : ErrorClass) :
    callResult (R := R) (.ok (.error e)) = .error (.handler e) := rfl

theorem callResult_ok_ne (r : Except ErrorClass R) :
    callResult (.ok r) ≠ .error .handlerDropped := by
  cases r <;> simp

/-! ## The queue -/

/-- The queue is what was sent and not received, while there is a receiver. -/
structure Delivered (n : Nat) (q : Queue (Envelope C χ)) (sent yielded : List (Envelope C χ)) :
    Prop where
  capacity : q.capacity = n
  bounded : q.items.length ≤ n
  ordered : yielded <+: sent
  pending : q.receiver = true → yielded ++ q.items = sent
  drained : q.receiver = false → q.items = []
  nodup : (sent.map Envelope.responder).Nodup

namespace Delivered

variable {n : Nat} {q : Queue (Envelope C χ)} {sent yielded : List (Envelope C χ)}

theorem new (n : Nat) : Delivered n (.new n) ([] : List (Envelope C χ)) [] :=
  ⟨rfl, Nat.zero_le _, List.prefix_rfl, fun _ => rfl, fun _ => rfl, List.nodup_nil⟩

theorem senders (h : Delivered n q sent yielded) (m : Nat) :
    Delivered n { q with senders := m } sent yielded :=
  ⟨h.capacity, h.bounded, h.ordered, h.pending, h.drained, h.nodup⟩

theorem push (h : Delivered n q sent yielded) (hrx : q.receiver = true)
    (hroom : q.items.length < q.capacity) {e : Envelope C χ}
    (he : e.responder ∉ sent.map Envelope.responder) :
    Delivered n (q.push e) (sent ++ [e]) yielded where
  capacity := h.capacity
  bounded := by
    have := h.capacity
    simp only [Queue.push, List.length_append, List.length_singleton]
    omega
  ordered := h.ordered.trans (List.prefix_append _ _)
  pending _ := by rw [← h.pending hrx, List.append_assoc]; rfl
  drained hdead := by simp [Queue.push, hrx] at hdead
  nodup := by
    rw [List.map_append, List.map_singleton, ← List.concat_eq_append]
    exact h.nodup.concat he

theorem pop (h : Delivered n q sent yielded) (hrx : q.receiver = true) {e : Envelope C χ}
    {rest : List (Envelope C χ)} (hq : q.items = e :: rest) :
    Delivered n { q with items := rest } sent (yielded ++ [e]) where
  capacity := h.capacity
  bounded := by
    have := h.bounded
    rw [hq, List.length_cons] at this
    exact (Nat.le_succ _).trans this
  ordered := ⟨rest, by rw [← h.pending hrx, hq, List.append_assoc]; rfl⟩
  pending _ := by rw [← h.pending hrx, hq, List.append_assoc]; rfl
  drained hdead := by simp [hrx] at hdead
  nodup := h.nodup

theorem dropReceiver (h : Delivered n q sent yielded) :
    Delivered n q.dropReceiver sent yielded :=
  ⟨h.capacity, Nat.zero_le _, h.ordered, fun hrx => by simp [Queue.dropReceiver] at hrx,
    fun _ => rfl, h.nodup⟩

/-- No command is twice among those received and those in the queue. -/
theorem nodup_responders (h : Delivered n q sent yielded) :
    ((yielded ++ q.items).map Envelope.responder).Nodup := by
  cases hrx : q.receiver with
  | true => rw [h.pending hrx]; exact h.nodup
  | false =>
    rw [h.drained hrx, List.append_nil]
    exact h.nodup.sublist (h.ordered.sublist.map _)

end Delivered

/-! ## Where the responders are -/

/-- Where a responder is goes with whether its command is in the queue, received, and sent. -/
structure Placed (f : Fate R) (inQueue received sent : Prop) : Prop where
  queued : inQueue ↔ f = .queued
  received : received ↔ f.received = true
  leftCall : sent → f.leftCall = true

/-- Every responder is where the queue and the received commands say it is. -/
def Custody (items sent yielded : List (Envelope C χ)) (fate : χ → Fate R) : Prop :=
  ∀ ch, Placed (fate ch) (ch ∈ items.map Envelope.responder)
    (ch ∈ yielded.map Envelope.responder) (ch ∈ sent.map Envelope.responder)

namespace Custody

variable {items sent yielded : List (Envelope C χ)} {fate : χ → Fate R}

theorem new : Custody ([] : List (Envelope C χ)) [] [] (fun _ => (.unborn : Fate R)) :=
  fun _ => ⟨by simp, by simp [Fate.received], by simp⟩

theorem dropReceiver [DecidableEq χ] (h : Custody items sent yielded fate) :
    Custody [] sent yielded
      (fun ch => if ch ∈ items.map Envelope.responder then .lost else fate ch) := by
  intro ch
  by_cases hq : ch ∈ items.map Envelope.responder
  · have hf : (fate ch).received = false := by rw [(h ch).queued.1 hq]; rfl
    simp only [if_pos hq]
    refine ⟨by simp, ?_, fun _ => rfl⟩
    rw [(h ch).received, hf]
    rfl
  · simp only [if_neg hq]
    refine ⟨?_, (h ch).received, (h ch).leftCall⟩
    rw [← (h ch).queued]
    simp [hq]

variable [DecidableEq χ]

/-- A responder may change its place where neither list can tell. -/
theorem move (h : Custody items sent yielded fate) {ch : χ} {f : Fate R}
    (hq : f = .queued ↔ fate ch = .queued) (hr : f.received = (fate ch).received)
    (hl : (fate ch).leftCall = true → f.leftCall = true) :
    Custody items sent yielded (Function.update fate ch f) := by
  intro ch'
  by_cases heq : ch' = ch
  · subst heq
    rw [Function.update_self]
    exact ⟨(h ch').queued.trans hq.symm, by rw [hr]; exact (h ch').received,
      fun hsent => hl ((h ch').leftCall hsent)⟩
  · rw [Function.update_of_ne heq]
    exact h ch'

theorem start (h : Custody items sent yielded fate) {ch : χ} (hch : fate ch = .unborn) :
    Custody items sent yielded (Function.update fate ch .inCall) :=
  h.move (by simp [hch]) (by rw [hch]; rfl) (by simp [hch, Fate.leftCall])

theorem lose (h : Custody items sent yielded fate) {ch : χ} (hch : fate ch = .inCall) :
    Custody items sent yielded (Function.update fate ch .lost) :=
  h.move (by simp [hch]) (by rw [hch]; rfl) (by simp [hch, Fate.leftCall])

/-- The handler is done with a responder. -/
theorem settle (h : Custody items sent yielded fate) {ch : χ} (hch : fate ch = .held)
    {f : Fate R} (hf : f.received = true) :
    Custody items sent yielded (Function.update fate ch f) := by
  cases f with
  | held | answered | abandoned =>
    exact h.move (by simp [hch]) (by simp [hch, Fate.received]) (fun _ => rfl)
  | _ => cases hf

theorem push (h : Custody items sent yielded fate) {e : Envelope C χ}
    (he : fate e.responder = .inCall) :
    Custody (items ++ [e]) (sent ++ [e]) yielded (Function.update fate e.responder .queued) := by
  intro ch
  by_cases heq : ch = e.responder
  · subst heq
    rw [Function.update_self]
    refine ⟨by simp, ?_, fun _ => rfl⟩
    rw [(h _).received, he]
    rfl
  · rw [Function.update_of_ne heq]
    simpa [heq] using h ch

theorem pop {e : Envelope C χ} (h : Custody (e :: items) sent yielded fate)
    (he : e.responder ∉ items.map Envelope.responder) :
    Custody items sent (yielded ++ [e]) (Function.update fate e.responder .held) := by
  intro ch
  by_cases heq : ch = e.responder
  · subst heq
    rw [Function.update_self]
    exact ⟨iff_of_false he (by simp), by simp [Fate.received], fun _ => rfl⟩
  · rw [Function.update_of_ne heq]
    simpa [heq] using h ch

end Custody

/-! ## Each call and its response channel -/

/-- How far a call is, where its responder is and what its response channel holds go together;
`receiver` says whether commands can still be received. -/
inductive Agree (receiver : Bool) :
    Phase R → Fate R → Cell (Except ErrorClass R) → Prop
  | sending : Agree receiver .sending .inCall .empty
  | queued : Agree receiver .waiting .queued .empty
  | held : Agree receiver .waiting .held .empty
  | answered (r) : Agree receiver .waiting (.answered r) (.sent r)
  | abandoned : Agree receiver .waiting .abandoned .closed
  | lost : receiver = false → Agree receiver .waiting .lost .closed
  | returnedAnswered (r res o) : callResult (.ok r) = res →
      Agree receiver (.returned res) (.answered r) o
  | returnedAbandoned (o) : Agree receiver (.returned (.error .handlerDropped)) .abandoned o
  | returnedLost (o) : receiver = false →
      Agree receiver (.returned (.error .handlerDropped)) .lost o
  | cancelled (f o) : f.leftCall = true → Agree receiver .cancelled f o

namespace Agree

variable {receiver : Bool} {p : Phase R} {o : Cell (Except ErrorClass R)}

theorem recv (h : Agree receiver p .queued o) : Agree receiver p .held o := by
  cases h with
  | queued => exact .held
  | cancelled => exact .cancelled _ _ rfl

theorem respond (h : Agree receiver p .held o) (r : Except ErrorClass R) :
    Agree receiver p (.answered r) (o.send r) := by
  cases h with
  | held => exact .answered r
  | cancelled => exact .cancelled _ _ rfl

theorem abandon (h : Agree receiver p .held o) : Agree receiver p .abandoned o.dropSender := by
  cases h with
  | held => exact .abandoned
  | cancelled => exact .cancelled _ _ rfl

theorem drop (h : Agree receiver p .queued o) : Agree false p .lost o.dropSender := by
  cases h with
  | queued => exact .lost rfl
  | cancelled => exact .cancelled _ _ rfl

/-- Losing the receiver takes nothing from what is known of the others. -/
theorem dead {f : Fate R} (h : Agree receiver p f o) : Agree false p f o := by
  cases h with
  | sending => exact .sending
  | queued => exact .queued
  | held => exact .held
  | answered r => exact .answered r
  | abandoned => exact .abandoned
  | lost => exact .lost rfl
  | returnedAnswered r res o h => exact .returnedAnswered r res o h
  | returnedAbandoned o => exact .returnedAbandoned o
  | returnedLost o => exact .returnedLost o rfl
  | cancelled f o h => exact .cancelled f o h

theorem finish {f : Fate R} (h : Agree receiver .waiting f o)
    {r : Except Unit (Except ErrorClass R)} (hr : o.recv = some r)
    (o' : Cell (Except ErrorClass R)) : Agree receiver (.returned (callResult r)) f o' := by
  cases h with
  | answered r' =>
    cases hr
    exact .returnedAnswered r' _ o' rfl
  | abandoned =>
    cases hr
    exact .returnedAbandoned o'
  | lost hdead =>
    cases hr
    exact .returnedLost o' hdead
  | _ => cases hr

theorem of_sending {f : Fate R} (h : Agree receiver .sending f o) : f = .inCall := by
  cases h
  rfl

theorem sent {f : Fate R} (h : Agree receiver .sending f o) : Agree receiver .waiting .queued o := by
  cases h
  exact .queued

theorem of_ok {f : Fate R} {r : R} (h : Agree receiver (.returned (.ok r)) f o) :
    f = .answered (.ok r) := by
  cases h with
  | returnedAnswered r' _ _ hr =>
    cases r' with
    | ok r' => cases hr; rfl
    | error e => cases hr

theorem of_handler {f : Fate R} {e : ErrorClass}
    (h : Agree receiver (.returned (.error (.handler e))) f o) : f = .answered (.error e) := by
  cases h with
  | returnedAnswered r' _ _ hr =>
    cases r' with
    | ok r' => cases hr
    | error e' => cases hr; rfl

theorem of_handlerDropped {f : Fate R}
    (h : Agree receiver (.returned (.error .handlerDropped)) f o) :
    f = .abandoned ∨ f = .lost ∧ receiver = false := by
  cases h with
  | returnedAnswered r' _ _ hr => exact (callResult_ok_ne r' hr).elim
  | returnedAbandoned => exact .inl rfl
  | returnedLost _ hdead => exact .inr ⟨rfl, hdead⟩

/-- A call waits in vain for no response channel: without a responder, it resolves. -/
theorem recv_isSome {f : Fate R} (h : Agree receiver .waiting f o) (hqueued : f ≠ .queued)
    (hheld : f ≠ .held) : ∃ r, o.recv = some r := by
  cases h with
  | queued => exact (hqueued rfl).elim
  | held => exact (hheld rfl).elim
  | answered r => exact ⟨.ok r, rfl⟩
  | abandoned => exact ⟨.error (), rfl⟩
  | lost => exact ⟨.error (), rfl⟩

theorem leftCall {f : Fate R} (h : Agree receiver .waiting f o) : f.leftCall = true := by
  cases h <;> rfl

end Agree

/-- Response channels are not shared, and each call agrees with its own. -/
structure Routed (O : Oneshot (Except ErrorClass R)) (receiver : Bool)
    (calls : κ → Option (Call β C χ R)) (responses : χ → Option O.Chan) (fate : χ → Fate R)
    (sent : List (Envelope C χ)) : Prop where
  sender : ∀ e ∈ sent, ∃ k c, calls k = some c ∧ c.envelope = e
  owner : ∀ k k' c c', calls k = some c → calls k' = some c' → c.rx = c'.rx → k = k'
  agree : ∀ k c, calls k = some c →
    ∃ o, responses c.rx = some o ∧ Agree receiver c.phase (fate c.rx) (O.state o)
  fresh : ∀ ch, responses ch = none → fate ch = .unborn

namespace Routed

variable [DecidableEq κ] [DecidableEq χ] {O : Oneshot (Except ErrorClass R)} {receiver : Bool}
variable {calls : κ → Option (Call β C χ R)} {responses responses' : χ → Option O.Chan}
variable {fate fate' : χ → Fate R} {sent sent' : List (Envelope C χ)}

omit [DecidableEq κ] [DecidableEq χ] in
theorem rx_ne (h : Routed O receiver calls responses fate sent) {ch : χ}
    (hch : responses ch = none) {k : κ} {c : Call β C χ R} (hk : calls k = some c) :
    c.rx ≠ ch := by
  obtain ⟨o, ho, -⟩ := h.agree k c hk
  intro heq
  rw [heq, hch] at ho
  cases ho

omit [DecidableEq χ] in
/-- A call with a response channel that no other call has may come or change. -/
theorem owner_update (h : Routed O receiver calls responses fate sent) {k : κ}
    {c : Call β C χ R} (hne : ∀ k' c', k' ≠ k → calls k' = some c' → c'.rx ≠ c.rx) :
    ∀ k₁ k₂ c₁ c₂, Function.update calls k (some c) k₁ = some c₁ →
      Function.update calls k (some c) k₂ = some c₂ → c₁.rx = c₂.rx → k₁ = k₂ := by
  intro k₁ k₂ c₁ c₂ h₁ h₂ heq
  by_cases hk₁ : k₁ = k <;> by_cases hk₂ : k₂ = k
  · rw [hk₁, hk₂]
  · rw [hk₁, Function.update_self] at h₁
    rw [Function.update_of_ne hk₂] at h₂
    obtain rfl := Option.some.inj h₁
    exact (hne k₂ c₂ hk₂ h₂ heq.symm).elim
  · rw [Function.update_of_ne hk₁] at h₁
    rw [hk₂, Function.update_self] at h₂
    obtain rfl := Option.some.inj h₂
    exact (hne k₁ c₁ hk₁ h₁ heq).elim
  · rw [Function.update_of_ne hk₁] at h₁
    rw [Function.update_of_ne hk₂] at h₂
    exact h.owner k₁ k₂ c₁ c₂ h₁ h₂ heq

theorem start (h : Routed O receiver calls responses fate sent) {k : κ} {c : Call β C χ R}
    (hk : calls k = none) (hrx : responses c.rx = none) (hp : c.phase = .sending) :
    Routed O receiver (Function.update calls k (some c))
      (Function.update responses c.rx (some O.channel)) (Function.update fate c.rx .inCall)
      sent where
  sender e he := by
    obtain ⟨k', c', hk', heq⟩ := h.sender e he
    refine ⟨k', c', ?_, heq⟩
    rwa [Function.update_of_ne]
    rintro rfl
    rw [hk] at hk'
    cases hk'
  owner := h.owner_update fun _ _ _ hk' => h.rx_ne hrx hk'
  agree k' c' h' := by
    rw [Function.update_apply] at h'
    split at h'
    · cases h'
      refine ⟨O.channel, Function.update_self .., ?_⟩
      rw [Function.update_self, hp, O.state_channel]
      exact .sending
    · rw [Function.update_of_ne (h.rx_ne hrx h'), Function.update_of_ne (h.rx_ne hrx h')]
      exact h.agree k' c' h'
  fresh ch hch := by
    by_cases heq : ch = c.rx
    · rw [heq, Function.update_self] at hch
      cases hch
    · rw [Function.update_of_ne heq] at hch ⊢
      exact h.fresh ch hch

omit [DecidableEq χ] in
/-- A call that gets on touches nobody else's response channel. -/
theorem advance (h : Routed O receiver calls responses fate sent) {k : κ} {c : Call β C χ R}
    (hk : calls k = some c) (hsent : ∀ e ∈ sent', e ∈ sent ∨ e = c.envelope)
    (hresponses : ∀ ch, ch ≠ c.rx → responses' ch = responses ch)
    (hfate : ∀ ch, ch ≠ c.rx → fate' ch = fate ch) {o : O.Chan}
    (ho : responses' c.rx = some o) {f : Fate R} (hf : fate' c.rx = f) {p : Phase R}
    (hagree : Agree receiver p f (O.state o)) :
    Routed O receiver (Function.update calls k (some { c with phase := p })) responses' fate'
      sent' where
  sender e he := by
    have henv : ∃ k' c', calls k' = some c' ∧ c'.envelope = e := by
      rcases hsent e he with he | rfl
      · exact h.sender e he
      · exact ⟨k, c, hk, rfl⟩
    obtain ⟨k', c', hk', rfl⟩ := henv
    by_cases heq : k' = k
    · subst heq
      obtain rfl := Option.some.inj (hk.symm.trans hk')
      exact ⟨k', _, Function.update_self .., rfl⟩
    · exact ⟨k', c', by rwa [Function.update_of_ne heq], rfl⟩
  owner := h.owner_update fun k' c' hne hk' heq => hne (h.owner k' k c' c hk' hk heq)
  agree k' c' h' := by
    rw [Function.update_apply] at h'
    split at h'
    · cases h'
      refine ⟨o, ho, ?_⟩
      rw [hf]
      exact hagree
    · have hne : c'.rx ≠ c.rx := fun heq => ‹k' ≠ k› (h.owner k' k c' c h' hk heq)
      rw [hresponses _ hne, hfate _ hne]
      exact h.agree k' c' h'
  fresh ch hch := by
    by_cases heq : ch = c.rx
    · rw [heq, ho] at hch
      cases hch
    · rw [hresponses ch heq] at hch
      rw [hfate ch heq]
      exact h.fresh ch hch

theorem leave (h : Routed O receiver calls responses fate sent) {k : κ} {c : Call β C χ R}
    (hk : calls k = some c) {o : O.Chan} {p : Phase R} {f : Fate R}
    (hagree : Agree receiver p f (O.state o)) :
    Routed O receiver (Function.update calls k (some { c with phase := p }))
      (Function.update responses c.rx (some o)) (Function.update fate c.rx f) sent :=
  h.advance hk (fun _ => .inl) (fun _ hch => Function.update_of_ne hch _ _)
    (fun _ hch => Function.update_of_ne hch _ _) (Function.update_self ..)
    (Function.update_self ..) hagree

omit [DecidableEq κ] [DecidableEq χ] in
/-- What the handler does to the response channels, the calls go along with. -/
theorem map (h : Routed O receiver calls responses fate sent) {receiver' : Bool}
    (hsome : ∀ ch o, responses ch = some o → ∃ o', responses' ch = some o' ∧
      ∀ p, Agree receiver p (fate ch) (O.state o) → Agree receiver' p (fate' ch) (O.state o'))
    (hnone : ∀ ch, responses ch = none → fate' ch = fate ch) :
    Routed O receiver' calls responses' fate' sent where
  sender := h.sender
  owner := h.owner
  agree k c hk := by
    obtain ⟨o, ho, hagree⟩ := h.agree k c hk
    obtain ⟨o', ho', hgo⟩ := hsome c.rx o ho
    exact ⟨o', ho', hgo c.phase hagree⟩
  fresh ch hch := by
    cases hr : responses ch with
    | none => rw [hnone ch hr, h.fresh ch hr]
    | some o =>
      obtain ⟨o', ho', -⟩ := hsome ch o hr
      rw [ho'] at hch
      cases hch

omit [DecidableEq κ] in
theorem touch (h : Routed O receiver calls responses fate sent) {ch : χ} {o o' : O.Chan}
    (ho : responses ch = some o) {f : Fate R}
    (hgo : ∀ p, Agree receiver p (fate ch) (O.state o) → Agree receiver p f (O.state o')) :
    Routed O receiver calls (Function.update responses ch (some o'))
      (Function.update fate ch f) sent := by
  refine h.map (fun ch' o₁ ho₁ => ?_) (fun ch' hch' => ?_)
  · by_cases heq : ch' = ch
    · subst heq
      obtain rfl := Option.some.inj (ho.symm.trans ho₁)
      refine ⟨o', Function.update_self .., fun p hp => ?_⟩
      rw [Function.update_self]
      exact hgo p hp
    · rw [Function.update_of_ne heq, Function.update_of_ne heq]
      exact ⟨o₁, ho₁, fun p hp => hp⟩
  · apply Function.update_of_ne
    rintro rfl
    rw [ho] at hch'
    cases hch'

omit [DecidableEq κ] in
theorem dropReceiver {items : List (Envelope C χ)}
    (h : Routed O receiver calls responses fate sent)
    (hqueued : ∀ ch, ch ∈ items.map Envelope.responder ↔ fate ch = .queued) :
    Routed O false calls
      (fun ch => if ch ∈ items.map Envelope.responder then (responses ch).map O.dropSender
        else responses ch)
      (fun ch => if ch ∈ items.map Envelope.responder then .lost else fate ch) sent := by
  refine h.map (fun ch o ho => ?_) (fun ch hch => ?_)
  all_goals by_cases hq : ch ∈ items.map Envelope.responder
  · simp only [if_pos hq]
    refine ⟨O.dropSender o, by rw [ho]; rfl, fun p hp => ?_⟩
    rw [(hqueued ch).1 hq] at hp
    rw [O.state_dropSender]
    exact hp.drop
  · simp only [if_neg hq]
    exact ⟨o, ho, fun p hp => hp.dead⟩
  · have := h.fresh ch hch
    rw [(hqueued ch).1 hq] at this
    cases this
  · exact if_neg hq

end Routed

end

end Forgeclaw.Core.Command
