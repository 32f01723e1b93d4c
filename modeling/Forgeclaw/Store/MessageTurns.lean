/-
  Every `store_message` on PostgreSQL comes to its end.

  A transaction waits for the holder of its group's lock, or for the one that has inserted its
  id; both are further on, and what they hold up they let go of when they end. So with fair
  turns nobody waits for ever, and a call that nothing cancels leaves a message with its id in
  the table.
-/
import Forgeclaw.Store.MessageWaits
import Forgeclaw.Store.MessageLog
import Forgeclaw.Foundation.TransactionKeys
import Forgeclaw.Foundation.Turns

open Forgeclaw.Core

namespace Forgeclaw.Store

open Transactions Messages TransitionSystem

/-- How many steps a transaction has left at most. -/
def stepsLeft (t : Txn Int ActiveModel NewMessage) : Nat :=
  match t.phase with
  | .running => 2 * t.todo.length + 1 - t.drawn.toList.length
  | .failed => 2
  | .closing => 1
  | .closed => 0

/-- A transaction that is not through. -/
def Unfinished {ι : Type} (db : Db ι Int ActiveModel NewMessage) (i : ι) : Prop :=
  ∃ t, db.txns i = some t ∧ t.phase ≠ .closed

section

variable {ι : Type} [DecidableEq ι] {hashtextextended : String → Int}

omit [DecidableEq ι] in
theorem rank_le_of_txn {db : Db ι Int ActiveModel NewMessage} {i : ι}
    {t : Txn Int ActiveModel NewMessage} (hi : db.txns i = some t) : rank t ≤ 3 :=
  rankAt_eq hi ▸ rankAt_le db i

theorem Stage.stepsLeft_of_running {t : Txn Int ActiveModel NewMessage}
    (h : Stage hashtextextended t) (hrun : t.phase = .running) : 2 < stepsLeft t := by
  cases h with
  | locked msg drawn => cases drawn <;> simp [stepsLeft]
  | failed | closing | closed => cases hrun
  | _ => simp [stepsLeft]

theorem Stage.pending_of_commit {t : Txn Int ActiveModel NewMessage}
    (h : Stage hashtextextended t) {rest : List (Stmt Int ActiveModel)}
    (hrun : t.phase = .running) (htodo : t.todo = .commit :: rest) :
    ∃ q, (q, messageRow t.call) ∈ t.pending := by
  cases h with
  | inserted msg q => exact ⟨q, List.mem_singleton_self _⟩
  | failed | closing | closed => cases hrun
  | _ => cases htodo

/-- What a step makes of the transaction that takes it. -/
theorem step_own {db db' : Db ι Int ActiveModel NewMessage} {i : ι} {a : Act}
    {t : Txn Int ActiveModel NewMessage} (h : Staged hashtextextended db)
    (hstep : Step (·.id) (storeMessage hashtextextended .postgres) db (i, a) db')
    (hi : db.txns i = some t) :
    ∃ t', db'.txns i = some t' ∧ stepsLeft t' < stepsLeft t ∧ rank t ≤ rank t' := by
  have hs := h i t hi
  have hput : ∀ (db' : Db ι Int ActiveModel NewMessage) (t' : Txn Int ActiveModel NewMessage),
      stepsLeft t' < stepsLeft t → rank t ≤ rank t' →
      ∃ u, (db'.put i t').txns i = some u ∧ stepsLeft u < stepsLeft t ∧ rank t ≤ rank u :=
    fun db' t' hless hle => ⟨t', by simp [put_txns], hless, hle⟩
  cases hstep with
  | start _ c hnone => cases hi.symm.trans hnone
  | begin _ u rest hu hrun htodo =>
    cases hi.symm.trans hu
    obtain ⟨call, todo, phase, locks, drawn, pending⟩ := t
    subst hrun htodo
    cases hs
    exact hput _ _ (by simp [stepsLeft]) (by simp [rank])
  | lock _ u k rest hu hrun htodo hfree =>
    cases hi.symm.trans hu
    obtain ⟨call, todo, phase, locks, drawn, pending⟩ := t
    subst hrun htodo
    cases hs
    exact hput _ _ (by simp [stepsLeft]) (by simp [rank])
  | draw _ u r rest q hu hrun htodo hdrawn hlt =>
    cases hi.symm.trans hu
    obtain ⟨call, todo, phase, locks, drawn, pending⟩ := t
    subst hrun htodo hdrawn
    cases hs
    exact hput _ _ (by simp [stepsLeft]) (by simp [rank])
  | insert _ u r rest q hu hrun htodo hdrawn hunclaimed htaken =>
    cases hi.symm.trans hu
    obtain ⟨call, todo, phase, locks, drawn, pending⟩ := t
    subst hrun htodo hdrawn
    cases hs
    exact hput _ _ (by simp [stepsLeft]) (by simp [rank])
  | duplicate _ u r rest q hu hrun htodo hdrawn htaken =>
    cases hi.symm.trans hu
    have hmore := hs.stepsLeft_of_running hrun
    have hrank := (hs.rank_of_insert hrun htodo).1
    exact hput _ _ hmore (by rw [hrank]; exact Nat.le_succ 1)
  | commit _ u rest hu hrun htodo =>
    cases hi.symm.trans hu
    have hmore := hs.stepsLeft_of_running hrun
    exact hput _ _ (Nat.lt_of_succ_lt hmore) (rank_le_of_txn hi)
  | rollback _ u hu hfailed =>
    cases hi.symm.trans hu
    exact hput _ _ (by simp [stepsLeft, hfailed]) (rank_le_of_txn hi)
  | cancel _ u hu hrun =>
    cases hi.symm.trans hu
    have hmore := hs.stepsLeft_of_running hrun
    exact hput _ _ (Nat.lt_of_succ_lt hmore) (rank_le_of_txn hi)
  | release _ u hu hclosing =>
    cases hi.symm.trans hu
    exact hput _ _ (by simp [stepsLeft, hclosing]) (rank_le_of_txn hi)

/-! ## Calls take turns -/

def stepsLeftAt (db : Db ι Int ActiveModel NewMessage) (i : ι) : Nat :=
  ((db.txns i).map stepsLeft).getD 0

omit [DecidableEq ι] in
theorem stepsLeftAt_eq {db : Db ι Int ActiveModel NewMessage} {i : ι}
    {t : Txn Int ActiveModel NewMessage} (h : db.txns i = some t) :
    stepsLeftAt db i = stepsLeft t := by
  simp [stepsLeftAt, h]

variable (ι hashtextextended) in
/-- The calls of `store_message` as processes that wait for one another. -/
def storeCalls : (system ι (·.id) (storeMessage hashtextextended .postgres)).Processes where
  live := Unfinished
  waits := Waits (·.id)
  work := stepsLeftAt
  rank := rankAt
  bound := 3
  rank_le := rankAt_le
  waits_live hdb hw := by
    obtain ⟨-, t', -, hj, hopen, -⟩ := waits_cause (staged_of_reachable hdb) hw
    exact ⟨t', hj, hopen⟩
  waits_rank hdb hw := waits_rank (staged_of_reachable hdb) _ _ hw
  own hdb hstep hlive _ := by
    obtain ⟨t, hi, -⟩ := hlive
    obtain ⟨t', hi', hless, hle⟩ := step_own (staged_of_reachable hdb) hstep hi
    rw [stepsLeftAt_eq hi, stepsLeftAt_eq hi', rankAt_eq hi, rankAt_eq hi']
    exact ⟨hless, hle⟩
  others hdb hstep hne := by
    have hsame := step_others hstep hne
    exact ⟨fun h => by rwa [Unfinished, hsame], by rw [stepsLeftAt, hsame]; rfl,
      by rw [rankAt, hsame]; rfl⟩
  waits_others hstep hki hkj := step_waits hstep hki hkj
  waits_unique hdb hw hw' :=
    waits_unique (inv_of_reachable (storeMessage_guarded hashtextextended) hdb)
      (ids_separate hdb) hw hw'

/-! ## What a call leaves -/

/-- Some call's message with this id is visible. -/
def Stored (db : Db ι Int ActiveModel NewMessage) (id : String) : Prop :=
  ∃ q j t, db.txns j = some t ∧ t.call.id = id ∧ (q, messageRow t.call) ∈ db.rows

theorem Stored.step {db db' : Db ι Int ActiveModel NewMessage} {a : ι × Act} {id : String}
    (h : Stored db id)
    (hstep : Step (·.id) (storeMessage hashtextextended .postgres) db a db') :
    Stored db' id := by
  obtain ⟨q, j, t, hj, hid, hmem⟩ := h
  obtain ⟨t', hj', hcall⟩ := step_call hstep hj
  exact ⟨q, j, t', hj', hcall ▸ hid, hcall ▸ (step_rows hstep).subset hmem⟩

/-- Every visible row is some call's message. -/
theorem stored_of_mem {db : Db ι Int ActiveModel NewMessage}
    (h : (system ι (·.id) (storeMessage hashtextextended .postgres)).Reachable db) :
    ∀ p ∈ db.rows, Stored db p.2.id := by
  obtain ⟨db₀, rfl, hsteps⟩ := h
  induction hsteps with
  | refl => simp
  | @tail db db' a hsteps hstep ih =>
    obtain ⟨new, hrows, hnew⟩ := step_new_rows ⟨_, rfl, hsteps⟩ hstep
    rintro ⟨q, row⟩ hp
    rcases List.mem_append.mp (hrows ▸ hp) with hold | hadded
    · exact (ih _ hold).step hstep
    · obtain ⟨t, hi, hins⟩ := hnew _ hadded
      obtain rfl : row = messageRow t.call := by simpa [storeMessage_postgres] using hins
      exact ⟨q, _, t, hi, rfl, hp⟩

/-- A call that is past its insert has left a message with its id, or has found one. -/
def HasLeft (i : ι) (db : Db ι Int ActiveModel NewMessage) : Prop :=
  ∀ t, db.txns i = some t → t.phase ≠ .running → Stored db t.call.id

theorem step_hasLeft {db db' : Db ι Int ActiveModel NewMessage} {i : ι} {a : ι × Act}
    (hdb : (system ι (·.id) (storeMessage hashtextextended .postgres)).Reachable db)
    (h : HasLeft i db) (hcancel : a ≠ (i, .cancel))
    (hstep : Step (·.id) (storeMessage hashtextextended .postgres) db a db') : HasLeft i db' := by
  obtain ⟨k, a⟩ := a
  intro t' hi' hpast
  by_cases hki : k = i
  · subst hki
    have hself : ∀ (db : Db ι Int ActiveModel NewMessage) u, (db.put k u).txns k = some t' →
        u = t' := by
      simp [put_txns]
    have hlater : Stored db t'.call.id → Stored db' t'.call.id := fun hs => hs.step hstep
    cases hstep with
    | start _ c hnone =>
      cases hself _ _ hi'
      exact absurd rfl hpast
    | begin _ u rest hu hrun htodo =>
      cases hself _ _ hi'
      exact absurd hrun hpast
    | lock _ u key rest hu hrun htodo hfree =>
      cases hself _ _ hi'
      exact absurd hrun hpast
    | draw _ u r rest q hu hrun htodo hdrawn hlt =>
      cases hself _ _ hi'
      exact absurd hrun hpast
    | insert _ u r rest q hu hrun htodo hdrawn hunclaimed htaken =>
      cases hself _ _ hi'
      exact absurd hrun hpast
    | duplicate _ u r rest q hu hrun htodo hdrawn htaken =>
      cases hself _ _ hi'
      -- the id is taken by a visible row, as nothing of its own is pending
      have hs := staged_of_reachable hdb k u hu
      obtain ⟨p, hp, hid⟩ : ∃ p ∈ db.rows, p.2.id = r.id := htaken.resolve_right fun hown => by
        obtain ⟨p, hp, -⟩ := hown
        have := hs.rank_of_pending hp
        have := (hs.rank_of_insert hrun htodo).1
        omega
      have hr := (hs.rank_of_insert hrun htodo).2
      have hstored := stored_of_mem hdb p hp
      rw [hid, hr] at hstored
      exact hlater hstored
    | commit _ u rest hu hrun htodo =>
      obtain ⟨q, hq⟩ := (staged_of_reachable hdb k u hu).pending_of_commit hrun htodo
      refine ⟨q, k, t', hi', rfl, List.mem_append_right _ ?_⟩
      cases hself _ _ hi'
      exact hq
    | rollback _ u hu hfailed =>
      cases hself _ _ hi'
      exact hlater (h u hu (by simp [hfailed]))
    | cancel _ u hu hrun => exact absurd rfl hcancel
    | release _ u hu hclosing =>
      cases hself _ _ hi'
      exact hlater (h u hu (by simp [hclosing]))
  · rw [step_others hstep hki] at hi'
    exact (h t' hi' hpast).step hstep

theorem hasLeft_of_trace {r : (system ι (·.id) (storeMessage hashtextextended .postgres)).Trace}
    {i : ι} (hcancel : ∀ t, r.act t ≠ some (i, .cancel)) (t : Nat) : HasLeft i (r.state t) := by
  have hinit : HasLeft i (r.state 0) := by
    have h0 : r.state 0 = ⟨0, [], fun _ => none⟩ := r.init
    intro t hi
    rw [h0] at hi
    cases hi
  refine Trace.keeps hinit (fun u a _ ha hu => ?_) t (Nat.zero_le t)
  exact step_hasLeft (r.reachable u) hu (fun he => hcancel u (he ▸ ha)) (r.step u a ha)

theorem call_of_trace {r : (system ι (·.id) (storeMessage hashtextextended .postgres)).Trace}
    {t : Nat} {i : ι} {txn : Txn Int ActiveModel NewMessage}
    (hi : (r.state t).txns i = some txn) :
    ∀ u, t ≤ u → ∃ txn', (r.state u).txns i = some txn' ∧ txn'.call = txn.call := by
  refine Trace.keeps (P := fun db : Db ι Int ActiveModel NewMessage =>
    ∃ txn', db.txns i = some txn' ∧ txn'.call = txn.call) ⟨txn, hi, rfl⟩ ?_
  rintro u a - ha ⟨txn', hi', hcall⟩
  obtain ⟨txn'', hi'', hcall'⟩ := step_call (r.step u a ha) hi'
  exact ⟨txn'', hi'', hcall'.trans hcall⟩

/-- With fair turns a transaction is closed in the end. -/
theorem closed_of_fair {r : (system ι (·.id) (storeMessage hashtextextended .postgres)).Trace}
    (hfair : ∀ i, r.StronglyFair (fun db => Unfinished db i ∧ ∀ j, ¬ Waits (·.id) db i j)
      fun a => a.1 = i)
    {t : Nat} {i : ι} {txn : Txn Int ActiveModel NewMessage}
    (hi : (r.state t).txns i = some txn) :
    ∃ u txn', t ≤ u ∧ (r.state u).txns i = some txn' ∧ txn'.call = txn.call ∧
      txn'.phase = .closed ∧ txn'.locks = [] := by
  obtain ⟨u, htu, hended⟩ : ∃ u, t ≤ u ∧ ¬ Unfinished (r.state u) i := by
    by_cases hopen : Unfinished (r.state t) i
    · exact (storeCalls ι hashtextextended).ends hfair i t hopen
    · exact ⟨t, le_rfl, hopen⟩
  obtain ⟨txn', hi', hcall⟩ := call_of_trace hi u htu
  have hclosed : txn'.phase = .closed := by
    by_contra hopen
    exact hended ⟨txn', hi', hopen⟩
  exact ⟨u, txn', htu, hi', hcall, hclosed, locks_of_closed (r.reachable u) i txn' hi' hclosed⟩

/-- **Every `store_message` ends, with its lock let go, and leaves its message.** -/
theorem every_store_message_ends
    {r : (system ι (·.id) (storeMessage hashtextextended .postgres)).Trace}
    (hfair : ∀ i, r.StronglyFair (fun db => Unfinished db i ∧ ∀ j, ¬ Waits (·.id) db i j)
      fun a => a.1 = i)
    {t : Nat} {i : ι} {txn : Txn Int ActiveModel NewMessage}
    (hi : (r.state t).txns i = some txn) :
    ∃ u, t ≤ u ∧
      (∃ txn', (r.state u).txns i = some txn' ∧ txn'.call = txn.call ∧ txn'.phase = .closed ∧
        txn'.locks = []) ∧
      ((∀ v, r.act v ≠ some (i, .cancel)) → Stored (r.state u) txn.call.id) := by
  obtain ⟨u, txn', htu, hi', hcall, hclosed, hlocks⟩ := closed_of_fair hfair hi
  refine ⟨u, htu, ⟨txn', hi', hcall, hclosed, hlocks⟩, fun hcancel => ?_⟩
  have hstored := hasLeft_of_trace hcancel u txn' hi' (by rw [hclosed]; decide)
  rwa [hcall] at hstored

end

abbrev sampleStore := system Nat (·.id) (storeMessage (fun name => name.length) .postgres)

/-- One call, from its start to the release of its lock. -/
def storedOne : sampleStore.Trace :=
  let r₀ : sampleStore.Trace := .rest ⟨0, [], fun _ => none⟩ rfl
  let r₁ := r₀.stop 0 _ _ (.start _ 0 ⟨"m1", ⟨"ops"⟩, ⟨"tg"⟩, "ann", "hi", 0⟩ rfl)
  let r₂ := r₁.stop 1 _ _ (.begin _ 0 _ _ rfl rfl rfl)
  let r₃ := r₂.stop 2 _ _ (.lock _ 0 _ _ _ rfl rfl rfl fun j t hj hjt => by
    simp [r₂, r₁, r₀, Trace.stop, Trace.rest, Db.put, hj] at hjt)
  let r₄ := r₃.stop 3 _ _ (.draw _ 0 _ _ _ 1 rfl rfl rfl rfl (by decide))
  let r₅ := r₄.stop 4 _ _ (.insert _ 0 _ _ _ _ rfl rfl rfl rfl
    (fun j t hj hjt => by simp [r₄, r₃, r₂, r₁, r₀, Trace.stop, Trace.rest, Db.put, hj] at hjt)
    (by simp [Taken, r₄, r₃, r₂, r₁, r₀, Trace.stop, Trace.rest, Db.put]))
  let r₆ := r₅.stop 5 _ _ (.commit _ 0 _ _ rfl rfl rfl)
  r₆.stop 6 _ _ (.release _ 0 _ rfl rfl)

theorem act_storedOne :
    ∀ t, storedOne.act t = [(0, Act.start), (0, .begin), (0, .lock), (0, .draw), (0, .insert),
      (0, .commit), (0, .release)][t]?
  | 0 | 1 | 2 | 3 | 4 | 5 | 6 => rfl
  | t + 7 => by simp [storedOne, Trace.stop, Trace.rest]

theorem every_store_message_ends_one : ∃ u, Stored (storedOne.state u) "m1" := by
  have hclosed : ∀ i, ¬ Unfinished (storedOne.state 7) i := by
    rintro (_ | i) ⟨t, hi, hopen⟩
    · cases hi
      exact hopen rfl
    · cases hi
  have hfair : ∀ i, storedOne.StronglyFair
      (fun db => Unfinished db i ∧ ∀ j, ¬ Waits (·.id) db i j) fun a => a.1 = i := fun i =>
    Trace.stronglyFair_of_rest ((Trace.comes_to_rest act_storedOne).mono fun t ht => by
      rw [ht]
      exact fun h => hclosed i h.1)
  have hcancel : ∀ v, storedOne.act v ≠ some (0, .cancel) := fun v h => by
    simpa using List.mem_of_getElem? ((act_storedOne v).symm.trans h)
  obtain ⟨u, -, -, hstored⟩ := every_store_message_ends hfair (t := 1) (i := 0) rfl
  exact ⟨u, hstored hcancel⟩

end Forgeclaw.Store
