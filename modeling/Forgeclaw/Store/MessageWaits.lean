/-
  Concurrent `store_message` transactions on PostgreSQL cannot deadlock.

  A transaction takes its one lock before its one insert. So who holds a lock is further on
  than who waits for one, and who has inserted an id is further on than who waits to insert
  it (`waits_rank`): waits form no cycle, whatever the groups, the ids and the collisions of
  lock keys.
-/
import Forgeclaw.Store.Messages

open Forgeclaw.Core

namespace Forgeclaw.Store

open Transactions Messages

/-- The row that a call inserts. -/
def messageRow (msg : NewMessage) : ActiveModel :=
  ⟨msg.id, msg.groupId.value, msg.channelId.value, msg.sender, msg.content, msg.createdAt⟩

section

variable (hashtextextended : String → Int)

theorem storeMessage_postgres (msg : NewMessage) :
    storeMessage hashtextextended .postgres msg
      = [.begin, .lock (advisoryKey hashtextextended msg.groupId.value),
          .insert (messageRow msg), .commit] := rfl

/-- Where a transaction can be in its program, and what it then holds. -/
inductive Stage : Txn Int ActiveModel NewMessage → Prop
  | started (msg) : Stage
      ⟨msg, [.begin, .lock (advisoryKey hashtextextended msg.groupId.value),
        .insert (messageRow msg), .commit], .running, [], none, []⟩
  | begun (msg) : Stage
      ⟨msg, [.lock (advisoryKey hashtextextended msg.groupId.value), .insert (messageRow msg),
        .commit], .running, [], none, []⟩
  | locked (msg drawn) : Stage
      ⟨msg, [.insert (messageRow msg), .commit], .running,
        [advisoryKey hashtextextended msg.groupId.value], drawn, []⟩
  | inserted (msg q) : Stage
      ⟨msg, [.commit], .running, [advisoryKey hashtextextended msg.groupId.value], none,
        [(q, messageRow msg)]⟩
  | failed (msg drawn) : Stage
      ⟨msg, [.insert (messageRow msg), .commit], .failed,
        [advisoryKey hashtextextended msg.groupId.value], drawn, []⟩
  | closing (msg locks) : (∀ k ∈ locks, k = advisoryKey hashtextextended msg.groupId.value) →
      Stage ⟨msg, [], .closing, locks, none, []⟩
  | closed (msg) : Stage ⟨msg, [], .closed, [], none, []⟩

variable {hashtextextended} in
theorem Stage.lock_eq {t : Txn Int ActiveModel NewMessage} (h : Stage hashtextextended t)
    {k : Int} {rest : List (Stmt Int ActiveModel)} (htodo : t.todo = .lock k :: rest) :
    k = advisoryKey hashtextextended t.call.groupId.value := by
  cases h <;> simp_all

variable {hashtextextended} in
theorem Stage.locks_eq {t : Txn Int ActiveModel NewMessage} (h : Stage hashtextextended t) :
    ∀ k ∈ t.locks, k = advisoryKey hashtextextended t.call.groupId.value := by
  cases h with
  | closing msg locks hlocks => exact hlocks
  | _ => simp

def Staged {ι : Type} (db : Db ι Int ActiveModel NewMessage) : Prop :=
  ∀ i t, db.txns i = some t → Stage hashtextextended t

end

section

variable {ι : Type} [DecidableEq ι] {hashtextextended : String → Int}

theorem Staged.put {db : Db ι Int ActiveModel NewMessage} (h : Staged hashtextextended db)
    {i : ι} {t : Txn Int ActiveModel NewMessage} (ht : Stage hashtextextended t)
    {db' : Db ι Int ActiveModel NewMessage} (hdb' : db'.txns = db.txns) :
    Staged hashtextextended (db'.put i t) := by
  intro j t' hj
  rw [put_txns] at hj
  split at hj
  · cases hj
    exact ht
  · exact h j t' (hdb' ▸ hj)

theorem step_staged {db db' : Db ι Int ActiveModel NewMessage} {a : ι × Act}
    (h : Staged hashtextextended db)
    (hstep : Step (·.id) (storeMessage hashtextextended .postgres) db a db') :
    Staged hashtextextended db' := by
  cases hstep with
  | start i c hi =>
    rw [storeMessage_postgres]
    exact h.put (.started c) rfl
  | begin i t rest hi hrun htodo =>
    have hs := h i t hi
    obtain ⟨call, todo, phase, locks, drawn, pending⟩ := t
    subst hrun htodo
    cases hs
    exact h.put (.begun call) rfl
  | lock i t k rest hi hrun htodo hfree =>
    have hs := h i t hi
    obtain ⟨call, todo, phase, locks, drawn, pending⟩ := t
    subst hrun htodo
    cases hs
    exact h.put (.locked call none) rfl
  | draw i t r rest q hi hrun htodo hdrawn hlt =>
    have hs := h i t hi
    obtain ⟨call, todo, phase, locks, drawn, pending⟩ := t
    subst hrun htodo
    cases hs
    exact h.put (.locked call (some q)) rfl
  | insert i t r rest q hi hrun htodo hdrawn hunclaimed htaken =>
    have hs := h i t hi
    obtain ⟨call, todo, phase, locks, drawn, pending⟩ := t
    subst hrun htodo
    cases hs
    exact h.put (.inserted call q) rfl
  | duplicate i t r rest q hi hrun htodo hdrawn htaken =>
    have hs := h i t hi
    obtain ⟨call, todo, phase, locks, drawn, pending⟩ := t
    subst hrun htodo
    cases hs
    exact h.put (.failed call drawn) rfl
  | commit i t rest hi hrun htodo =>
    exact h.put (.closing _ _ (h i t hi).locks_eq) rfl
  | rollback i t hi hfailed =>
    exact h.put (.closing _ _ (h i t hi).locks_eq) rfl
  | cancel i t hi hrun =>
    exact h.put (.closing _ _ (h i t hi).locks_eq) rfl
  | release i t hi hclosing =>
    have hs := h i t hi
    obtain ⟨call, todo, phase, locks, drawn, pending⟩ := t
    subst hclosing
    cases hs
    exact h.put (.closed call) rfl

theorem staged_of_reachable {db : Db ι Int ActiveModel NewMessage}
    (h : (system ι (·.id) (storeMessage hashtextextended .postgres)).Reachable db) :
    Staged hashtextextended db := by
  refine h.invariant (fun {db} h0 => ?_) (fun {_ _ _} => step_staged)
  obtain rfl : db = ⟨0, [], fun _ => none⟩ := h0
  simp [Staged]

/-! ## Who waits is behind -/

/-- How far a transaction is. -/
def rank (t : Txn Int ActiveModel NewMessage) : Nat :=
  match t.phase with
  | .running => if t.locks = [] then 0 else if t.pending = [] then 1 else 2
  | .failed => 2
  | .closing | .closed => 3

def rankAt (db : Db ι Int ActiveModel NewMessage) (i : ι) : Nat :=
  ((db.txns i).map rank).getD 0

omit [DecidableEq ι] in
theorem rankAt_le (db : Db ι Int ActiveModel NewMessage) (i : ι) : rankAt db i ≤ 3 := by
  unfold rankAt rank
  cases db.txns i with
  | none => simp
  | some t =>
    simp only [Option.map_some, Option.getD_some]
    split
    · split
      · omega
      · split <;> omega
    · omega
    · omega
    · omega

theorem Stage.rank_of_lock {t : Txn Int ActiveModel NewMessage} (h : Stage hashtextextended t)
    {k : Int} {rest : List (Stmt Int ActiveModel)} (hrun : t.phase = .running)
    (htodo : t.todo = .lock k :: rest) : rank t = 0 := by
  cases h with
  | begun => rfl
  | _ => simp_all

theorem Stage.rank_of_insert {t : Txn Int ActiveModel NewMessage}
    (h : Stage hashtextextended t) {r : ActiveModel} {rest : List (Stmt Int ActiveModel)}
    (hrun : t.phase = .running) (htodo : t.todo = .insert r :: rest) :
    rank t = 1 ∧ r = messageRow t.call := by
  cases h with
  | locked msg drawn =>
    injection htodo with hr
    injection hr with hr
    exact ⟨by simp [rank], hr.symm⟩
  | _ => simp_all

theorem Stage.rank_of_locks {t : Txn Int ActiveModel NewMessage} (h : Stage hashtextextended t)
    {k : Int} (hk : k ∈ t.locks) : 1 ≤ rank t ∧ t.phase ≠ .closed := by
  cases h <;> simp_all [rank]

theorem Stage.rank_of_pending {t : Txn Int ActiveModel NewMessage}
    (h : Stage hashtextextended t) {p : Int × ActiveModel} (hp : p ∈ t.pending) :
    2 ≤ rank t ∧ t.phase ≠ .closed ∧ p.2 = messageRow t.call := by
  cases h <;> simp_all [rank]

omit [DecidableEq ι] in
theorem rankAt_eq {db : Db ι Int ActiveModel NewMessage} {i : ι}
    {t : Txn Int ActiveModel NewMessage} (h : db.txns i = some t) : rankAt db i = rank t := by
  simp [rankAt, h]

omit [DecidableEq ι] in
/-- Who is waited for is further on. -/
theorem waits_rank {db : Db ι Int ActiveModel NewMessage} (h : Staged hashtextextended db)
    (i j : ι) (hw : Waits (·.id) db i j) : rankAt db i < rankAt db j := by
  rcases hw with ⟨-, t, t', k, rest, hi, hrun, htodo, hj, hk⟩ |
    ⟨-, t, t', r, rest, hi, hrun, htodo, -, hj, p, hp, -⟩
  · rw [rankAt_eq hi, rankAt_eq hj, (h i t hi).rank_of_lock hrun htodo]
    exact ((h j t' hj).rank_of_locks hk).1
  · rw [rankAt_eq hi, rankAt_eq hj, ((h i t hi).rank_of_insert hrun htodo).1]
    exact ((h j t' hj).rank_of_pending hp).1

omit [DecidableEq ι] in
/-- What a wait is about: one lock key, or one message id. -/
theorem waits_cause {db : Db ι Int ActiveModel NewMessage} (h : Staged hashtextextended db)
    {i j : ι} (hw : Waits (·.id) db i j) :
    ∃ t t', db.txns i = some t ∧ db.txns j = some t' ∧ t'.phase ≠ .closed ∧
      (advisoryKey hashtextextended t.call.groupId.value
          = advisoryKey hashtextextended t'.call.groupId.value ∨ t.call.id = t'.call.id) := by
  rcases hw with ⟨-, t, t', k, rest, hi, hrun, htodo, hj, hk⟩ |
    ⟨-, t, t', r, rest, hi, hrun, htodo, -, hj, p, hp, hid⟩
  · refine ⟨t, t', hi, hj, ((h j t' hj).rank_of_locks hk).2, .inl ?_⟩
    rw [← (h j t' hj).locks_eq k hk]
    exact ((h i t hi).lock_eq htodo).symm
  · obtain ⟨-, hopen, hp'⟩ := (h j t' hj).rank_of_pending hp
    refine ⟨t, t', hi, hj, hopen, .inr ?_⟩
    obtain ⟨-, hr⟩ := (h i t hi).rank_of_insert hrun htodo
    rw [hr, hp'] at hid
    exact hid.symm

/-! ## Someone can go on -/

theorem step_of_not_waiting {db : Db ι Int ActiveModel NewMessage}
    (h : Staged hashtextextended db) {i : ι} {t : Txn Int ActiveModel NewMessage}
    (hi : db.txns i = some t) (hopen : t.phase ≠ .closed)
    (hfree : ∀ j, ¬ Waits (·.id) db i j) :
    ∃ act db', act ≠ .cancel ∧
      Step (·.id) (storeMessage hashtextextended .postgres) db (i, act) db' := by
  cases h i t hi with
  | started msg => exact ⟨.begin, _, by simp, .begin db i _ _ hi rfl rfl⟩
  | begun msg =>
    exact ⟨.lock, _, by simp, .lock db i _ _ _ hi rfl rfl (free_of_not_waits hi rfl rfl hfree)⟩
  | locked msg drawn =>
    cases drawn with
    | none => exact ⟨.draw, _, by simp, .draw db i _ _ _ _ hi rfl rfl rfl (Int.lt_succ db.last)⟩
    | some q =>
      by_cases htaken : Taken (·.id) db ⟨msg, [.insert (messageRow msg), .commit], .running,
          [advisoryKey hashtextextended msg.groupId.value], some q, []⟩ msg.id
      · exact ⟨.duplicate, _, by simp, .duplicate db i _ _ _ _ hi rfl rfl rfl htaken⟩
      · exact ⟨.insert, _, by simp, .insert db i _ _ _ _ hi rfl rfl rfl
          (unclaimed_of_not_waits hi rfl rfl (by simp) hfree) htaken⟩
  | inserted msg q => exact ⟨.commit, _, by simp, .commit db i _ _ hi rfl rfl⟩
  | failed msg drawn => exact ⟨.rollback, _, by simp, .rollback db i _ hi rfl⟩
  | closing msg locks hlocks => exact ⟨.release, _, by simp, .release db i _ hi rfl⟩
  | closed msg => exact absurd rfl hopen

/-- **Inserts cannot deadlock, and block only for their own key or id.** In every reachable
    state the waits-for relation has no cycle; if a transaction is unfinished, some
    unfinished one can take a step other than being cancelled; and one transaction waits for
    another only if they lock the same key or insert the same message id. -/
theorem inserts_cannot_deadlock (hashtextextended : String → Int)
    {db : Db ι Int ActiveModel NewMessage}
    (h : (system ι (·.id) (storeMessage hashtextextended .postgres)).Reachable db) :
    (∀ i, ¬ Relation.TransGen (Waits (·.id) db) i i) ∧
    ((∃ i t, db.txns i = some t ∧ t.phase ≠ .closed) →
      ∃ i t act db', db.txns i = some t ∧ t.phase ≠ .closed ∧ act ≠ .cancel ∧
        Step (·.id) (storeMessage hashtextextended .postgres) db (i, act) db') ∧
    ∀ i j, Waits (·.id) db i j →
      ∃ t t', db.txns i = some t ∧ db.txns j = some t' ∧ t'.phase ≠ .closed ∧
        (advisoryKey hashtextextended t.call.groupId.value
            = advisoryKey hashtextextended t'.call.groupId.value ∨ t.call.id = t'.call.id) := by
  have hs := staged_of_reachable h
  refine ⟨acyclic_of_rank (waits_rank hs), ?_, fun i j hw => waits_cause hs hw⟩
  rintro ⟨i, t, hi, hopen⟩
  obtain ⟨j, ⟨t', hj, hopen'⟩, hfree⟩ :=
    exists_not_waiting (fun j => ∃ t, db.txns j = some t ∧ t.phase ≠ .closed) (waits_rank hs)
      (fun i j hw => by
        obtain ⟨-, t', -, hj, hopen, -⟩ := waits_cause hs hw
        exact ⟨t', hj, hopen⟩)
      (rankAt_le db) ⟨t, hi, hopen⟩
  obtain ⟨act, db', hact, hstep⟩ := step_of_not_waiting hs hj hopen' hfree
  exact ⟨j, t', act, db', hj, hopen', hact, hstep⟩

end

/-- Two inserts into one group, the second waiting for the first. -/
theorem inserts_cannot_deadlock_two :
    ∃ db : Db Nat Int ActiveModel NewMessage, Waits (·.id) db 1 0 ∧
      (∀ i, ¬ Relation.TransGen (Waits (·.id) db) i i) ∧
      ∃ i act db', act ≠ .cancel ∧
        Step (·.id) (storeMessage (fun name => name.length) .postgres) db (i, act) db' := by
  have h₀ : (system Nat (·.id) (storeMessage (fun name => name.length) .postgres)).Reachable
      ⟨0, [], fun _ => none⟩ := .init rfl
  have h₁ := h₀.step (.start _ 0 ⟨"m1", ⟨"ops"⟩, ⟨"tg"⟩, "ann", "hi", 0⟩ rfl)
  have h₂ := h₁.step (.begin _ 0 _ _ rfl rfl rfl)
  have h₃ := h₂.step (.lock _ 0 _ _ _ rfl rfl rfl fun j t hj hjt => by
    simp [Db.put, hj] at hjt)
  have h₄ := h₃.step (.start _ 1 ⟨"m2", ⟨"ops"⟩, ⟨"tg"⟩, "bob", "yo", 0⟩ rfl)
  have h₅ := h₄.step (.begin _ 1 _ _ rfl rfl rfl)
  obtain ⟨hacyclic, hprogress, -⟩ := inserts_cannot_deadlock (fun name => name.length) h₅
  obtain ⟨i, t, act, db', -, -, hact, hstep⟩ := hprogress ⟨0, _, rfl, by decide⟩
  refine ⟨_, .inl ⟨by decide, _, _, _, _, rfl, rfl, rfl, rfl, ?_⟩, hacyclic, i, act, db', hact,
    hstep⟩
  exact List.mem_singleton.mpr rfl

end Forgeclaw.Store
