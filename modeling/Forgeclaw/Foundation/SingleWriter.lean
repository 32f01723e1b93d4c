/-
  Transactions over one append-only table with one lock for all who write, the way SQLite runs
  them.

  A transaction takes the lock at its first insert and keeps it to its end; who finds it taken
  waits, and may give up. A row's number is one more than the last one given; a rollback gives
  its numbers back. Rows carry a unique id.

  * `step_inv`: every step keeps the books of the table (`Inv`);
  * `Inv.rows_eq`: the table is what the committed transactions inserted, in the order of their
    commits, numbered from one on without a gap.
-/
import Forgeclaw.Foundation.Transactions

namespace SingleWriter

open Transactions (Stmt)

/-! ## The database -/

inductive Phase where
  | running
  /-- A statement failed; nothing but a rollback is left. -/
  | failed
  | committed
  | rolledBack
  deriving DecidableEq, Repr

structure Txn (κ ν μ : Type) where
  call : μ
  todo : List (Stmt κ ν)
  phase : Phase
  /-- Rows inserted and not yet committed. -/
  pending : List (Int × ν)

structure Db (ι κ ν μ : Type) where
  /-- The last number that was given, as far as it was committed. -/
  last : Int
  /-- Committed rows, in the order in which they became visible. -/
  rows : List (Int × ν)
  /-- Who holds the write lock. -/
  writer : Option ι
  txns : ι → Option (Txn κ ν μ)
  /-- The transactions that committed, in order: for the statements only. -/
  commits : List ι

inductive Act where
  | start | begin | insert | duplicate | busy | commit | rollback
  deriving DecidableEq

/-- The rows that the statements insert. -/
def inserts {κ ν : Type} : List (Stmt κ ν) → List ν
  | [] => []
  | .insert r :: rest => r :: inserts rest
  | _ :: rest => inserts rest

/-- Nothing comes after the commit. -/
def CommitLast {κ ν : Type} : List (Stmt κ ν) → Prop
  | [] => True
  | .commit :: rest => rest = []
  | _ :: rest => CommitLast rest

section Machine

variable {ι κ ν μ υ : Type} [DecidableEq ι]

def Db.put (db : Db ι κ ν μ) (i : ι) (t : Txn κ ν μ) : Db ι κ ν μ :=
  { db with txns := Function.update db.txns i (some t) }

/-- The write lock after the end of a transaction. -/
def Db.release (db : Db ι κ ν μ) (i : ι) : Option ι :=
  if db.writer = some i then none else db.writer

/-- A row that the transaction sees has the id. -/
def Taken (uid : ν → υ) (db : Db ι κ ν μ) (t : Txn κ ν μ) (u : υ) : Prop :=
  ∃ p ∈ db.rows ++ t.pending, uid p.2 = u

/-- One step of one transaction. A rollback can come at any point. -/
inductive Step (uid : ν → υ) (prog : μ → List (Stmt κ ν)) :
    Db ι κ ν μ → ι × Act → Db ι κ ν μ → Prop
  | start (db i c) : db.txns i = none →
      Step uid prog db (i, .start) (db.put i ⟨c, prog c, .running, []⟩)
  | begin (db i t rest) : db.txns i = some t → t.phase = .running → t.todo = .begin :: rest →
      Step uid prog db (i, .begin) (db.put i { t with todo := rest })
  | insert (db i t r rest) : db.txns i = some t → t.phase = .running →
      t.todo = .insert r :: rest → db.writer = none ∨ db.writer = some i →
      ¬ Taken uid db t (uid r) →
      Step uid prog db (i, .insert)
        (Db.put { db with writer := some i } i
          { t with
            todo := rest
            pending := t.pending ++ [(db.last + t.pending.length + 1, r)] })
  | duplicate (db i t r rest) : db.txns i = some t → t.phase = .running →
      t.todo = .insert r :: rest → db.writer = none ∨ db.writer = some i →
      Taken uid db t (uid r) →
      Step uid prog db (i, .duplicate)
        (Db.put { db with writer := some i } i { t with phase := .failed })
  | busy (db i t r rest j) : db.txns i = some t → t.phase = .running →
      t.todo = .insert r :: rest → db.writer = some j → j ≠ i →
      Step uid prog db (i, .busy) (db.put i { t with phase := .failed })
  | commit (db i t rest) : db.txns i = some t → t.phase = .running →
      t.todo = .commit :: rest →
      Step uid prog db (i, .commit)
        (Db.put
          { db with
            last := db.last + t.pending.length
            rows := db.rows ++ t.pending
            writer := db.release i
            commits := db.commits ++ [i] } i
          { t with todo := rest, phase := .committed, pending := [] })
  | rollback (db i t) : db.txns i = some t → t.phase = .running ∨ t.phase = .failed →
      Step uid prog db (i, .rollback)
        (Db.put { db with writer := db.release i } i
          { t with phase := .rolledBack, pending := [] })

/-- The database from an empty table on. -/
def system (ι : Type) [DecidableEq ι] (uid : ν → υ) (prog : μ → List (Stmt κ ν)) :
    TransitionSystem (Db ι κ ν μ) (ι × Act) where
  Init db := db = ⟨0, [], none, fun _ => none, []⟩
  Step := Step uid prog

theorem put_txns (db : Db ι κ ν μ) (i : ι) (t : Txn κ ν μ) (j : ι) :
    (db.put i t).txns j = if j = i then some t else db.txns j := by
  simp [Db.put, Function.update_apply]

/-! ## The books -/

/-- What the committed transactions were asked for, in the order of their commits. -/
def Db.calls (db : Db ι κ ν μ) : List μ :=
  db.commits.filterMap fun i => (db.txns i).map Txn.call

/-- What holds of one transaction. -/
structure TxnOk (uid : ν → υ) (prog : μ → List (Stmt κ ν)) (db : Db ι κ ν μ) (i : ι)
    (t : Txn κ ν μ) : Prop where
  commitLast : CommitLast t.todo
  /-- Nobody else has uncommitted rows. -/
  writer : t.pending ≠ [] → db.writer = some i
  numbered : t.pending.map Prod.fst =
    (List.range t.pending.length).map fun k : Nat => db.last + k + 1
  distinct : ((db.rows ++ t.pending).map fun p => uid p.2).Nodup
  /-- What was inserted and what is still to be inserted. -/
  inserted : t.phase = .running →
    inserts (prog t.call) = t.pending.map Prod.snd ++ inserts t.todo
  committed : t.phase = .committed ↔ i ∈ db.commits

structure Inv (uid : ν → υ) (prog : μ → List (Stmt κ ν)) (db : Db ι κ ν μ) : Prop where
  last : db.last = db.rows.length
  numbered : db.rows.map Prod.fst = (List.range db.rows.length).map fun k : Nat => (k : Int) + 1
  rows : db.rows.map Prod.snd = db.calls.flatMap fun c => inserts (prog c)
  distinct : (db.rows.map fun p => uid p.2).Nodup
  commits : db.commits.Nodup
  known : ∀ i ∈ db.commits, (db.txns i).isSome
  txns : ∀ i t, db.txns i = some t → TxnOk uid prog db i t

variable {uid : ν → υ} {prog : μ → List (Stmt κ ν)} {db : Db ι κ ν μ} {i : ι} {t : Txn κ ν μ}

theorem calls_put (db : Db ι κ ν μ) (h : ∀ t₀, db.txns i = some t₀ → t₀.call = t.call)
    (hnew : db.txns i = none → i ∉ db.commits) : (db.put i t).calls = db.calls := by
  show db.commits.filterMap (fun j => ((db.put i t).txns j).map Txn.call) = _
  refine List.filterMap_congr fun j hj => ?_
  rw [put_txns]
  split
  · rename_i heq
    subst heq
    cases hi : db.txns j with
    | none => exact absurd hj (hnew hi)
    | some t₀ => exact congrArg some (h t₀ hi).symm
  · rfl

/-- A change of one transaction that shows nothing. -/
theorem Inv.put (h : Inv uid prog db) (writer : Option ι)
    (hcall : ∀ t₀, db.txns i = some t₀ → t₀.call = t.call)
    (hwriter : ∀ j tj, j ≠ i → db.txns j = some tj → tj.pending ≠ [] → writer = some j)
    (ht : TxnOk uid prog { db with writer := writer } i t) :
    Inv uid prog (Db.put { db with writer := writer } i t) where
  last := h.last
  numbered := h.numbered
  rows := by
    have hcalls : (Db.put { db with writer := writer } i t).calls = db.calls :=
      calls_put { db with writer := writer } hcall fun hi hmem => by
        have hsome := h.known i hmem
        rw [show db.txns i = none from hi] at hsome
        cases hsome
    rw [hcalls]
    exact h.rows
  distinct := h.distinct
  commits := h.commits
  known j hj := by
    rw [put_txns]
    split
    · rfl
    · exact h.known j hj
  txns j tj hj := by
    rw [put_txns] at hj
    split at hj
    · rename_i heq
      subst heq
      obtain rfl := Option.some.inj hj
      exact { ht with }
    · rename_i hne
      obtain ⟨hlast, -, hnumbered, hdistinct, hinserted, hcommitted⟩ := h.txns j tj hj
      exact ⟨hlast, hwriter j tj hne hj, hnumbered, hdistinct, hinserted, hcommitted⟩

theorem CommitLast.tail {st : Stmt κ ν} {rest : List (Stmt κ ν)} (h : CommitLast (st :: rest)) :
    CommitLast rest := by
  cases st with
  | commit =>
    obtain rfl : rest = [] := h
    trivial
  | _ => exact h

omit [DecidableEq ι] in
theorem TxnOk.start {c : μ} (hc : CommitLast (prog c))
    (hrows : (db.rows.map fun p => uid p.2).Nodup) (hi : i ∉ db.commits) : TxnOk uid prog db i ⟨c, prog c, .running, []⟩ where
  commitLast := hc
  writer hp := absurd rfl hp
  numbered := rfl
  distinct := by simpa using hrows
  inserted _ := rfl
  committed := iff_of_false (by simp) hi

omit [DecidableEq ι] in
theorem TxnOk.insert (h : TxnOk uid prog db i t) (hrun : t.phase = .running) {r : ν}
    {rest : List (Stmt κ ν)} (htodo : t.todo = .insert r :: rest)
    (hfree : ¬ Taken uid db t (uid r)) :
    TxnOk uid prog { db with writer := some i } i
      { t with
        todo := rest
        pending := t.pending ++ [(db.last + t.pending.length + 1, r)] } where
  commitLast := by
    have := h.commitLast
    rw [htodo] at this
    exact this.tail
  writer _ := rfl
  numbered := by
    rw [List.map_append, h.numbered, List.length_append, List.length_singleton, List.range_succ,
      List.map_append]
    rfl
  distinct := by
    rw [← List.append_assoc, List.map_append]
    refine List.nodup_append.2 ⟨h.distinct, List.nodup_singleton _, ?_⟩
    rintro u hu _ hr rfl
    obtain rfl : u = uid r := by simpa using hr
    obtain ⟨p, hp, heq⟩ := List.mem_map.1 hu
    exact hfree ⟨p, hp, heq⟩
  inserted _ := by
    rw [h.inserted hrun, htodo, List.map_append, List.append_assoc]
    rfl
  committed := h.committed

omit [DecidableEq ι] in
/-- A transaction that ends, or fails, without a commit. -/
theorem TxnOk.abort (h : TxnOk uid prog db i t) (hopen : t.phase ≠ .committed) {writer : Option ι}
    {phase : Phase} (hrun : phase ≠ .running) (hphase : phase ≠ .committed)
    {pending : List (Int × ν)}
    (hpending : pending = t.pending ∧ (t.pending ≠ [] → writer = some i) ∨ pending = []) :
    TxnOk uid prog { db with writer := writer } i
      { t with phase := phase, pending := pending } where
  commitLast := h.commitLast
  writer hp := by
    obtain ⟨rfl, hw⟩ | rfl := hpending
    · exact hw hp
    · exact absurd rfl hp
  numbered := by
    obtain ⟨rfl, -⟩ | rfl := hpending
    · exact h.numbered
    · rfl
  distinct := by
    obtain ⟨rfl, -⟩ | rfl := hpending
    · exact h.distinct
    · have := h.distinct
      rw [List.map_append] at this
      simpa using (List.nodup_append.1 this).1
  inserted hr := absurd hr hrun
  committed := iff_of_false hphase fun hmem => hopen (h.committed.2 hmem)

omit [DecidableEq ι] in
/-- Where another one may write, nobody else has uncommitted rows. -/
theorem Inv.pending_of_free (h : Inv uid prog db)
    (hfree : db.writer = none ∨ db.writer = some i) {j : ι} {tj : Txn κ ν μ} (hne : j ≠ i)
    (hj : db.txns j = some tj) : tj.pending = [] := by
  by_contra hp
  have hw := (h.txns j tj hj).writer hp
  rw [hw] at hfree
  obtain hfree | hfree := hfree
  · cases hfree
  · exact hne (Option.some.inj hfree)

omit [DecidableEq ι] in
theorem release_of_ne [DecidableEq ι] {j : ι} (hne : j ≠ i) (h : db.writer = some j) :
    db.release i = some j := by
  unfold Db.release
  rw [h, if_neg fun heq => hne (Option.some.inj heq)]

/-- A commit: what was pending becomes visible. -/
theorem Inv.commit (h : Inv uid prog db) (hi : db.txns i = some t) (hrun : t.phase = .running)
    {rest : List (Stmt κ ν)} (htodo : t.todo = .commit :: rest) :
    Inv uid prog
      (Db.put
        { db with
          last := db.last + t.pending.length
          rows := db.rows ++ t.pending
          writer := db.release i
          commits := db.commits ++ [i] } i
        { t with todo := rest, phase := .committed, pending := [] }) := by
  have ht := h.txns i t hi
  have hnot : i ∉ db.commits := fun hmem => by
    rw [ht.committed.2 hmem] at hrun
    cases hrun
  obtain rfl : rest = [] := by
    have := ht.commitLast
    rwa [htodo] at this
  have hinserts : inserts (prog t.call) = t.pending.map Prod.snd := by
    rw [ht.inserted hrun, htodo]
    exact List.append_nil _
  refine ⟨?_, ?_, ?_, ht.distinct, ?_, ?_, fun j tj hj => ?_⟩
  · show db.last + t.pending.length = ((db.rows ++ t.pending).length : Nat)
    rw [h.last, List.length_append]
    push_cast
    rfl
  · show (db.rows ++ t.pending).map Prod.fst = _
    rw [List.map_append, h.numbered, ht.numbered, h.last]
    show _ = (List.range (db.rows ++ t.pending).length).map _
    rw [List.length_append, List.range_add, List.map_append, List.map_map]
    refine congrArg _ (List.map_congr_left fun k _ => ?_)
    simp [add_assoc]
  · show (db.rows ++ t.pending).map Prod.snd = List.flatMap _ (Db.calls _)
    rw [List.map_append, h.rows, ← hinserts]
    show _ = List.flatMap _ (List.filterMap _ (db.commits ++ [i]))
    rw [List.filterMap_append, List.flatMap_append]
    congr 1
    · refine congrArg _ (List.filterMap_congr fun j hj => ?_)
      rw [put_txns, if_neg fun heq : j = i => hnot (heq ▸ hj)]
    · simp [put_txns]
  · refine List.nodup_append.2 ⟨h.commits, List.nodup_singleton _, ?_⟩
    rintro j hj k hk rfl
    exact hnot (List.mem_singleton.1 hk ▸ hj)
  · intro j hj
    rw [put_txns]
    split
    · rfl
    · rename_i hne
      rcases List.mem_append.1 hj with hj | hj
      · exact h.known j hj
      · exact absurd (List.mem_singleton.1 hj) hne
  · rw [put_txns] at hj
    split at hj
    · rename_i heq
      subst heq
      obtain rfl := Option.some.inj hj
      refine ⟨trivial, fun hp => absurd rfl hp, rfl, ?_, fun hr => ?_, ?_⟩
      · rw [List.append_nil]
        exact ht.distinct
      · cases hr
      · exact iff_of_true rfl (List.mem_append_right _ (List.mem_singleton_self j))
    · rename_i hne
      obtain ⟨hlast, hwriter, hnumbered, hdistinct, hinserted, hcommitted⟩ := h.txns j tj hj
      have hempty : tj.pending ≠ [] → t.pending = [] := fun hp => by
        by_contra hpt
        exact hne (Option.some.inj ((hwriter hp).symm.trans (ht.writer hpt)))
      refine ⟨hlast, fun hp => release_of_ne hne (hwriter hp), ?_, ?_, hinserted, ?_⟩
      · by_cases hp : tj.pending = []
        · rw [hp]
          rfl
        · rw [hnumbered]
          show _ = List.map (fun k : Nat => db.last + t.pending.length + k + 1) _
          simp [hempty hp]
      · by_cases hp : tj.pending = []
        · show ((db.rows ++ t.pending ++ tj.pending).map _).Nodup
          rw [hp, List.append_nil]
          exact ht.distinct
        · show ((db.rows ++ t.pending ++ tj.pending).map _).Nodup
          rw [hempty hp, List.append_nil]
          exact hdistinct
      · rw [hcommitted]
        show _ ↔ j ∈ db.commits ++ [i]
        simp [hne]

/-- **Every step keeps the books.** -/
theorem step_inv (hprog : ∀ c, CommitLast (prog c)) {db db' : Db ι κ ν μ} {a : ι × Act}
    (h : Inv uid prog db) (hst : Step uid prog db a db') : Inv uid prog db' := by
  cases hst with
  | start i c hi =>
    have hnot : i ∉ db.commits := fun hmem => by
      have hsome := h.known i hmem
      rw [hi] at hsome
      cases hsome
    refine h.put db.writer (fun t₀ ht₀ => ?_) (fun j tj _ hj => (h.txns j tj hj).writer)
      (.start (hprog c) h.distinct hnot)
    rw [hi] at ht₀
    cases ht₀
  | begin i t rest hi hrun htodo =>
    have ht := h.txns i t hi
    refine h.put db.writer (fun t₀ ht₀ => ?_) (fun j tj _ hj => (h.txns j tj hj).writer)
      ⟨?_, ht.writer, ht.numbered, ht.distinct, fun hr => ?_, ht.committed⟩
    · rw [Option.some.inj (hi.symm.trans ht₀)]
    · have := ht.commitLast
      rw [htodo] at this
      exact this.tail
    · rw [ht.inserted hr, htodo]
      rfl
  | insert i t r rest hi hrun htodo hfree hnew =>
    refine h.put _ (fun t₀ ht₀ => ?_) (fun j tj hne hj hp => ?_)
      ((h.txns i t hi).insert hrun htodo hnew)
    · rw [Option.some.inj (hi.symm.trans ht₀)]
    · exact absurd (h.pending_of_free hfree hne hj) hp
  | duplicate i t r rest hi hrun htodo hfree htaken =>
    refine h.put _ (fun t₀ ht₀ => ?_) (fun j tj hne hj hp => ?_)
      ((h.txns i t hi).abort (by simp [hrun]) (by simp) (by simp) (.inl ⟨rfl, fun _ => rfl⟩))
    · rw [Option.some.inj (hi.symm.trans ht₀)]
    · exact absurd (h.pending_of_free hfree hne hj) hp
  | busy i t r rest j hi hrun htodo hj hne =>
    refine h.put db.writer (fun t₀ ht₀ => ?_) (fun j tj _ hj => (h.txns j tj hj).writer)
      ((h.txns i t hi).abort (by simp [hrun]) (by simp) (by simp)
        (.inl ⟨rfl, (h.txns i t hi).writer⟩))
    rw [Option.some.inj (hi.symm.trans ht₀)]
  | commit i t rest hi hrun htodo => exact h.commit hi hrun htodo
  | rollback i t hi hopen =>
    refine h.put _ (fun t₀ ht₀ => ?_)
      (fun j tj hne hj hp => release_of_ne hne ((h.txns j tj hj).writer hp))
      ((h.txns i t hi).abort ?_ (by simp) (by simp) (.inr rfl))
    · rw [Option.some.inj (hi.symm.trans ht₀)]
    · rcases hopen with hphase | hphase <;> simp [hphase]

theorem inv_of_reachable (hprog : ∀ c, CommitLast (prog c)) {db : Db ι κ ν μ}
    (h : (system ι uid prog).Reachable db) : Inv uid prog db := by
  refine h.invariant (I := Inv uid prog) ?_ fun hs hst => step_inv hprog hs hst
  rintro _ rfl
  exact ⟨rfl, rfl, rfl, List.nodup_nil, List.nodup_nil, fun i hi => absurd hi List.not_mem_nil,
    fun i t hi => (by cases hi)⟩

/-- Commits are only added to. -/
theorem step_calls {db db' : Db ι κ ν μ} {a : ι × Act} (h : Inv uid prog db)
    (hst : Step uid prog db a db') : db.calls <+: db'.calls := by
  have hput : ∀ {i : ι} {t : Txn κ ν μ} (writer : Option ι),
      (∀ t₀, db.txns i = some t₀ → t₀.call = t.call) →
        (Db.put { db with writer := writer } i t).calls = db.calls := fun writer hcall =>
    calls_put { db with writer := writer } hcall fun hi hmem => by
      have hsome := h.known _ hmem
      rw [show db.txns _ = none from hi] at hsome
      cases hsome
  cases hst with
  | start i c hi =>
    rw [hput db.writer fun t₀ ht₀ => by rw [hi] at ht₀; cases ht₀]
  | begin i t rest hi _ _ =>
    rw [hput db.writer fun t₀ ht₀ => by rw [Option.some.inj (hi.symm.trans ht₀)]]
  | insert i t r rest hi _ _ _ _ =>
    rw [hput (some i) fun t₀ ht₀ => by rw [Option.some.inj (hi.symm.trans ht₀)]]
  | duplicate i t r rest hi _ _ _ _ =>
    rw [hput (some i) fun t₀ ht₀ => by rw [Option.some.inj (hi.symm.trans ht₀)]]
  | busy i t r rest j hi _ _ _ _ =>
    rw [hput db.writer fun t₀ ht₀ => by rw [Option.some.inj (hi.symm.trans ht₀)]]
  | commit i t rest hi hrun htodo =>
    have hnot : i ∉ db.commits := fun hmem => by
      rw [(h.txns i t hi).committed.2 hmem] at hrun
      cases hrun
    refine ⟨[t.call], ?_⟩
    show _ = List.filterMap _ (db.commits ++ [i])
    rw [List.filterMap_append]
    congr 1
    · refine List.filterMap_congr fun j hj => ?_
      rw [put_txns, if_neg fun heq : j = i => hnot (heq ▸ hj)]
    · simp [put_txns]
  | rollback i t hi _ =>
    rw [hput (db.release i) fun t₀ ht₀ => by rw [Option.some.inj (hi.symm.trans ht₀)]]

omit [DecidableEq ι] in
/-- **The table**: what the committed transactions inserted, numbered in the order of their
    commits. -/
theorem Inv.rows_eq (h : Inv uid prog db) :
    db.rows = (db.calls.flatMap fun c => inserts (prog c)).zipIdx.map
      fun p => ((p.2 : Int) + 1, p.1) := by
  rw [← h.rows]
  refine List.ext_getElem (by simp) fun k hk _ => ?_
  have hnum := congrArg (fun l => l[k]?) h.numbered
  simp only [List.getElem?_map, List.getElem?_eq_getElem hk, List.getElem?_range hk] at hnum
  have hfst : db.rows[k].1 = (k : Int) + 1 := by simpa using hnum
  simp [← hfst]

end Machine

end SingleWriter
