/-
  Concurrent transactions over one append-only table, the way PostgreSQL runs them.

  A transaction runs a program of statements: take an exclusive lock that is kept to the
  transaction's end, insert a row, commit. A row's number is drawn from a sequence that never
  gives a number twice and does not care about rollbacks; rows carry a unique id, and an
  insert waits while another unfinished transaction has inserted its id. What a transaction
  inserted becomes visible at its commit, and its locks are let go after that.

  Every row belongs to a stream. Where each program locks a row's stream before it inserts
  the row (`Guarded`):

  * `inv_of_reachable`: the invariant that ties uncommitted numbers to locks (`Inv`);
  * `new_rows_larger`: a row that becomes visible has a larger number than every row of its
    stream that was visible before.

  And of waiting: `acyclic_of_rank` and `exists_not_waiting`, where whoever is waited for is
  further on than who waits.
-/
import Forgeclaw.Foundation.Transition

namespace Transactions

/-! ## The database -/

/-- A statement: lock keys are `κ`, rows without their number are `ν`. -/
inductive Stmt (κ ν : Type) where
  | begin
  | lock (key : κ)
  | insert (row : ν)
  | commit

inductive Phase where
  | running
  /-- A statement failed; nothing but a rollback is left. -/
  | failed
  /-- The commit or rollback has taken effect; the locks are still held. -/
  | closing
  | closed
  deriving DecidableEq

/-- One client's transaction: what it was asked for and how far it is. -/
structure Txn (κ ν μ : Type) where
  call : μ
  todo : List (Stmt κ ν)
  phase : Phase
  locks : List κ
  /-- The number drawn for the insert at hand. -/
  drawn : Option Int
  /-- Rows inserted and not yet committed. -/
  pending : List (Int × ν)

structure Db (ι κ ν μ : Type) where
  /-- The last number the sequence gave. -/
  last : Int
  /-- Committed rows, in the order in which they became visible. -/
  rows : List (Int × ν)
  txns : ι → Option (Txn κ ν μ)

/-- What one transaction can be seen to do. -/
inductive Act where
  | start | begin | lock | draw | insert | duplicate | commit | rollback | cancel | release
  deriving DecidableEq

section Machine

variable {ι κ ν μ υ : Type} [DecidableEq ι]

def Db.put (db : Db ι κ ν μ) (i : ι) (t : Txn κ ν μ) : Db ι κ ν μ :=
  { db with txns := Function.update db.txns i (some t) }

/-- No other transaction holds the lock. -/
def Free (db : Db ι κ ν μ) (i : ι) (k : κ) : Prop :=
  ∀ j t, j ≠ i → db.txns j = some t → k ∉ t.locks

/-- No other unfinished transaction has inserted the id. -/
def Unclaimed (uid : ν → υ) (db : Db ι κ ν μ) (i : ι) (u : υ) : Prop :=
  ∀ j t, j ≠ i → db.txns j = some t → ∀ p ∈ t.pending, uid p.2 ≠ u

/-- A committed row, or an earlier one of the transaction itself, has the id. -/
def Taken (uid : ν → υ) (db : Db ι κ ν μ) (t : Txn κ ν μ) (u : υ) : Prop :=
  (∃ p ∈ db.rows, uid p.2 = u) ∨ ∃ p ∈ t.pending, uid p.2 = u

/-- One step of one transaction. A `cancel` is a rollback that the client, or an error on the
    way, brings about at any point. -/
inductive Step (uid : ν → υ) (prog : μ → List (Stmt κ ν)) :
    Db ι κ ν μ → ι × Act → Db ι κ ν μ → Prop
  | start (db i c) : db.txns i = none →
      Step uid prog db (i, .start) (db.put i ⟨c, prog c, .running, [], none, []⟩)
  | begin (db i t rest) : db.txns i = some t → t.phase = .running → t.todo = .begin :: rest →
      Step uid prog db (i, .begin) (db.put i { t with todo := rest })
  | lock (db i t k rest) : db.txns i = some t → t.phase = .running →
      t.todo = .lock k :: rest → Free db i k →
      Step uid prog db (i, .lock) (db.put i { t with todo := rest, locks := k :: t.locks })
  | draw (db i t r rest q) : db.txns i = some t → t.phase = .running →
      t.todo = .insert r :: rest → t.drawn = none → db.last < q →
      Step uid prog db (i, .draw) (Db.put { db with last := q } i { t with drawn := some q })
  | insert (db i t r rest q) : db.txns i = some t → t.phase = .running →
      t.todo = .insert r :: rest → t.drawn = some q →
      Unclaimed uid db i (uid r) → ¬ Taken uid db t (uid r) →
      Step uid prog db (i, .insert)
        (db.put i { t with todo := rest, drawn := none, pending := t.pending ++ [(q, r)] })
  | duplicate (db i t r rest q) : db.txns i = some t → t.phase = .running →
      t.todo = .insert r :: rest → t.drawn = some q → Taken uid db t (uid r) →
      Step uid prog db (i, .duplicate) (db.put i { t with phase := .failed })
  | commit (db i t rest) : db.txns i = some t → t.phase = .running →
      t.todo = .commit :: rest →
      Step uid prog db (i, .commit)
        (Db.put { db with rows := db.rows ++ t.pending } i
          { t with todo := [], phase := .closing, drawn := none, pending := [] })
  | rollback (db i t) : db.txns i = some t → t.phase = .failed →
      Step uid prog db (i, .rollback)
        (db.put i { t with todo := [], phase := .closing, drawn := none, pending := [] })
  | cancel (db i t) : db.txns i = some t → t.phase = .running →
      Step uid prog db (i, .cancel)
        (db.put i { t with todo := [], phase := .closing, drawn := none, pending := [] })
  | release (db i t) : db.txns i = some t → t.phase = .closing →
      Step uid prog db (i, .release) (db.put i { t with phase := .closed, locks := [] })

/-- The database from an empty table on. -/
def system (ι : Type) [DecidableEq ι] (uid : ν → υ) (prog : μ → List (Stmt κ ν)) :
    TransitionSystem (Db ι κ ν μ) (ι × Act) where
  Init db := db = ⟨0, [], fun _ => none⟩
  Step := Step uid prog

theorem put_txns (db : Db ι κ ν μ) (i : ι) (t : Txn κ ν μ) (j : ι) :
    (db.put i t).txns j = if j = i then some t else db.txns j := by
  simp [Db.put, Function.update_apply]

/-! ## Visible rows are only added to -/

theorem step_rows {uid : ν → υ} {prog : μ → List (Stmt κ ν)} {db db' : Db ι κ ν μ}
    {a : ι × Act} (h : Step uid prog db a db') : db.rows <+: db'.rows := by
  cases h with
  | commit => exact List.prefix_append _ _
  | _ => exact List.prefix_rfl

theorem steps_rows {uid : ν → υ} {prog : μ → List (Stmt κ ν)} {db db' : Db ι κ ν μ}
    (h : (system ι uid prog).Steps db db') : db.rows <+: db'.rows := by
  induction h with
  | refl => exact List.prefix_rfl
  | tail _ hstep ih => exact ih.trans (step_rows hstep)

/-! ## Locks guard the streams -/

/-- Each insert of the program comes after the lock of its row's stream; `held` are the locks
    taken so far. -/
def Guarded (key : ν → κ) : List κ → List (Stmt κ ν) → Prop
  | _, [] => True
  | held, .begin :: rest => Guarded key held rest
  | held, .lock k :: rest => Guarded key (k :: held) rest
  | held, .insert r :: rest => key r ∈ held ∧ Guarded key held rest
  | held, .commit :: rest => Guarded key held rest

/-- What holds of one transaction, given the sequence and the visible rows. -/
structure TxnOk (key : ν → κ) (last : Int) (rows : List (Int × ν)) (t : Txn κ ν μ) : Prop where
  guarded : Guarded key t.locks t.todo
  held : ∀ p ∈ t.pending, key p.2 ∈ t.locks
  pending_le : ∀ p ∈ t.pending, p.1 ≤ last
  drawn_le : ∀ q ∈ t.drawn, q ≤ last
  sorted : t.pending.Pairwise fun a b => a.1 < b.1
  pending_lt : ∀ q ∈ t.drawn, ∀ p ∈ t.pending, p.1 < q
  /-- Uncommitted numbers are above the visible ones of their stream. -/
  pending_new : ∀ p ∈ t.pending, ∀ p' ∈ rows, key p'.2 = key p.2 → p'.1 < p.1
  drawn_new : ∀ q ∈ t.drawn, ∀ r rest, t.todo = .insert r :: rest →
    ∀ p' ∈ rows, key p'.2 = key r → p'.1 < q
  drawn_at : ∀ q ∈ t.drawn, ∃ r rest, t.todo = .insert r :: rest
  ended : t.phase = .closing ∨ t.phase = .closed →
    t.todo = [] ∧ t.drawn = none ∧ t.pending = []

/-- The visible rows: numbered by the sequence, increasing within each stream. -/
structure RowsOk (key : ν → κ) (last : Int) (rows : List (Int × ν)) : Prop where
  le : ∀ p ∈ rows, p.1 ≤ last
  sorted : rows.Pairwise fun a b => key a.2 = key b.2 → a.1 < b.1

structure Inv (key : ν → κ) (db : Db ι κ ν μ) : Prop where
  rows : RowsOk key db.last db.rows
  txns : ∀ i t, db.txns i = some t → TxnOk key db.last db.rows t
  /-- A lock has one holder. -/
  excl : ∀ i t, db.txns i = some t → ∀ k ∈ t.locks, Free db i k

variable {key : ν → κ}

omit [DecidableEq ι] in
theorem RowsOk.mono {last last' : Int} {rows : List (Int × ν)} (h : RowsOk key last rows)
    (hle : last ≤ last') : RowsOk key last' rows :=
  ⟨fun p hp => (h.le p hp).trans hle, h.sorted⟩

/-- Later numbers, and visible rows of streams the transaction does not hold, change nothing
    for it. -/
theorem TxnOk.mono {last last' : Int} {rows new : List (Int × ν)} {t : Txn κ ν μ}
    (h : TxnOk key last rows t) (hle : last ≤ last') (hnew : ∀ p ∈ new, key p.2 ∉ t.locks) :
    TxnOk key last' (rows ++ new) t where
  guarded := h.guarded
  held := h.held
  pending_le p hp := (h.pending_le p hp).trans hle
  drawn_le q hq := (h.drawn_le q hq).trans hle
  sorted := h.sorted
  pending_lt := h.pending_lt
  pending_new p hp p' hp' hk := by
    rcases List.mem_append.mp hp' with hp' | hp'
    · exact h.pending_new p hp p' hp' hk
    · exact absurd (hk ▸ h.held p hp) (hnew p' hp')
  drawn_new q hq r rest htodo p' hp' hk := by
    rcases List.mem_append.mp hp' with hp' | hp'
    · exact h.drawn_new q hq r rest htodo p' hp' hk
    · have hr : key r ∈ t.locks := by
        have hg := h.guarded
        rw [htodo] at hg
        exact hg.1
      exact absurd (hk ▸ hr) (hnew p' hp')
  drawn_at := h.drawn_at
  ended := h.ended

/-- A change of one transaction, with what becomes visible by it. -/
theorem Inv.update {db : Db ι κ ν μ} (h : Inv key db) {i : ι} {t : Txn κ ν μ} {last : Int}
    {new : List (Int × ν)} (hlast : db.last ≤ last)
    (hnew : ∀ j tj, j ≠ i → db.txns j = some tj → ∀ p ∈ new, key p.2 ∉ tj.locks)
    (hrows : RowsOk key last (db.rows ++ new)) (ht : TxnOk key last (db.rows ++ new) t)
    (hfree : ∀ k ∈ t.locks, Free db i k) :
    Inv key (Db.put { db with last := last, rows := db.rows ++ new } i t) where
  rows := hrows
  txns j tj hj := by
    rw [put_txns] at hj
    split at hj
    · cases hj
      exact ht
    · rename_i hne
      exact (h.txns j tj hj).mono hlast (hnew j tj hne hj)
  excl j tj hj k hk j' tj' hne hj' := by
    rw [put_txns] at hj hj'
    split at hj <;> split at hj'
    · rename_i e e'
      exact absurd (e'.trans e.symm) hne
    · rename_i e e'
      cases hj
      exact hfree k hk j' tj' e' hj'
    · rename_i e e'
      cases hj'
      exact fun hk' => hfree k hk' j tj e hj hk
    · exact h.excl j tj hj k hk j' tj' hne hj'

/-- A change of one transaction that shows nothing. -/
theorem Inv.put {db : Db ι κ ν μ} (h : Inv key db) {i : ι} {t : Txn κ ν μ} {last : Int}
    (hlast : db.last ≤ last) (ht : TxnOk key last db.rows t)
    (hfree : ∀ k ∈ t.locks, Free db i k) :
    Inv key (Db.put { db with last := last } i t) := by
  have hput := h.update (i := i) (t := t) hlast (fun _ _ _ _ p (hp : p ∈ []) => by simp at hp)
    (by simpa using h.rows.mono hlast) (by simpa using ht) hfree
  simpa using hput

/-- Nothing drawn, nothing inserted. -/
theorem TxnOk.of_empty {last : Int} {rows : List (Int × ν)} {t : Txn κ ν μ}
    (hg : Guarded key t.locks t.todo) (hd : t.drawn = none) (hp : t.pending = [])
    (hend : t.phase = .closing ∨ t.phase = .closed → t.todo = []) : TxnOk key last rows t := by
  constructor <;> simp_all

/-- The rows a commit shows. -/
theorem RowsOk.append {last : Int} {rows : List (Int × ν)} {t : Txn κ ν μ}
    (h : RowsOk key last rows) (ht : TxnOk key last rows t) :
    RowsOk key last (rows ++ t.pending) where
  le p hp := by
    rcases List.mem_append.mp hp with hp | hp
    · exact h.le p hp
    · exact ht.pending_le p hp
  sorted := by
    refine List.pairwise_append.mpr ⟨h.sorted, ht.sorted.imp ?_, ?_⟩
    · intro a b hlt _
      exact hlt
    · exact fun p' hp' p hp hk => ht.pending_new p hp p' hp' hk

variable {uid : ν → υ} {prog : μ → List (Stmt κ ν)}

/-- Before an insert nothing is drawn. -/
theorem TxnOk.drawn_none {last : Int} {rows : List (Int × ν)} {t : Txn κ ν μ}
    (h : TxnOk key last rows t) (hne : ∀ r rest, t.todo ≠ .insert r :: rest) :
    t.drawn = none := by
  refine Option.eq_none_iff_forall_not_mem.mpr fun q hq => ?_
  obtain ⟨r, rest, htodo⟩ := h.drawn_at q hq
  exact hne r rest htodo

/-- A statement that is no insert is done. -/
theorem TxnOk.next {last : Int} {rows : List (Int × ν)} {t : Txn κ ν μ}
    (h : TxnOk key last rows t) (hrun : t.phase = .running) {st : Stmt κ ν}
    {rest : List (Stmt κ ν)} (htodo : t.todo = st :: rest) (hst : ∀ r, st ≠ .insert r)
    {locks : List κ} (hlocks : ∀ k ∈ t.locks, k ∈ locks) (hg : Guarded key locks rest) :
    TxnOk key last rows { t with todo := rest, locks := locks } := by
  have hd : t.drawn = none := h.drawn_none fun r rest' he => by
    rw [htodo] at he
    exact hst r (List.cons.inj he).1
  constructor
  case guarded => exact hg
  case held => exact fun p hp => hlocks _ (h.held p hp)
  case pending_le => exact h.pending_le
  case sorted => exact h.sorted
  case pending_new => exact h.pending_new
  all_goals simp [hd, hrun]

/-- A number is drawn: it is above everything there is. -/
theorem TxnOk.draw {last : Int} {rows : List (Int × ν)} {t : Txn κ ν μ}
    (h : TxnOk key last rows t) (hrows : RowsOk key last rows) (hrun : t.phase = .running)
    {r : ν} {rest : List (Stmt κ ν)} (htodo : t.todo = .insert r :: rest) {q : Int}
    (hlt : last < q) : TxnOk key q rows { t with drawn := some q } := by
  constructor
  case guarded => exact h.guarded
  case held => exact h.held
  case pending_le => exact fun p hp => (h.pending_le p hp).trans hlt.le
  case drawn_le =>
    rintro q' ⟨⟩
    exact le_rfl
  case sorted => exact h.sorted
  case pending_lt =>
    rintro q' ⟨⟩ p hp
    exact lt_of_le_of_lt (h.pending_le p hp) hlt
  case pending_new => exact h.pending_new
  case drawn_new =>
    rintro q' ⟨⟩ r' rest' _ p' hp' _
    exact lt_of_le_of_lt (hrows.le p' hp') hlt
  case drawn_at => exact fun _ _ => ⟨r, rest, htodo⟩
  case ended => simp [hrun]

/-- The drawn number goes into the inserted row. -/
theorem TxnOk.insert {last : Int} {rows : List (Int × ν)} {t : Txn κ ν μ}
    (h : TxnOk key last rows t) (hrun : t.phase = .running) {r : ν} {rest : List (Stmt κ ν)}
    (htodo : t.todo = .insert r :: rest) {q : Int} (hd : t.drawn = some q) :
    TxnOk key last rows
      { t with todo := rest, drawn := none, pending := t.pending ++ [(q, r)] } := by
  have hg := h.guarded
  rw [htodo] at hg
  constructor
  case guarded => exact hg.2
  case held =>
    simp only [List.mem_append, List.mem_singleton]
    rintro p (hp | rfl)
    · exact h.held p hp
    · exact hg.1
  case pending_le =>
    simp only [List.mem_append, List.mem_singleton]
    rintro p (hp | rfl)
    · exact h.pending_le p hp
    · exact h.drawn_le q hd
  case sorted =>
    refine List.pairwise_append.mpr ⟨h.sorted, by simp, fun p hp p' hp' => ?_⟩
    obtain rfl := List.mem_singleton.mp hp'
    exact h.pending_lt q hd p hp
  case pending_new =>
    simp only [List.mem_append, List.mem_singleton]
    rintro p (hp | rfl) p' hp' hk
    · exact h.pending_new p hp p' hp' hk
    · exact h.drawn_new q hd r rest htodo p' hp' hk
  all_goals simp [hrun]

theorem step_inv (hprog : ∀ c, Guarded key [] (prog c)) {db db' : Db ι κ ν μ} {a : ι × Act}
    (h : Inv key db) (hstep : Step uid prog db a db') : Inv key db' := by
  cases hstep with
  | start i c hi =>
    exact h.put le_rfl (.of_empty (hprog c) rfl rfl (by simp)) (by simp)
  | begin i t rest hi hrun htodo =>
    have ht := h.txns i t hi
    have hg := ht.guarded
    rw [htodo] at hg
    exact h.put le_rfl (ht.next hrun htodo (by simp) (fun _ hk => hk) hg) (h.excl i t hi)
  | lock i t k rest hi hrun htodo hfree =>
    have ht := h.txns i t hi
    have hg := ht.guarded
    rw [htodo] at hg
    refine h.put le_rfl (ht.next hrun htodo (by simp) (by simp_all) hg) fun k' hk' => ?_
    rcases List.mem_cons.mp hk' with rfl | hk'
    · exact hfree
    · exact h.excl i t hi k' hk'
  | draw i t r rest q hi hrun htodo hdrawn hlt =>
    exact h.put hlt.le ((h.txns i t hi).draw h.rows hrun htodo hlt) (h.excl i t hi)
  | insert i t r rest q hi hrun htodo hdrawn hunclaimed htaken =>
    exact h.put le_rfl ((h.txns i t hi).insert hrun htodo hdrawn) (h.excl i t hi)
  | duplicate i t r rest q hi hrun htodo hdrawn htaken =>
    exact h.put le_rfl { h.txns i t hi with ended := by simp } (h.excl i t hi)
  | commit i t rest hi hrun htodo =>
    have ht := h.txns i t hi
    refine h.update le_rfl (fun j tj hne hj p hp => ?_) (h.rows.append ht)
      (.of_empty trivial rfl rfl (by simp)) (h.excl i t hi)
    exact h.excl i t hi (key p.2) (ht.held p hp) j tj hne hj
  | rollback i t hi hfailed =>
    exact h.put le_rfl (.of_empty trivial rfl rfl (by simp)) (h.excl i t hi)
  | cancel i t hi hrun =>
    exact h.put le_rfl (.of_empty trivial rfl rfl (by simp)) (h.excl i t hi)
  | release i t hi hclosing =>
    obtain ⟨htodo, hdrawn, hpending⟩ := (h.txns i t hi).ended (.inl hclosing)
    refine h.put le_rfl (.of_empty ?_ hdrawn hpending fun _ => htodo) (by simp)
    rw [htodo]
    trivial

theorem inv_of_reachable (hprog : ∀ c, Guarded key [] (prog c)) {db : Db ι κ ν μ}
    (h : (system ι uid prog).Reachable db) : Inv key db := by
  refine h.invariant (fun {db} h0 => ?_) (fun {_ _ _} => step_inv hprog)
  obtain rfl : db = ⟨0, [], fun _ => none⟩ := h0
  exact ⟨⟨by simp, by simp⟩, by simp, by simp⟩

/-- **What becomes visible comes after everything visible of its stream.** -/
theorem new_rows_larger (hprog : ∀ c, Guarded key [] (prog c)) {db db' : Db ι κ ν μ}
    (h : (system ι uid prog).Reachable db) (hsteps : (system ι uid prog).Steps db db') :
    ∃ new, db'.rows = db.rows ++ new ∧
      ∀ p ∈ new, ∀ p' ∈ db.rows, key p'.2 = key p.2 → p'.1 < p.1 := by
  obtain ⟨new, hnew⟩ := steps_rows hsteps
  refine ⟨new, hnew.symm, fun p hp p' hp' => ?_⟩
  have hsorted := (inv_of_reachable hprog (h.steps hsteps)).rows.sorted
  rw [← hnew] at hsorted
  exact (List.pairwise_append.mp hsorted).2.2 p' hp' p hp

/-! ## Waiting -/

/-- `i` wants a lock that `j` holds. -/
def WaitsLock (db : Db ι κ ν μ) (i j : ι) : Prop :=
  j ≠ i ∧ ∃ t t' k rest, db.txns i = some t ∧ t.phase = .running ∧ t.todo = .lock k :: rest ∧
    db.txns j = some t' ∧ k ∈ t'.locks

/-- `i` wants to insert an id that `j` has inserted and not committed yet. -/
def WaitsInsert (uid : ν → υ) (db : Db ι κ ν μ) (i j : ι) : Prop :=
  j ≠ i ∧ ∃ t t' r rest, db.txns i = some t ∧ t.phase = .running ∧
    t.todo = .insert r :: rest ∧ t.drawn ≠ none ∧
    db.txns j = some t' ∧ ∃ p ∈ t'.pending, uid p.2 = uid r

/-- The waits-for relation. -/
def Waits (uid : ν → υ) (db : Db ι κ ν μ) (i j : ι) : Prop :=
  WaitsLock db i j ∨ WaitsInsert uid db i j

omit [DecidableEq ι] in
theorem free_of_not_waits {db : Db ι κ ν μ} {i : ι} {t : Txn κ ν μ} {k : κ}
    {rest : List (Stmt κ ν)} (hi : db.txns i = some t) (hrun : t.phase = .running)
    (htodo : t.todo = .lock k :: rest) (h : ∀ j, ¬ Waits uid db i j) : Free db i k :=
  fun j t' hne hj hk => h j (.inl ⟨hne, t, t', k, rest, hi, hrun, htodo, hj, hk⟩)

omit [DecidableEq ι] in
theorem unclaimed_of_not_waits {db : Db ι κ ν μ} {i : ι} {t : Txn κ ν μ} {r : ν}
    {rest : List (Stmt κ ν)} (hi : db.txns i = some t) (hrun : t.phase = .running)
    (htodo : t.todo = .insert r :: rest) (hdrawn : t.drawn ≠ none)
    (h : ∀ j, ¬ Waits uid db i j) : Unclaimed uid db i (uid r) :=
  fun j t' hne hj p hp hu =>
    h j (.inr ⟨hne, t, t', r, rest, hi, hrun, htodo, hdrawn, hj, p, hp, hu⟩)

end Machine

section Rank

variable {ι : Type} {waits : ι → ι → Prop} {rank : ι → Nat}

theorem acyclic_of_rank (h : ∀ i j, waits i j → rank i < rank j) (i : ι) :
    ¬ Relation.TransGen waits i i := by
  have hlt : ∀ j, Relation.TransGen waits i j → rank i < rank j := by
    intro j hj
    induction hj with
    | single hw => exact h _ _ hw
    | tail _ hw ih => exact ih.trans (h _ _ hw)
  exact fun hc => lt_irrefl _ (hlt i hc)

/-- Following the waits leads, within the bound on ranks, to someone who does not wait. -/
theorem exists_not_waiting (live : ι → Prop) {bound : Nat}
    (h : ∀ i j, waits i j → rank i < rank j) (hlive : ∀ i j, waits i j → live j)
    (hbound : ∀ i, rank i ≤ bound) {i : ι} (hi : live i) :
    ∃ j, live j ∧ ∀ k, ¬ waits j k := by
  induction hn : bound - rank i using Nat.strong_induction_on generalizing i with
  | h n ih =>
    by_cases hw : ∃ k, waits i k
    · obtain ⟨k, hk⟩ := hw
      have hlt := h i k hk
      have := hbound k
      exact ih (bound - rank k) (by omega) (hlive i k hk) rfl
    · exact ⟨i, hi, fun k hk => hw ⟨k, hk⟩⟩

end Rank

end Transactions
