/-
  The message log on SQLite: any number of `store_message` transactions and of readers, in any
  interleaving.

  The readers are those of the log on PostgreSQL. What they need of the writers is stated once
  (`OrderedLog`), for a store of any kind.

  * `readers_ok`: over an ordered log each reader is given its group's rows, none twice and none
    left out;
  * `sqlite_log_exact`: what is in the table, and what a reader is given of it, is told by the
    calls that committed and their order.
-/
import Forgeclaw.Foundation.SingleWriter
import Forgeclaw.Store.MessageLog

open Forgeclaw.Core

namespace Forgeclaw.Store

open Messages Page

/-! ## Readers of an ordered log -/

section

variable {σ α ρ : Type} [DecidableEq ρ]

structure ReadState (σ ρ : Type) where
  store : σ
  readers : ρ → Option Reader

inductive ReadAct (α ρ : Type) where
  | write (a : α)
  | join (r : ρ)
  | read (r : ρ)
  | advance (r : ρ)

def ReadState.setReader (s : ReadState σ ρ) (r : ρ) (reader : Reader) : ReadState σ ρ :=
  { s with readers := Function.update s.readers r (some reader) }

/-- What the writers of a store and its readers do; `table` are the rows that a read sees. -/
inductive ReadStep (W : TransitionSystem σ α) (table : σ → List Model) :
    ReadState σ ρ → ReadAct α ρ → ReadState σ ρ → Prop
  | write (s a store) : W.Step s.store a store →
      ReadStep W table s (.write a) { s with store := store }
  | join (s r group cursor) : s.readers r = none →
      ReadStep W table s (.join r) (s.setReader r ⟨group, cursor, cursor, none, []⟩)
  | read (s r reader limit page) : s.readers r = some reader → reader.page = none →
      getMessagesSince (table s.store) reader.group reader.cursor limit = .ok page →
      ReadStep W table s (.read r)
        (s.setReader r { reader with page := some page, given := reader.given ++ page })
  | advance (s r reader page) : s.readers r = some reader → reader.page = some page →
      ReadStep W table s (.advance r)
        (s.setReader r { reader with cursor := reader.cursor.next page, page := none })

/-- Without readers at first. -/
def withReaders (ρ : Type) [DecidableEq ρ] (W : TransitionSystem σ α) (table : σ → List Model) :
    TransitionSystem (ReadState σ ρ) (ReadAct α ρ) where
  Init s := W.Init s.store ∧ s.readers = fun _ => none
  Step := ReadStep W table

/-- What readers need: a group's rows become visible in the order of their `seq`. -/
structure OrderedLog (W : TransitionSystem σ α) (table : σ → List Model) : Prop where
  sorted : ∀ s, W.Reachable s → ∀ group,
    (groupRows (table s) group).Pairwise fun a b => a.seq < b.seq
  grows : ∀ s a t, W.Reachable s → W.Step s a t → ∃ new, table t = table s ++ new ∧
    ∀ row ∈ new, ∀ row' ∈ table s, row'.groupId = row.groupId → row'.seq < row.seq

variable {W : TransitionSystem σ α} {table : σ → List Model}

theorem reachable_store {s : ReadState σ ρ} (h : (withReaders ρ W table).Reachable s) :
    W.Reachable s.store := by
  refine h.invariant (I := fun s : ReadState σ ρ => W.Reachable s.store) ?_ ?_
  · rintro s ⟨hinit, -⟩
    exact .init hinit
  · intro s a t hs hst
    cases hst with
    | write a store hw => exact hs.step hw
    | join r group cursor _ => exact hs
    | read r reader limit page _ _ _ => exact hs
    | advance r reader page _ _ => exact hs

theorem update_reader {readers : ρ → Option Reader} {r r' : ρ} {reader reader' : Reader}
    (h : Function.update readers r (some reader) r' = some reader') :
    reader' = reader ∨ readers r' = some reader' := by
  rw [Function.update_apply] at h
  split at h
  · exact .inl (Option.some.inj h).symm
  · exact .inr h

/-- **Readers of an ordered log** are given what there is of their group, from their start to the
    last row given. -/
theorem OrderedLog.readers_ok (h : OrderedLog W table) {s : ReadState σ ρ}
    (hs : (withReaders ρ W table).Reachable s) :
    ∀ r reader, s.readers r = some reader → ReaderOk (table s.store) reader := by
  refine (hs.invariant (I := fun s : ReadState σ ρ => W.Reachable s.store ∧
    ∀ r reader, s.readers r = some reader → ReaderOk (table s.store) reader) ?_ ?_).2
  · rintro s ⟨hinit, hnone⟩
    refine ⟨.init hinit, fun r reader hr => ?_⟩
    rw [hnone] at hr
    cases hr
  · rintro s a t ⟨hs, hok⟩ hst
    cases hst with
    | write a store hw =>
      obtain ⟨new, htable, hnew⟩ := h.grows _ _ _ hs hw
      refine ⟨hs.step hw, fun r reader hr => ?_⟩
      show ReaderOk (table store) reader
      rw [htable]
      exact (hok r reader hr).grow hnew
    | join r group cursor hr =>
      refine ⟨hs, fun r' reader' hr' => ?_⟩
      obtain rfl | hr' := update_reader hr'
      · refine ⟨?_, le_rfl, rfl⟩
        refine (List.map_eq_nil_iff.mpr ?_).symm
        refine List.eq_nil_iff_forall_not_mem.mpr fun row hrow => ?_
        obtain ⟨-, hlow, hhigh⟩ := mem_between.mp hrow
        exact absurd hlow (not_lt_of_ge hhigh)
      · exact hok r' reader' hr'
    | read r reader limit page hr hpage hget =>
      refine ⟨hs, fun r' reader' hr' => ?_⟩
      obtain rfl | hr' := update_reader hr'
      · exact (hok r reader hr).read (h.sorted _ hs _) hpage hget
      · exact hok r' reader' hr'
    | advance r reader page hr hpage =>
      refine ⟨hs, fun r' reader' hr' => ?_⟩
      obtain rfl | hr' := update_reader hr'
      · exact (hok r reader hr).advance hpage
      · exact hok r' reader' hr'

end

/-! ## The writers -/

/-- The row that `store_message` inserts. -/
def NewMessage.activeModel (msg : NewMessage) : ActiveModel where
  id := msg.id
  groupId := msg.groupId.value
  channelId := msg.channelId.value
  sender := msg.sender
  content := msg.content
  createdAt := msg.createdAt

/-- The message as it is read back. -/
def NewMessage.stored (msg : NewMessage) (seq : Int) : StoredMessage where
  seq := seq
  id := msg.id
  groupId := msg.groupId
  channelId := msg.channelId
  sender := msg.sender
  content := msg.content
  createdAt := msg.createdAt

section

variable {ι ρ : Type} [DecidableEq ι] [DecidableEq ρ] {hashtextextended : String → Int}

theorem inserts_storeMessage (msg : NewMessage) :
    SingleWriter.inserts (storeMessage hashtextextended .sqlite msg) = [msg.activeModel] := rfl

/-- The transactions of `store_message`, and the rows that are visible. -/
abbrev sqliteWriters (ι : Type) [DecidableEq ι] (hashtextextended : String → Int) :
    TransitionSystem (SingleWriter.Db ι Int ActiveModel NewMessage) (ι × SingleWriter.Act) :=
  SingleWriter.system ι (·.id) (storeMessage hashtextextended .sqlite)

def sqliteTable (db : SingleWriter.Db ι Int ActiveModel NewMessage) : List Model :=
  db.rows.map fun p => p.2.model p.1

abbrev sqliteLog (ι ρ : Type) [DecidableEq ι] [DecidableEq ρ] (hashtextextended : String → Int) :
    TransitionSystem (ReadState (SingleWriter.Db ι Int ActiveModel NewMessage) ρ)
      (ReadAct (ι × SingleWriter.Act) ρ) :=
  withReaders ρ (sqliteWriters ι hashtextextended) sqliteTable

/-- The messages with their places from one on. -/
def numbered (msgs : List NewMessage) : List StoredMessage :=
  msgs.zipIdx.map fun p => p.1.stored (p.2 + 1)

theorem inv_of_writers {db : SingleWriter.Db ι Int ActiveModel NewMessage}
    (h : (sqliteWriters ι hashtextextended).Reachable db) :
    SingleWriter.Inv (·.id) (storeMessage hashtextextended .sqlite) db := by
  have hlast : ∀ msg, SingleWriter.CommitLast (storeMessage hashtextextended .sqlite msg) :=
    fun _ => rfl
  exact SingleWriter.inv_of_reachable hlast h

theorem sqliteTable_eq {db : SingleWriter.Db ι Int ActiveModel NewMessage}
    (h : (sqliteWriters ι hashtextextended).Reachable db) :
    sqliteTable db = db.calls.zipIdx.map fun p => p.1.activeModel.model (p.2 + 1) := by
  rw [sqliteTable, (inv_of_writers h).rows_eq]
  simp only [inserts_storeMessage, ← List.map_eq_flatMap, List.zipIdx_map, List.map_map]
  rfl

theorem sqliteTable_sorted {db : SingleWriter.Db ι Int ActiveModel NewMessage}
    (h : (sqliteWriters ι hashtextextended).Reachable db) :
    (sqliteTable db).Pairwise fun a b => a.seq < b.seq := by
  rw [sqliteTable_eq h, List.pairwise_map, List.pairwise_iff_getElem]
  intro i j hi hj hij
  simpa [ActiveModel.model] using hij

theorem ids_distinct_of_writers {db : SingleWriter.Db ι Int ActiveModel NewMessage}
    (h : (sqliteWriters ι hashtextextended).Reachable db) :
    (db.calls.map (·.id)).Nodup := by
  have hi := inv_of_writers h
  have hids : db.rows.map (fun p => p.2.id) = db.calls.map (·.id) := by
    change db.rows.map (ActiveModel.id ∘ Prod.snd) = _
    rw [← List.map_map, hi.rows]
    simp only [inserts_storeMessage, ← List.map_eq_flatMap, List.map_map]
    rfl
  rw [← hids]
  exact hi.distinct

/-- **SQLite's one writer makes an ordered log.** -/
theorem sqlite_ordered : OrderedLog (sqliteWriters ι hashtextextended) sqliteTable where
  sorted db h group := (sqliteTable_sorted h).filter _
  grows db a db' h hst := by
    obtain ⟨new, hnew⟩ := SingleWriter.step_calls (inv_of_writers h) hst
    have hsorted := sqliteTable_sorted (h.step hst)
    have htable : sqliteTable db' = sqliteTable db ++
        (new.zipIdx db.calls.length).map fun p => p.1.activeModel.model (p.2 + 1) := by
      rw [sqliteTable_eq h, sqliteTable_eq (h.step hst), ← hnew, List.zipIdx_append,
        List.map_append, Nat.zero_add]
    rw [htable, List.pairwise_append] at hsorted
    exact ⟨_, htable, fun row hrow row' hrow' _ => hsorted.2.2 row' hrow' row hrow⟩

theorem steps_calls {s t : ReadState (SingleWriter.Db ι Int ActiveModel NewMessage) ρ}
    (hs : (sqliteLog ι ρ hashtextextended).Reachable s)
    (hst : (sqliteLog ι ρ hashtextextended).Steps s t) : s.store.calls <+: t.store.calls := by
  refine (hst.invariant (I := fun t => (sqliteLog ι ρ hashtextextended).Reachable t ∧
    s.store.calls <+: t.store.calls) ?_ ⟨hs, List.prefix_rfl⟩).2
  rintro u a v ⟨hu, hprefix⟩ hstep
  refine ⟨hu.step hstep, ?_⟩
  cases hstep with
  | write a store hw =>
    exact hprefix.trans (SingleWriter.step_calls (inv_of_writers (reachable_store hu)) hw)
  | join r group cursor _ => exact hprefix
  | read r reader limit page _ _ _ => exact hprefix
  | advance r reader page _ _ => exact hprefix

/-- **The log on SQLite is the list of the committed calls.** In every reachable state the table
holds the messages of the calls that have committed, each once and with all its fields, numbered
from one on in the order of the commits without a gap; no two have the same id. A reader has
been given exactly those of its group, from its start to the last one given, in that order. And
what has committed stays as it is. -/
theorem sqlite_log_exact {s : ReadState (SingleWriter.Db ι Int ActiveModel NewMessage) ρ}
    (h : (sqliteLog ι ρ hashtextextended).Reachable s) :
    (s.store.commits.Nodup ∧ ∀ i t, s.store.txns i = some t →
      (t.phase = .committed ↔ i ∈ s.store.commits)) ∧
    (s.store.calls.map (·.id)).Nodup ∧
    (sqliteTable s.store).map rowToStored = numbered s.store.calls ∧
    (∀ r reader, s.readers r = some reader →
      reader.given = (numbered s.store.calls).filter fun m =>
        m.groupId = reader.group ∧ reader.start.seq < m.seq ∧ m.seq ≤ reader.reached) ∧
    ∀ t, (sqliteLog ι ρ hashtextextended).Steps s t → s.store.calls <+: t.store.calls := by
  have hstore := reachable_store h
  have hi := inv_of_writers hstore
  have htable : (sqliteTable s.store).map rowToStored = numbered s.store.calls := by
    rw [sqliteTable_eq hstore, List.map_map]
    rfl
  refine ⟨⟨hi.commits, fun i t ht => (hi.txns i t ht).committed⟩, ids_distinct_of_writers hstore,
    htable, fun r reader hr => ?_, fun t => steps_calls h⟩
  rw [(sqlite_ordered.readers_ok h r reader hr).given, ← htable, between, groupRows,
    List.filter_filter, List.filter_map]
  refine congrArg _ (List.filter_congr fun row _ => ?_)
  have hgroup : (rowToStored row).groupId = reader.group ↔ row.groupId = reader.group.value := by
    cases hg : reader.group
    simp [rowToStored]
  have hseq : (rowToStored row).seq = row.seq := rfl
  rw [Bool.eq_iff_iff]
  simp only [Function.comp_apply, Bool.and_eq_true, decide_eq_true_eq, beq_iff_eq, hgroup, hseq]
  exact and_comm

end

/-- Two writers: the second one finds the lock taken and gives up; a reader has read the first. -/
theorem sqlite_log_exact_two :
    ∃ s : ReadState (SingleWriter.Db Nat Int ActiveModel NewMessage) Nat,
      (sqliteLog Nat Nat fun name => name.length).Reachable s ∧
        s.store.calls.map (·.id) = ["m1"] ∧
        ∃ reader, s.readers 0 = some reader ∧ reader.given.map (·.id) = ["m1"] ∧
          reader.given = (numbered s.store.calls).filter fun m =>
            m.groupId = reader.group ∧ reader.start.seq < m.seq ∧ m.seq ≤ reader.reached := by
  have h₀ : (sqliteLog Nat Nat fun name => name.length).Reachable
      ⟨⟨0, [], none, fun _ => none, []⟩, fun _ => none⟩ := .init ⟨rfl, rfl⟩
  have h₁ := h₀.step (.write _ _ _ (.start _ 0 ⟨"m1", ⟨"ops"⟩, ⟨"tg"⟩, "ann", "hi", 0⟩ rfl))
  have h₂ := h₁.step (.write _ _ _ (.start _ 1 ⟨"m2", ⟨"ops"⟩, ⟨"tg"⟩, "bob", "ho", 0⟩ rfl))
  have h₃ := h₂.step (.write _ _ _ (.begin _ 0 _ _ rfl rfl rfl))
  have h₄ := h₃.step (.write _ _ _ (.begin _ 1 _ _ rfl rfl rfl))
  have h₅ := h₄.step (.write _ _ _ (.insert _ 0 _ _ _ rfl rfl rfl (.inl rfl)
    (by simp [SingleWriter.Taken, SingleWriter.Db.put])))
  have h₆ := h₅.step (.write _ _ _ (.busy _ 1 _ _ _ 0 rfl rfl rfl rfl (by decide)))
  have h₇ := h₆.step (.write _ _ _ (.commit _ 0 _ _ rfl rfl rfl))
  have h₈ := h₇.step (.join _ 0 ⟨"ops"⟩ .beginning rfl)
  have h₉ := h₈.step (.read _ 0 _ 10 _ rfl rfl rfl)
  exact ⟨_, h₉, rfl, _, rfl, rfl, (sqlite_log_exact h₉).2.2.2.1 0 _ rfl⟩

end Forgeclaw.Store
