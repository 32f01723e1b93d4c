/-
  The message log on PostgreSQL: any number of `store_message` transactions and of readers,
  in any interleaving.

  A reader starts at a cursor of its own, calls `get_messages_since` on the committed rows
  and moves its cursor past the page; between the two anything may happen.

  * `step_readers`: what a reader has been given is exactly its group's rows from its start
    to the last one given, and each step keeps that;
  * `message_log_ordered`: a group's rows become visible in `seq` order, never behind what
    a reader has been given, so readers skip nothing and see nothing twice.
-/
import Forgeclaw.Store.Messages

open Forgeclaw.Core

namespace Forgeclaw.Store

open Transactions Messages Page

/-! ## Writers and readers -/

/-- A reader of one group. -/
structure Reader where
  group : GroupId
  /-- Where it began. -/
  start : Cursor
  cursor : Cursor
  /-- The page a call has returned, until the cursor is moved past it. -/
  page : Option (List StoredMessage)
  /-- All messages it has been given, in order. -/
  given : List StoredMessage
  deriving DecidableEq, Repr

structure LogState (ι ρ : Type) where
  db : Db ι Int ActiveModel NewMessage
  readers : ρ → Option Reader

/-- The committed rows, in the order in which they became visible. -/
def LogState.table {ι ρ : Type} (s : LogState ι ρ) : List Model :=
  s.db.rows.map fun p => p.2.model p.1

inductive LogAct (ι ρ : Type) where
  | write (a : ι × Act)
  | join (r : ρ)
  | read (r : ρ)
  | advance (r : ρ)

section

variable {ι ρ : Type} [DecidableEq ι] [DecidableEq ρ]

def LogState.setReader (s : LogState ι ρ) (r : ρ) (reader : Reader) : LogState ι ρ :=
  { s with readers := Function.update s.readers r (some reader) }

inductive LogStep (hashtextextended : String → Int) :
    LogState ι ρ → LogAct ι ρ → LogState ι ρ → Prop
  | write (s a db) :
      Transactions.Step (·.id) (storeMessage hashtextextended .postgres) s.db a db →
      LogStep hashtextextended s (.write a) { s with db := db }
  | join (s r group cursor) : s.readers r = none →
      LogStep hashtextextended s (.join r) (s.setReader r ⟨group, cursor, cursor, none, []⟩)
  | read (s r reader limit page) : s.readers r = some reader → reader.page = none →
      getMessagesSince s.table reader.group reader.cursor limit = .ok page →
      LogStep hashtextextended s (.read r)
        (s.setReader r { reader with page := some page, given := reader.given ++ page })
  | advance (s r reader page) : s.readers r = some reader → reader.page = some page →
      LogStep hashtextextended s (.advance r)
        (s.setReader r { reader with cursor := reader.cursor.next page, page := none })

/-- From an empty table on. -/
def messageLog (ι ρ : Type) [DecidableEq ι] [DecidableEq ρ] (hashtextextended : String → Int) :
    TransitionSystem (LogState ι ρ) (LogAct ι ρ) where
  Init s := s = ⟨⟨0, [], fun _ => none⟩, fun _ => none⟩
  Step := LogStep hashtextextended

end

/-! ## The database's side -/

/-- The stream a row belongs to: what its writer locked. -/
def stream (hashtextextended : String → Int) (am : ActiveModel) : Int :=
  advisoryKey hashtextextended am.groupId

theorem storeMessage_guarded (hashtextextended : String → Int) (msg : NewMessage) :
    Guarded (stream hashtextextended) [] (storeMessage hashtextextended .postgres msg) := by
  simp [storeMessage, Guarded, stream]

section

variable {ι ρ : Type} [DecidableEq ι] [DecidableEq ρ] {hashtextextended : String → Int}

theorem steps_db {s t : LogState ι ρ} (h : (messageLog ι ρ hashtextextended).Steps s t) :
    (Transactions.system ι (·.id) (storeMessage hashtextextended .postgres)).Steps s.db t.db := by
  induction h with
  | refl => exact .refl
  | tail _ hstep ih =>
    cases hstep with
    | write a db hdb => exact ih.tail hdb
    | join r group cursor _ => exact ih
    | read r reader limit page _ _ _ => exact ih
    | advance r reader page _ _ => exact ih

theorem reachable_db {s : LogState ι ρ} (h : (messageLog ι ρ hashtextextended).Reachable s) :
    (Transactions.system ι (·.id) (storeMessage hashtextextended .postgres)).Reachable s.db := by
  obtain ⟨s₀, rfl, hsteps⟩ := h
  exact ⟨_, rfl, steps_db hsteps⟩

theorem groupRows_table_sorted {s : LogState ι ρ}
    (h : (messageLog ι ρ hashtextextended).Reachable s) (group : GroupId) :
    (groupRows s.table group).Pairwise fun a b => a.seq < b.seq := by
  have hsorted :=
    (inv_of_reachable (storeMessage_guarded hashtextextended) (reachable_db h)).rows.sorted
  rw [groupRows, LogState.table, List.pairwise_filter, List.pairwise_map]
  refine hsorted.imp ?_
  intro a b hlt ha hb
  have ha : a.2.groupId = group.value := by simpa [ActiveModel.model] using ha
  have hb : b.2.groupId = group.value := by simpa [ActiveModel.model] using hb
  exact hlt (by rw [stream, stream, ha, hb])

/-- What becomes visible, and that it comes after its group's visible rows. -/
theorem table_grows {s t : LogState ι ρ} (h : (messageLog ι ρ hashtextextended).Reachable s)
    (hsteps : (messageLog ι ρ hashtextextended).Steps s t) :
    ∃ new, t.table = s.table ++ new ∧
      ∀ row ∈ new, ∀ row' ∈ s.table, row'.groupId = row.groupId → row'.seq < row.seq := by
  obtain ⟨new, hrows, hlt⟩ :=
    new_rows_larger (storeMessage_guarded hashtextextended) (reachable_db h) (steps_db hsteps)
  refine ⟨new.map fun p => p.2.model p.1, by simp [LogState.table, hrows], ?_⟩
  simp only [LogState.table, List.mem_map]
  rintro _ ⟨p, hp, rfl⟩ _ ⟨p', hp', rfl⟩ hgroup
  exact hlt p hp p' hp' (congrArg (advisoryKey hashtextextended) hgroup)

end

/-! ## The readers' side -/

/-- The `seq` of the last message given, or where the reader began. -/
def Reader.reached (r : Reader) : Int := reach (·.seq) r.start.seq r.given

structure ReaderOk (table : List Model) (r : Reader) : Prop where
  given : r.given =
    (between (·.seq) r.start.seq r.reached (groupRows table r.group)).map rowToStored
  start_le : r.start.seq ≤ r.reached
  /-- Once past its page, the reader continues from the last message given. -/
  cursor : (match r.page with
    | none => r.cursor
    | some page => r.cursor.next page).seq = r.reached

theorem ReaderOk.mem_given {table : List Model} {r : Reader} (h : ReaderOk table r)
    {m : StoredMessage} (hm : m ∈ r.given) :
    ∃ row ∈ table, row.groupId = r.group.value ∧ rowToStored row = m := by
  rw [h.given] at hm
  obtain ⟨row, hrow, rfl⟩ := List.mem_map.mp hm
  obtain ⟨hmem, hgroup⟩ := mem_groupRows.mp (mem_between.mp hrow).1
  exact ⟨row, hmem, hgroup, rfl⟩

/-- Later rows of the group change nothing for a reader. -/
theorem ReaderOk.grow {table new : List Model} {r : Reader} (h : ReaderOk table r)
    (hnew : ∀ row ∈ new, ∀ row' ∈ table, row'.groupId = row.groupId → row'.seq < row.seq) :
    ReaderOk (table ++ new) r where
  given := by
    have hnil : between (·.seq) r.start.seq r.reached (groupRows new r.group) = [] := by
      refine List.eq_nil_iff_forall_not_mem.mpr fun row hrow => ?_
      obtain ⟨hrow, hlow, hhigh⟩ := mem_between.mp hrow
      obtain ⟨hmem, hgroup⟩ := mem_groupRows.mp hrow
      rcases reach_mem (fun m : StoredMessage => m.seq) r.start.seq r.given with
        ⟨-, he⟩ | ⟨m, hm, he⟩
      · exact absurd hlow (not_lt_of_ge (hhigh.trans he.le))
      · obtain ⟨row', hrow', hgroup', rfl⟩ := h.mem_given hm
        have hlt := hnew row hmem row' hrow' (hgroup'.trans hgroup.symm)
        exact absurd hlt (not_lt_of_ge (hhigh.trans he.le))
    rw [groupRows_append, between_append, hnil, List.append_nil]
    exact h.given
  start_le := h.start_le
  cursor := h.cursor

theorem ReaderOk.read {table : List Model} {r : Reader} (h : ReaderOk table r)
    (hsorted : (groupRows table r.group).Pairwise fun a b => a.seq < b.seq)
    (hpage : r.page = none) {limit : Int} {page : List StoredMessage}
    (hget : getMessagesSince table r.group r.cursor limit = .ok page) :
    ReaderOk table { r with page := some page, given := r.given ++ page } := by
  have hcursor : r.cursor.seq = r.reached := by
    have := h.cursor
    rw [hpage] at this
    exact this
  obtain ⟨n, rfl⟩ : ∃ n, page = ((rowsAfter table r.group r.cursor).take n).map rowToStored := by
    rcases lt_or_ge limit 0 with hneg | hpos
    · rw [getMessagesSince_of_neg hneg] at hget
      cases hget
    · rw [getMessagesSince_eq hsorted hpos] at hget
      exact ⟨_, (Except.ok.inj hget).symm⟩
  have hafter : rowsAfter table r.group r.cursor
      = (groupRows table r.group).filter fun row => decide (r.reached < row.seq) := by
    rw [rowsAfter, hcursor]
  rw [hafter]
  generalize hrows : ((groupRows table r.group).filter
    fun row => decide (r.reached < row.seq)).take n = rows
  have hreached : Reader.reached
      { r with page := some (rows.map rowToStored), given := r.given ++ rows.map rowToStored }
        = reach (·.seq) r.reached rows := by
    rw [Reader.reached, reach_append, reach_map_rowToStored]
    rfl
  constructor
  case given =>
    rw [hreached, ← hrows, ← between_append_take hsorted h.start_le, List.map_append, ← h.given]
  case start_le =>
    rw [hreached]
    refine h.start_le.trans (low_le_reach fun row hrow => ?_)
    rw [← hrows] at hrow
    simpa using (List.mem_filter.mp (List.mem_of_mem_take hrow)).2
  case cursor =>
    rw [hreached, next_seq, reach_map_rowToStored, hcursor]

theorem ReaderOk.advance {table : List Model} {r : Reader} (h : ReaderOk table r)
    {page : List StoredMessage} (hpage : r.page = some page) :
    ReaderOk table { r with cursor := r.cursor.next page, page := none } where
  given := h.given
  start_le := h.start_le
  cursor := by
    have := h.cursor
    rw [hpage] at this
    exact this

section

variable {ι ρ : Type} [DecidableEq ι] [DecidableEq ρ] {hashtextextended : String → Int}

omit [DecidableEq ι] in
theorem setReader_readers (s : LogState ι ρ) (r : ρ) (reader : Reader) (r' : ρ) :
    (s.setReader r reader).readers r' = if r' = r then some reader else s.readers r' := by
  simp [LogState.setReader, Function.update_apply]

theorem step_readers {s t : LogState ι ρ} {a : LogAct ι ρ}
    (hs : (messageLog ι ρ hashtextextended).Reachable s)
    (h : ∀ r reader, s.readers r = some reader → ReaderOk s.table reader)
    (hstep : LogStep hashtextextended s a t) :
    ∀ r reader, t.readers r = some reader → ReaderOk t.table reader := by
  obtain ⟨new, htable, hnew⟩ := table_grows hs (.tail .refl hstep)
  intro r' reader' hr'
  rw [htable]
  cases hstep with
  | write a db hdb => exact (h r' reader' hr').grow hnew
  | join r group cursor hr =>
    rw [setReader_readers] at hr'
    split at hr'
    · cases hr'
      refine ReaderOk.grow ⟨?_, le_rfl, rfl⟩ hnew
      refine (List.map_eq_nil_iff.mpr (List.eq_nil_iff_forall_not_mem.mpr fun row hrow => ?_)).symm
      obtain ⟨-, hlow, hhigh⟩ := mem_between.mp hrow
      exact absurd hlow (not_lt_of_ge hhigh)
    · exact (h r' reader' hr').grow hnew
  | read r reader limit page hr hpage hget =>
    rw [setReader_readers] at hr'
    split at hr'
    · cases hr'
      exact ((h r reader hr).read (groupRows_table_sorted hs _) hpage hget).grow hnew
    · exact (h r' reader' hr').grow hnew
  | advance r reader page hr hpage =>
    rw [setReader_readers] at hr'
    split at hr'
    · cases hr'
      exact ((h r reader hr).advance hpage).grow hnew
    · exact (h r' reader' hr').grow hnew

theorem readers_ok {s : LogState ι ρ} (h : (messageLog ι ρ hashtextextended).Reachable s) :
    ∀ r reader, s.readers r = some reader → ReaderOk s.table reader := by
  obtain ⟨s₀, rfl, hsteps⟩ := h
  induction hsteps with
  | refl => simp
  | tail hsteps hstep ih => exact step_readers ⟨_, rfl, hsteps⟩ ih hstep

/-- **Nothing becomes visible behind a reader.** In every reachable state a group's rows have
    become visible in increasing `seq` order, each reader has been given exactly its group's
    rows from its start to the last one given, and whatever becomes visible in its group
    later is larger than all it has been given. -/
theorem message_log_ordered (hashtextextended : String → Int) {s : LogState ι ρ}
    (h : (messageLog ι ρ hashtextextended).Reachable s) :
    (∀ group, (groupRows s.table group).Pairwise fun a b => a.seq < b.seq) ∧
    (∀ r reader, s.readers r = some reader →
      reader.given = (between (·.seq) reader.start.seq reader.reached
        (groupRows s.table reader.group)).map rowToStored) ∧
    ∀ t, (messageLog ι ρ hashtextextended).Steps s t →
      ∃ new, t.table = s.table ++ new ∧
        ∀ row ∈ new, ∀ r reader, s.readers r = some reader →
          row.groupId = reader.group.value → ∀ m ∈ reader.given, m.seq < row.seq := by
  refine ⟨groupRows_table_sorted h, fun r reader hr => (readers_ok h r reader hr).given, ?_⟩
  intro t hsteps
  obtain ⟨new, htable, hnew⟩ := table_grows h hsteps
  refine ⟨new, htable, fun row hrow r reader hr hgroup m hm => ?_⟩
  obtain ⟨row', hrow', hgroup', rfl⟩ := (readers_ok h r reader hr).mem_given hm
  exact hnew row hrow row' hrow' (hgroup'.trans hgroup.symm)

end

/-- One writer commits a message, one reader has read it. -/
theorem message_log_ordered_one :
    ∃ s : LogState Nat Nat, (∃ reader, s.readers 0 = some reader ∧
        reader.group = ⟨"ops"⟩ ∧ reader.given.map (·.seq) = [1]) ∧
      ∀ t, (messageLog Nat Nat fun name => name.length).Steps s t →
        ∃ new, t.table = s.table ++ new ∧ ∀ row ∈ new, row.groupId = "ops" → 1 < row.seq := by
  have h₀ : (messageLog Nat Nat fun name => name.length).Reachable
      ⟨⟨0, [], fun _ => none⟩, fun _ => none⟩ := .init rfl
  have h₁ := h₀.step (.write _ _ _ (.start _ 0 ⟨"m1", ⟨"ops"⟩, ⟨"tg"⟩, "ann", "hi", 0⟩ rfl))
  have h₂ := h₁.step (.write _ _ _ (.begin _ 0 _ _ rfl rfl rfl))
  have h₃ := h₂.step (.write _ _ _ (.lock _ 0 _ _ _ rfl rfl rfl fun j t hj hjt => by
    simp [Db.put, hj] at hjt))
  have h₄ := h₃.step (.write _ _ _ (.draw _ 0 _ _ _ 1 rfl rfl rfl rfl (by decide)))
  have h₅ := h₄.step (.write _ _ _ (.insert _ 0 _ _ _ _ rfl rfl rfl rfl
    (fun j t hj hjt => by simp [Db.put, hj] at hjt)
    (by simp [Taken, Db.put])))
  have h₆ := h₅.step (.write _ _ _ (.commit _ 0 _ _ rfl rfl rfl))
  have h₇ := h₆.step (.join _ 0 ⟨"ops"⟩ .beginning rfl)
  have h₈ := h₇.step (.read _ 0 _ 10 _ rfl rfl rfl)
  obtain ⟨s, hs, reader, hr, hgroup, hgiven⟩ :
      ∃ s : LogState Nat Nat, (messageLog Nat Nat fun name => name.length).Reachable s ∧
        ∃ reader, s.readers 0 = some reader ∧ reader.group = ⟨"ops"⟩ ∧
          reader.given.map (·.seq) = [1] := ⟨_, h₈, _, rfl, rfl, rfl⟩
  refine ⟨s, ⟨reader, hr, hgroup, hgiven⟩, fun t ht => ?_⟩
  obtain ⟨new, htable, hnew⟩ := (message_log_ordered (fun name => name.length) hs).2.2 t ht
  refine ⟨new, htable, fun row hrow hrowGroup => ?_⟩
  obtain ⟨m, hm, hseq⟩ := List.mem_map.mp (hgiven ▸ List.mem_singleton.mpr rfl : (1 : Int) ∈
    reader.given.map (·.seq))
  exact hseq ▸ hnew row hrow 0 reader hr (by rw [hrowGroup, hgroup]) m hm

end Forgeclaw.Store
