/-
  Polling for due tasks: `get_due_tasks`, then `update_task_after_run` for every task it
  returned, over and over with one `now` and one limit.

  Nothing but the updates moves the loop on. `filter_recordRuns` says what one round's updates do
  to the due rows, whatever comes of the runs: the rows of the page go, the others stay and keep
  their order. But rows are due where the database finds them due. `polling_drains_iff`: so the
  loop returns the tasks that were due when it began, each once, in order, in as many pages as
  they fill, and then an empty page, exactly if the database's order of timestamps agrees with
  that of the instants wherever the loop looks. PostgreSQL's does; SQLite's puts the years from
  10000 on before all others (`far_run_polled_again`).
-/
import Forgeclaw.Store.Scheduler
import Forgeclaw.Store.SqliteTime
import Forgeclaw.Foundation.Drain

open Forgeclaw.Core

namespace Forgeclaw.Store

open Tasks Drain

/-! ## The loop -/

/-- The updates of one round; `result` is what came of each task's run. -/
def recordRuns (toString : TaskRunResult → Except String String) (recordNotUpdated : DbErr)
    (result : StoredTask → TaskRunResult) :
    List StoredTask → List Model → Except StoreError (List Model)
  | [], db => .ok db
  | task :: tasks, db => do
    let db ← updateTaskAfterRun toString recordNotUpdated task.id (result task) db
    recordRuns toString recordNotUpdated result tasks db

section

variable {K : Type} [LinearOrder K] (key : DateTime → K)

/-- The polling loop on a table, with fuel: the pages before the first empty one, and the table
    then. What comes of a run may differ from round to round. -/
def poll (toString : TaskRunResult → Except String String) (recordNotUpdated : DbErr)
    (results : Nat → StoredTask → TaskRunResult) (now : DateTime) (limit : Int) (fuel : Nat)
    (db : List Model) : Except StoreError (Option (List (List StoredTask) × List Model)) :=
  drain (fun db => getDueTasks key db now limit)
    (fun round page db => recordRuns toString recordNotUpdated (results round) page db) fuel 0 db

/-- A run after which its task is not due: it is not active, or has no next run up to `now`. -/
def TaskRunResult.NotDue (now : DateTime) (result : TaskRunResult) : Prop :=
  result.status ≠ .active ∨ ∀ t, result.nextRun = some t → key now < key t

/-! ## Tables and their due rows -/

/-- Ids are a key of the table, and every row decodes. -/
structure Pollable (db : List Model) : Prop where
  distinct : (db.map (·.id)).Nodup
  decodes : ∀ row ∈ db, ∃ task, rowToStored row = .ok task

/-- The rows that a query without a limit would return. -/
def dueRows (now : DateTime) (db : List Model) : List Model :=
  Page.orderBy (dueKey key) (db.filter (isDue key now))

end

section

variable {K : Type} [LinearOrder K] {key : DateTime → K}

theorem mem_dueRows {now : DateTime} {db : List Model} {row : Model} :
    row ∈ dueRows key now db ↔ row ∈ db ∧ isDue key now row = true := by
  rw [dueRows, Page.mem_orderBy, List.mem_filter]

/-- Every table that the calls of a run lead to is of that kind. -/
theorem Refines.pollable {table : List Model} {sched : Schedule} (h : Refines table sched) :
    Pollable table where
  distinct := h.distinct
  decodes row hrow := by
    obtain ⟨e, -, hof⟩ := h.rows row hrow
    obtain ⟨task, htask, -⟩ := hof.rowToStored
    exact ⟨task, htask⟩

theorem Pollable.row_eq {db : List Model} (h : Pollable db) {a b : Model} (ha : a ∈ db)
    (hb : b ∈ db) (hid : a.id = b.id) : a = b :=
  List.inj_on_of_nodup_map h.distinct ha hb hid

variable (key) in
theorem Pollable.dueRows_lt {db : List Model} (h : Pollable db) (now : DateTime) :
    (dueRows key now db).Pairwise fun a b => dueKey key a < dueKey key b :=
  Page.orderBy_lt ((dueKey_distinct key h.distinct).filter _)

variable (key) in
theorem Pollable.ids_distinct {db : List Model} (h : Pollable db) (now : DateTime) :
    ((dueRows key now db).map (·.id)).Nodup := by
  have hperm := (Page.perm_orderBy (dueKey key) (db.filter (isDue key now))).map (·.id)
  exact hperm.nodup_iff.mpr (h.distinct.sublist (List.filter_sublist.map _))

/-- A task has its row's id and next run. -/
theorem rowToStored_eq_ok {row : Model} {task : StoredTask} (h : rowToStored row = .ok task) :
    row.id = task.id.value ∧ row.nextRun = task.nextRun := by
  unfold rowToStored at h
  cases hkind : ScheduleKind.fromStr row.scheduleKind with
  | error e =>
    rw [hkind] at h
    cases h
  | ok kind =>
    cases hstatus : TaskStatus.fromStr row.status with
    | error e =>
      rw [hkind, hstatus] at h
      cases h
    | ok status =>
      rw [hkind, hstatus] at h
      cases h
      exact ⟨rfl, rfl⟩

variable (key) in
/-- A task's place in the order. -/
def StoredTask.dueKey (task : StoredTask) : WithBot K ×ₗ String :=
  toLex (task.nextRun.map key, task.id.value)

omit [LinearOrder K] in
theorem dueKey_of_row {row : Model} {task : StoredTask} (h : rowToStored row = .ok task) :
    dueKey key row = task.dueKey key := by
  obtain ⟨hid, hnext⟩ := rowToStored_eq_ok h
  rw [Store.dueKey, hid, hnext]
  rfl

theorem asDue_key (task : StoredTask) : task.asDue.key = task.dueKey id := by
  rw [StoredTask.dueKey, Option.map_id]
  rfl

/-! ## What the updates do -/

/-- Whether a row is due is a matter of two columns. -/
theorem isDue_of_notDue {now : DateTime} {result : TaskRunResult} {row : Model}
    (h : result.NotDue key now) (hstatus : row.status = result.status.asStr)
    (hnext : row.nextRun = result.nextRun) : isDue key now row = false := by
  rcases h with hne | hlater
  · have hnot : (row.status == TaskStatus.active.asStr) = false := by
      simpa [hstatus, TaskStatus.asStr_inj] using hne
    simp [isDue, hnot]
  · have hnone : (row.nextRun.any fun t => decide (key t ≤ key now)) = false := by
      rw [hnext]
      cases hrun : result.nextRun with
      | none => rfl
      | some t => simpa using hlater t hrun
    simp [isDue, hnone]

theorem notDue_of_isDue {now : DateTime} {result : TaskRunResult} {row : Model}
    (h : isDue key now row = false) (hstatus : row.status = result.status.asStr)
    (hnext : row.nextRun = result.nextRun) : result.NotDue key now := by
  by_contra hdue
  simp only [TaskRunResult.NotDue, not_or, not_forall, not_not, not_lt] at hdue
  obtain ⟨hactive, t, hrun, hle⟩ := hdue
  simp [isDue, hstatus, hnext, hactive, hrun, hle] at h

theorem isDue_record {now : DateTime} {result : TaskRunResult} (h : result.NotDue key now)
    (encoded : String) (row : Model) : isDue key now (record result encoded row) = false :=
  isDue_of_notDue h rfl rfl

/-- The row of the recorded task goes from the due rows, the others stay. -/
theorem filter_recordAt {now : DateTime} {result : TaskRunResult} (h : result.NotDue key now)
    (id : TaskId) (encoded : String) (db : List Model) :
    (recordAt id result encoded db).filter (isDue key now) =
      (db.filter (isDue key now)).filter fun row => row.id ≠ id.value := by
  induction db with
  | nil => rfl
  | cons row db ih =>
    unfold recordAt at ih ⊢
    rw [List.map_cons]
    by_cases hid : row.id = id.value
    · rw [if_pos hid, List.filter_cons_of_neg (by simp [isDue_record h]), ih]
      cases hdue : isDue key now row with
      | true => rw [List.filter_cons_of_pos hdue, List.filter_cons_of_neg (by simp [hid])]
      | false => rw [List.filter_cons_of_neg (by simp [hdue])]
    · rw [if_neg hid]
      cases hdue : isDue key now row with
      | true =>
        rw [List.filter_cons_of_pos hdue, List.filter_cons_of_pos hdue,
          List.filter_cons_of_pos (by simpa using hid), ih]
      | false =>
        rw [List.filter_cons_of_neg (by simp [hdue]), List.filter_cons_of_neg (by simp [hdue]),
          ih]

theorem decodes_record {row : Model} (h : ∃ task, rowToStored row = .ok task)
    (result : TaskRunResult) (encoded : String) :
    ∃ task, rowToStored (record result encoded row) = .ok task := by
  obtain ⟨task, htask⟩ := h
  unfold rowToStored at htask ⊢
  cases hkind : ScheduleKind.fromStr row.scheduleKind with
  | error e =>
    rw [hkind] at htask
    cases htask
  | ok kind =>
    simp only [record, hkind, TaskStatus.fromStr_asStr]
    exact ⟨_, rfl⟩

theorem Pollable.recordAt {db : List Model} (h : Pollable db) (id : TaskId)
    (result : TaskRunResult) (encoded : String) : Pollable (recordAt id result encoded db) where
  distinct := by
    rw [map_id_recordAt]
    exact h.distinct
  decodes row hrow := by
    rcases mem_recordAt hrow with ⟨hold, -⟩ | ⟨old, hold, -, rfl⟩
    · exact h.decodes row hold
    · exact decodes_record (h.decodes old hold) result encoded

section Round

variable {toString : TaskRunResult → Except String String} {recordNotUpdated : DbErr}
  {result : StoredTask → TaskRunResult} {task : StoredTask} {tasks : List StoredTask}
  {db db' : List Model}

theorem recordRuns_cons
    (h : recordRuns toString recordNotUpdated result (task :: tasks) db = .ok db') :
    ∃ encoded, recordRuns toString recordNotUpdated result tasks
      (recordAt task.id (result task) encoded db) = .ok db' := by
  cases hupdate : updateTaskAfterRun toString recordNotUpdated task.id (result task) db with
  | error e =>
    rw [recordRuns, hupdate] at h
    cases h
  | ok db₁ =>
    rw [recordRuns, hupdate] at h
    obtain ⟨encoded, -, -, rfl⟩ := updateTaskAfterRun_eq_ok hupdate
    exact ⟨encoded, h⟩

/-- The updates of tasks that are in the table succeed. -/
theorem exists_recordRuns (hser : ∀ task, ∃ encoded, toString (result task) = .ok encoded)
    (recordNotUpdated : DbErr) (hmem : ∀ task ∈ tasks, task.id.value ∈ db.map (·.id)) :
    ∃ db', recordRuns toString recordNotUpdated result tasks db = .ok db' := by
  induction tasks generalizing db with
  | nil => exact ⟨db, rfl⟩
  | cons task tasks ih =>
    obtain ⟨encoded, hencoded⟩ := hser task
    obtain ⟨row, hrow, hid⟩ := List.mem_map.mp (hmem task (by simp))
    have hupdate := updateTaskAfterRun_of_mem hencoded ⟨row, hrow, hid⟩ recordNotUpdated
    have hrest : ∀ t ∈ tasks,
        t.id.value ∈ (recordAt task.id (result task) encoded db).map (·.id) := by
      intro t ht
      rw [map_id_recordAt]
      exact hmem t (by simp [ht])
    rw [recordRuns, hupdate]
    exact ih hrest

theorem Pollable.recordRuns (h : Pollable db)
    (hrun : recordRuns toString recordNotUpdated result tasks db = .ok db') : Pollable db' := by
  induction tasks generalizing db with
  | nil =>
    cases hrun
    exact h
  | cons task tasks ih =>
    obtain ⟨encoded, hrest⟩ := recordRuns_cons hrun
    exact ih (h.recordAt task.id (result task) encoded) hrest

theorem map_id_recordRuns
    (hrun : recordRuns toString recordNotUpdated result tasks db = .ok db') :
    db'.map (·.id) = db.map (·.id) := by
  induction tasks generalizing db with
  | nil =>
    cases hrun
    rfl
  | cons task tasks ih =>
    obtain ⟨encoded, hrest⟩ := recordRuns_cons hrun
    rw [ih hrest, map_id_recordAt]

theorem mem_of_recordRuns (hrun : recordRuns toString recordNotUpdated result tasks db = .ok db')
    {row : Model} (hrow : row ∈ db') (hother : row.id ∉ tasks.map (·.id.value)) : row ∈ db := by
  induction tasks generalizing db with
  | nil =>
    cases hrun
    exact hrow
  | cons task tasks ih =>
    obtain ⟨encoded, hrest⟩ := recordRuns_cons hrun
    simp only [List.map_cons, List.mem_cons, not_or] at hother
    rcases mem_recordAt (ih hrest hother.2) with ⟨hold, -⟩ | ⟨old, -, hid, rfl⟩
    · exact hold
    · exact absurd hid hother.1

/-- After its update a task's row has the status and the next run of the result. -/
theorem recordRuns_recorded
    (hrun : recordRuns toString recordNotUpdated result tasks db = .ok db')
    (hdistinct : (tasks.map (·.id.value)).Nodup) (htask : task ∈ tasks) {row : Model}
    (hrow : row ∈ db') (hid : row.id = task.id.value) :
    row.status = (result task).status.asStr ∧ row.nextRun = (result task).nextRun := by
  induction tasks generalizing db with
  | nil => simp at htask
  | cons head tasks ih =>
    obtain ⟨encoded, hrest⟩ := recordRuns_cons hrun
    obtain ⟨hnot, hdistinct⟩ := List.nodup_cons.mp hdistinct
    rcases List.mem_cons.mp htask with rfl | htask
    · rcases mem_recordAt (mem_of_recordRuns hrest hrow (hid ▸ hnot)) with
        ⟨-, hne⟩ | ⟨old, -, -, rfl⟩
      · exact absurd hid hne
      · exact ⟨rfl, rfl⟩
    · exact ih hrest hdistinct htask

/-- **What the updates of a round do** to the due rows. -/
theorem filter_recordRuns {now : DateTime} (hresult : ∀ task ∈ tasks, (result task).NotDue key now)
    (hrun : recordRuns toString recordNotUpdated result tasks db = .ok db') :
    db'.filter (isDue key now) =
      (db.filter (isDue key now)).filter fun row => row.id ∉ tasks.map (·.id.value) := by
  induction tasks generalizing db with
  | nil =>
    cases hrun
    simp
  | cons task tasks ih =>
    obtain ⟨encoded, hrest⟩ := recordRuns_cons hrun
    rw [ih (fun t ht => hresult t (by simp [ht])) hrest,
      filter_recordAt (hresult task (by simp)), List.filter_filter]
    refine List.filter_congr fun row _ => ?_
    rw [← Bool.decide_and, decide_eq_decide, List.map_cons, List.mem_cons, not_or, and_comm]

end Round

/-! ## One round -/

variable (key) in
/-- `left` is what the due rows of the table decode to. -/
structure Due (now : DateTime) (db : List Model) (left : List StoredTask) : Prop where
  pollable : Pollable db
  decoded : List.Forall₂ (fun row task => rowToStored row = .ok task) (dueRows key now db) left

variable (key) in
theorem Pollable.exists_due {db : List Model} (h : Pollable db) (now : DateTime) :
    ∃ left, Due key now db left := by
  obtain ⟨left, hleft⟩ := Page.exists_forall₂ fun row (hrow : row ∈ dueRows key now db) =>
    h.decodes row (mem_dueRows.mp hrow).1
  exact ⟨left, h, hleft⟩

section

variable {now : DateTime} {db db' : List Model} {left : List StoredTask}

theorem Due.map_id (h : Due key now db left) :
    (dueRows key now db).map (·.id) = left.map (·.id.value) :=
  Page.map_eq_map_of_forall₂ (h.decoded.imp fun _ _ hrow => (rowToStored_eq_ok hrow).1)

/-- A table has one list of due tasks. -/
theorem Due.unique {left' : List StoredTask} (h : Due key now db left)
    (h' : Due key now db left') : left = left' := by
  have hok := (Page.mapM_eq_ok_iff.mpr h.decoded).symm.trans (Page.mapM_eq_ok_iff.mpr h'.decoded)
  exact Except.ok.inj hok

theorem Due.mem_iff (h : Due key now db left) (task : StoredTask) :
    task ∈ left ↔ ∃ row ∈ db, isDue key now row = true ∧ rowToStored row = .ok task := by
  have hview : (dueRows key now db).map rowToStored = left.map .ok :=
    Page.map_eq_map_of_forall₂ h.decoded
  have hok : task ∈ left ↔ Except.ok task ∈ (dueRows key now db).map rowToStored := by
    rw [hview]
    simp
  rw [hok, List.mem_map]
  simp only [mem_dueRows, and_assoc]

theorem Due.isDue_iff (h : Due key now db left) {row : Model} (hrow : row ∈ db)
    {task : StoredTask} (hdecode : rowToStored row = .ok task) :
    isDue key now row = true ↔ task ∈ left := by
  rw [h.mem_iff]
  refine ⟨fun hdue => ⟨row, hrow, hdue, hdecode⟩, ?_⟩
  rintro ⟨row', hrow', hdue, hdecode'⟩
  have hid := (rowToStored_eq_ok hdecode').1.trans (rowToStored_eq_ok hdecode).1.symm
  exact h.pollable.row_eq hrow' hrow hid ▸ hdue

theorem Due.sorted (h : Due key now db left) :
    left.Pairwise fun a b => a.dueKey key < b.dueKey key := by
  have hkeys : (dueRows key now db).map (dueKey key) = left.map (·.dueKey key) :=
    Page.map_eq_map_of_forall₂ (h.decoded.imp fun _ _ hrow => dueKey_of_row hrow)
  have hlt := List.pairwise_map.mpr (h.pollable.dueRows_lt key now)
  rw [hkeys] at hlt
  exact List.pairwise_map.mp hlt

theorem Due.ids_distinct (h : Due key now db left) : (left.map (·.id.value)).Nodup := by
  rw [← h.map_id]
  exact h.pollable.ids_distinct key now

theorem Due.length (h : Due key now db left) : left.length = db.countP (isDue key now) := by
  rw [← h.decoded.length_eq, dueRows, (Page.perm_orderBy (dueKey key) _).length_eq,
    List.countP_eq_length_filter]

/-- Tasks that the query returns are in the table. -/
theorem Due.id_mem (h : Due key now db left) {task : StoredTask} (htask : task ∈ left) :
    task.id.value ∈ db.map (·.id) := by
  obtain ⟨row, hrow, -, hdecode⟩ := (h.mem_iff task).mp htask
  exact List.mem_map.mpr ⟨row, hrow, (rowToStored_eq_ok hdecode).1⟩

theorem getDueTasks_of_due (h : Due key now db left) {limit : Int} (hlimit : 0 ≤ limit) :
    getDueTasks key db now limit = .ok (left.take (pageSize limit)) :=
  getDueTasks_eq (Page.mapM_eq_ok_iff.mpr h.decoded) hlimit

/-- The rows of a page go from the due rows. -/
theorem Due.after_page (h : Due key now db left) (n : Nat)
    {toString : TaskRunResult → Except String String} {recordNotUpdated : DbErr}
    {result : StoredTask → TaskRunResult}
    (hresult : ∀ task ∈ left.take n, (result task).NotDue key now)
    (hrun : recordRuns toString recordNotUpdated result (left.take n) db = .ok db') :
    Due key now db' (left.drop n) := by
  refine ⟨h.pollable.recordRuns hrun, ?_⟩
  have hids : (left.take n).map (·.id.value) = ((dueRows key now db).take n).map (·.id) := by
    rw [List.map_take, List.map_take, h.map_id]
  have hrows : dueRows key now db' = (dueRows key now db).drop n := by
    rw [← Page.filter_not_mem_take (h.pollable.ids_distinct key now) n, ← hids]
    unfold dueRows
    rw [filter_recordRuns hresult hrun,
      Page.orderBy_filter ((dueKey_distinct key h.pollable.distinct).filter _)]
  rw [hrows]
  exact List.forall₂_drop _ h.decoded

/-- A run after which its task was not due again was recorded so that it is not. -/
theorem Due.notDue_of_apart (h : Due key now db left) {n : Nat} {later : List StoredTask}
    {toString : TaskRunResult → Except String String} {recordNotUpdated : DbErr}
    {result : StoredTask → TaskRunResult}
    (hrun : recordRuns toString recordNotUpdated result (left.take n) db = .ok db')
    (h' : Due key now db' later) {task : StoredTask} (htask : task ∈ left.take n)
    (hapart : task.id.value ∉ later.map (·.id.value)) : (result task).NotDue key now := by
  have hdistinct : ((left.take n).map (·.id.value)).Nodup :=
    h.ids_distinct.sublist ((List.take_sublist n left).map _)
  have hid := h.id_mem (List.mem_of_mem_take htask)
  rw [← map_id_recordRuns hrun] at hid
  obtain ⟨row, hrow, hid⟩ := List.mem_map.mp hid
  obtain ⟨hstatus, hnext⟩ := recordRuns_recorded hrun hdistinct htask hrow hid
  refine notDue_of_isDue (Bool.not_eq_true _ ▸ fun hagain => hapart ?_) hstatus hnext
  rw [← h'.map_id, ← hid]
  exact List.mem_map_of_mem (mem_dueRows.mpr ⟨hrow, hagain⟩)

end

/-! ## Whole loops -/

/-- The loop does what polling is for: its pages, one after the other, are the tasks that were due
    at the start, each once, by next run and id; its first empty page comes after as many pages as
    these tasks fill, and no task is due then. Due is, whoever's order the query goes by, what has
    a next run up to `now`. -/
def PollingDrains (key : DateTime → K) (toString : TaskRunResult → Except String String)
    (recordNotUpdated : DbErr) (results : Nat → StoredTask → TaskRunResult) (now : DateTime)
    (limit : Int) (db : List Model) : Prop :=
  ∃ pages last,
    (∀ fuel, pageCount (db.countP (isDue id now)) (min limit maxPageSize).toNat < fuel →
      poll key toString recordNotUpdated results now limit fuel db = .ok (some (pages, last))) ∧
    (pages.flatten.Pairwise fun a b => a.asDue.key < b.asDue.key) ∧
    (∀ task, task ∈ pages.flatten ↔
      ∃ row ∈ db, isDue id now row = true ∧ rowToStored row = .ok task) ∧
    (∀ page ∈ pages, page ≠ []) ∧
    pages.length = pageCount (db.countP (isDue id now)) (min limit maxPageSize).toNat ∧
    ∀ row ∈ last, isDue id now row = false

/-- The database's order of timestamps is that of the instants wherever the loop looks: at the
    rows of the table, at those that are due among each other, and at the run recorded for each
    of them, which is recorded in the round of its page. -/
structure OrderAgrees (key : DateTime → K) (results : Nat → StoredTask → TaskRunResult)
    (now : DateTime) (limit : Int) (db : List Model) : Prop where
  due : ∀ row ∈ db, isDue key now row = isDue id now row
  order : ∀ a ∈ db, ∀ b ∈ db, isDue id now a = true → isDue id now b = true →
    dueKey id a < dueKey id b → dueKey key a < dueKey key b
  recorded : ∀ (n : Nat) (row : Model) (task : StoredTask), (dueRows id now db)[n]? = some row →
    rowToStored row = .ok task → (results (n / pageSize limit) task).NotDue key now

section

variable {toString : TaskRunResult → Except String String} {recordNotUpdated : DbErr}
  {results : Nat → StoredTask → TaskRunResult} {now : DateTime} {limit : Int} {db : List Model}

/-- Ordered alike, the same rows are due, in the same order. -/
theorem OrderAgrees.dueRows_eq (h : OrderAgrees key results now limit db) (hdb : Pollable db) :
    dueRows key now db = dueRows id now db := by
  have hfilter : db.filter (isDue key now) = db.filter (isDue id now) :=
    List.filter_congr h.due
  have hperm : (dueRows key now db).Perm (dueRows id now db) := by
    unfold dueRows
    rw [hfilter]
    exact (Page.perm_orderBy _ _).trans (Page.perm_orderBy _ _).symm
  have hsorted : (dueRows id now db).Pairwise fun a b => dueKey key a < dueKey key b := by
    refine List.Pairwise.imp_of_mem (fun {a b} ha hb hlt => ?_) (hdb.dueRows_lt id now)
    obtain ⟨ha, hadue⟩ := mem_dueRows.mp ha
    obtain ⟨hb, hbdue⟩ := mem_dueRows.mp hb
    exact h.order a ha b hb hadue hbdue hlt
  exact hperm.eq_of_pairwise (fun a b _ _ hab hba => absurd hba (not_lt_of_gt hab))
    (hdb.dueRows_lt key now) hsorted

/-- What comes after a page is read in the next round. -/
theorem round_add {n : Nat} (hn : 0 < n) (round m : Nat) :
    round + (n + m) / n = round + 1 + m / n := by
  rw [Nat.add_div_left _ hn]
  omega

/-- What the loop keeps: the database's due rows and those of the instants decode to the same
    list, and what will be recorded for it is not due. -/
structure Remaining (key : DateTime → K) (results : Nat → StoredTask → TaskRunResult)
    (now : DateTime) (limit : Int) (round : Nat) (db : List Model) (left : List StoredTask) :
    Prop where
  byKey : Due key now db left
  byInstant : Due id now db left
  recorded : ∀ n task, left[n]? = some task →
    (results (round + n / pageSize limit) task).NotDue key now

theorem drains (hser : ∀ round task, ∃ encoded, toString (results round task) = .ok encoded)
    (recordNotUpdated : DbErr) (hresults : ∀ round task, (results round task).NotDue id now)
    (hlimit : 1 ≤ limit) :
    Drains (fun db => getDueTasks key db now limit)
      (fun round page db => recordRuns toString recordNotUpdated (results round) page db)
      (pageSize limit) (Remaining key results now limit) where
  page h := getDueTasks_of_due h.byKey (by omega)
  rest {round db left} h := by
    have hpos : 0 < pageSize limit := pageSize_pos hlimit
    obtain ⟨db', hrun⟩ := exists_recordRuns (hser round) recordNotUpdated fun task htask =>
      h.byKey.id_mem (List.mem_of_mem_take htask)
    have hpage : ∀ task ∈ left.take (pageSize limit), (results round task).NotDue key now := by
      intro task htask
      obtain ⟨n, hn⟩ := List.mem_iff_getElem?.mp htask
      rw [List.getElem?_take, Option.ite_none_right_eq_some] at hn
      simpa [Nat.div_eq_of_lt hn.1] using h.recorded n task hn.2
    refine ⟨db', hrun, h.byKey.after_page _ hpage hrun,
      h.byInstant.after_page _ (fun task _ => hresults round task) hrun, fun n task hn => ?_⟩
    rw [List.getElem?_drop] at hn
    rw [← round_add hpos]
    exact h.recorded _ task hn

theorem pollingDrains_of_orderAgrees (hdb : Pollable db) (hlimit : 1 ≤ limit)
    (hser : ∀ round task, ∃ encoded, toString (results round task) = .ok encoded)
    (hresults : ∀ round task, (results round task).NotDue id now)
    (h : OrderAgrees key results now limit db) :
    PollingDrains key toString recordNotUpdated results now limit db := by
  obtain ⟨left, hdue⟩ := hdb.exists_due id now
  have hstart : Remaining key results now limit 0 db left := by
    refine ⟨⟨hdb, ?_⟩, hdue, fun n task hn => ?_⟩
    · rw [h.dueRows_eq hdb]
      exact hdue.decoded
    · obtain ⟨row, hrow, hdecode⟩ := Page.getElem?_of_forall₂ hdue.decoded hn
      rw [Nat.zero_add]
      exact h.recorded n row task hrow hdecode
  obtain ⟨pages, last, hrun, ⟨round, hlast⟩, rfl, hne, hcount⟩ :=
    (drains hser recordNotUpdated hresults hlimit).exists_pages (pageSize_pos hlimit) hstart
  rw [hdue.length] at hrun hcount
  have hsorted := hdue.sorted.imp fun {a b} hlt => by rwa [← asDue_key, ← asDue_key] at hlt
  refine ⟨pages, last, hrun, hsorted, hdue.mem_iff, hne, hcount, fun row hrow => ?_⟩
  have hempty := hlast.byInstant.length
  rw [List.length_nil] at hempty
  simpa using List.countP_eq_zero.mp hempty.symm row hrow

/-! ### What a loop that ended shows -/

/-- Where no task comes twice, the pages are what the database found due at the start, and no
    run was recorded that leaves its task due there. -/
theorem pages_of_drain (hlimit : 1 ≤ limit) {fuel round : Nat} {db last : List Model}
    {pages : List (List StoredTask)} (hdb : Pollable db)
    (hrun : drain (fun db => getDueTasks key db now limit)
      (fun round page db => recordRuns toString recordNotUpdated (results round) page db) fuel
      round db = .ok (some (pages, last)))
    (hdistinct : (pages.flatten.map (·.id.value)).Nodup) :
    Due key now db pages.flatten ∧ ∀ n task, pages.flatten[n]? = some task →
      (results (round + n / pageSize limit) task).NotDue key now := by
  have hpos : 0 < pageSize limit := pageSize_pos hlimit
  -- on the rounds: a task whose recorded run leaves it due would be on a later page again
  induction fuel generalizing round db pages with
  | zero => cases hrun
  | succ fuel ih =>
    obtain ⟨left, hdue⟩ := hdb.exists_due key now
    have hpage := getDueTasks_of_due hdue (show 0 ≤ limit by omega)
    rcases drain_eq_some hrun with ⟨hempty, rfl⟩ | ⟨page, db', pages', hpage', hwork, hrest, rfl⟩
    · rw [hpage] at hempty
      have hnil : left = [] := by
        rcases List.take_eq_nil_iff.mp (Except.ok.inj hempty) with h0 | hnil
        · omega
        · exact hnil
      subst hnil
      exact ⟨hdue, by simp⟩
    · obtain rfl : left.take (pageSize limit) = page := Except.ok.inj (hpage.symm.trans hpage')
      rw [List.flatten_cons, List.map_append, List.nodup_append] at hdistinct
      obtain ⟨-, htail, hapart⟩ := hdistinct
      have hdb' := hdb.recordRuns hwork
      obtain ⟨hdue', hrecorded⟩ := ih hdb' hrest htail
      have hresult : ∀ task ∈ left.take (pageSize limit),
          (results round task).NotDue key now := fun task htask =>
        hdue.notDue_of_apart hwork hdue' htask fun hlater =>
          hapart _ (List.mem_map_of_mem htask) _ hlater rfl
      have hdrop : left.drop (pageSize limit) = pages'.flatten :=
        (hdue.after_page _ hresult hwork).unique hdue'
      rw [List.flatten_cons, ← hdrop, List.take_append_drop]
      refine ⟨hdue, fun n task hn => ?_⟩
      rcases Nat.lt_or_ge n (pageSize limit) with hlt | hge
      · rw [Nat.div_eq_of_lt hlt]
        refine hresult task (List.mem_iff_getElem?.mpr ⟨n, ?_⟩)
        rw [List.getElem?_take_of_lt hlt, hn]
      · obtain ⟨m, rfl⟩ := Nat.exists_eq_add_of_le hge
        rw [round_add hpos]
        exact hrecorded m task (by rw [← hdrop, List.getElem?_drop, hn])

theorem orderAgrees_of_pollingDrains (hdb : Pollable db) (hlimit : 1 ≤ limit)
    (h : PollingDrains key toString recordNotUpdated results now limit db) :
    OrderAgrees key results now limit db := by
  obtain ⟨pages, last, hrun, hsorted, hmem, -⟩ := h
  simp only [asDue_key] at hsorted
  have hdistinct : (pages.flatten.map (·.id.value)).Nodup := by
    refine List.pairwise_map.mpr (hsorted.imp_of_mem fun {a b} ha hb hlt hid => ?_)
    obtain ⟨row, hrow, -, hdecode⟩ := (hmem a).mp ha
    obtain ⟨row', hrow', -, hdecode'⟩ := (hmem b).mp hb
    have hsame : row.id = row'.id := by
      rw [(rowToStored_eq_ok hdecode).1, (rowToStored_eq_ok hdecode').1, hid]
    obtain rfl := hdb.row_eq hrow hrow' hsame
    obtain rfl := Except.ok.inj (hdecode.symm.trans hdecode')
    exact lt_irrefl _ hlt
  obtain ⟨hdue, hrecorded⟩ := pages_of_drain hlimit hdb (hrun _ (Nat.lt_succ_self _)) hdistinct
  obtain ⟨left, hleft⟩ := hdb.exists_due id now
  have hperm : left.Perm pages.flatten :=
    (List.perm_ext_iff_of_nodup (List.Nodup.of_map _ hleft.ids_distinct)
      (List.Nodup.of_map _ hdistinct)).mpr fun task => by rw [hleft.mem_iff, hmem]
  obtain rfl : left = pages.flatten :=
    hperm.eq_of_pairwise (fun a b _ _ hab hba => absurd hba hab.asymm) hleft.sorted hsorted
  refine ⟨fun row hrow => ?_, fun a ha b hb hadue hbdue hlt => ?_, fun n row task hn hdecode => ?_⟩
  · obtain ⟨task, hdecode⟩ := hdb.decodes row hrow
    rw [Bool.eq_iff_iff, hdue.isDue_iff hrow hdecode, hleft.isDue_iff hrow hdecode]
  · obtain ⟨task, hdecode⟩ := hdb.decodes a ha
    obtain ⟨task', hdecode'⟩ := hdb.decodes b hb
    rw [dueKey_of_row hdecode, dueKey_of_row hdecode'] at hlt ⊢
    exact Page.lt_of_lt_of_sorted hleft.sorted hdue.sorted ((hleft.isDue_iff ha hdecode).mp hadue)
      ((hleft.isDue_iff hb hdecode').mp hbdue) hlt
  · obtain ⟨task', htask, hdecode'⟩ := Page.getElem?_of_forall₂ hleft.decoded.flip hn
    obtain rfl := Except.ok.inj (hdecode.symm.trans hdecode')
    simpa using hrecorded n task htask

/-- An order that keeps that of the instants on the timestamps of the table and of the runs
    agrees with it wherever the loop looks. -/
theorem OrderAgrees.of_strictMonoOn {S : Set DateTime} (hkey : StrictMonoOn key S)
    (hnow : now ∈ S) (hrows : ∀ row ∈ db, ∀ t, row.nextRun = some t → t ∈ S)
    (hruns : ∀ round task t, (results round task).nextRun = some t → t ∈ S)
    (hresults : ∀ round task, (results round task).NotDue id now) :
    OrderAgrees key results now limit db where
  due row hrow := by
    unfold isDue
    cases hnext : row.nextRun with
    | none => rfl
    | some t => simp [hkey.le_iff_le (hrows row hrow t hnext) hnow]
  order a ha b hb hadue hbdue hlt := by
    unfold isDue at hadue hbdue
    cases hanext : a.nextRun with
    | none => simp [hanext] at hadue
    | some t =>
      cases hbnext : b.nextRun with
      | none => simp [hbnext] at hbdue
      | some t' =>
        have hmono := hkey.lt_iff_lt (hrows a ha t hanext) (hrows b hb t' hbnext)
        have hinj := hkey.injOn.eq_iff (hrows a ha t hanext) (hrows b hb t' hbnext)
        rw [dueKey, dueKey, hanext, hbnext, Prod.Lex.toLex_lt_toLex] at hlt ⊢
        change (t : WithBot DateTime) < t' ∨ (t : WithBot DateTime) = t' ∧ a.id < b.id at hlt
        change (key t : WithBot K) < key t' ∨ (key t : WithBot K) = key t' ∧ a.id < b.id
        rw [WithBot.coe_lt_coe, WithBot.coe_inj] at hlt ⊢
        rwa [hmono, hinj]
  recorded n row task _ _ := by
    refine (hresults _ task).imp_right fun hlater t ht => ?_
    exact hkey hnow (hruns _ task t ht) (hlater t ht)

/-- SQLite's order agrees in the years from 0 to 9999. -/
theorem OrderAgrees.sqlite (hnow : now ∈ fourDigitYears)
    (hrows : ∀ row ∈ db, ∀ t, row.nextRun = some t → t ∈ fourDigitYears)
    (hruns : ∀ round task t, (results round task).nextRun = some t → t ∈ fourDigitYears)
    (hresults : ∀ round task, (results round task).NotDue id now) :
    OrderAgrees sqliteText results now limit db :=
  .of_strictMonoOn sqliteText_strictMonoOn hnow hrows hruns hresults

/-- **When polling drains the due tasks.** For every order the database may put timestamps in:
    on a table whose rows decode, with runs that leave their tasks not due, the loop does what it
    is for exactly if that order is the instants' wherever it looks. -/
theorem polling_drains_iff (key : DateTime → K) (toString : TaskRunResult → Except String String)
    (recordNotUpdated : DbErr) (db : List Model) (hdb : Pollable db) (now : DateTime)
    (limit : Int) (hlimit : 1 ≤ limit) (results : Nat → StoredTask → TaskRunResult)
    (hser : ∀ round task, ∃ encoded, toString (results round task) = .ok encoded)
    (hresults : ∀ round task, (results round task).NotDue id now) :
    PollingDrains key toString recordNotUpdated results now limit db ↔
      OrderAgrees key results now limit db :=
  ⟨orderAgrees_of_pollingDrains hdb hlimit, pollingDrains_of_orderAgrees hdb hlimit hser hresults⟩

end

end

/-- Three active tasks, two of them due at 10, polled one at a time, on both backends. -/
theorem polling_drains_iff_two :
    ∃ s, (scheduler TaskUpdates.sampleEnv).Reachable s ∧ s.table.map (·.id) = ["t1", "t2", "t3"] ∧
      PollingDrains id (fun _ => .ok "null")
        ⟨.recordNotUpdated, "None of the records are updated", []⟩
        (fun _ _ => ⟨10, .success none, none, .completed⟩) 10 1 s.table ∧
      PollingDrains sqliteText (fun _ => .ok "null")
        ⟨.recordNotUpdated, "None of the records are updated", []⟩
        (fun _ _ => ⟨10, .success none, none, .completed⟩) 10 1 s.table := by
  have h₀ : (scheduler TaskUpdates.sampleEnv).Reachable ⟨[], fun _ => none⟩ := .init rfl
  have h₁ := h₀.step (.succeeds _ (.create "t1" 0
    ⟨⟨"ops"⟩, "ping", .cron, "* * * * *", .active, some 7⟩) _ rfl)
  have h₂ := h₁.step (.succeeds _ (.create "t2" 1
    ⟨⟨"dev"⟩, "pong", .interval, "60", .active, some 3⟩) _ rfl)
  have h₃ := h₂.step (.succeeds _ (.create "t3" 2
    ⟨⟨"dev"⟩, "later", .once, "", .active, some 11⟩) _ rfl)
  have hpollable := (refines_of_reachable h₃).pollable
  refine ⟨_, h₃, rfl, (polling_drains_iff id (fun _ => .ok "null")
    ⟨.recordNotUpdated, "None of the records are updated", []⟩ _ hpollable 10 1 (by decide)
    (fun _ _ => ⟨10, .success none, none, .completed⟩) (fun _ _ => ⟨_, rfl⟩)
    (fun _ _ => .inl (by decide))).mpr ?_, (polling_drains_iff sqliteText (fun _ => .ok "null")
    ⟨.recordNotUpdated, "None of the records are updated", []⟩ _ hpollable 10 1 (by decide)
    (fun _ _ => ⟨10, .success none, none, .completed⟩) (fun _ _ => ⟨_, rfl⟩)
    (fun _ _ => .inl (by decide))).mpr ?_⟩
  · exact .of_strictMonoOn (strictMono_id.strictMonoOn Set.univ) trivial (fun _ _ _ _ => trivial)
      (fun _ _ _ _ => trivial) (fun _ _ => .inl (by decide))
  · have hyear : ∀ t ∈ [7, 3, 11, 10], t ∈ fourDigitYears := by
      unfold fourDigitYears
      decide
    refine .sqlite (hyear 10 (by simp)) (fun row hrow t ht => hyear t ?_)
      (fun _ _ t ht => by cases ht) (fun _ _ => .inl (by decide))
    have hnext : row.nextRun ∈ [some 7, some 3, some 11] := List.mem_map_of_mem hrow
    rw [ht] at hnext
    simp only [List.mem_cons, Option.some.injEq, List.not_mem_nil, or_false] at hnext ⊢
    exact hnext.imp_right fun h => h.imp_right .inl

/-! ### A next run far away -/

/-- 2026-04-11T00:00:00Z -/
def farNow : DateTime := 1775865600000000000

/-- The next run is at +10000-01-01T00:00:00Z. -/
def farResult : TaskRunResult :=
  ⟨farNow, .success none, some 253402300800000000000, .active⟩

/-- A task that is due on the day before, and what its runs make of it. -/
def farRow (ran : Bool) : Model :=
  let created : Model := ⟨"t1", "ops", "ping", "cron", "* * * * *", "active",
    some 1775779200000000000, none, 0, 0⟩
  if ran then record farResult "null" created else created

theorem farRow_pollable : Pollable [farRow false] where
  distinct := by simp
  decodes row hrow := by
    obtain rfl := List.mem_singleton.mp hrow
    exact ⟨_, rfl⟩

theorem farRow_polled (ran : Bool) :
    ∃ task, getDueTasks sqliteText [farRow ran] farNow 1 = .ok [task] ∧
      recordRuns (fun _ => .ok "null") ⟨.recordNotUpdated, "None of the records are updated", []⟩
        (fun _ => farResult) [task] [farRow ran] = .ok [farRow true] := by
  cases ran <;> exact ⟨_, rfl, rfl⟩

theorem farRow_drain (ran : Bool) (fuel round : Nat) :
    drain (fun db => getDueTasks sqliteText db farNow 1)
      (fun _ page db => recordRuns (fun _ => .ok "null")
        ⟨.recordNotUpdated, "None of the records are updated", []⟩ (fun _ => farResult) page db)
      fuel round [farRow ran] = .ok none := by
  induction fuel generalizing ran round with
  | zero => rfl
  | succ fuel ih =>
    obtain ⟨task, hpage, hwork⟩ := farRow_polled ran
    simp only [drain, hpage, bind, Except.bind, List.isEmpty_cons, Bool.false_eq_true, if_false,
      hwork, ih]
    rfl

/-- In SQLite a task whose next run is in the year 10000 is returned again and again: the text of
    its next run begins with a `+`, which comes before the digits of `now`. -/
theorem far_run_polled_again :
    Pollable [farRow false] ∧ farResult.NotDue id farNow ∧
    (∀ fuel, poll sqliteText (fun _ => .ok "null")
      ⟨.recordNotUpdated, "None of the records are updated", []⟩ (fun _ _ => farResult) farNow 1
      fuel [farRow false] = .ok none) ∧
    ¬ PollingDrains sqliteText (fun _ => .ok "null")
      ⟨.recordNotUpdated, "None of the records are updated", []⟩ (fun _ _ => farResult) farNow 1
      [farRow false] := by
  have hnever := fun fuel => farRow_drain false fuel 0
  refine ⟨farRow_pollable, .inr fun t ht => ?_, hnever, ?_⟩
  · obtain rfl := Option.some.inj ht
    decide
  · rintro ⟨pages, last, hrun, -⟩
    have hends := (hnever _).symm.trans (hrun _ (Nat.lt_succ_self _))
    cases hends

end Forgeclaw.Store
