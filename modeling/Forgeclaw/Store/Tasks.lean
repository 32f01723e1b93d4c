/-
  The `tasks` table: its types (`types/task.rs`, `entities/tasks.rs`) and its operations
  (`ops/tasks.rs`).

  `update_task_after_run` is two statements with nothing around them, so it is three
  functions here: `loadTask`, `afterRun` (what the code does with the loaded row) and
  `updateRow`. What comes from outside is a parameter: the id generator's and the clock's
  values, `serde_json::to_string`, and the errors the driver reports.
-/
import Forgeclaw.Store.Basic

open Forgeclaw.Core

namespace Forgeclaw.Store

inductive ScheduleKind where
  | cron
  | interval
  | once
  deriving DecidableEq, Repr

namespace ScheduleKind

def asStr : ScheduleKind → String
  | cron => "cron"
  | interval => "interval"
  | once => "once"

/-- `FromStr`; the error is the text of `UnknownScheduleKind`. -/
def fromStr (s : String) : Except String ScheduleKind :=
  if s = "cron" then .ok cron
  else if s = "interval" then .ok interval
  else if s = "once" then .ok once
  else .error ("unknown schedule kind: " ++ s)

@[simp] theorem fromStr_asStr (k : ScheduleKind) : fromStr k.asStr = .ok k := by
  cases k <;> decide

end ScheduleKind

inductive TaskStatus where
  | active
  | paused
  | completed
  | failed
  deriving DecidableEq, Repr

namespace TaskStatus

def asStr : TaskStatus → String
  | active => "active"
  | paused => "paused"
  | completed => "completed"
  | failed => "failed"

/-- `FromStr`; the error is the text of `UnknownTaskStatus`. -/
def fromStr (s : String) : Except String TaskStatus :=
  if s = "active" then .ok active
  else if s = "paused" then .ok paused
  else if s = "completed" then .ok completed
  else if s = "failed" then .ok failed
  else .error ("unknown task status: " ++ s)

@[simp] theorem fromStr_asStr (s : TaskStatus) : fromStr s.asStr = .ok s := by
  cases s <;> decide

theorem asStr_inj {s s' : TaskStatus} : s.asStr = s'.asStr ↔ s = s' := by
  cases s <;> cases s' <;> decide

end TaskStatus

structure NewTask where
  groupId : GroupId
  prompt : String
  scheduleKind : ScheduleKind
  scheduleValue : String
  status : TaskStatus
  nextRun : Option DateTime
  deriving DecidableEq, Repr

structure StoredTask where
  id : TaskId
  groupId : GroupId
  prompt : String
  scheduleKind : ScheduleKind
  scheduleValue : String
  status : TaskStatus
  nextRun : Option DateTime
  lastResult : Option String
  createdAt : DateTime
  updatedAt : DateTime
  deriving DecidableEq, Repr

inductive RunOutcome where
  | success (detail : Option String)
  | failure (error : String)
  deriving DecidableEq, Repr

structure TaskRunResult where
  ranAt : DateTime
  outcome : RunOutcome
  nextRun : Option DateTime
  status : TaskStatus
  deriving DecidableEq, Repr

namespace Tasks

/-- A row. -/
structure Model where
  id : String
  groupId : String
  prompt : String
  scheduleKind : String
  scheduleValue : String
  status : String
  nextRun : Option DateTime
  lastResult : Option String
  createdAt : DateTime
  updatedAt : DateTime
  deriving DecidableEq, Repr

/-- A column of a row on its way to the database. -/
inductive ActiveValue (α : Type) where
  | set (v : α)
  | unchanged (v : α)

/-- What an `UPDATE` leaves in the column. -/
def ActiveValue.write {α : Type} (old : α) : ActiveValue α → α
  | set v => v
  | unchanged _ => old

structure ActiveModel where
  id : ActiveValue String
  groupId : ActiveValue String
  prompt : ActiveValue String
  scheduleKind : ActiveValue String
  scheduleValue : ActiveValue String
  status : ActiveValue String
  nextRun : ActiveValue (Option DateTime)
  lastResult : ActiveValue (Option String)
  createdAt : ActiveValue DateTime
  updatedAt : ActiveValue DateTime

/-- `Model::into` -/
def Model.into (row : Model) : ActiveModel where
  id := .unchanged row.id
  groupId := .unchanged row.groupId
  prompt := .unchanged row.prompt
  scheduleKind := .unchanged row.scheduleKind
  scheduleValue := .unchanged row.scheduleValue
  status := .unchanged row.status
  nextRun := .unchanged row.nextRun
  lastResult := .unchanged row.lastResult
  createdAt := .unchanged row.createdAt
  updatedAt := .unchanged row.updatedAt

/-- `UPDATE … SET` the columns that are `Set`. -/
def ActiveModel.write (am : ActiveModel) (row : Model) : Model where
  id := am.id.write row.id
  groupId := am.groupId.write row.groupId
  prompt := am.prompt.write row.prompt
  scheduleKind := am.scheduleKind.write row.scheduleKind
  scheduleValue := am.scheduleValue.write row.scheduleValue
  status := am.status.write row.status
  nextRun := am.nextRun.write row.nextRun
  lastResult := am.lastResult.write row.lastResult
  createdAt := am.createdAt.write row.createdAt
  updatedAt := am.updatedAt.write row.updatedAt

/-- The key an `UPDATE` goes by. -/
def ActiveModel.key (am : ActiveModel) : String :=
  match am.id with
  | .set v => v
  | .unchanged v => v

def rowToStored (row : Model) : Except StoreError StoredTask := do
  let scheduleKind ← (ScheduleKind.fromStr row.scheduleKind).mapError fun e =>
    .schemaDrift (some "tasks") (some "schedule_kind") e
  let status ← (TaskStatus.fromStr row.status).mapError fun e =>
    .schemaDrift (some "tasks") (some "status") e
  return {
    id := ⟨row.id⟩
    groupId := ⟨row.groupId⟩
    prompt := row.prompt
    scheduleKind := scheduleKind
    scheduleValue := row.scheduleValue
    status := status
    nextRun := row.nextRun
    lastResult := row.lastResult
    createdAt := row.createdAt
    updatedAt := row.updatedAt }

/-- The row that `create_task` inserts; each of its columns is `Set`. -/
def newRow (generateId : String) (now : DateTime) (task : NewTask) : Model where
  id := generateId
  groupId := task.groupId.value
  prompt := task.prompt
  scheduleKind := task.scheduleKind.asStr
  scheduleValue := task.scheduleValue
  status := task.status.asStr
  nextRun := task.nextRun
  lastResult := none
  createdAt := now
  updatedAt := now

end Tasks

section Ops

open Tasks

section

variable {K : Type} [LinearOrder K] (key : DateTime → K)

/-- `ORDER BY next_run, id`; the filter leaves no row without a `next_run`. -/
def dueKey (row : Model) : WithBot K ×ₗ String := toLex (row.nextRun.map key, row.id)

def isDue (now : DateTime) (row : Model) : Bool :=
  row.status == TaskStatus.active.asStr &&
  row.nextRun.isSome &&
  row.nextRun.any (key · ≤ key now)

def getDueTasks (db : List Model) (now : DateTime) (limit : Int) :
    Except StoreError (List StoredTask) := do
  let take ← clampedTake limit "get_due_tasks"
  if take = 0 then
    return []
  let rows := Page.select (isDue key now) (dueKey key) take db
  rows.mapM rowToStored

end

/-- `create_task`; `duplicateKey` is the driver's error for an id that is there already. -/
def createTask (duplicateKey : DbErr) (generateId : String) (now : DateTime) (task : NewTask)
    (db : List Model) : Except StoreError (TaskId × List Model) :=
  if db.any (·.id == generateId) then
    .error (.fromDbErr duplicateKey)
  else
    .ok (⟨generateId⟩, db ++ [newRow generateId now task])

/-- The first statement of `update_task_after_run`. -/
def loadTask (id : TaskId) (db : List Model) : Except StoreError Model :=
  match db.find? (·.id == id.value) with
  | some row => .ok row
  | none => .error (.notFound "task")

/-- What `update_task_after_run` makes of the row it has loaded. -/
def afterRun (toString : TaskRunResult → Except String String) (existing : Model)
    (result : TaskRunResult) : Except StoreError ActiveModel := do
  let encoded ← (toString result).mapError .serialization
  return { existing.into with
    status := .set result.status.asStr
    nextRun := .set result.nextRun
    lastResult := .set (some encoded)
    updatedAt := .set result.ranAt }

/-- The second statement; `recordNotUpdated` is SeaORM's error when no row has the key. -/
def updateRow (recordNotUpdated : DbErr) (am : ActiveModel) (db : List Model) :
    Except StoreError (List Model) :=
  if db.any (·.id == am.key) then
    .ok (db.map fun row => if row.id = am.key then am.write row else row)
  else
    .error (.fromDbErr recordNotUpdated)

/-- `update_task_after_run` with nothing in between. -/
def updateTaskAfterRun (toString : TaskRunResult → Except String String)
    (recordNotUpdated : DbErr) (id : TaskId) (result : TaskRunResult) (db : List Model) :
    Except StoreError (List Model) := do
  let existing ← loadTask id db
  let am ← afterRun toString existing result
  updateRow recordNotUpdated am db

/-! ## What the operations do -/

/-- A row after a run: four columns are new, the others stay. -/
def record (result : TaskRunResult) (encoded : String) (row : Model) : Model :=
  { row with
    status := result.status.asStr
    nextRun := result.nextRun
    lastResult := some encoded
    updatedAt := result.ranAt }

/-- The table after a run of one task. -/
def recordAt (id : TaskId) (result : TaskRunResult) (encoded : String) (db : List Model) :
    List Model :=
  db.map fun row => if row.id = id.value then record result encoded row else row

theorem loadTask_eq_ok {id : TaskId} {db : List Model} {row : Model}
    (h : loadTask id db = .ok row) : row ∈ db ∧ row.id = id.value := by
  unfold loadTask at h
  split at h
  · rename_i row' hfind
    cases h
    exact ⟨List.mem_of_find?_eq_some hfind, by simpa using List.find?_some hfind⟩
  · cases h

theorem loadTask_eq_error {id : TaskId} {db : List Model} {e : StoreError}
    (h : loadTask id db = .error e) :
    e = .notFound "task" ∧ ∀ row ∈ db, row.id ≠ id.value := by
  unfold loadTask at h
  split at h
  · cases h
  · rename_i hfind
    cases h
    exact ⟨rfl, fun row hrow => by simpa using List.find?_eq_none.mp hfind row hrow⟩

theorem afterRun_eq_ok {toString : TaskRunResult → Except String String} {existing : Model}
    {result : TaskRunResult} {am : ActiveModel} (h : afterRun toString existing result = .ok am) :
    ∃ encoded, toString result = .ok encoded ∧ am.key = existing.id ∧
      am.write = record result encoded := by
  unfold afterRun at h
  cases henc : toString result with
  | error e =>
    rw [henc] at h
    cases h
  | ok encoded =>
    rw [henc] at h
    cases h
    exact ⟨encoded, rfl, rfl, rfl⟩

/-- **The second statement does not depend on the row that the first one loaded.** -/
theorem updateRow_afterRun {toString : TaskRunResult → Except String String}
    {existing : Model} {result : TaskRunResult} {am : ActiveModel}
    (h : afterRun toString existing result = .ok am) {id : TaskId} (hid : existing.id = id.value)
    {db : List Model} (hmem : ∃ row ∈ db, row.id = id.value) (recordNotUpdated : DbErr) :
    ∃ encoded, toString result = .ok encoded ∧
      updateRow recordNotUpdated am db = .ok (recordAt id result encoded db) := by
  obtain ⟨encoded, henc, hkey, hwrite⟩ := afterRun_eq_ok h
  have hany : db.any (·.id == am.key) = true := by
    obtain ⟨row, hrow, hrowId⟩ := hmem
    exact List.any_eq_true.mpr ⟨row, hrow, by simp [hrowId, hkey, hid]⟩
  refine ⟨encoded, henc, ?_⟩
  rw [updateRow, if_pos hany, hwrite, hkey, hid]
  rfl

theorem updateTaskAfterRun_eq_ok {toString : TaskRunResult → Except String String}
    {recordNotUpdated : DbErr} {id : TaskId} {result : TaskRunResult} {db db' : List Model}
    (h : updateTaskAfterRun toString recordNotUpdated id result db = .ok db') :
    ∃ encoded, toString result = .ok encoded ∧ (∃ row ∈ db, row.id = id.value) ∧
      db' = recordAt id result encoded db := by
  unfold updateTaskAfterRun at h
  cases hload : loadTask id db with
  | error e =>
    rw [hload] at h
    cases h
  | ok existing =>
    obtain ⟨hmem, hid⟩ := loadTask_eq_ok hload
    rw [hload] at h
    cases hrun : afterRun toString existing result with
    | error e =>
      simp only [bind, Except.bind, hrun] at h
      cases h
    | ok am =>
      obtain ⟨encoded, henc, hwrite⟩ :=
        updateRow_afterRun hrun hid ⟨existing, hmem, hid⟩ recordNotUpdated
      simp only [bind, Except.bind, hrun, hwrite] at h
      cases h
      exact ⟨encoded, henc, ⟨existing, hmem, hid⟩, rfl⟩

theorem updateTaskAfterRun_of_mem {toString : TaskRunResult → Except String String}
    {result : TaskRunResult} {encoded : String} (henc : toString result = .ok encoded)
    {id : TaskId} {db : List Model} (hmem : ∃ row ∈ db, row.id = id.value)
    (recordNotUpdated : DbErr) :
    updateTaskAfterRun toString recordNotUpdated id result db
      = .ok (recordAt id result encoded db) := by
  cases hload : loadTask id db with
  | error e =>
    obtain ⟨row, hrow, hid⟩ := hmem
    exact absurd hid ((loadTask_eq_error hload).2 row hrow)
  | ok existing =>
    have hid := (loadTask_eq_ok hload).2
    have hrun : afterRun toString existing result = .ok { existing.into with
        status := .set result.status.asStr
        nextRun := .set result.nextRun
        lastResult := .set (some encoded)
        updatedAt := .set result.ranAt } := by
      rw [afterRun, henc]
      rfl
    obtain ⟨encoded', henc', hwrite⟩ := updateRow_afterRun hrun hid hmem recordNotUpdated
    obtain rfl : encoded = encoded' := Except.ok.inj (henc.symm.trans henc')
    rw [updateTaskAfterRun, hload]
    simp only [bind, Except.bind, hrun, hwrite]

theorem createTask_eq_ok {duplicateKey : DbErr} {generateId : String} {now : DateTime}
    {task : NewTask} {db : List Model} {r : TaskId × List Model}
    (h : createTask duplicateKey generateId now task db = .ok r) :
    (∀ row ∈ db, row.id ≠ generateId) ∧ r = (⟨generateId⟩, db ++ [newRow generateId now task]) := by
  unfold createTask at h
  split at h
  · cases h
  · rename_i hnot
    cases h
    refine ⟨fun row hrow hid => hnot ?_, rfl⟩
    exact List.any_eq_true.mpr ⟨row, hrow, by simp [hid]⟩

theorem mem_recordAt {id : TaskId} {result : TaskRunResult} {encoded : String}
    {db : List Model} {row : Model} (h : row ∈ recordAt id result encoded db) :
    (row ∈ db ∧ row.id ≠ id.value) ∨
      ∃ old ∈ db, old.id = id.value ∧ row = record result encoded old := by
  obtain ⟨old, hold, rfl⟩ := List.mem_map.mp h
  split
  · rename_i hid
    exact .inr ⟨old, hold, hid, rfl⟩
  · rename_i hid
    exact .inl ⟨hold, hid⟩

@[simp] theorem record_id (result : TaskRunResult) (encoded : String) (row : Model) :
    (record result encoded row).id = row.id := rfl

theorem map_id_recordAt (id : TaskId) (result : TaskRunResult) (encoded : String)
    (db : List Model) : (recordAt id result encoded db).map (·.id) = db.map (·.id) := by
  rw [recordAt, List.map_map]
  refine List.map_congr_left fun row _ => ?_
  show (if row.id = id.value then record result encoded row else row).id = row.id
  split <;> rfl

end Ops

end Forgeclaw.Store
