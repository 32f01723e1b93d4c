/-
  What the `tasks` table is for: a schedule, the task of each id and the result of its last
  run.

  The schedule knows nothing of rows. `Refines` ties it to the table, `refines_run` keeps the
  tie over each call, and `getDueTasks_refines` is what a caller sees: the first tasks of the
  schedule's due list.
-/
import Forgeclaw.Store.TaskUpdates

open Forgeclaw.Core

namespace Forgeclaw.Store

open Tasks
open TaskUpdates (Call Env run run_eq_ok)

/-! ## The schedule -/

/-- A task and the result of its last run, if it has run. -/
structure Entry where
  task : NewTask
  last : Option TaskRunResult

def Entry.status (e : Entry) : TaskStatus :=
  match e.last with
  | some r => r.status
  | none => e.task.status

def Entry.nextRun (e : Entry) : Option DateTime :=
  match e.last with
  | some r => r.nextRun
  | none => e.task.nextRun

abbrev Schedule := TaskId → Option Entry

def Schedule.apply (sched : Schedule) : Call → Schedule
  | .create generateId _ task => fun id =>
    if id = ⟨generateId⟩ then some ⟨task, none⟩ else sched id
  | .update id' result => fun id =>
    if id = id' then (sched id).map fun e => { e with last := some result } else sched id

theorem apply_create (sched : Schedule) (generateId : String) (now : DateTime) (task : NewTask)
    (id : TaskId) : sched.apply (.create generateId now task) id
      = if id = ⟨generateId⟩ then some ⟨task, none⟩ else sched id := rfl

theorem apply_update (sched : Schedule) (id' : TaskId) (result : TaskRunResult) (id : TaskId) :
    sched.apply (.update id' result) id
      = if id = id' then (sched id).map fun e => { e with last := some result }
        else sched id := rfl

/-- A task of the due list: the task as created, with its current status and next run. -/
structure DueTask where
  id : TaskId
  groupId : GroupId
  prompt : String
  scheduleKind : ScheduleKind
  scheduleValue : String
  status : TaskStatus
  nextRun : Option DateTime
  deriving DecidableEq

def Entry.due (e : Entry) (id : TaskId) : DueTask :=
  ⟨id, e.task.groupId, e.task.prompt, e.task.scheduleKind, e.task.scheduleValue, e.status,
    e.nextRun⟩

def Entry.IsDue (e : Entry) (now : DateTime) : Prop :=
  e.status = .active ∧ ∃ t, e.nextRun = some t ∧ t ≤ now

/-- By next run, then by id. -/
def DueTask.key (d : DueTask) : WithBot DateTime ×ₗ String := toLex (d.nextRun, d.id.value)

/-- The tasks that are due, in order. -/
structure IsDueList (sched : Schedule) (now : DateTime) (l : List DueTask) : Prop where
  sorted : l.Pairwise fun a b => a.key < b.key
  mem : ∀ d, d ∈ l ↔ ∃ id e, sched id = some e ∧ e.IsDue now ∧ d = e.due id

theorem isDueList_unique {sched : Schedule} {now : DateTime} {l l' : List DueTask}
    (h : IsDueList sched now l) (h' : IsDueList sched now l') : l = l' := by
  have hnodup : ∀ {l : List DueTask}, IsDueList sched now l → l.Nodup := fun h =>
    h.sorted.imp fun {a b} (hlt : a.key < b.key) (he : a = b) => absurd hlt (he ▸ lt_irrefl _)
  have hperm : l.Perm l' :=
    (List.perm_ext_iff_of_nodup (hnodup h) (hnodup h')).mpr fun d => by rw [h.mem, h'.mem]
  exact hperm.eq_of_pairwise (fun a b _ _ hab hba => absurd hba (not_lt_of_gt hab)) h.sorted
    h'.sorted

/-! ## The table refines it -/

/-- A row's columns are those of an entry. -/
structure RowOf (row : Model) (e : Entry) : Prop where
  groupId : row.groupId = e.task.groupId.value
  prompt : row.prompt = e.task.prompt
  scheduleKind : row.scheduleKind = e.task.scheduleKind.asStr
  scheduleValue : row.scheduleValue = e.task.scheduleValue
  status : row.status = e.status.asStr
  nextRun : row.nextRun = e.nextRun

structure Refines (table : List Model) (sched : Schedule) : Prop where
  distinct : (table.map (·.id)).Nodup
  rows : ∀ row ∈ table, ∃ e, sched ⟨row.id⟩ = some e ∧ RowOf row e
  entries : ∀ id e, sched id = some e → ∃ row ∈ table, row.id = id.value

theorem RowOf.newRow (generateId : String) (now : DateTime) (task : NewTask) :
    RowOf (newRow generateId now task) ⟨task, none⟩ := ⟨rfl, rfl, rfl, rfl, rfl, rfl⟩

theorem RowOf.record {row : Model} {e : Entry} (h : RowOf row e) (result : TaskRunResult)
    (encoded : String) : RowOf (record result encoded row) { e with last := some result } :=
  ⟨h.groupId, h.prompt, h.scheduleKind, h.scheduleValue, rfl, rfl⟩

theorem Refines.create {table : List Model} {sched : Schedule} (h : Refines table sched)
    {generateId : String} (hfresh : ∀ row ∈ table, row.id ≠ generateId) (now : DateTime)
    (task : NewTask) :
    Refines (table ++ [newRow generateId now task])
      (sched.apply (.create generateId now task)) where
  distinct := by
    rw [List.map_append, List.map_singleton]
    refine List.nodup_append.mpr ⟨h.distinct, by simp, fun id hid id' hid' => ?_⟩
    obtain ⟨row, hrow, rfl⟩ := List.mem_map.mp hid
    rw [List.mem_singleton.mp hid']
    exact hfresh row hrow
  rows row hrow := by
    simp only [apply_create]
    rcases List.mem_append.mp hrow with hrow | hrow
    · obtain ⟨e, he, hof⟩ := h.rows row hrow
      have hne : (⟨row.id⟩ : TaskId) ≠ ⟨generateId⟩ := fun heq =>
        hfresh row hrow (congrArg TaskId.value heq)
      exact ⟨e, by rw [if_neg hne, he], hof⟩
    · rw [List.mem_singleton.mp hrow]
      exact ⟨⟨task, none⟩, if_pos rfl, .newRow generateId now task⟩
  entries id e he := by
    rw [apply_create] at he
    split at he
    · rename_i hid
      exact ⟨_, List.mem_append_right _ (List.mem_singleton.mpr rfl), by rw [hid]; rfl⟩
    · obtain ⟨row, hrow, hid⟩ := h.entries id e he
      exact ⟨row, List.mem_append_left _ hrow, hid⟩

theorem Refines.update {table : List Model} {sched : Schedule} (h : Refines table sched)
    (id : TaskId) (result : TaskRunResult) (encoded : String) :
    Refines (recordAt id result encoded table) (sched.apply (.update id result)) where
  distinct := by
    rw [map_id_recordAt]
    exact h.distinct
  rows row hrow := by
    simp only [apply_update]
    rcases mem_recordAt hrow with ⟨hrow, hne⟩ | ⟨old, hold, hid, rfl⟩
    · obtain ⟨e, he, hof⟩ := h.rows row hrow
      have hne' : (⟨row.id⟩ : TaskId) ≠ id := fun heq => hne (congrArg TaskId.value heq)
      exact ⟨e, by rw [if_neg hne', he], hof⟩
    · obtain ⟨e, he, hof⟩ := h.rows old hold
      have heq : (⟨(record result encoded old).id⟩ : TaskId) = id := congrArg TaskId.mk hid
      refine ⟨{ e with last := some result }, ?_, hof.record result encoded⟩
      rw [if_pos heq, record_id, he]
      rfl
  entries id' e' he := by
    have hex : ∃ e, sched id' = some e := by
      rw [apply_update] at he
      split at he
      · obtain ⟨e, hsome, -⟩ := Option.map_eq_some_iff.mp he
        exact ⟨e, hsome⟩
      · exact ⟨e', he⟩
    obtain ⟨e, hsome⟩ := hex
    obtain ⟨row, hrow, hid⟩ := h.entries id' e hsome
    have hmem : row.id ∈ (recordAt id result encoded table).map (·.id) := by
      rw [map_id_recordAt]
      exact List.mem_map_of_mem hrow
    obtain ⟨row', hrow', hid'⟩ := List.mem_map.mp hmem
    exact ⟨row', hrow', hid'.trans hid⟩

theorem refines_run {env : Env} {table table' : List Model} {sched : Schedule} {call : Call}
    (h : Refines table sched) (hrun : run env table call = .ok table') :
    Refines table' (sched.apply call) := by
  cases call with
  | create generateId now task =>
    cases hc : createTask env.duplicateKey generateId now task table with
    | error e =>
      rw [run, hc] at hrun
      cases hrun
    | ok r =>
      rw [run, hc] at hrun
      obtain ⟨hfresh, rfl⟩ := createTask_eq_ok hc
      cases hrun
      exact h.create hfresh now task
  | update id result =>
    obtain ⟨encoded, -, -, rfl⟩ := updateTaskAfterRun_eq_ok hrun
    exact h.update id result encoded

/-! ## Due rows are due tasks -/

/-- What the schedule knows of a stored task. -/
def StoredTask.asDue (t : StoredTask) : DueTask :=
  ⟨t.id, t.groupId, t.prompt, t.scheduleKind, t.scheduleValue, t.status, t.nextRun⟩

theorem RowOf.isDue_iff {row : Model} {e : Entry} (h : RowOf row e) (now : DateTime) :
    isDue id now row = true ↔ e.IsDue now := by
  unfold isDue Entry.IsDue
  rw [h.status, h.nextRun, Bool.and_eq_true, Bool.and_eq_true, beq_iff_eq,
    TaskStatus.asStr_inj, and_assoc]
  refine and_congr_right fun _ => ?_
  cases e.nextRun <;> simp

theorem RowOf.rowToStored {row : Model} {e : Entry} (h : RowOf row e) :
    ∃ t, rowToStored row = .ok t ∧ t.asDue = e.due ⟨row.id⟩ := by
  unfold Tasks.rowToStored
  rw [h.scheduleKind, h.status, ScheduleKind.fromStr_asStr, TaskStatus.fromStr_asStr]
  refine ⟨_, rfl, ?_⟩
  simp [StoredTask.asDue, Entry.due, h.groupId, h.prompt, h.scheduleValue, h.nextRun]

theorem RowOf.key {row : Model} {e : Entry} (h : RowOf row e) :
    (e.due ⟨row.id⟩).key = dueKey id row := by
  rw [DueTask.key, dueKey, h.nextRun, Option.map_id]
  rfl

/-- The id is part of a row's place in the order. -/
theorem dueKey_distinct {K : Type} [LinearOrder K] (key : DateTime → K) {table : List Model}
    (h : (table.map (·.id)).Nodup) :
    table.Pairwise fun a b => dueKey key a ≠ dueKey key b := by
  refine (List.pairwise_map.mp h).imp fun {a b} hne he => hne ?_
  exact congrArg (fun k => (ofLex k).2) he

/-- The due rows in order, and the tasks they decode to. -/
theorem exists_due_tasks {table : List Model} {sched : Schedule} (h : Refines table sched)
    (now : DateTime) :
    ∃ tasks, List.Forall₂ (fun row t => rowToStored row = .ok t ∧ t.asDue.key = dueKey id row ∧
        (sched ⟨row.id⟩).map (·.due ⟨row.id⟩) = some t.asDue)
      (Page.orderBy (dueKey id) (table.filter (isDue id now))) tasks := by
  refine Page.exists_forall₂ fun row hrow => ?_
  obtain ⟨e, he, hof⟩ := h.rows row (List.mem_filter.mp (Page.mem_orderBy.mp hrow)).1
  obtain ⟨t, ht, hdue⟩ := hof.rowToStored
  exact ⟨t, ht, hdue ▸ hof.key, by rw [he, hdue]; rfl⟩

theorem isDueList_of_rows {table : List Model} {sched : Schedule} (h : Refines table sched)
    {now : DateTime} {tasks : List StoredTask}
    (htasks : List.Forall₂ (fun row t => rowToStored row = .ok t ∧ t.asDue.key = dueKey id row ∧
        (sched ⟨row.id⟩).map (·.due ⟨row.id⟩) = some t.asDue)
      (Page.orderBy (dueKey id) (table.filter (isDue id now))) tasks) :
    IsDueList sched now (tasks.map (·.asDue)) where
  sorted := by
    have hkeys := Page.map_eq_map_of_forall₂ (htasks.imp fun row t ht => ht.2.1.symm)
    have hlt := List.pairwise_map.mpr
      (Page.orderBy_lt ((dueKey_distinct id h.distinct).filter (isDue id now)))
    rw [hkeys] at hlt
    exact List.pairwise_map.mpr (List.pairwise_map.mp hlt)
  mem d := by
    have hview := Page.map_eq_map_of_forall₂ (htasks.imp fun row t ht => ht.2.2)
    have hmem : d ∈ tasks.map (·.asDue) ↔ some d ∈ tasks.map fun t => some t.asDue := by simp
    rw [hmem, ← hview]
    simp only [List.mem_map, Page.mem_orderBy, List.mem_filter]
    constructor
    · rintro ⟨row, ⟨hrow, hdue⟩, hd⟩
      obtain ⟨e, he, hof⟩ := h.rows row hrow
      rw [he] at hd
      exact ⟨⟨row.id⟩, e, he, (hof.isDue_iff now).mp hdue, (Option.some.inj hd).symm⟩
    · rintro ⟨id, e, he, hdue, rfl⟩
      obtain ⟨row, hrow, hid⟩ := h.entries id e he
      have hid' : (⟨row.id⟩ : TaskId) = id := congrArg TaskId.mk hid
      obtain ⟨e', he', hof⟩ := h.rows row hrow
      obtain rfl : e = e' := Option.some.inj (he.symm.trans (hid' ▸ he'))
      exact ⟨row, ⟨hrow, (hof.isDue_iff now).mpr hdue⟩, by rw [hid', he]; rfl⟩

/-! ## Whole runs -/

structure SchedulerState where
  table : List Model
  sched : Schedule

/-- One call after the other; a call that fails changes neither side. -/
inductive SchedulerStep (env : Env) : SchedulerState → Call → SchedulerState → Prop
  | succeeds (s call table) : run env s.table call = .ok table →
      SchedulerStep env s call ⟨table, s.sched.apply call⟩
  | fails (s call e) : run env s.table call = .error e → SchedulerStep env s call s

def scheduler (env : Env) : TransitionSystem SchedulerState Call where
  Init s := s = ⟨[], fun _ => none⟩
  Step := SchedulerStep env

theorem refines_of_reachable {env : Env} {s : SchedulerState} (h : (scheduler env).Reachable s) :
    Refines s.table s.sched := by
  refine h.invariant (I := fun s => Refines s.table s.sched) (fun {s} h0 => ?_)
    (fun {s call t} hs hstep => ?_)
  · obtain rfl : s = ⟨[], fun _ => none⟩ := h0
    exact ⟨by simp, by simp, by simp⟩
  · cases hstep with
    | succeeds table hrun => exact refines_run hs hrun
    | fails e hrun => exact hs

section

variable {K : Type} [LinearOrder K] {key : DateTime → K}

theorem getDueTasks_of_neg {limit : Int} (h : limit < 0) (db : List Model) (now : DateTime) :
    getDueTasks key db now limit
      = .error (.invalidLimit s!"get_due_tasks: limit {limit} is negative") := by
  rw [getDueTasks, clampedTake_of_neg h]
  rfl

theorem getDueTasks_eq {db : List Model} {now : DateTime} {tasks : List StoredTask}
    (h : (Page.orderBy (dueKey key) (db.filter (isDue key now))).mapM rowToStored = .ok tasks)
    {limit : Int} (hlimit : 0 ≤ limit) :
    getDueTasks key db now limit = .ok (tasks.take (pageSize limit)) := by
  rw [getDueTasks, clampedTake_of_nonneg hlimit]
  by_cases h0 : pageSize limit = 0
  · rw [h0]
    rfl
  · have htake : (Page.select (isDue key now) (dueKey key) (pageSize limit) db).mapM rowToStored
        = .ok (tasks.take (pageSize limit)) :=
      Page.mapM_eq_ok_iff.mpr (List.forall₂_take _ (Page.mapM_eq_ok_iff.mp h))
    simp only [bind, Except.bind, if_neg h0]
    exact htake

end

/-- **The table refines the schedule**, in a database that orders timestamps as instants. After
    any calls on an empty store there is one due list for each `now`, and `get_due_tasks` returns
    its first tasks, as many as the limit and the cap allow, and never fails to decode a row; so
    a smaller limit gives a prefix. A negative limit fails whatever the table holds. -/
theorem getDueTasks_refines {env : Env} {s : SchedulerState}
    (h : (scheduler env).Reachable s) (now : DateTime) :
    (∃ due, IsDueList s.sched now due ∧ (∀ due', IsDueList s.sched now due' → due' = due) ∧
      ∀ limit, 0 ≤ limit → ∃ page, getDueTasks id s.table now limit = .ok page ∧
        page.map (·.asDue) = due.take (min limit maxPageSize).toNat) ∧
    (∀ limit limit' page page', limit ≤ limit' →
      getDueTasks id s.table now limit = .ok page → getDueTasks id s.table now limit' = .ok page' →
        page <+: page') ∧
    ∀ limit db, limit < 0 → getDueTasks id db now limit
      = .error (.invalidLimit s!"get_due_tasks: limit {limit} is negative") := by
  have href := refines_of_reachable h
  obtain ⟨tasks, htasks⟩ := exists_due_tasks href now
  have hdue := isDueList_of_rows href htasks
  have hdecode := Page.mapM_eq_ok_iff.mpr (htasks.imp fun row t ht => ht.1)
  refine ⟨⟨_, hdue, fun due' h' => isDueList_unique h' hdue, fun limit hlimit => ?_⟩, ?_, ?_⟩
  · exact ⟨_, getDueTasks_eq hdecode hlimit, List.map_take⟩
  · intro limit limit' page page' hle hpage hpage'
    rcases lt_or_ge limit 0 with hneg | hpos
    · rw [getDueTasks_of_neg hneg] at hpage
      cases hpage
    · rw [getDueTasks_eq hdecode hpos] at hpage
      rw [getDueTasks_eq hdecode (hpos.trans hle)] at hpage'
      cases hpage
      cases hpage'
      rw [← Nat.min_eq_left (pageSize_mono hle), ← List.take_take]
      exact List.take_prefix _ _
  · exact fun limit db hneg => getDueTasks_of_neg hneg db now

/-- Two tasks, the second due first. -/
theorem getDueTasks_refines_two :
    ∃ s : SchedulerState, s.table.map (·.id) = ["t1", "t2"] ∧
      ∃ due page, IsDueList s.sched 10 due ∧ getDueTasks id s.table 10 1 = .ok page ∧
        page.map (·.id) = [⟨"t2"⟩] ∧ page.map (·.asDue) = due.take 1 := by
  have h₀ : (scheduler TaskUpdates.sampleEnv).Reachable ⟨[], fun _ => none⟩ := .init rfl
  have h₁ := h₀.step (.succeeds _ (.create "t1" 0
    ⟨⟨"ops"⟩, "ping", .cron, "* * * * *", .active, some 7⟩) _ rfl)
  have h₂ := h₁.step (.succeeds _ (.create "t2" 1
    ⟨⟨"dev"⟩, "pong", .interval, "60", .active, some 3⟩) _ rfl)
  obtain ⟨⟨due, hdue, -, hpages⟩, -, -⟩ := getDueTasks_refines h₂ 10
  obtain ⟨page, hpage, htake⟩ := hpages 1 (by decide)
  refine ⟨_, ?_, due, page, hdue, hpage, ?_, htake⟩
  · rfl
  · cases hpage
    rfl

end Forgeclaw.Store
