/-
  Interleaved `create_task` and `update_task_after_run` calls.

  An update is two steps with anything in between: it loads the row, then sends one `UPDATE`
  made from what it has loaded. `log` lists the calls that succeeded, in the order of their
  `INSERT` and `UPDATE` steps.

  * `step_inv`: the table is what the log's calls give when run one after the other, since an
    `UPDATE` sets the same columns whatever row it was made from (`updateRow_afterRun`);
  * `task_rows_consistent`: what this means for the rows and for the calls.
-/
import Forgeclaw.Foundation.Transition
import Forgeclaw.Store.Tasks

open Forgeclaw.Core

namespace Forgeclaw.Store.TaskUpdates

open Tasks

/-- A call with its arguments, and the id and time that a `create_task` takes from outside. -/
inductive Call where
  | create (generateId : String) (now : DateTime) (task : NewTask)
  | update (id : TaskId) (result : TaskRunResult)
  deriving DecidableEq

/-- How far a call is. -/
inductive Progress where
  /-- An update between its two statements, with what it is going to write. -/
  | loaded (am : ActiveModel)
  | succeeded
  | failed (e : StoreError)

structure State (κ : Type) where
  table : List Model
  calls : κ → Option (Call × Progress)
  log : List (κ × Call)

/-- What the calls take from outside. -/
structure Env where
  toString : TaskRunResult → Except String String
  duplicateKey : DbErr
  recordNotUpdated : DbErr

variable {κ : Type} [DecidableEq κ]

def State.setCall (s : State κ) (c : κ) (call : Call) (p : Progress) : State κ :=
  { s with calls := Function.update s.calls c (some (call, p)) }

/-- The statement that makes a call succeed has run. -/
def State.commit (s : State κ) (c : κ) (call : Call) (table : List Model) : State κ :=
  { s.setCall c call .succeeded with table := table, log := s.log ++ [(c, call)] }

inductive Step (env : Env) : State κ → κ → State κ → Prop
  | create (s c generateId now task r) : s.calls c = none →
      createTask env.duplicateKey generateId now task s.table = .ok r →
      Step env s c (s.commit c (.create generateId now task) r.2)
  | createFails (s c generateId now task e) : s.calls c = none →
      createTask env.duplicateKey generateId now task s.table = .error e →
      Step env s c (s.setCall c (.create generateId now task) (.failed e))
  | load (s c id result existing am) : s.calls c = none →
      loadTask id s.table = .ok existing → afterRun env.toString existing result = .ok am →
      Step env s c (s.setCall c (.update id result) (.loaded am))
  | loadFails (s c id result e) : s.calls c = none →
      loadTask id s.table = .error e →
      Step env s c (s.setCall c (.update id result) (.failed e))
  | encodeFails (s c id result existing e) : s.calls c = none →
      loadTask id s.table = .ok existing → afterRun env.toString existing result = .error e →
      Step env s c (s.setCall c (.update id result) (.failed e))
  | write (s c id result am table) : s.calls c = some (.update id result, .loaded am) →
      updateRow env.recordNotUpdated am s.table = .ok table →
      Step env s c (s.commit c (.update id result) table)
  | writeFails (s c id result am e) : s.calls c = some (.update id result, .loaded am) →
      updateRow env.recordNotUpdated am s.table = .error e →
      Step env s c (s.setCall c (.update id result) (.failed e))

def system (κ : Type) [DecidableEq κ] (env : Env) : TransitionSystem (State κ) κ where
  Init s := s = ⟨[], fun _ => none, []⟩
  Step := Step env

/-! ## One call after the other -/

/-- A call without interruption. -/
def run (env : Env) (table : List Model) : Call → Except StoreError (List Model)
  | .create generateId now task =>
    (createTask env.duplicateKey generateId now task table).map (·.2)
  | .update id result =>
    updateTaskAfterRun env.toString env.recordNotUpdated id result table

def runAll (env : Env) (table : List Model) (calls : List Call) :
    Except StoreError (List Model) :=
  calls.foldlM (run env) table

theorem runAll_append_one (env : Env) (table : List Model) (calls : List Call) (call : Call) :
    runAll env table (calls ++ [call]) = (runAll env table calls).bind (run env · call) := by
  rw [runAll, List.foldlM_append]
  show (runAll env table calls >>= fun t => [call].foldlM (run env) t) = _
  cases runAll env table calls with
  | error e => rfl
  | ok t =>
    show ([call].foldlM (run env) t) = run env t call
    cases h : run env t call <;> simp [h, bind, Except.bind, pure, Except.pure]

/-! ## Invariants -/

/-- The columns that no update touches. -/
def Fixed (row : Model) : String × String × String × String × String × DateTime :=
  (row.id, row.groupId, row.prompt, row.scheduleKind, row.scheduleValue, row.createdAt)

/-- The row is as its creation left it, or as the last run did. -/
def RowOk (toString : TaskRunResult → Except String String) (log : List Call) (row : Model) :
    Prop :=
  (∃ generateId now task, .create generateId now task ∈ log ∧
    row = newRow generateId now task) ∨
  ∃ result encoded, toString result = .ok encoded ∧ row.lastResult = some encoded ∧
    row.status = result.status.asStr ∧ row.nextRun = result.nextRun ∧
    row.updatedAt = result.ranAt

theorem RowOk.mono {toString : TaskRunResult → Except String String} {log : List Call}
    {row : Model} (h : RowOk toString log row) (call : Call) :
    RowOk toString (log ++ [call]) row := by
  rcases h with ⟨generateId, now, task, hmem, rfl⟩ | h
  · exact .inl ⟨generateId, now, task, by simp [hmem], rfl⟩
  · exact .inr h

/-- What a call that succeeds does to the table. -/
theorem run_eq_ok {env : Env} {table table' : List Model} {call : Call}
    (h : run env table call = .ok table') :
    (∃ generateId now task, call = .create generateId now task ∧
      table' = table ++ [newRow generateId now task]) ∨
    ∃ id result encoded, call = .update id result ∧ env.toString result = .ok encoded ∧
      (∃ row ∈ table, row.id = id.value) ∧ table' = recordAt id result encoded table := by
  cases call with
  | create generateId now task =>
    refine .inl ⟨generateId, now, task, rfl, ?_⟩
    cases hc : createTask env.duplicateKey generateId now task table with
    | error e =>
      rw [run, hc] at h
      cases h
    | ok r =>
      rw [run, hc] at h
      obtain ⟨-, rfl⟩ := createTask_eq_ok hc
      exact (Except.ok.inj h).symm
  | update id result =>
    obtain ⟨encoded, henc, hmem, rfl⟩ := updateTaskAfterRun_eq_ok h
    exact .inr ⟨id, result, encoded, rfl, henc, hmem, rfl⟩

theorem map_fixed_recordAt (id : TaskId) (result : TaskRunResult) (encoded : String)
    (table : List Model) : (recordAt id result encoded table).map Fixed = table.map Fixed := by
  rw [recordAt, List.map_map]
  refine List.map_congr_left fun row _ => ?_
  show Fixed (if row.id = id.value then record result encoded row else row) = Fixed row
  split <;> rfl

/-- Rows stay, with the columns that never change. -/
theorem run_fixed {env : Env} {table table' : List Model} {call : Call}
    (h : run env table call = .ok table') : table.map Fixed <+: table'.map Fixed := by
  rcases run_eq_ok h with ⟨generateId, now, task, -, rfl⟩ | ⟨id, result, encoded, -, -, -, rfl⟩
  · rw [List.map_append]
    exact List.prefix_append _ _
  · rw [map_fixed_recordAt]

theorem mem_of_fixed_prefix {table table' : List Model}
    (h : table.map Fixed <+: table'.map Fixed) {row : Model} (hrow : row ∈ table) :
    ∃ row' ∈ table', Fixed row' = Fixed row := by
  obtain ⟨row', hrow', he⟩ := List.mem_map.mp (h.subset (List.mem_map_of_mem hrow))
  exact ⟨row', hrow', he⟩

theorem run_rows {env : Env} {table table' : List Model} {call : Call} {log : List Call}
    (h : run env table call = .ok table') (hrows : ∀ row ∈ table, RowOk env.toString log row) :
    ∀ row ∈ table', RowOk env.toString (log ++ [call]) row := by
  intro row hrow
  rcases run_eq_ok h with ⟨generateId, now, task, rfl, rfl⟩ |
    ⟨id, result, encoded, rfl, henc, -, rfl⟩
  · rcases List.mem_append.mp hrow with hrow | hrow
    · exact (hrows row hrow).mono _
    · exact .inl ⟨generateId, now, task, by simp, List.mem_singleton.mp hrow⟩
  · rcases mem_recordAt hrow with ⟨hrow, -⟩ | ⟨old, -, -, rfl⟩
    · exact (hrows row hrow).mono _
    · exact .inr ⟨result, encoded, henc, rfl, rfl, rfl, rfl⟩

theorem run_created {env : Env} {table table' : List Model} {call : Call} {log : List Call}
    (h : run env table call = .ok table')
    (hcreated : ∀ row ∈ table, ∃ now task, .create row.id now task ∈ log) :
    ∀ row ∈ table', ∃ now task, .create row.id now task ∈ log ++ [call] := by
  have hkeep : ∀ row ∈ table, ∃ now task, .create row.id now task ∈ log ++ [call] := by
    intro row hrow
    obtain ⟨now, task, hmem⟩ := hcreated row hrow
    exact ⟨now, task, List.mem_append_left _ hmem⟩
  intro row hrow
  rcases run_eq_ok h with ⟨generateId, now, task, rfl, rfl⟩ |
    ⟨id, result, encoded, rfl, -, -, rfl⟩
  · rcases List.mem_append.mp hrow with hrow | hrow
    · exact hkeep row hrow
    · rw [List.mem_singleton.mp hrow]
      exact ⟨now, task, List.mem_append_right _ (List.mem_singleton.mpr rfl)⟩
  · rcases mem_recordAt hrow with ⟨hrow, -⟩ | ⟨old, hold, -, rfl⟩
    · exact hkeep row hrow
    · exact hkeep old hold

structure Inv (env : Env) (s : State κ) : Prop where
  replay : runAll env [] (s.log.map (·.2)) = .ok s.table
  rows : ∀ row ∈ s.table, RowOk env.toString (s.log.map (·.2)) row
  created : ∀ row ∈ s.table, ∃ now task, .create row.id now task ∈ s.log.map (·.2)
  /-- The log lists the calls that succeeded, each once. -/
  logged : ∀ c call, (c, call) ∈ s.log ↔ s.calls c = some (call, .succeeded)
  once : (s.log.map (·.1)).Nodup
  loaded : ∀ c id result am, s.calls c = some (.update id result, .loaded am) →
    ∃ existing, existing.id = id.value ∧ afterRun env.toString existing result = .ok am
  /-- Without a row an update has no way to go but one. -/
  missing : ∀ c id result p, s.calls c = some (.update id result, p) →
    (∀ row ∈ s.table, row.id ≠ id.value) → p = .failed (.notFound "task")

omit [DecidableEq κ] in
theorem Inv.not_logged {env : Env} {s : State κ} (h : Inv env s) {c : κ}
    (hc : ∀ call, s.calls c ≠ some (call, .succeeded)) : c ∉ s.log.map (·.1) := by
  intro hmem
  obtain ⟨⟨c', call⟩, hlog, rfl⟩ := List.mem_map.mp hmem
  exact hc call ((h.logged c' call).mp hlog)

theorem setCall_calls (s : State κ) (c : κ) (call : Call) (p : Progress) (c' : κ) :
    (s.setCall c call p).calls c' = if c' = c then some (call, p) else s.calls c' := by
  simp [State.setCall, Function.update_apply]

/-- A call gets on without touching the table. -/
theorem Inv.setCall {env : Env} {s : State κ} (h : Inv env s) {c : κ} {call : Call}
    {p : Progress} (hc : ∀ call, s.calls c ≠ some (call, .succeeded)) (hp : p ≠ .succeeded)
    (hloaded : ∀ id result am, call = .update id result → p = .loaded am →
      ∃ existing, existing.id = id.value ∧ afterRun env.toString existing result = .ok am)
    (hmissing : ∀ id result, call = .update id result → (∀ row ∈ s.table, row.id ≠ id.value) →
      p = .failed (.notFound "task")) : Inv env (s.setCall c call p) where
  replay := h.replay
  rows := h.rows
  created := h.created
  logged c' call' := by
    rw [setCall_calls]
    split
    · rename_i he
      subst he
      refine iff_of_false (fun hlog => hc call' ((h.logged c' call').mp hlog)) fun he => ?_
      exact hp (Prod.mk.inj (Option.some.inj he)).2
    · exact h.logged c' call'
  once := h.once
  loaded c' id result am hcall := by
    rw [setCall_calls] at hcall
    split at hcall
    · obtain ⟨rfl, rfl⟩ := Prod.mk.inj (Option.some.inj hcall)
      exact hloaded id result am rfl rfl
    · exact h.loaded c' id result am hcall
  missing c' id result p' hcall hnone := by
    rw [setCall_calls] at hcall
    split at hcall
    · obtain ⟨rfl, rfl⟩ := Prod.mk.inj (Option.some.inj hcall)
      exact hmissing id result rfl hnone
    · exact h.missing c' id result p' hcall hnone

theorem commit_calls (s : State κ) (c : κ) (call : Call) (table : List Model) (c' : κ) :
    (s.commit c call table).calls c' = if c' = c then some (call, .succeeded) else s.calls c' :=
  setCall_calls s c call .succeeded c'

theorem commit_logged (s : State κ) (c : κ) (call : Call) (table : List Model) :
    (s.commit c call table).log.map (·.2) = s.log.map (·.2) ++ [call] :=
  List.map_append

/-- A row stays, under its id. -/
theorem exists_id_of_run {env : Env} {table table' : List Model} {call : Call}
    (h : run env table call = .ok table') {row : Model} (hrow : row ∈ table) :
    ∃ row' ∈ table', row'.id = row.id := by
  obtain ⟨row', hrow', he⟩ := mem_of_fixed_prefix (run_fixed h) hrow
  exact ⟨row', hrow', congrArg Prod.fst he⟩

/-- The log after a call that was not in it. -/
theorem Inv.logged_commit {env : Env} {s : State κ} (h : Inv env s) {c : κ} {call : Call}
    (hc : ∀ call, s.calls c ≠ some (call, .succeeded)) (table : List Model) (c' : κ)
    (call' : Call) :
    (c', call') ∈ s.log ++ [(c, call)] ↔
      (s.commit c call table).calls c' = some (call', .succeeded) := by
  rw [commit_calls, List.mem_append, List.mem_singleton]
  split
  · rename_i he
    subst he
    constructor
    · rintro (hlog | he)
      · exact absurd ((h.logged c' call').mp hlog) (hc call')
      · rw [(Prod.mk.inj he).2]
    · intro he
      rw [(Prod.mk.inj (Option.some.inj he)).1]
      exact .inr rfl
  · rename_i hne
    rw [h.logged]
    exact or_iff_left fun he => hne (Prod.mk.inj he).1

/-- A call's last statement succeeds: as if the whole call ran now. -/
theorem Inv.commit {env : Env} {s : State κ} (h : Inv env s) {c : κ} {call : Call}
    {table : List Model} (hc : ∀ call, s.calls c ≠ some (call, .succeeded))
    (hrun : run env s.table call = .ok table) : Inv env (s.commit c call table) where
  replay := by
    rw [commit_logged, runAll_append_one, h.replay]
    exact hrun
  rows := by
    rw [commit_logged]
    exact run_rows hrun h.rows
  created := by
    rw [commit_logged]
    exact run_created hrun h.created
  logged := h.logged_commit hc table
  once := by
    show ((s.log ++ [(c, call)]).map (·.1)).Nodup
    rw [List.map_append, List.map_singleton]
    refine List.nodup_append.mpr ⟨h.once, by simp, fun a ha b hb => ?_⟩
    rw [List.mem_singleton.mp hb]
    rintro rfl
    exact h.not_logged hc ha
  loaded c' id result am hcall := by
    rw [commit_calls] at hcall
    split at hcall
    · cases (Prod.mk.inj (Option.some.inj hcall)).2
    · exact h.loaded c' id result am hcall
  missing c' id result p hcall hnone := by
    -- without a row now there was none before, so this update cannot have succeeded
    have hnone' : ∀ row ∈ s.table, row.id ≠ id.value := by
      intro row hrow
      obtain ⟨row', hrow', he⟩ := exists_id_of_run hrun hrow
      exact he ▸ hnone row' hrow'
    rw [commit_calls] at hcall
    split at hcall
    · obtain ⟨rfl, rfl⟩ := Prod.mk.inj (Option.some.inj hcall)
      obtain ⟨encoded, -, ⟨row, hrow, hid⟩, -⟩ := updateTaskAfterRun_eq_ok hrun
      exact absurd hid (hnone' row hrow)
    · exact h.missing c' id result p hcall hnone'

omit [DecidableEq κ] in
/-- The second statement of an update, whatever was in between, is the whole call. -/
theorem run_of_write {env : Env} {s : State κ} (h : Inv env s) {c : κ} {id : TaskId}
    {result : TaskRunResult} {am : ActiveModel}
    (hc : s.calls c = some (.update id result, .loaded am)) {r : Except StoreError (List Model)}
    (hwrite : updateRow env.recordNotUpdated am s.table = r) :
    ∃ table, r = .ok table ∧ run env s.table (.update id result) = .ok table := by
  obtain ⟨existing, hid, hafter⟩ := h.loaded c id result am hc
  have hmem : ∃ row ∈ s.table, row.id = id.value := by
    by_contra hnone
    push Not at hnone
    cases h.missing c id result _ hc hnone
  obtain ⟨encoded, henc, hupdate⟩ := updateRow_afterRun hafter hid hmem env.recordNotUpdated
  refine ⟨recordAt id result encoded s.table, hwrite.symm.trans hupdate, ?_⟩
  exact updateTaskAfterRun_of_mem henc hmem env.recordNotUpdated

theorem step_inv {env : Env} {s t : State κ} {c : κ} (h : Inv env s) (hstep : Step env s c t) :
    Inv env t := by
  cases hstep with
  | create generateId now task r hc hcreate =>
    refine h.commit (by simp [hc]) ?_
    rw [run, hcreate]
    rfl
  | createFails generateId now task e hc hcreate =>
    exact h.setCall (by simp [hc]) (by simp) (by simp) (by simp)
  | load id result existing am hc hload hafter =>
    obtain ⟨hmem, hid⟩ := loadTask_eq_ok hload
    refine h.setCall (by simp [hc]) (by simp) ?_ ?_
    · rintro id result am ⟨⟩ ⟨⟩
      exact ⟨existing, hid, hafter⟩
    · rintro id result ⟨⟩ hnone
      exact absurd hid (hnone existing hmem)
  | loadFails id result e hc hload =>
    refine h.setCall (by simp [hc]) (by simp) (by simp) ?_
    rintro id result ⟨⟩ -
    rw [(loadTask_eq_error hload).1]
  | encodeFails id result existing e hc hload hafter =>
    obtain ⟨hmem, hid⟩ := loadTask_eq_ok hload
    refine h.setCall (by simp [hc]) (by simp) (by simp) ?_
    rintro id result ⟨⟩ hnone
    exact absurd hid (hnone existing hmem)
  | write id result am table hc hwrite =>
    obtain ⟨table', htable, hrun⟩ := run_of_write h hc hwrite
    cases htable
    exact h.commit (by simp [hc]) hrun
  | writeFails id result am e hc hwrite =>
    obtain ⟨table', htable, -⟩ := run_of_write h hc hwrite
    cases htable

theorem inv_of_reachable {env : Env} {s : State κ} (h : (system κ env).Reachable s) :
    Inv env s := by
  refine h.invariant (fun {s} h0 => ?_) (fun {_ _ _} => step_inv)
  obtain rfl : s = ⟨[], fun _ => none, []⟩ := h0
  exact ⟨rfl, by simp, by simp, by simp, by simp, by simp, by simp⟩

/-! ## Rows of other tasks -/

/-- The id of a call's task. -/
def Call.id : Call → TaskId
  | .create generateId _ _ => ⟨generateId⟩
  | .update id _ => id

theorem find_recordAt {id id' : TaskId} (h : id'.value ≠ id.value) (result : TaskRunResult)
    (encoded : String) (table : List Model) :
    (recordAt id' result encoded table).find? (·.id == id.value) =
      table.find? (·.id == id.value) := by
  induction table with
  | nil => rfl
  | cons row table ih =>
    unfold recordAt at ih ⊢
    rw [List.map_cons, List.find?_cons, List.find?_cons, ih]
    by_cases hrow : row.id = id'.value
    · have hother : (row.id == id.value) = false := by simpa [hrow] using h
      rw [if_pos hrow, record_id, hother]
    · rw [if_neg hrow]

omit [DecidableEq κ] in
theorem run_loadTask {env : Env} {table table' : List Model} {call : Call}
    (h : run env table call = .ok table') {id : TaskId} (hid : id ≠ call.id) :
    loadTask id table' = loadTask id table := by
  suffices hfind : table'.find? (·.id == id.value) = table.find? (·.id == id.value) by
    rw [loadTask, loadTask, hfind]
  rcases run_eq_ok h with ⟨generateId, now, task, rfl, rfl⟩ | ⟨id', result, encoded, rfl, -, -, rfl⟩
  · have hne : generateId ≠ id.value := fun he => hid (congrArg TaskId.mk he.symm)
    simp [List.find?_append, newRow, hne]
  · exact find_recordAt (fun he => hid (congrArg TaskId.mk he.symm)) result encoded table

omit [DecidableEq κ] in
theorem run_ids {env : Env} {table table' : List Model} {call : Call}
    (h : run env table call = .ok table') (hids : (table.map (·.id)).Nodup) :
    (table'.map (·.id)).Nodup := by
  cases call with
  | create generateId now task =>
    cases hc : createTask env.duplicateKey generateId now task table with
    | error e =>
      rw [run, hc] at h
      cases h
    | ok r =>
      rw [run, hc] at h
      obtain ⟨hfresh, rfl⟩ := createTask_eq_ok hc
      cases h
      rw [List.map_append, List.map_singleton, ← List.concat_eq_append]
      apply hids.concat
      simpa [newRow] using hfresh
  | update id result =>
    obtain ⟨encoded, -, -, rfl⟩ := updateTaskAfterRun_eq_ok h
    rwa [map_id_recordAt]

/-- A step leaves the table alone or runs its caller's call on it. -/
theorem step_run {env : Env} {s t : State κ} {c : κ} (h : Inv env s) (hstep : Step env s c t) :
    ∃ call p, t.calls c = some (call, p) ∧
      (t.table = s.table ∨ run env s.table call = .ok t.table) := by
  have hset : ∀ call p, (s.setCall c call p).calls c = some (call, p) := by
    simp [setCall_calls]
  cases hstep with
  | create generateId now task r hc hcreate =>
    refine ⟨_, _, hset _ _, .inr ?_⟩
    rw [run, hcreate]
    rfl
  | write id result am table hc hwrite =>
    obtain ⟨table', htable, hrun⟩ := run_of_write h hc hwrite
    cases htable
    exact ⟨_, _, hset _ _, .inr hrun⟩
  | _ => exact ⟨_, _, hset _ _, .inl rfl⟩

/-- `id` is a key of the table. -/
theorem ids_distinct {env : Env} {s : State κ} (h : (system κ env).Reachable s) :
    (s.table.map (·.id)).Nodup := by
  refine (h.invariant (I := fun s => Inv env s ∧ (s.table.map (·.id)).Nodup) ?_ ?_).2
  · rintro s rfl
    exact ⟨inv_of_reachable (.init rfl), List.nodup_nil⟩
  · rintro s c t ⟨hinv, hids⟩ hstep
    refine ⟨step_inv hinv hstep, ?_⟩
    obtain ⟨call, p, -, hsame | hrun⟩ := step_run hinv hstep
    · rwa [hsame]
    · exact run_ids hrun hids

theorem step_fixed {env : Env} {s t : State κ} {c : κ} (h : Inv env s)
    (hstep : Step env s c t) : s.table.map Fixed <+: t.table.map Fixed := by
  cases hstep with
  | create generateId now task r hc hcreate =>
    have hrun : run env s.table (.create generateId now task) = .ok r.2 := by
      rw [run, hcreate]
      rfl
    exact run_fixed hrun
  | write id result am table hc hwrite =>
    obtain ⟨table', htable, hrun⟩ := run_of_write h hc hwrite
    cases htable
    exact run_fixed hrun
  | _ => exact List.prefix_rfl

theorem steps_fixed {env : Env} {s t : State κ} (hs : (system κ env).Reachable s)
    (h : (system κ env).Steps s t) : s.table.map Fixed <+: t.table.map Fixed := by
  induction h with
  | refl => exact List.prefix_rfl
  | tail hsteps hstep ih => exact ih.trans (step_fixed (inv_of_reachable (hs.steps hsteps)) hstep)

/-- Only the statement that makes a call succeed touches the table. -/
theorem step_table {env : Env} {s t : State κ} {c : κ} (hstep : Step env s c t)
    (h : ∀ call, t.calls c ≠ some (call, .succeeded)) : t.table = s.table := by
  cases hstep with
  | create generateId now task r hc hcreate =>
    exact absurd (by simp [State.commit, State.setCall]) (h (.create generateId now task))
  | write id result am table hc hwrite =>
    exact absurd (by simp [State.commit, State.setCall]) (h (.update id result))
  | _ => rfl

/-- **Task rows stay consistent.** In every reachable state: a row is as it was created, or
    its `last_result` decodes to a result that the other columns agree with; whatever happens
    next, no row is lost and the columns fixed at creation stay; an update of an id that was
    never created has failed with `NotFound`, and a step that does not make its call succeed
    leaves the table as it is; and the table is what the calls that succeeded give when run
    one after the other, in the order of their `INSERT` and `UPDATE` steps. -/
theorem task_rows_consistent (env : Env) {fromStr : String → Except String TaskRunResult}
    (hjson : ∀ r text, env.toString r = .ok text → fromStr text = .ok r) {s : State κ}
    (h : (system κ env).Reachable s) :
    (∀ row ∈ s.table,
      (row.lastResult = none ∧ ∃ generateId now task,
        .create generateId now task ∈ s.log.map (·.2) ∧ row = newRow generateId now task) ∨
      ∃ r text, row.lastResult = some text ∧ fromStr text = .ok r ∧
        row.status = r.status.asStr ∧ row.nextRun = r.nextRun ∧ row.updatedAt = r.ranAt) ∧
    (∀ t, (system κ env).Steps s t → s.table.map Fixed <+: t.table.map Fixed) ∧
    (∀ c id result p, s.calls c = some (.update id result, p) →
      (∀ now task, .create id.value now task ∉ s.log.map (·.2)) →
        p = .failed (.notFound "task")) ∧
    (∀ c t, Step env s c t → (∀ call, t.calls c ≠ some (call, .succeeded)) →
      t.table = s.table) ∧
    runAll env [] (s.log.map (·.2)) = .ok s.table ∧ (s.log.map (·.1)).Nodup ∧
    ∀ c call, (c, call) ∈ s.log ↔ s.calls c = some (call, .succeeded) := by
  have hinv := inv_of_reachable h
  refine ⟨fun row hrow => ?_, fun t ht => steps_fixed h ht, ?_, fun c t => step_table,
    hinv.replay, hinv.once, hinv.logged⟩
  · rcases hinv.rows row hrow with ⟨generateId, now, task, hmem, rfl⟩ |
      ⟨r, text, htext, hlast, hstatus, hnext, hupdated⟩
    · exact .inl ⟨rfl, generateId, now, task, hmem, rfl⟩
    · exact .inr ⟨r, text, hlast, hjson r text htext, hstatus, hnext, hupdated⟩
  · intro c id result p hcall hnever
    refine hinv.missing c id result p hcall fun row hrow hid => ?_
    obtain ⟨now, task, hmem⟩ := hinv.created row hrow
    exact hnever now task (hid ▸ hmem)

/-! ### Two runs of one task that both load before either writes -/

def runDone : TaskRunResult := ⟨0, .success none, none, .completed⟩

def runBroken : TaskRunResult := ⟨1000000000, .failure "boom", none, .failed⟩

def textDone : String :=
  "\x7b\"ran_at\":\"1970-01-01T00:00:00Z\"," ++
    "\"outcome\":\x7b\"kind\":\"success\",\"detail\":null\x7d,\"next_run\":null,\"status\":\"completed\"\x7d"

def textBroken : String :=
  "\x7b\"ran_at\":\"1970-01-01T00:00:01Z\"," ++
    "\"outcome\":\x7b\"kind\":\"failure\",\"error\":\"boom\"\x7d,\"next_run\":null,\"status\":\"failed\"\x7d"

/-- The encoder on the two results of the run below. -/
def sampleEnv : Env where
  toString r :=
    if r = runDone then .ok textDone
    else if r = runBroken then .ok textBroken
    else .error "not encoded here"
  duplicateKey := ⟨.query, "duplicate key value violates unique constraint", []⟩
  recordNotUpdated := ⟨.recordNotUpdated, "None of the records are updated", []⟩

def sampleFromStr (text : String) : Except String TaskRunResult :=
  if text = textDone then .ok runDone
  else if text = textBroken then .ok runBroken
  else .error "not decoded here"

theorem sample_round_trip (r : TaskRunResult) (text : String)
    (h : sampleEnv.toString r = .ok text) : sampleFromStr text = .ok r := by
  simp only [sampleEnv] at h
  split at h
  · rename_i hr
    cases h
    rw [hr]
    rfl
  · split at h
    · rename_i hr
      cases h
      rw [hr]
      rfl
    · cases h

theorem task_rows_consistent_two :
    ∃ s : State Nat, (system Nat sampleEnv).Reachable s ∧ s.log.map (·.1) = [0, 2, 1] ∧
      (∃ row ∈ s.table, row.status = "completed" ∧ row.lastResult = some textDone) ∧
      ∀ row ∈ s.table, row.lastResult ≠ none →
        ∃ r text, row.lastResult = some text ∧ sampleFromStr text = .ok r ∧
          row.status = r.status.asStr ∧ row.nextRun = r.nextRun ∧ row.updatedAt = r.ranAt := by
  have h₀ : (system Nat sampleEnv).Reachable ⟨[], fun _ => none, []⟩ := .init rfl
  have h₁ := h₀.step (.create _ 0 "t1" 5
    ⟨⟨"ops"⟩, "ping", .once, "1970-01-01T00:00:00Z", .active, some 0⟩ _ rfl rfl)
  have h₂ := h₁.step (.load _ 1 ⟨"t1"⟩ runDone _ _ rfl rfl rfl)
  have h₃ := h₂.step (.load _ 2 ⟨"t1"⟩ runBroken _ _ rfl rfl rfl)
  have h₄ := h₃.step (.write _ 2 ⟨"t1"⟩ runBroken _ _ rfl rfl)
  have h₅ := h₄.step (.write _ 1 ⟨"t1"⟩ runDone _ _ rfl rfl)
  obtain ⟨s, hs, hlog, hrow⟩ : ∃ s, (system Nat sampleEnv).Reachable s ∧
      s.log.map (·.1) = [0, 2, 1] ∧
        ∃ row ∈ s.table, row.status = "completed" ∧ row.lastResult = some textDone :=
    ⟨_, h₅, rfl, _, List.mem_singleton.mpr rfl, rfl, rfl⟩
  refine ⟨s, hs, hlog, hrow, fun row hmem hlast => ?_⟩
  rcases (task_rows_consistent sampleEnv sample_round_trip hs).1 row hmem with ⟨hnone, -⟩ | hr
  · exact absurd hnone hlast
  · exact hr

end Forgeclaw.Store.TaskUpdates
