/-
  Whole runs of a store: all its writes, in any order.

  Starting from the migrated, empty tables, each step is one upsert, one statement of some
  `store_message` transaction, one statement of some task call, or one `record_event`, so that
  what several callers do at once is one of these runs.

  * `run_groups`, `run_sessions`, `run_state`: each upserted table is what its own upserts of
    the run give, one after the other;
  * `step_frame`: what a write does not touch is read as before;
  * `upserts_over_runs`: what this means for the readers.
-/
import Forgeclaw.Foundation.TransactionKeys
import Forgeclaw.Store.Events
import Forgeclaw.Store.Messages
import Forgeclaw.Store.TaskUpdates
import Forgeclaw.Store.Upserts

open Forgeclaw.Core

namespace Forgeclaw.Store

open Upsert

/-! ## The store -/

/-- The tables, and what is under way in `messages` and `tasks`; `ι` names the transactions and
    `κ` the task calls. -/
structure Tables (ι κ : Type) where
  groups : List Groups.Model
  sessions : List Sessions.Model
  state : List State.Model
  messages : Transactions.Db ι Int Messages.ActiveModel NewMessage
  tasks : TaskUpdates.State κ
  events : List Events.Model

/-- After `migrate`, before the first write. -/
def Tables.empty {ι κ : Type} : Tables ι κ :=
  ⟨[], [], [], ⟨0, [], fun _ => none⟩, ⟨[], fun _ => none, []⟩, []⟩

/-- The visible rows of `messages`. -/
def Tables.messageRows {ι κ : Type} (s : Tables ι κ) : List Messages.Model :=
  s.messages.rows.map fun p => p.2.model p.1

/-- A write, with the clock's time and the generated id where it takes one. -/
inductive Write (ι κ : Type) where
  | upsertGroup (group : RegisteredGroup)
  | setSession (now : DateTime) (group : GroupId) (sessionId : String)
  | setState (now : DateTime) (key value : String)
  | storeMessage (i : ι) (a : Transactions.Act)
  | task (c : κ)
  | recordEvent (generateId : String) (event : NewEvent)

section

variable {ι κ : Type} [DecidableEq ι] [DecidableEq κ]

inductive WriteStep (hashtextextended : String → Int) (backend : DbBackend)
    (env : TaskUpdates.Env) : Tables ι κ → Write ι κ → Tables ι κ → Prop
  | upsertGroup (s group) :
      WriteStep hashtextextended backend env s (.upsertGroup group)
        { s with groups := upsertGroup group s.groups }
  | setSession (s now group sessionId) :
      WriteStep hashtextextended backend env s (.setSession now group sessionId)
        { s with sessions := setSession now group sessionId s.sessions }
  | setState (s now key value) :
      WriteStep hashtextextended backend env s (.setState now key value)
        { s with state := setState now key value s.state }
  | storeMessage (s i a db) :
      Transactions.Step (·.id) (storeMessage hashtextextended backend) s.messages (i, a) db →
      WriteStep hashtextextended backend env s (.storeMessage i a) { s with messages := db }
  | task (s c t) : TaskUpdates.Step env s.tasks c t →
      WriteStep hashtextextended backend env s (.task c) { s with tasks := t }
  | recordEvent (s generateId event db) :
      recordEvent env.duplicateKey generateId event s.events = .ok db →
      WriteStep hashtextextended backend env s (.recordEvent generateId event)
        { s with events := db }
  | recordEventFails (s generateId event e) :
      recordEvent env.duplicateKey generateId event s.events = .error e →
      WriteStep hashtextextended backend env s (.recordEvent generateId event) s

def storeRuns (ι κ : Type) [DecidableEq ι] [DecidableEq κ] (hashtextextended : String → Int)
    (backend : DbBackend) (env : TaskUpdates.Env) :
    TransitionSystem (Tables ι κ) (Write ι κ) where
  Init s := s = .empty
  Step := WriteStep hashtextextended backend env

end

/-! ## The upserts of a run -/

section Rows

variable {ι κ : Type}

/-- The row that a write upserts into `groups`, if it does. -/
def Write.groupRow : Write ι κ → Option Groups.Model
  | .upsertGroup group => some (Groups.activeModel group)
  | _ => none

def Write.sessionRow : Write ι κ → Option Sessions.Model
  | .setSession now group sessionId => some ⟨group.value, sessionId, now⟩
  | _ => none

def Write.stateRow : Write ι κ → Option State.Model
  | .setState now key value => some ⟨key, value, now⟩
  | _ => none

/-- The upserts of a group, the session ids set for one and the values set for a key. -/
def upsertsOf (id : GroupId) (writes : List (Write ι κ)) : List RegisteredGroup :=
  writes.filterMap fun
    | .upsertGroup group => if group.id = id then some group else none
    | _ => none

def sessionsSet (group : GroupId) (writes : List (Write ι κ)) : List String :=
  writes.filterMap fun
    | .setSession _ group' sessionId => if group' = group then some sessionId else none
    | _ => none

def valuesSet (key : String) (writes : List (Write ι κ)) : List String :=
  writes.filterMap fun
    | .setState _ key' value => if key' = key then some value else none
    | _ => none

theorem groupId_value_inj {a b : GroupId} : a.value = b.value ↔ a = b :=
  ⟨fun h => by cases a; cases b; exact congrArg GroupId.mk h, congrArg GroupId.value⟩

/-- What is taken from the selected rows, write by write. -/
theorem map_filter_filterMap {α β γ : Type} {row : α → Option β} {p : β → Bool} {f : β → γ}
    {g : α → Option γ} (h : ∀ w, ((row w).filter p).map f = g w) (writes : List α) :
    ((writes.filterMap row).filter p).map f = writes.filterMap g := by
  rw [List.filter_filterMap, List.map_filterMap]
  exact List.filterMap_congr fun w _ => h w

theorem groupRows_of (id : GroupId) (writes : List (Write ι κ)) :
    (writes.filterMap Write.groupRow).filter (·.id = id.value) =
      (upsertsOf id writes).map Groups.activeModel := by
  rw [upsertsOf, List.map_filterMap, ← List.map_id (List.filter _ _)]
  refine map_filter_filterMap (fun w => ?_) writes
  cases w with
  | upsertGroup group =>
    by_cases h : group.id = id
    · simp [Write.groupRow, Groups.activeModel, h]
    · simp [Write.groupRow, Groups.activeModel, groupId_value_inj, h]
  | _ => rfl

theorem sessionRows_of (group : GroupId) (writes : List (Write ι κ)) :
    ((writes.filterMap Write.sessionRow).filter (·.groupId = group.value)).map (·.sessionId) =
      sessionsSet group writes := by
  refine map_filter_filterMap (fun w => ?_) writes
  cases w with
  | setSession now group' sessionId =>
    by_cases h : group' = group
    · simp [Write.sessionRow, h]
    · simp [Write.sessionRow, groupId_value_inj, h]
  | _ => rfl

theorem stateRows_of (key : String) (writes : List (Write ι κ)) :
    ((writes.filterMap Write.stateRow).filter (·.key = key)).map (·.value) =
      valuesSet key writes := by
  refine map_filter_filterMap (fun w => ?_) writes
  cases w with
  | setState now key' value =>
    by_cases h : key' = key
    · simp [Write.stateRow, h]
    · simp [Write.stateRow, h]
  | _ => rfl

theorem id_of_mem_upsertsOf {id : GroupId} {group : RegisteredGroup}
    {writes : List (Write ι κ)} (h : group ∈ upsertsOf id writes) : group.id = id := by
  obtain ⟨w, -, hw⟩ := List.mem_filterMap.mp h
  cases w with
  | upsertGroup group' =>
    simp only [Option.ite_none_right_eq_some, Option.some.injEq] at hw
    exact hw.2 ▸ hw.1
  | _ => cases hw

end Rows

section Runs

variable {ι κ : Type} [DecidableEq ι] [DecidableEq κ] {hashtextextended : String → Int}
  {backend : DbBackend} {env : TaskUpdates.Env} {s : Tables ι κ} {writes : List (Write ι κ)}

/-- A table that only its own upserts touch. -/
theorem run_insertAll {χ α : Type} {C : Columns χ α} {conflict : OnConflict χ}
    (table : Tables ι κ → List α) (row : Write ι κ → Option α) (hempty : table .empty = [])
    (hstep : ∀ {s w t}, WriteStep hashtextextended backend env s w t →
      table t = (row w).elim (table s) fun excluded => C.insert conflict excluded (table s))
    (h : (storeRuns ι κ hashtextextended backend env).Run .empty writes s) :
    table s = C.insertAll conflict (writes.filterMap row) := by
  have hfold := h.foldl (f := table)
    (g := fun rows w => (row w).elim rows fun excluded => C.insert conflict excluded rows) hstep
  rw [hfold, hempty, Columns.insertAll, List.foldl_filterMap]
  congr 1
  funext rows w
  cases row w <;> rfl

theorem run_groups (h : (storeRuns ι κ hashtextextended backend env).Run .empty writes s) :
    s.groups = Groups.columns.insertAll Groups.conflict (writes.filterMap Write.groupRow) := by
  refine run_insertAll Tables.groups Write.groupRow rfl (fun hstep => ?_) h
  cases hstep <;> rfl

theorem run_sessions (h : (storeRuns ι κ hashtextextended backend env).Run .empty writes s) :
    s.sessions =
      Sessions.columns.insertAll Sessions.conflict (writes.filterMap Write.sessionRow) := by
  refine run_insertAll Tables.sessions Write.sessionRow rfl (fun hstep => ?_) h
  cases hstep <;> rfl

theorem run_state (h : (storeRuns ι κ hashtextextended backend env).Run .empty writes s) :
    s.state = State.columns.insertAll State.conflict (writes.filterMap Write.stateRow) := by
  refine run_insertAll Tables.state Write.stateRow rfl (fun hstep => ?_) h
  cases hstep <;> rfl

/-! ## What is read -/

/-- What the group's row is made of: the first upsert's `created_at`, the rest of the last. -/
theorem getGroup_run (h : (storeRuns ι κ hashtextextended backend env).Run .empty writes s)
    (id : GroupId) :
    getGroup s.groups id = (upsertsOf id writes).head?.bind fun first =>
      (upsertsOf id writes).getLast?.map fun last =>
        ⟨id, last.displayName, last.configJson, last.active, first.createdAt, last.updatedAt⟩ := by
  rw [getGroup, run_groups h, Columns.find_insertAll Groups.keyed, groupRows_of, Columns.settled,
    List.head?_map, List.getLast?_map]
  cases hfirst : (upsertsOf id writes).head? with
  | none => rfl
  | some first =>
    obtain rfl := id_of_mem_upsertsOf (List.mem_of_head? hfirst)
    cases hlast : (upsertsOf first.id writes).getLast? with
    | none => rfl
    | some last =>
      simp only [Option.map_some, Option.bind_some, Groups.update_eq]
      rfl

theorem getSession_run (h : (storeRuns ι κ hashtextextended backend env).Run .empty writes s)
    (group : GroupId) : getSession s.sessions group = (sessionsSet group writes).getLast? := by
  rw [getSession, run_sessions h, Columns.find_insertAll Sessions.keyed,
    Columns.settled_map fun _ _ => rfl, ← List.getLast?_map, sessionRows_of]

theorem getState_run (h : (storeRuns ι κ hashtextextended backend env).Run .empty writes s)
    (key : String) : getState s.state key = (valuesSet key writes).getLast? := by
  rw [getState, run_state h, Columns.find_insertAll State.keyed,
    Columns.settled_map fun _ _ => rfl, ← List.getLast?_map, stateRows_of]

/-! ## Frames -/

/-- The row that `record_event` sends. -/
def eventRow (generateId : String) (event : NewEvent) : Events.Model :=
  ⟨generateId, event.kind, event.groupId.map (·.value), event.payload, event.createdAt⟩

/-- A read of the store; `loadTask` is the one inside of `update_task_after_run`. -/
inductive Read where
  | getGroup (id : GroupId)
  | getSession (group : GroupId)
  | getState (key : String)
  | getMessagesSince (group : GroupId) (cursor : Cursor) (limit : Int)
  | getDueTasks (now : DateTime) (limit : Int)
  | loadTask (id : TaskId)
  | listEvents (filter : EventFilter) (limit : Int)

/-- The two stores give the read the same, for a database that orders timestamps by `key`. -/
def Read.Same {K : Type} [LinearOrder K] (key : DateTime → K) (s t : Tables ι κ) : Read → Prop
  | getGroup id => Store.getGroup t.groups id = Store.getGroup s.groups id
  | getSession group => Store.getSession t.sessions group = Store.getSession s.sessions group
  | getState key => Store.getState t.state key = Store.getState s.state key
  | getMessagesSince group cursor limit =>
    Store.getMessagesSince t.messageRows group cursor limit =
      Store.getMessagesSince s.messageRows group cursor limit
  | getDueTasks now limit =>
    Store.getDueTasks key t.tasks.table now limit = Store.getDueTasks key s.tasks.table now limit
  | loadTask id => Store.loadTask id t.tasks.table = Store.loadTask id s.tasks.table
  | listEvents filter limit =>
    Store.listEvents key t.events filter limit = Store.listEvents key s.events filter limit

/-- The write has to do with what is read: it has its key. `t` is the store after it, which
    knows the calls that transactions and task calls were made with. -/
def Write.Touches {K : Type} [LinearOrder K] (key : DateTime → K) (t : Tables ι κ) :
    Write ι κ → Read → Prop
  | upsertGroup group, .getGroup id => group.id = id
  | setSession _ group _, .getSession group' => group = group'
  | setState _ key _, .getState key' => key = key'
  | storeMessage i _, .getMessagesSince group _ _ =>
    ∃ txn, t.messages.txns i = some txn ∧ txn.call.groupId = group
  | task _, .getDueTasks _ _ => True
  | task c, .loadTask id => ∃ call p, t.tasks.calls c = some (call, p) ∧ call.id = id
  | recordEvent generateId event, .listEvents filter _ =>
    filter.accepts key (eventRow generateId event) = true
  | _, _ => False

theorem insert_of_storeMessage {msg : NewMessage} {row : Messages.ActiveModel}
    (h : .insert row ∈ storeMessage hashtextextended backend msg) :
    row.groupId = msg.groupId.value := by
  unfold storeMessage at h
  split at h
  · simp at h
    simp [h]
  · simp at h
    simp [h]

/-- Rows that a query does not select may be added. -/
theorem select_append_of_none {α K : Type} [LinearOrder K] {p : α → Bool} {new : List α}
    (h : ∀ row ∈ new, p row = false) (key : α → K) (n : Nat) (rows : List α) :
    Page.select p key n (rows ++ new) = Page.select p key n rows := by
  have hnone : new.filter p = [] := by simpa [List.filter_eq_nil_iff] using h
  rw [Page.select, Page.select, List.filter_append, hnone, List.append_nil]

theorem getMessagesSince_append {new : List Messages.Model} {group : GroupId}
    (h : ∀ row ∈ new, row.groupId ≠ group.value) (rows : List Messages.Model) (cursor : Cursor)
    (limit : Int) :
    getMessagesSince (rows ++ new) group cursor limit =
      getMessagesSince rows group cursor limit := by
  have hnone : ∀ row ∈ new,
      (row.groupId == group.value && decide (row.seq > cursor.seq)) = false := by
    intro row hrow
    simp [h row hrow]
  unfold getMessagesSince
  simp only [select_append_of_none hnone]

theorem listEvents_append {K : Type} [LinearOrder K] {key : DateTime → K} {row : Events.Model}
    {filter : EventFilter} (h : ¬ filter.accepts key row = true) (rows : List Events.Model)
    (limit : Int) :
    listEvents key (rows ++ [row]) filter limit = listEvents key rows filter limit := by
  have hnone : ∀ row' ∈ [row], filter.accepts key row' = false := by
    simpa using h
  unfold listEvents
  simp only [select_append_of_none hnone]

theorem reachable_messages (h : (storeRuns ι κ hashtextextended backend env).Reachable s) :
    (Transactions.system ι (·.id) (storeMessage hashtextextended backend)).Reachable
      s.messages := by
  refine h.invariant (I := fun s : Tables ι κ => (Transactions.system ι (·.id)
    (storeMessage hashtextextended backend)).Reachable s.messages) ?_ fun hs hstep => ?_
  · rintro s rfl
    exact .init rfl
  · cases hstep with
    | storeMessage i a db hdb => exact hs.step hdb
    | _ => exact hs

/-- The rows that a step on `messages` makes visible are of the group of its message. -/
theorem step_messageRows (h : (storeRuns ι κ hashtextextended backend env).Reachable s) {i : ι}
    {a : Transactions.Act} {db : Transactions.Db ι Int Messages.ActiveModel NewMessage}
    (hdb : Transactions.Step (·.id) (storeMessage hashtextextended backend) s.messages (i, a) db) :
    ∃ new, Tables.messageRows { s with messages := db } = s.messageRows ++ new ∧
      ∀ row ∈ new, ∃ txn, db.txns i = some txn ∧ row.groupId = txn.call.groupId.value := by
  obtain ⟨new, hrows, hnew⟩ := Transactions.step_new_rows (reachable_messages h) hdb
  refine ⟨new.map fun p => p.2.model p.1, by simp [Tables.messageRows, hrows], ?_⟩
  intro row hrow
  obtain ⟨p, hp, rfl⟩ := List.mem_map.mp hrow
  obtain ⟨txn, htxn, hinsert⟩ := hnew p hp
  exact ⟨txn, htxn, insert_of_storeMessage hinsert⟩

theorem reachable_tasks (h : (storeRuns ι κ hashtextextended backend env).Reachable s) :
    (TaskUpdates.system κ env).Reachable s.tasks := by
  refine h.invariant (I := fun s : Tables ι κ => (TaskUpdates.system κ env).Reachable s.tasks) ?_
    fun hs hstep => ?_
  · rintro s rfl
    exact .init rfl
  · cases hstep with
    | task c t ht => exact hs.step ht
    | _ => exact hs

theorem recordEvent_eq_ok {duplicateKey : DbErr} {generateId : String} {event : NewEvent}
    {db db' : List Events.Model} (h : recordEvent duplicateKey generateId event db = .ok db') :
    (∀ row ∈ db, row.id ≠ generateId) ∧ db' = db ++ [eventRow generateId event] := by
  unfold recordEvent at h
  split at h
  · cases h
  · rename_i hnew
    cases h
    exact ⟨by simpa using hnew, rfl⟩

/-- **What a write does not touch is read as before.** -/
theorem step_frame {K : Type} [LinearOrder K] {key : DateTime → K}
    (h : (storeRuns ι κ hashtextextended backend env).Reachable s)
    {w : Write ι κ} {t : Tables ι κ} (hstep : WriteStep hashtextextended backend env s w t)
    {read : Read} (hread : ¬ w.Touches key t read) : read.Same key s t := by
  cases hstep with
  | upsertGroup group =>
    cases read with
    | getGroup id =>
      have hne : group.id.value ≠ id.value := fun he => hread (groupId_value_inj.mp he)
      exact congrArg (Option.map _) (Columns.find_insert_of_ne Groups.keyed hne s.groups)
    | _ => rfl
  | setSession now group sessionId =>
    cases read with
    | getSession group' =>
      have hne : group.value ≠ group'.value := fun he => hread (groupId_value_inj.mp he)
      exact congrArg (Option.map _) (Columns.find_insert_of_ne Sessions.keyed hne s.sessions)
    | _ => rfl
  | setState now key value =>
    cases read with
    | getState key' =>
      have hne : key ≠ key' := hread
      exact congrArg (Option.map _) (Columns.find_insert_of_ne State.keyed hne s.state)
    | _ => rfl
  | storeMessage i a db hdb =>
    cases read with
    | getMessagesSince group cursor limit =>
      obtain ⟨new, hrows, hnew⟩ := step_messageRows h hdb
      have hother : ∀ row ∈ new, row.groupId ≠ group.value := by
        rintro row hrow he
        obtain ⟨txn, htxn, hgroup⟩ := hnew row hrow
        exact hread ⟨txn, htxn, groupId_value_inj.mp (hgroup.symm.trans he)⟩
      show getMessagesSince (Tables.messageRows { s with messages := db }) group cursor limit = _
      rw [hrows, getMessagesSince_append hother]
    | _ => rfl
  | task c t ht =>
    cases read with
    | getDueTasks now limit => exact absurd trivial hread
    | loadTask id =>
      obtain ⟨call, p, hcall, htable⟩ :=
        TaskUpdates.step_run (TaskUpdates.inv_of_reachable (reachable_tasks h)) ht
      rcases htable with hsame | hrun
      · exact congrArg (loadTask id) hsame
      · exact TaskUpdates.run_loadTask hrun fun he => hread ⟨call, p, hcall, he.symm⟩
    | _ => rfl
  | recordEvent generateId event db hdb =>
    cases read with
    | listEvents filter limit =>
      obtain ⟨-, rfl⟩ := recordEvent_eq_ok hdb
      exact listEvents_append hread s.events limit
    | _ => rfl
  | recordEventFails generateId event e hdb => cases read <;> rfl

/-! ## One row for a key -/

/-- No table has two rows of one key. -/
structure KeysDistinct (s : Tables ι κ) : Prop where
  groups : (s.groups.map (·.id)).Nodup
  sessions : (s.sessions.map (·.groupId)).Nodup
  state : (s.state.map (·.key)).Nodup
  messageSeqs : (s.messageRows.map (·.seq)).Nodup
  messageIds : (s.messageRows.map (·.id)).Nodup
  tasks : (s.tasks.table.map (·.id)).Nodup
  events : (s.events.map (·.id)).Nodup

theorem eventIds_distinct (h : (storeRuns ι κ hashtextextended backend env).Reachable s) :
    (s.events.map (·.id)).Nodup := by
  refine h.invariant (I := fun s : Tables ι κ => (s.events.map (·.id)).Nodup) ?_
    fun hs hstep => ?_
  · rintro s rfl
    exact List.nodup_nil
  · cases hstep with
    | recordEvent generateId event db hdb =>
      exact @recordEvent_distinct _ _ _ ⟨_, hs⟩ _ hdb
    | _ => exact hs

theorem keysDistinct (h : (storeRuns ι κ hashtextextended backend env).Run .empty writes s) :
    KeysDistinct s where
  groups := by
    rw [run_groups h]
    exact Columns.nodup_insertAll Groups.keyed _
  sessions := by
    rw [run_sessions h]
    exact Columns.nodup_insertAll Sessions.keyed _
  state := by
    rw [run_state h]
    exact Columns.nodup_insertAll State.keyed _
  messageSeqs := by
    have hseqs := Transactions.numbers_distinct (reachable_messages (h.reachable rfl))
    rwa [Tables.messageRows, List.map_map]
  messageIds := by
    have hids := Transactions.ids_distinct (reachable_messages (h.reachable rfl))
    rwa [Tables.messageRows, List.map_map]
  tasks := TaskUpdates.ids_distinct (reachable_tasks (h.reachable rfl))
  events := eventIds_distinct (h.reachable rfl)

/-- **Upserts over whole runs.** After any run from the migrated, empty store: a group is
    there iff it was upserted, with the `created_at` of the first upsert and all else of the
    last; a session or a value is the last one set for its key; no table has two rows of one
    key; and no write changes what is read for another key or from another table, however the
    database orders timestamps. -/
theorem upserts_over_runs {K : Type} [LinearOrder K] (key : DateTime → K)
    (h : (storeRuns ι κ hashtextextended backend env).Run .empty writes s) :
    (∀ id, upsertsOf id writes = [] → getGroup s.groups id = none) ∧
    (∀ id first last, (upsertsOf id writes).head? = some first →
      (upsertsOf id writes).getLast? = some last →
      getGroup s.groups id = some ⟨id, last.displayName, last.configJson, last.active,
        first.createdAt, last.updatedAt⟩) ∧
    (∀ group, getSession s.sessions group = (sessionsSet group writes).getLast?) ∧
    (∀ key, getState s.state key = (valuesSet key writes).getLast?) ∧
    KeysDistinct s ∧
    ∀ w t read, WriteStep hashtextextended backend env s w t → ¬ w.Touches key t read →
      read.Same key s t := by
  refine ⟨fun id hnone => ?_, fun id first last hfirst hlast => ?_, getSession_run h,
    getState_run h, keysDistinct h, fun w t read hstep hread => ?_⟩
  · rw [getGroup_run h, hnone]
    rfl
  · rw [getGroup_run h, hfirst, hlast]
    rfl
  · exact step_frame (h.reachable rfl) hstep hread

end Runs

/-- A group registered twice, with a setting written in between and changed after. -/
theorem upserts_over_runs_twice :
    ∃ s : Tables Unit Unit,
      getGroup s.groups ⟨"ops"⟩ = some ⟨⟨"ops"⟩, "Beta", "null", false, 1, 5⟩ ∧
      getGroup s.groups ⟨"dev"⟩ = none ∧ getState s.state "k" = some "v2" := by
  have h₁ : (storeRuns Unit Unit (fun _ => 0) .sqlite TaskUpdates.sampleEnv).Run .empty _ _ :=
    TransitionSystem.Run.nil.concat (.upsertGroup _ ⟨⟨"ops"⟩, "Alpha", "null", true, 1, 1⟩)
  have h₂ := h₁.concat (.setState _ 2 "k" "v1")
  have h₃ := h₂.concat (.upsertGroup _ ⟨⟨"ops"⟩, "Beta", "null", false, 5, 5⟩)
  have h₄ := h₃.concat (.setState _ 6 "k" "v2")
  obtain ⟨hnone, hgroup, -, hstate, -, -⟩ := upserts_over_runs id h₄
  exact ⟨_, hgroup ⟨"ops"⟩ _ _ rfl rfl, hnone ⟨"dev"⟩ rfl, hstate "k"⟩

end Forgeclaw.Store
