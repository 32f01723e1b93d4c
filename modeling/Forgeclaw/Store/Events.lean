/-
  The `events` audit log: its types (`types/event.rs`, `entities/events.rs`) and its
  operations (`ops/events.rs`); and how far back `list_events` can see.

  * `mem_listEvents_iff`: an event is on a page iff fewer events than the page holds pass the
    filter and are newer;
  * `log_readable_iff`: when the events that pass a filter can all be listed, by whatever
    calls.
-/
import Forgeclaw.Foundation.Decimal
import Forgeclaw.Store.Basic

open Forgeclaw.Core

namespace Forgeclaw.Store

structure NewEvent where
  kind : String
  groupId : Option GroupId
  payload : String
  createdAt : DateTime
  deriving DecidableEq, Repr

structure StoredEvent where
  id : String
  kind : String
  groupId : Option GroupId
  payload : String
  createdAt : DateTime
  deriving DecidableEq, Repr

/-- Each field that is there must hold of an event. -/
structure EventFilter where
  kind : Option String
  groupId : Option GroupId
  since : Option DateTime
  deriving DecidableEq, Repr

/-- `EventFilter::default()` -/
def EventFilter.default : EventFilter := ⟨none, none, none⟩

namespace Events

/-- A row. -/
structure Model where
  id : String
  kind : String
  groupId : Option String
  payload : String
  createdAt : DateTime
  deriving DecidableEq, Repr

def rowToStored (row : Model) : StoredEvent where
  id := row.id
  kind := row.kind
  groupId := row.groupId.map GroupId.mk
  payload := row.payload
  createdAt := row.createdAt

/-- The table; its primary key is `id`. -/
structure Table where
  rows : List Model
  distinct : (rows.map (·.id)).Nodup

end Events

section Ops

open Events

/-- `record_event`; `duplicateKey` is the driver's error for an id that is there already. -/
def recordEvent (duplicateKey : DbErr) (generateId : String) (event : NewEvent)
    (db : List Model) : Except StoreError (List Model) :=
  if db.any (·.id == generateId) then
    .error (.fromDbErr duplicateKey)
  else
    .ok (db ++ [{
      id := generateId
      kind := event.kind
      groupId := event.groupId.map (·.value)
      payload := event.payload
      createdAt := event.createdAt }])

/-- What `record_event` writes to a table is a table. -/
theorem recordEvent_distinct {duplicateKey : DbErr} {generateId : String} {event : NewEvent}
    {table : Table} {db : List Model}
    (h : recordEvent duplicateKey generateId event table.rows = .ok db) :
    (db.map (·.id)).Nodup := by
  unfold recordEvent at h
  split at h
  · cases h
  · rename_i hnew
    cases h
    rw [List.map_append, List.map_singleton, ← List.concat_eq_append]
    apply table.distinct.concat
    simpa using hnew

variable {K : Type} [LinearOrder K] (key : DateTime → K)

/-- The `WHERE` that `apply_if` puts together; no column comparison holds of `NULL`. -/
def EventFilter.accepts (filter : EventFilter) (row : Model) : Bool :=
  filter.kind.all (fun kind => row.kind == kind) &&
  filter.groupId.all (fun group => row.groupId == some group.value) &&
  filter.since.all (fun since => decide (key row.createdAt > key since))

/-- `ORDER BY created_at DESC, id DESC` -/
def newestFirst (row : Model) : (K ×ₗ String)ᵒᵈ :=
  OrderDual.toDual (toLex (key row.createdAt, row.id))

def listEvents (db : List Model) (filter : EventFilter) (limit : Int) :
    Except StoreError (List StoredEvent) := do
  let take ← clampedTake limit "list_events"
  if take = 0 then
    return []
  let rows := Page.select (filter.accepts key) (newestFirst key) take db
  return rows.map rowToStored

/-! ## Which events a call lists -/

variable {key}

theorem rowToStored_inj {row row' : Model} (h : rowToStored row = rowToStored row') :
    row = row' := by
  obtain ⟨id, kind, group, payload, createdAt⟩ := row
  obtain ⟨id', kind', group', payload', createdAt'⟩ := row'
  simp only [rowToStored, StoredEvent.mk.injEq] at h
  obtain ⟨rfl, rfl, hgroup, rfl, rfl⟩ := h
  have hinj : Function.Injective GroupId.mk := fun a b hab => GroupId.mk.inj hab
  rw [Option.map_injective hinj hgroup]

omit [LinearOrder K] in
theorem Events.Table.keys_distinct (table : Table) :
    table.rows.Pairwise fun a b => newestFirst key a ≠ newestFirst key b := by
  refine (List.pairwise_map.mp table.distinct).imp fun {a b} hne he => hne ?_
  exact congrArg (fun k : (K ×ₗ String)ᵒᵈ => (ofLex (OrderDual.ofDual k)).2) he

theorem listEvents_eq_ok {db : List Model} {filter : EventFilter} {limit : Int}
    {page : List StoredEvent} (h : listEvents key db filter limit = .ok page) :
    page =
      (Page.select (filter.accepts key) (newestFirst key) (pageSize limit) db).map rowToStored := by
  unfold listEvents at h
  cases htake : clampedTake limit "list_events" with
  | error e =>
    rw [htake] at h
    cases h
  | ok take =>
    obtain ⟨-, rfl⟩ := clampedTake_eq_ok htake
    rw [htake] at h
    simp only [bind, Except.bind] at h
    split at h
    · rename_i h0
      cases h
      rw [h0]
      rfl
    · exact (Except.ok.inj h).symm

theorem mem_listEvents_iff (table : Table) {filter : EventFilter} {limit : Int}
    {page : List StoredEvent} (h : listEvents key table.rows filter limit = .ok page)
    (row : Model) :
    rowToStored row ∈ page ↔ row ∈ table.rows ∧ filter.accepts key row = true ∧
      Page.before (newestFirst key) row (table.rows.filter (filter.accepts key)) <
        pageSize limit := by
  rw [listEvents_eq_ok h, ← Page.mem_select_iff table.keys_distinct]
  constructor
  · intro hmem
    obtain ⟨row', hrow', he⟩ := List.mem_map.mp hmem
    exact rowToStored_inj he ▸ hrow'
  · exact List.mem_map_of_mem

/-! ## Which events some call lists -/

/-- The later event has the kind of the row, and its group if it has one. -/
def alike (row row' : Model) : Bool :=
  row'.kind == row.kind && row.groupId.all fun group => row'.groupId == some group

variable (key) in
/-- How many events of the row's kind and group are newer than the row. -/
def newerAlike (db : List Model) (row : Model) : Nat :=
  db.countP fun row' => alike row row' && decide (newestFirst key row' < newestFirst key row)

/-- The closest filter for an event. -/
def closest (row : Model) : EventFilter := ⟨some row.kind, row.groupId.map GroupId.mk, none⟩

theorem closest_accepts (row row' : Model) : (closest row).accepts key row' = alike row row' := by
  unfold EventFilter.accepts closest alike
  cases row.groupId <;> simp

theorem accepts_of_newer {filter : EventFilter} {row row' : Model}
    (h : filter.accepts key row = true) (halike : alike row row' = true)
    (hnewer : newestFirst key row' < newestFirst key row) : filter.accepts key row' = true := by
  have htime : key row.createdAt ≤ key row'.createdAt := by
    have hlt : toLex (key row.createdAt, row.id) < toLex (key row'.createdAt, row'.id) := hnewer
    rcases Prod.Lex.lt_iff.mp hlt with hlt | ⟨he, -⟩
    · exact hlt.le
    · exact he.le
  obtain ⟨kind, group, since⟩ := filter
  simp only [EventFilter.accepts, alike, Bool.and_eq_true, Option.all_eq_true, beq_iff_eq,
    decide_eq_true_eq] at h halike ⊢
  obtain ⟨⟨hkind, hgroup⟩, hsince⟩ := h
  refine ⟨⟨fun k hk => halike.1.trans (hkind k hk), fun g hg => ?_⟩, fun t ht => ?_⟩
  · exact halike.2 g.value (hgroup g hg)
  · exact lt_of_lt_of_le (hsince t ht) htime

/-- No filter hides newer events of an event's kind and group without the event. -/
theorem newerAlike_le {filter : EventFilter} {row : Model} (h : filter.accepts key row = true)
    (db : List Model) :
    newerAlike key db row ≤ Page.before (newestFirst key) row (db.filter (filter.accepts key)) := by
  rw [newerAlike, Page.before, List.countP_filter]
  refine List.countP_mono_left fun row' _ hrow' => ?_
  obtain ⟨halike, hnewer⟩ := Bool.and_eq_true_iff.mp hrow'
  rw [Bool.and_eq_true]
  exact ⟨hnewer, accepts_of_newer h halike (by simpa using hnewer)⟩

theorem before_closest (db : List Model) (row : Model) :
    Page.before (newestFirst key) row (db.filter ((closest row).accepts key)) =
      newerAlike key db row := by
  rw [newerAlike, Page.before, List.countP_filter]
  refine List.countP_congr fun row' _ => ?_
  rw [closest_accepts, Bool.and_comm]

variable (key) in
/-- Some call's result has the row. -/
def Listed (table : Table) (calls : List (EventFilter × Int)) (row : Model) : Prop :=
  ∃ call ∈ calls, ∃ page, listEvents key table.rows call.1 call.2 = .ok page ∧
    rowToStored row ∈ page

variable (key) in
/-- The calls' results together have every event that passes the filter. -/
def Covers (table : Table) (filter : EventFilter) (calls : List (EventFilter × Int)) : Prop :=
  ∀ row ∈ table.rows, filter.accepts key row = true → Listed key table calls row

theorem pageSize_le (limit : Int) : pageSize limit ≤ maxPageSize.toNat := by
  unfold pageSize
  omega

/-- An event with a page or more of newer events of its kind and group is out of reach. -/
theorem Listed.newerAlike_lt {table : Table} {calls : List (EventFilter × Int)} {row : Model}
    (h : Listed key table calls row) : newerAlike key table.rows row < maxPageSize.toNat := by
  obtain ⟨call, -, page, hpage, hmem⟩ := h
  obtain ⟨-, haccepts, hlt⟩ := (mem_listEvents_iff table hpage row).mp hmem
  exact lt_of_le_of_lt (newerAlike_le haccepts _) (lt_of_lt_of_le hlt (pageSize_le _))

theorem listed_closest {table : Table} {row : Model} (hrow : row ∈ table.rows)
    (hlt : newerAlike key table.rows row < maxPageSize.toNat)
    {calls : List (EventFilter × Int)} (hcall : (closest row, maxPageSize) ∈ calls) :
    Listed key table calls row := by
  have hpage : listEvents key table.rows (closest row) maxPageSize = .ok
      ((Page.select ((closest row).accepts key) (newestFirst key) 10000 table.rows).map
        rowToStored) := rfl
  refine ⟨_, hcall, _, hpage, (mem_listEvents_iff table hpage row).mpr ⟨hrow, ?_, ?_⟩⟩
  · rw [closest_accepts, alike]
    cases row.groupId <;> simp
  · rw [before_closest]
    exact hlt

variable (key) in
/-- **What can be read of the log.** However the database orders timestamps, some finite
    sequence of `list_events` calls has every event that passes a filter iff each of these events
    has fewer than `MAX_PAGE_SIZE` events of its kind and, if it has a group, its group that are
    newer in that order. -/
theorem log_readable_iff (table : Table) (filter : EventFilter) :
    (∃ calls, Covers key table filter calls) ↔
      ∀ row ∈ table.rows, filter.accepts key row = true →
        newerAlike key table.rows row < maxPageSize.toNat := by
  constructor
  · rintro ⟨calls, hcovers⟩ row hrow haccepts
    exact (hcovers row hrow haccepts).newerAlike_lt
  · intro h
    refine ⟨table.rows.map fun row => (closest row, maxPageSize), fun row hrow haccepts => ?_⟩
    exact listed_closest hrow (h row hrow haccepts) (List.mem_map_of_mem hrow)

/-! ### A busy log -/

open Decimal

/-- The id of the event number `n`, in the form of a UUID. -/
def busyId (n : Nat) : String :=
  String.ofList ("01900000-0000-7000-8000-0000000".toList ++
    [digit (n / 10000), digit (n / 1000), digit (n / 100), digit (n / 10), digit n])

theorem busyId_inj {m n : Nat} (hm : m < 100000) (hn : n < 100000) (h : busyId m = busyId n) :
    m = n := by
  have hlist := List.append_cancel_left (String.ofList_injective h)
  simp only [List.cons.injEq, and_true] at hlist
  obtain ⟨h₁, h₂, h₃, h₄, h₅⟩ := hlist
  have := digit_inj h₁
  have := digit_inj h₂
  have := digit_inj h₃
  have := digit_inj h₄
  have := digit_inj h₅
  omega

def busyRow (n : Nat) : Model := ⟨busyId n, "message.received", some "ops", "\x7b\x7d", n⟩

/-- One group's log: `n + 1` events of one kind, one step of the clock apart. -/
def busyTable (n : Nat) (h : n < 99999) : Table where
  rows := (List.range (n + 1)).map busyRow
  distinct := by
    rw [List.map_map]
    refine List.nodup_range.map_on fun k hk l hl he => ?_
    rw [List.mem_range] at hk hl
    exact busyId_inj (by omega) (by omega) he

theorem newerAlike_busyTable {n : Nat} (h : n < 99999) :
    newerAlike id (busyTable n h).rows (busyRow 0) = n := by
  have hnewer : ∀ k, newestFirst id (busyRow (k + 1)) < newestFirst id (busyRow 0) := by
    intro k
    show toLex (((0 : Nat) : Int), busyId 0) < toLex (((k + 1 : Nat) : Int), busyId (k + 1))
    exact Prod.Lex.lt_iff.mpr (.inl (Int.ofNat_lt.mpr k.succ_pos))
  have hall : ∀ k ∈ List.range n, ((fun row' => alike (busyRow 0) row' &&
      decide (newestFirst id row' < newestFirst id (busyRow 0))) ∘ busyRow ∘ Nat.succ) k = true := by
    intro k _
    simp only [Function.comp_apply, Nat.succ_eq_add_one, hnewer k, decide_true, Bool.and_true]
    rfl
  show newerAlike id ((List.range (n + 1)).map busyRow) (busyRow 0) = n
  rw [newerAlike, List.range_succ_eq_map, List.map_cons, List.countP_cons, List.map_map,
    List.countP_map, List.countP_eq_length.mpr hall, List.length_range]
  simp

/-- With a page or more of newer events the oldest one is in no result of any calls, also in a
    database that orders timestamps as instants. -/
theorem busyTable_not_readable {n : Nat} (h : n < 99999) (hn : maxPageSize.toNat ≤ n) :
    ¬ ∃ calls, Covers id (busyTable n h) .default calls := by
  rintro ⟨calls, hcovers⟩
  have hmem : busyRow 0 ∈ (busyTable n h).rows :=
    List.mem_map_of_mem (List.mem_range.mpr n.succ_pos)
  have hlt := (hcovers (busyRow 0) hmem rfl).newerAlike_lt
  rw [newerAlike_busyTable h] at hlt
  exact absurd hlt (not_lt_of_ge hn)

theorem busy_log_not_readable :
    ¬ ∃ calls, Covers id (busyTable 10000 (by decide)) .default calls :=
  busyTable_not_readable _ (by decide)

end Ops

end Forgeclaw.Store
