/-
  The initial schema (`migrations/m20260411_000001_init.rs`): six tables and five indexes.

  `Migration.up` is the list of statements the code issues, in its order; nothing holds them
  together on SQLite, so a crash can leave any first part of them done.

  * `up_after_crashes`: whatever attempts were cut off, a whole run of `up` gives the one
    schema, `down` clears it, and both can be done again.
-/
import Forgeclaw.Store.Basic
import Forgeclaw.Foundation.Ddl

open Forgeclaw.Core

namespace Forgeclaw.Store

/-! ## Column and index definitions -/

inductive ColumnType where
  | text
  | boolean
  | bigInteger
  | timestampWithTimeZone
  deriving DecidableEq, Repr

/-- A value in a column. -/
inductive SqlValue where
  | null
  | text (s : String)
  | boolean (b : Bool)
  | integer (i : Int)
  | timestamp (t : DateTime)
  deriving DecidableEq, Repr

/-- `sea_query::ColumnDef`, with the options that the migration uses, and one that a table made
    elsewhere may have. -/
structure ColumnDef where
  name : String
  type : ColumnType
  nullable : Bool := true
  isPrimaryKey : Bool := false
  isUnique : Bool := false
  isAutoIncrement : Bool := false
  defaultValue : Option SqlValue := none
  /-- `GENERATED ALWAYS AS`; no column of the migration is. -/
  generated : Bool := false
  deriving DecidableEq, Repr

namespace ColumnDef

def text (name : String) : ColumnDef := { name, type := .text }
def boolean (name : String) : ColumnDef := { name, type := .boolean }
def bigInteger (name : String) : ColumnDef := { name, type := .bigInteger }
def timestampWithTimeZone (name : String) : ColumnDef := { name, type := .timestampWithTimeZone }

def notNull (c : ColumnDef) : ColumnDef := { c with nullable := false }
def primaryKey (c : ColumnDef) : ColumnDef := { c with isPrimaryKey := true }
def uniqueKey (c : ColumnDef) : ColumnDef := { c with isUnique := true }
def autoIncrement (c : ColumnDef) : ColumnDef := { c with isAutoIncrement := true }
def default (v : SqlValue) (c : ColumnDef) : ColumnDef := { c with defaultValue := some v }

end ColumnDef

/-- `sea_query::Index`: the columns, and for a partial index the column and the value that a
    row must have there. -/
structure IndexDef where
  columns : List String
  unique : Bool := false
  andWhere : Option (String × SqlValue) := none
  deriving DecidableEq, Repr

/-- The values of a row under the names of their columns. -/
abbrev Row := String → SqlValue

/-- An index can be put on these rows: a unique one needs rows that differ in its columns (two
    nulls do). -/
def IndexDef.builds (ix : IndexDef) (rows : List Row) : Bool :=
  !ix.unique ||
    decide (((rows.filter fun r => ix.andWhere.all fun w => r w.1 = w.2).Pairwise fun r r' =>
      ∃ c ∈ ix.columns, r c ≠ r' c ∨ r c = .null))

/-- A SQLite file, or the schema `public` of a PostgreSQL database. -/
abbrev Database := Ddl.Db String (List ColumnDef) IndexDef Row
abbrev Statement := Ddl.Stmt String (List ColumnDef) IndexDef

/-! ## The migration -/

namespace Migration

open ColumnDef

def createGroups : List Statement :=
  [.createTable "groups" true
    [(text "id").notNull.primaryKey,
     (text "display_name").notNull,
     (text "config_json").notNull,
     (boolean "active").notNull.default (.boolean true),
     (timestampWithTimeZone "created_at").notNull,
     (timestampWithTimeZone "updated_at").notNull]]

/-- `seq` is the cursor key, which the database assigns. -/
def createMessages : List Statement :=
  [.createTable "messages" true
    [(bigInteger "seq").notNull.primaryKey.autoIncrement,
     (text "id").notNull.uniqueKey,
     (text "group_id").notNull,
     (text "channel_id").notNull,
     (text "sender").notNull,
     (text "content").notNull,
     (timestampWithTimeZone "created_at").notNull],
   .createIndex "messages_group_seq_idx" true "messages" { columns := ["group_id", "seq"] }]

def createTasks : List Statement :=
  [.createTable "tasks" true
    [(text "id").notNull.primaryKey,
     (text "group_id").notNull,
     (text "prompt").notNull,
     (text "schedule_kind").notNull,
     (text "schedule_value").notNull,
     (text "status").notNull,
     timestampWithTimeZone "next_run",
     text "last_result",
     (timestampWithTimeZone "created_at").notNull,
     (timestampWithTimeZone "updated_at").notNull],
   .createIndex "tasks_due_idx" true "tasks"
    { columns := ["next_run"], andWhere := some ("status", .text "active") }]

def createState : List Statement :=
  [.createTable "state" true
    [(text "key").notNull.primaryKey,
     (text "value").notNull,
     (timestampWithTimeZone "updated_at").notNull]]

def createSessions : List Statement :=
  [.createTable "sessions" true
    [(text "group_id").notNull.primaryKey,
     (text "session_id").notNull,
     (timestampWithTimeZone "updated_at").notNull]]

def createEvents : List Statement :=
  [.createTable "events" true
    [(text "id").notNull.primaryKey,
     (text "kind").notNull,
     text "group_id",
     (text "payload").notNull,
     (timestampWithTimeZone "created_at").notNull],
   .createIndex "events_created_idx" true "events" { columns := ["created_at"] },
   .createIndex "events_kind_idx" true "events" { columns := ["kind", "created_at"] },
   .createIndex "events_group_idx" true "events" { columns := ["group_id", "created_at"] }]

def up : List Statement :=
  createGroups ++ createMessages ++ createTasks ++ createState ++ createSessions ++ createEvents

/-- In reverse creation order. -/
def down : List Statement :=
  [.dropTable "events" true,
   .dropTable "sessions" true,
   .dropTable "state" true,
   .dropTable "tasks" true,
   .dropTable "messages" true,
   .dropTable "groups" true]

/-- Statements run on a database one after the other, with no transaction around them; there is
    nothing in it that refers to the tables. -/
abbrev run (sts : List Statement) (db : Database) : Option Database :=
  Ddl.run IndexDef.builds (fun _ => false) sts db

/-- The names of the migration's tables and of its indexes. -/
def tableNames : List String := ["groups", "messages", "tasks", "state", "sessions", "events"]

def indexNames : List String :=
  ["messages_group_seq_idx", "tasks_due_idx", "events_created_idx", "events_kind_idx",
   "events_group_idx"]

/-! ## The migration as a script -/

theorem mem_tableNames {n : String} : n ∈ tableNames ↔ ∃ d, .createTable n true d ∈ up := by
  simp [up, createGroups, createMessages, createTasks, createState, createSessions,
    createEvents, tableNames, exists_or]

theorem mem_indexNames {n : String} : n ∈ indexNames ↔ ∃ t d, .createIndex n true t d ∈ up := by
  simp [up, createGroups, createMessages, createTasks, createState, createSessions,
    createEvents, indexNames, exists_or]

theorem up_not_unique {n : String} {g : Bool} {t : String} {d : IndexDef}
    (h : .createIndex n g t d ∈ up) : d.unique = false := by
  simp [up, createGroups, createMessages, createTasks, createState, createSessions,
    createEvents] at h
  rcases h with h | h | h | h | h <;> simp [h]

/-- Every statement of `up` is guarded, names its own object and comes after what it needs. -/
def script : Ddl.Script IndexDef.builds String (List ColumnDef) where
  steps := up
  guarded := by decide
  nodup := by decide
  inOrder := by simp [up, createGroups, createMessages, createTasks, createState,
    createSessions, createEvents, Ddl.InOrder]
  builds h rows := by simp [IndexDef.builds, up_not_unique h]

theorem tables_of_complete {s : Database} (h : script.Complete s) (n : String) :
    (s.tables n).isSome ↔ n ∈ tableNames := by
  rw [mem_tableNames, Option.isSome_iff_exists]
  constructor
  · rintro ⟨tb, hn⟩
    exact ⟨_, h.tables n tb hn⟩
  · rintro ⟨d, hd⟩
    obtain ⟨rows, hn⟩ := h.present _ hd
    exact ⟨_, hn⟩

theorem indexes_of_complete {s : Database} (h : script.Complete s) (n : String) :
    (s.indexes n).isSome ↔ n ∈ indexNames := by
  rw [mem_indexNames, Option.isSome_iff_exists]
  constructor
  · rintro ⟨ix, hn⟩
    exact ⟨_, _, h.indexes n ix hn⟩
  · rintro ⟨t, d, hd⟩
    exact ⟨_, h.present _ hd⟩

theorem down_of_within {s : Database} (h : script.Within s) : run down s = some .empty := by
  refine Ddl.Script.drops_succeed h (by simp [down]) fun n g d hd => ?_
  obtain rfl : g = true := script.guarded _ hd
  have hn : n ∈ tableNames := mem_tableNames.mpr ⟨d, hd⟩
  simp only [tableNames, List.mem_cons, List.not_mem_nil, or_false] at hn
  rcases hn with rfl | rfl | rfl | rfl | rfl | rfl <;> simp [down]

/-- **A migration that was cut off is finished by the next run.** Let `s` be what any number of
    attempts left, each stopped after any step, with rows put into its tables in between. A
    run of `up` ends in the schema that it gives on an empty database, with all rows of `s`,
    and a further run changes nothing; `down` removes the tables and the indexes, after which
    `up` gives the schema again. -/
theorem up_after_crashes {s : Database} (h : script.attempts.Reachable s) :
    ∃ t₀, run up .empty = some t₀ ∧
      ((∀ n, (t₀.tables n).isSome ↔ n ∈ tableNames) ∧
        ∀ n, (t₀.indexes n).isSome ↔ n ∈ indexNames) ∧
      (∃ t, run up s = some t ∧ t.schema = t₀.schema ∧
        (∀ n tb, s.tables n = some tb → t.tables n = some tb) ∧ run up t = some t) ∧
      ∃ d, run down s = some d ∧ (∀ n ∈ tableNames, d.tables n = none) ∧
        (∀ n ∈ indexNames, d.indexes n = none) ∧
        (∀ n ix, d.indexes n = some ix → ix.table ∉ tableNames) ∧
        ∃ u, run up d = some u ∧ u.schema = t₀.schema := by
  have hs := Ddl.Script.within_of_reachable h
  have h₀ : script.Within (.empty : Database) := Ddl.Script.within_empty
  obtain ⟨t₀, ht₀, hc₀, -⟩ := Ddl.Script.run_succeeds h₀
  obtain ⟨t, ht, hc, hext⟩ := Ddl.Script.run_succeeds hs
  refine ⟨t₀, ht₀, ⟨tables_of_complete hc₀, indexes_of_complete hc₀⟩,
    ⟨t, ht, Ddl.Script.schema_unique hc hc₀, hext.tables, Ddl.Script.run_again hc⟩, ?_⟩
  exact ⟨.empty, down_of_within hs, by simp [Ddl.Db.empty], by simp [Ddl.Db.empty],
    by simp [Ddl.Db.empty], t₀, ht₀, rfl⟩

/-- Cut off after the table of the messages, with a row in it and before its index. -/
theorem up_after_crashes_messages :
    ∃ s t : Database, run (up.take 2) .empty = some s ∧
      run up (s.insertRow "messages" fun _ => .text "m") = some t ∧
      ((s.insertRow "messages" fun _ => .text "m").tables "messages").map
        (fun tb => tb.rows.length) = some 1 ∧
      run up t = some t := by
  obtain ⟨s, hs, hm⟩ : ∃ s : Database, run (up.take 2) .empty = some s ∧
      (s.tables "messages").map (fun tb => tb.rows.length) = some 0 := ⟨_, rfl, rfl⟩
  obtain ⟨tb, htb, hlen⟩ := Option.map_eq_some_iff.mp hm
  have hreach : script.attempts.Reachable (s.insertRow "messages" fun _ => .text "m") :=
    ((TransitionSystem.Reachable.init rfl).step (a := .attempt 2) hs).step
      (a := .insert "messages" fun _ => .text "m") ⟨by simp [htb], rfl⟩
  obtain ⟨-, -, -, ⟨t, ht, -, -, hagain⟩, -⟩ := up_after_crashes hreach
  exact ⟨s, t, hs, ht, by simp [Ddl.Db.insertRow, htb, hlen], hagain⟩

end Migration

end Forgeclaw.Store
