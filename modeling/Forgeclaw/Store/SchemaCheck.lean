/-
  `schema_check.rs`, and the entities that it compares with the tables (`entities/`).

  What comes from the database is what its catalogue says about the columns of a table:
  SQLite's `table_info`, which leaves out generated columns, and the three views of PostgreSQL's
  `information_schema`, whose rows the query joins by the name of a constraint alone. So the keys
  of all tables come in, and `usage` has those of tables that are not among the six.

  * `actualShape_eq`: both catalogues describe the columns that they list as they were declared;
  * `check_reports`: `check` accepts what agrees with the entities, and else reports the first
    table that does not, with all that is missing and all that is too much;
  * `check_after_crashes`: which migrations that were cut off it accepts;
  * `migrations_at_once`: several programs can run the migration's statements on one SQLite file
    at the same time.
-/
import Forgeclaw.Foundation.DdlRunners
import Forgeclaw.Store.Error
import Forgeclaw.Store.Migration

namespace Forgeclaw.Store.SchemaCheck

/-! ## Entities -/

/-- A field of an entity's `Model`. An `Option` may be null. -/
structure Field where
  name : String
  type : ColumnType
  isOption : Bool := false
  isUnique : Bool := false
  deriving DecidableEq, Repr

/-- An entity: the fields of its `Model`, the ones marked `primary_key`, and whether the database
    assigns the key. -/
structure Entity where
  fields : List Field
  primaryKey : List String
  autoIncrement : Bool := false
  deriving DecidableEq, Repr

namespace Entity

/-- The columns of `Schema::create_table_from_entity`. -/
def createTable (e : Entity) : List ColumnDef :=
  e.fields.map fun f =>
    let c : ColumnDef := { name := f.name, type := f.type, isUnique := f.isUnique }
    let c := if f.isOption then c else c.notNull
    if e.primaryKey.contains f.name then
      let c := if e.autoIncrement then c.autoIncrement else c
      if e.primaryKey.length = 1 then c.primaryKey else c
    else c

end Entity

def messages : Entity where
  fields := [
    { name := "seq", type := .bigInteger },
    { name := "id", type := .text, isUnique := true },
    { name := "group_id", type := .text },
    { name := "channel_id", type := .text },
    { name := "sender", type := .text },
    { name := "content", type := .text },
    { name := "created_at", type := .timestampWithTimeZone }]
  primaryKey := ["seq"]
  autoIncrement := true

def groups : Entity where
  fields := [
    { name := "id", type := .text },
    { name := "display_name", type := .text },
    { name := "config_json", type := .text },
    { name := "active", type := .boolean },
    { name := "created_at", type := .timestampWithTimeZone },
    { name := "updated_at", type := .timestampWithTimeZone }]
  primaryKey := ["id"]

def tasks : Entity where
  fields := [
    { name := "id", type := .text },
    { name := "group_id", type := .text },
    { name := "prompt", type := .text },
    { name := "schedule_kind", type := .text },
    { name := "schedule_value", type := .text },
    { name := "status", type := .text },
    { name := "next_run", type := .timestampWithTimeZone, isOption := true },
    { name := "last_result", type := .text, isOption := true },
    { name := "created_at", type := .timestampWithTimeZone },
    { name := "updated_at", type := .timestampWithTimeZone }]
  primaryKey := ["id"]

def state : Entity where
  fields := [
    { name := "key", type := .text },
    { name := "value", type := .text },
    { name := "updated_at", type := .timestampWithTimeZone }]
  primaryKey := ["key"]

def sessions : Entity where
  fields := [
    { name := "group_id", type := .text },
    { name := "session_id", type := .text },
    { name := "updated_at", type := .timestampWithTimeZone }]
  primaryKey := ["group_id"]

def events : Entity where
  fields := [
    { name := "id", type := .text },
    { name := "kind", type := .text },
    { name := "group_id", type := .text, isOption := true },
    { name := "payload", type := .text },
    { name := "created_at", type := .timestampWithTimeZone }]
  primaryKey := ["id"]

/-! ## Shapes -/

/-- One column's observable shape. -/
structure ColumnShape where
  name : String
  notNull : Bool
  isPrimaryKey : Bool
  deriving DecidableEq, Repr

namespace ColumnShape

/-- The derived order: field by field. -/
def key (c : ColumnShape) : String ×ₗ Bool ×ₗ Bool :=
  toLex (c.name, toLex (c.notNull, c.isPrimaryKey))

instance : LinearOrder ColumnShape := LinearOrder.lift' key fun a b h => by
  cases a
  cases b
  simpa [key] using h

/-- `{:?}`; `debug` is that of a string. -/
def debug (debug : String → String) (c : ColumnShape) : String :=
  "ColumnShape \x7b name: " ++ debug c.name ++ ", not_null: " ++ toString c.notNull ++
    ", is_primary_key: " ++ toString c.isPrimaryKey ++ " \x7d"

end ColumnShape

/-- Shape the entity definition declares. -/
def expectedShape (entity : Entity) : Finset ColumnShape :=
  let pkNames := entity.primaryKey
  (entity.createTable.map fun c =>
    { name := c.name, notNull := !c.nullable, isPrimaryKey := pkNames.contains c.name }).toFinset

/-! ## What the database says -/

inductive DatabaseBackend where
  | sqlite
  | postgres
  | mySql
  deriving DecidableEq, Repr

/-- The columns of a table. -/
def columns (db : Database) (table : String) : List ColumnDef :=
  ((db.tables table).map Ddl.Table.definition).getD []

/-- `PRAGMA table_info`: the name, `notnull`, and for a column of the primary key its place in
    it. Generated columns are not listed. -/
def tableInfo (db : Database) (table : String) : List (String × Int × Int) :=
  let cs := (columns db table).filter (!·.generated)
  cs.map fun c =>
    (c.name, if c.nullable then 0 else 1,
      if c.isPrimaryKey then (cs.filter (·.isPrimaryKey)).idxOf c + 1 else 0)

/-- `information_schema.columns`: the name and `is_nullable`, which a key is not. -/
def schemaColumns (db : Database) (table : String) : List (String × String) :=
  (columns db table).map fun c =>
    (c.name, if c.nullable && !c.isPrimaryKey then "YES" else "NO")

structure KeyConstraint where
  constraintName : String
  constraintType : String
  columnName : String
  deriving DecidableEq, Repr

/-- The table's rows of `table_constraints`, one for each column of a key, under the names that
    PostgreSQL gives the keys. -/
def keyConstraints (db : Database) (table : String) : List KeyConstraint :=
  (columns db table).flatMap fun c =>
    (if c.isPrimaryKey then [⟨table ++ "_pkey", "PRIMARY KEY", c.name⟩] else []) ++
    if c.isUnique then [⟨table ++ "_" ++ c.name ++ "_key", "UNIQUE", c.name⟩] else []

/-- `key_column_usage`: the constraint and the column, for the keys of the six tables and, in
    `usage`, for all other keys and foreign keys of the schema. -/
def keyColumnUsage (usage : List (String × String)) (db : Database) : List (String × String) :=
  (Migration.tableNames.flatMap (keyConstraints db)).map
    (fun kc => (kc.constraintName, kc.columnName)) ++ usage

/-- `table_constraints` joined with `key_column_usage` on the constraint's name. -/
def primaryKeyColumns (usage : List (String × String)) (db : Database) (table : String) :
    List String :=
  ((keyConstraints db table).filter (·.constraintType = "PRIMARY KEY")).flatMap fun tc =>
    ((keyColumnUsage usage db).filter (·.1 = tc.constraintName)).map (·.2)

def actualShapeSqlite (db : Database) (table : String) : Finset ColumnShape :=
  ((tableInfo db table).map fun row =>
    { name := row.1, notNull := row.2.1 != 0, isPrimaryKey := row.2.2 != 0 }).toFinset

def actualShapePostgres (usage : List (String × String)) (db : Database) (table : String) :
    Finset ColumnShape :=
  let pkNames := primaryKeyColumns usage db table
  ((schemaColumns db table).map fun row =>
    { name := row.1, notNull := row.2 == "NO", isPrimaryKey := pkNames.contains row.1 }).toFinset

def actualShape (backend : DatabaseBackend) (usage : List (String × String)) (db : Database)
    (table : String) : Except StoreError (Finset ColumnShape) :=
  match backend with
  | .sqlite => .ok (actualShapeSqlite db table)
  | .postgres => .ok (actualShapePostgres usage db table)
  | .mySql => .error (.schemaDrift (some table) none "MySQL backend is not supported")

/-! ## The check -/

section Check

variable (debug : String → String) (backend : DatabaseBackend) (usage : List (String × String))
  (db : Database)

/-- `{:?}` of a vector. -/
def debugList (shapes : List ColumnShape) : String :=
  "[" ++ ", ".intercalate (shapes.map (ColumnShape.debug debug)) ++ "]"

def drift (table : String) (missing extra : List ColumnShape) : StoreError :=
  .schemaDrift (some table) none
    ("entity/table shape mismatch — missing in DB: " ++ debugList debug missing ++
      ", extra in DB: " ++ debugList debug extra)

def checkEntity (entity : Entity) (table : String) : Except StoreError Unit := do
  let expected := expectedShape entity
  let actual ← actualShape backend usage db table
  if expected ≠ actual then
    let missing := (expected \ actual).sort (· ≤ ·)
    let extra := (actual \ expected).sort (· ≤ ·)
    throw (drift debug table missing extra)

def check : Except StoreError Unit := do
  checkEntity debug backend usage db messages "messages"
  checkEntity debug backend usage db groups "groups"
  checkEntity debug backend usage db tasks "tasks"
  checkEntity debug backend usage db state "state"
  checkEntity debug backend usage db sessions "sessions"
  checkEntity debug backend usage db events "events"

end Check

/-! ## What the catalogues say -/

/-- A column as it was declared. PostgreSQL takes no null in a key. -/
def shape (backend : DatabaseBackend) (c : ColumnDef) : ColumnShape where
  name := c.name
  notNull := !c.nullable || (backend = .postgres && c.isPrimaryKey)
  isPrimaryKey := c.isPrimaryKey

/-- A column that the catalogue lists. -/
def isListed (backend : DatabaseBackend) (c : ColumnDef) : Bool :=
  !(backend = .sqlite && c.generated)

/-- The columns that the catalogue lists, as they were declared. -/
def declared (backend : DatabaseBackend) (db : Database) (table : String) : Finset ColumnShape :=
  (((columns db table).filter (isListed backend)).map (shape backend)).toFinset

/-- No other constraint of the schema has the name of the table's primary key. -/
def KeyNameFree (usage : List (String × String)) (table : String) : Prop :=
  ∀ kc ∈ usage, kc.1 ≠ table ++ "_pkey"

theorem keyNameFree_nil (table : String) : KeyNameFree [] table :=
  fun _ h => absurd h List.not_mem_nil

/-- The names of the two kinds differ before their last three characters. -/
theorem pkey_ne_key (table table' name : String) :
    table ++ "_pkey" ≠ table' ++ "_" ++ name ++ "_key" := by
  intro h
  have hlast := congrArg (fun n : String => n.toList.reverse.take 4) h
  simp only [String.toList_append, List.reverse_append] at hlast
  revert hlast
  simp

theorem eq_of_pkey_eq {table table' : String} (h : table ++ "_pkey" = table' ++ "_pkey") :
    table = table' := by
  have hlist := congrArg String.toList h
  rw [String.toList_append, String.toList_append, List.append_cancel_right_eq] at hlist
  exact String.toList_injective hlist

theorem mem_keyConstraints {db : Database} {table : String} {k : KeyConstraint} :
    k ∈ keyConstraints db table ↔ ∃ c ∈ columns db table,
      c.isPrimaryKey = true ∧ k = ⟨table ++ "_pkey", "PRIMARY KEY", c.name⟩ ∨
        c.isUnique = true ∧ k = ⟨table ++ "_" ++ c.name ++ "_key", "UNIQUE", c.name⟩ := by
  unfold keyConstraints
  simp only [List.mem_flatMap, List.mem_append]
  refine exists_congr fun c => and_congr_right fun _ => or_congr ?_ ?_
  · split <;> simp_all
  · split <;> simp_all

theorem mem_primaryKeyColumns {usage : List (String × String)} {db : Database}
    {table name : String} (htable : table ∈ Migration.tableNames)
    (husage : KeyNameFree usage table) :
    name ∈ primaryKeyColumns usage db table ↔
      ∃ c ∈ columns db table, c.isPrimaryKey = true ∧ c.name = name := by
  unfold primaryKeyColumns keyColumnUsage
  simp only [List.mem_flatMap, List.mem_map, List.mem_filter, List.mem_append, decide_eq_true_eq]
  constructor
  · rintro ⟨tc, ⟨htc, htype⟩, kc, ⟨hkc, hname⟩, rfl⟩
    obtain ⟨c, -, ⟨-, rfl⟩ | ⟨-, rfl⟩⟩ := mem_keyConstraints.mp htc
    · obtain ⟨k, ⟨table', -, hk⟩, rfl⟩ | hother := hkc
      · obtain ⟨c', hc', ⟨hpk, rfl⟩ | ⟨-, rfl⟩⟩ := mem_keyConstraints.mp hk
        · obtain rfl : table' = table := eq_of_pkey_eq hname
          exact ⟨c', hc', hpk, rfl⟩
        · exact absurd hname.symm (pkey_ne_key table table' c'.name)
      · exact absurd hname (husage kc hother)
    · simp at htype
  · rintro ⟨c, hc, hpk, rfl⟩
    have hkey := mem_keyConstraints.mpr ⟨c, hc, .inl ⟨hpk, rfl⟩⟩
    exact ⟨_, ⟨hkey, rfl⟩, _, ⟨.inl ⟨_, ⟨table, htable, hkey⟩, rfl⟩, rfl⟩, rfl⟩

theorem actualShapeSqlite_eq (db : Database) (table : String) :
    actualShapeSqlite db table = declared .sqlite db table := by
  have hlisted : (isListed .sqlite) = fun c : ColumnDef => !c.generated := by
    funext c
    simp [isListed]
  unfold actualShapeSqlite declared tableInfo
  rw [List.map_map, hlisted]
  refine congrArg List.toFinset (List.map_congr_left fun c _ => ?_)
  have hplace (n : Nat) : ((n : Int) + 1 != 0) = true := by
    simp
    omega
  cases hnull : c.nullable <;> cases hpk : c.isPrimaryKey <;> simp [shape, hnull, hpk, hplace]

theorem actualShapePostgres_eq {usage : List (String × String)} {db : Database} {table : String}
    (htable : table ∈ Migration.tableNames) (husage : KeyNameFree usage table)
    (hnodup : ((columns db table).map (·.name)).Nodup) :
    actualShapePostgres usage db table = declared .postgres db table := by
  have hall : (columns db table).filter (isListed .postgres) = columns db table :=
    List.filter_eq_self.mpr fun c _ => rfl
  unfold actualShapePostgres declared schemaColumns
  rw [hall]
  simp only [List.map_map]
  refine congrArg List.toFinset (List.map_congr_left fun c hc => ?_)
  have hpk : (primaryKeyColumns usage db table).contains c.name = c.isPrimaryKey := by
    rw [Bool.eq_iff_iff, List.contains_iff_mem, mem_primaryKeyColumns htable husage]
    constructor
    · rintro ⟨c', hc', hpk, hname⟩
      rwa [← List.inj_on_of_nodup_map hnodup hc' hc hname]
    · exact fun hpk => ⟨c, hc, hpk, rfl⟩
  simp only [Function.comp_apply, hpk]
  cases hnull : c.nullable <;> cases hpk' : c.isPrimaryKey <;> simp [shape, hnull, hpk']

/-- Both catalogues describe the columns that they list as they were declared. -/
theorem actualShape_eq {backend : DatabaseBackend} (hbackend : backend ≠ .mySql)
    {usage : List (String × String)} {db : Database} {table : String}
    (htable : table ∈ Migration.tableNames) (husage : KeyNameFree usage table)
    (hnodup : ((columns db table).map (·.name)).Nodup) :
    actualShape backend usage db table = .ok (declared backend db table) := by
  cases backend with
  | sqlite => exact congrArg Except.ok (actualShapeSqlite_eq db table)
  | postgres => exact congrArg Except.ok (actualShapePostgres_eq htable husage hnodup)
  | mySql => exact absurd rfl hbackend

/-! ## What the check reports -/

/-- The entities with their tables, in the order of the calls. -/
def checks : List (Entity × String) :=
  [(messages, "messages"), (groups, "groups"), (tasks, "tasks"), (state, "state"),
   (sessions, "sessions"), (events, "events")]

theorem mem_tableNames {n : String} : n ∈ Migration.tableNames ↔ ∃ c ∈ checks, c.2 = n := by
  simp [Migration.tableNames, checks, eq_comm, or_left_comm]

theorem forM_eq_ok_iff {α ε : Type} {f : α → Except ε Unit} {l : List α} :
    l.forM f = .ok () ↔ ∀ a ∈ l, f a = .ok () := by
  induction l with
  | nil => simp [pure, Except.pure]
  | cons a l ih =>
    change (f a >>= fun _ => l.forM f) = .ok () ↔ _
    rw [List.forall_mem_cons, ← ih]
    cases f a with
    | error e => simp [bind, Except.bind]
    | ok u => simp [bind, Except.bind]

/-- The first failure ends the loop. -/
theorem forM_eq_error_iff {α ε : Type} {f : α → Except ε Unit} {l : List α} {e : ε} :
    l.forM f = .error e ↔ ∃ before a after, l = before ++ a :: after ∧
      (∀ b ∈ before, f b = .ok ()) ∧ f a = .error e := by
  induction l with
  | nil => simp [pure, Except.pure]
  | cons a l ih =>
    change (f a >>= fun _ => l.forM f) = .error e ↔ _
    cases ha : f a with
    | error e' =>
      constructor
      · intro h
        obtain rfl : e' = e := by simpa [bind, Except.bind] using h
        exact ⟨[], a, l, rfl, by simp, ha⟩
      · rintro ⟨before, b, after, heq, hbefore, hb⟩
        cases before with
        | nil =>
          obtain ⟨rfl, rfl⟩ : a = b ∧ l = after := by simpa using heq
          rw [ha] at hb
          cases hb
          rfl
        | cons c before =>
          obtain ⟨rfl, -⟩ : a = c ∧ l = before ++ b :: after := by simpa using heq
          have hok := hbefore a (by simp)
          rw [ha] at hok
          cases hok
    | ok u =>
      change l.forM f = .error e ↔ _
      rw [ih]
      constructor
      · rintro ⟨before, b, after, rfl, hbefore, hb⟩
        refine ⟨a :: before, b, after, rfl, ?_, hb⟩
        rw [List.forall_mem_cons]
        exact ⟨ha, hbefore⟩
      · rintro ⟨before, b, after, heq, hbefore, hb⟩
        cases before with
        | nil =>
          obtain ⟨rfl, rfl⟩ : a = b ∧ l = after := by simpa using heq
          rw [ha] at hb
          cases hb
        | cons c before =>
          obtain ⟨rfl, rfl⟩ : a = c ∧ l = before ++ b :: after := by simpa using heq
          exact ⟨before, b, after, rfl, fun b' hb' => hbefore b' (by simp [hb']), hb⟩

section Report

variable {debug : String → String} {backend : DatabaseBackend} {usage : List (String × String)}
  {db : Database}

theorem check_eq_forM : check debug backend usage db =
    checks.forM fun c => checkEntity debug backend usage db c.1 c.2 := by
  simp [check, checks]

/-- What is reported of a table that does not agree. -/
def mismatch (debug : String → String) (backend : DatabaseBackend) (db : Database)
    (entity : Entity) (table : String) : StoreError :=
  drift debug table ((expectedShape entity \ declared backend db table).sort (· ≤ ·))
    ((declared backend db table \ expectedShape entity).sort (· ≤ ·))

theorem checkEntity_eq (hbackend : backend ≠ .mySql) {entity : Entity} {table : String}
    (htable : table ∈ Migration.tableNames) (husage : KeyNameFree usage table)
    (hnodup : ((columns db table).map (·.name)).Nodup) :
    checkEntity debug backend usage db entity table =
      if declared backend db table = expectedShape entity then .ok ()
      else .error (mismatch debug backend db entity table) := by
  unfold checkEntity
  rw [actualShape_eq hbackend htable husage hnodup]
  simp only [bind, Except.bind, pure, Except.pure, throw, throwThe, MonadExceptOf.throw]
  by_cases h : declared backend db table = expectedShape entity
  · simp [h]
  · simp [h, Ne.symm h, mismatch]

/-- **The check reports the first difference, and all of it.** It accepts a database exactly if
each table has the columns of its entity, equal in name, nullability and membership in the
primary key, and no others that the catalogue lists; else the error is about the first table in
the order of the calls that has not, and lists what the entity has and the table lacks, and the
other way round. -/
theorem check_reports (hbackend : backend ≠ .mySql)
    (husage : ∀ c ∈ checks, KeyNameFree usage c.2)
    (hnodup : ∀ table, ((columns db table).map (·.name)).Nodup) :
    (check debug backend usage db = .ok () ↔
      ∀ c ∈ checks, declared backend db c.2 = expectedShape c.1) ∧
    ∀ err, check debug backend usage db = .error err ↔
      ∃ before entity table after, checks = before ++ (entity, table) :: after ∧
        (∀ c ∈ before, declared backend db c.2 = expectedShape c.1) ∧
        declared backend db table ≠ expectedShape entity ∧
        err = mismatch debug backend db entity table := by
  have hok : ∀ c ∈ checks, checkEntity debug backend usage db c.1 c.2 = .ok () ↔
      declared backend db c.2 = expectedShape c.1 := by
    intro c hc
    rw [checkEntity_eq hbackend (mem_tableNames.mpr ⟨c, hc, rfl⟩) (husage c hc) (hnodup c.2)]
    split <;> simp_all
  have herror : ∀ c ∈ checks, ∀ err : StoreError,
      checkEntity debug backend usage db c.1 c.2 = .error err ↔
        declared backend db c.2 ≠ expectedShape c.1 ∧
          err = mismatch debug backend db c.1 c.2 := by
    intro c hc err
    rw [checkEntity_eq hbackend (mem_tableNames.mpr ⟨c, hc, rfl⟩) (husage c hc) (hnodup c.2)]
    split <;> simp_all [eq_comm]
  rw [check_eq_forM, forM_eq_ok_iff]
  refine ⟨forall₂_congr hok, fun err => ?_⟩
  rw [forM_eq_error_iff]
  constructor
  · rintro ⟨before, ⟨entity, table⟩, after, heq, hbefore, hlast⟩
    have hmem : (entity, table) ∈ checks := by simp [heq]
    refine ⟨before, entity, table, after, heq, fun c hc => ?_, (herror _ hmem err).mp hlast⟩
    exact (hok c (by simp [heq, hc])).mp (hbefore c hc)
  · rintro ⟨before, entity, table, after, heq, hbefore, hlast⟩
    have hmem : (entity, table) ∈ checks := by simp [heq]
    refine ⟨before, (entity, table), after, heq, fun c hc => ?_, (herror _ hmem err).mpr hlast⟩
    exact (hok c (by simp [heq, hc])).mpr (hbefore c hc)

end Report

/-- An empty database. -/
theorem check_reports_empty :
    check id .postgres [] .empty = .error (mismatch id .postgres .empty messages "messages") :=
  ((check_reports (by decide) (fun c _ => keyNameFree_nil c.2) fun _ => by
    simp [columns, Ddl.Db.empty]).2 _).mpr
      ⟨[], messages, "messages", _, rfl, by simp, by decide +kernel, rfl⟩

/-! ## Migrations that were cut off -/

theorem up_agrees {backend : DatabaseBackend} (hbackend : backend ≠ .mySql)
    {c : Entity × String} (hc : c ∈ checks) {d : List ColumnDef}
    (hd : .createTable c.2 true d ∈ Migration.up) :
    ((d.filter (isListed backend)).map (shape backend)).toFinset = expectedShape c.1 ∧
      (d.map (·.name)).Nodup := by
  simp only [checks, List.mem_cons, List.not_mem_nil, or_false] at hc
  simp only [Migration.up, Migration.createGroups, Migration.createMessages,
    Migration.createTasks, Migration.createState, Migration.createSessions,
    Migration.createEvents] at hd
  rcases hc with rfl | rfl | rfl | rfl | rfl | rfl <;> simp at hd <;> subst hd <;>
    cases backend <;> first | exact absurd rfl hbackend | decide +kernel

section Crashes

open Migration

variable {debug : String → String} {backend : DatabaseBackend} {usage : List (String × String)}
  {s : Database}

theorem columns_of_some {n : String} {tb : Ddl.Table (List ColumnDef) Row}
    (h : s.tables n = some tb) : columns s n = tb.definition := by
  rw [columns, h]
  rfl

theorem columns_of_none {n : String} (h : s.tables n = none) : columns s n = [] := by
  rw [columns, h]
  rfl

/-- What the migration leaves of a table is its whole definition or nothing. -/
theorem nodup_of_within (hs : script.Within s) (n : String) :
    ((columns s n).map (·.name)).Nodup := by
  cases hn : s.tables n with
  | none => simp [columns_of_none hn]
  | some tb =>
    have hup := hs.tables n tb hn
    obtain ⟨c, hc, rfl⟩ := mem_tableNames.mp (Migration.mem_tableNames.mpr ⟨_, hup⟩)
    rw [columns_of_some hn]
    exact (up_agrees (show DatabaseBackend.sqlite ≠ .mySql by decide) hc hup).2

theorem agrees_iff (hbackend : backend ≠ .mySql) (hs : script.Within s) {c : Entity × String}
    (hc : c ∈ checks) :
    declared backend s c.2 = expectedShape c.1 ↔ (s.tables c.2).isSome := by
  unfold declared
  cases hn : s.tables c.2 with
  | none =>
    rw [columns_of_none hn]
    refine iff_of_false (fun h => ?_) Bool.false_ne_true
    have hne : ∀ c ∈ checks, expectedShape c.1 ≠ ∅ := by decide +kernel
    exact hne c hc h.symm
  | some tb =>
    rw [columns_of_some hn]
    exact iff_of_true (up_agrees hbackend hc (hs.tables _ _ hn)).1 rfl

theorem check_of_within (hbackend : backend ≠ .mySql)
    (husage : ∀ c ∈ checks, KeyNameFree usage c.2) (hs : script.Within s) :
    check debug backend usage s = .ok () ↔ ∀ n ∈ tableNames, (s.tables n).isSome := by
  rw [(check_reports hbackend husage (nodup_of_within hs)).1]
  constructor
  · intro h n hn
    obtain ⟨c, hc, rfl⟩ := mem_tableNames.mp hn
    exact (agrees_iff hbackend hs hc).mp (h c hc)
  · exact fun h c hc => (agrees_iff hbackend hs hc).mpr (h _ (mem_tableNames.mpr ⟨c, hc, rfl⟩))

theorem tables_of_steps (hs : script.Within s) (htables : ∀ n ∈ tableNames, (s.tables n).isSome)
    {t : Database} (hst : script.attempts.Steps s t) :
    script.Within t ∧ ∀ n ∈ tableNames, (t.tables n).isSome := by
  refine hst.invariant (I := fun s : Database => script.Within s ∧
    ∀ n ∈ tableNames, (s.tables n).isSome) ?_ ⟨hs, htables⟩
  rintro s a t ⟨hs, htables⟩ hstep
  cases a with
  | attempt k =>
    obtain ⟨hw, hext, -⟩ := Ddl.Script.run_spec (fun st h => List.mem_of_mem_take h) hs hstep
    refine ⟨hw, fun n hn => ?_⟩
    obtain ⟨tb, htb⟩ := Option.isSome_iff_exists.mp (htables n hn)
    rw [hext.tables n tb htb]
    rfl
  | insert n r =>
    obtain ⟨-, rfl⟩ := hstep
    refine ⟨hs.insertRow n r, fun n' hn' => ?_⟩
    by_cases hne : n' = n
    · subst hne
      simpa [Ddl.Db.insertRow] using htables n' hn'
    · simpa [Ddl.Db.insertRow, hne] using htables n' hn'

/-- **The check and the migration.** After any attempts at the migration that were cut off, and
rows put in between, the check passes exactly if all six tables are there (an index may still be
missing); else it reports the first table that is not, with all columns of its entity. A whole
run of the migration makes it pass, and it passes ever after. -/
theorem check_after_crashes (hbackend : backend ≠ .mySql) (h : script.attempts.Reachable s) :
    (check debug backend [] s = .ok () ↔ ∀ n ∈ tableNames, (s.tables n).isSome) ∧
    (∀ err, check debug backend [] s = .error err →
      ∃ before entity table after, checks = before ++ (entity, table) :: after ∧
        (∀ c ∈ before, (s.tables c.2).isSome) ∧ s.tables table = none ∧
        err = drift debug table ((expectedShape entity).sort (· ≤ ·)) []) ∧
    ∃ t, run up s = some t ∧
      ∀ u, script.attempts.Steps t u → check debug backend [] u = .ok () := by
  have hs := Ddl.Script.within_of_reachable h
  have husage : ∀ c ∈ checks, KeyNameFree [] c.2 := fun c _ => keyNameFree_nil c.2
  refine ⟨check_of_within hbackend husage hs, fun err herr => ?_, ?_⟩
  · obtain ⟨before, entity, table, after, heq, hbefore, hne, rfl⟩ :=
      ((check_reports hbackend husage (nodup_of_within hs)).2 err).mp herr
    have hmem : (entity, table) ∈ checks := by simp [heq]
    have hnone : s.tables table = none := by
      rw [Ne, agrees_iff hbackend hs hmem] at hne
      simpa using hne
    refine ⟨before, entity, table, after, heq, fun c hc => ?_, hnone, ?_⟩
    · exact (agrees_iff hbackend hs (by simp [heq, hc])).mp (hbefore c hc)
    · simp [mismatch, declared, columns_of_none hnone]
  · obtain ⟨t, ht, hc, -⟩ := Ddl.Script.run_succeeds hs
    refine ⟨t, ht, fun u hu => ?_⟩
    obtain ⟨hwu, htables⟩ :=
      tables_of_steps hc.toWithin (fun n hn => (tables_of_complete hc n).mpr hn) hu
    exact (check_of_within hbackend husage hwu).mpr htables

end Crashes

/-- Cut off after the table of the messages: the tasks have none. -/
theorem check_after_crashes_messages :
    ∃ s : Database, Migration.run (Migration.up.take 2) .empty = some s ∧
      check id .sqlite [] s ≠ .ok () ∧ ∃ t, Migration.run Migration.up s = some t ∧
        check id .sqlite [] t = .ok () := by
  obtain ⟨s, hs, htasks⟩ : ∃ s : Database, Migration.run (Migration.up.take 2) .empty = some s ∧
      (s.tables "tasks").isSome = false := ⟨_, rfl, rfl⟩
  have hreach : Migration.script.attempts.Reachable s :=
    (TransitionSystem.Reachable.init rfl).step (a := .attempt 2) hs
  have hbackend : DatabaseBackend.sqlite ≠ .mySql := by decide
  obtain ⟨hok, -, t, ht, hcheck⟩ := @check_after_crashes id _ _ hbackend hreach
  refine ⟨s, hs, fun h => ?_, t, ht, hcheck t .refl⟩
  rw [hok.mp h "tasks" (by decide)] at htasks
  cases htasks

/-! ## Migrations at the same time -/

section Runners

open Migration Ddl.Script

variable {κ : Type} [DecidableEq κ] {debug : String → String}
  {s : Running String (List ColumnDef) IndexDef Row κ}

/-- **The statements of migrations at the same time do not get in each other's way.** Let any
number of programs run `up` statement by statement on one SQLite file, in any interleaving, some
of them cut off and begun again, with rows put in between. (What the migrator around `up` puts
down about it, and the wait for the file's lock, are not part of this.) None of them fails at its
next statement; as soon as one is through, the database has the schema that `up` gives on an empty
one, the check passes, and a further run changes nothing; and no row is ever lost. -/
theorem migrations_at_once (h : (script.runners κ).Reachable s) :
    (∀ i k, s.place i = some k → k < up.length → ∃ t, RunnerStep script s (.step i) t) ∧
    (∀ i, s.place i = some up.length →
      (∃ t₀, run up .empty = some t₀ ∧ s.db.schema = t₀.schema) ∧
        check debug .sqlite [] s.db = .ok () ∧ run up s.db = some s.db) ∧
    ∀ t, (script.runners κ).Steps s t →
      ∀ n tb, s.db.tables n = some tb →
        ∃ rows, t.db.tables n = some ⟨tb.definition, tb.rows ++ rows⟩ := by
  have hi := inv_of_reachable h
  refine ⟨fun i k => can_step hi, fun i hdone => ?_, fun t ht => steps_rows hi ht⟩
  have hc := complete_of_done hi hdone
  have hempty : script.Within (.empty : Database) := within_empty
  obtain ⟨t₀, ht₀, hc₀, -⟩ := run_succeeds hempty
  refine ⟨⟨t₀, ht₀, schema_unique hc hc₀⟩, ?_, run_again hc⟩
  exact (check_of_within (by decide) (fun c _ => keyNameFree_nil c.2) hc.toWithin).mpr
    fun n hn => (tables_of_complete hc n).mpr hn

end Runners

/-- Two programs, of which the second finds the table that the first has made. -/
theorem migrations_at_once_two :
    ∃ s : Ddl.Script.Running String (List ColumnDef) IndexDef Row Nat,
      (Migration.script.runners Nat).Reachable s ∧ s.place 0 = some 1 ∧ s.place 1 = some 1 ∧
        ∃ t, Ddl.Script.RunnerStep Migration.script s (.step 1) t := by
  have h₀ : (Migration.script.runners Nat).Reachable
      (⟨.empty, fun _ => none⟩ : Ddl.Script.Running _ _ _ Row Nat) := .init rfl
  have h₁ := h₀.step (.start _ 0 rfl)
  have h₂ := h₁.step (.start _ 1 rfl)
  have h₃ := h₂.step (.step _ 0 0 _ _ rfl rfl rfl)
  have h₄ := h₃.step (.step _ 1 0 _ _ rfl rfl rfl)
  exact ⟨_, h₄, rfl, rfl, (@migrations_at_once _ _ id _ h₄).1 1 1 rfl (by decide)⟩

end Forgeclaw.Store.SchemaCheck
