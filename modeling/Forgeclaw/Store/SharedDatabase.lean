/-
  The migration in a database that it shares with others.

  In the same database are other tables: those of other programs, and the one in which the
  migrator keeps what it has applied. `up` and `down` leave them alone, and are not disturbed by
  them, whatever attempts at either were cut off. Names are different if the database takes them
  for different, which SQLite does not for `tasks` and `Tasks`; and nothing of the others refers
  to the six tables (`held`).
-/
import Forgeclaw.Foundation.DdlFrame
import Forgeclaw.Store.SchemaCheck

namespace Forgeclaw.Store.Migration

open Ddl SchemaCheck

/-! ## Names -/

/-- What the database takes a name for: SQLite makes no difference between `a` and `A`, and
    PostgreSQL does where a name is quoted, as all of the migration's are. -/
def nameKey : DatabaseBackend → String → String
  | .sqlite, n => String.ofList (n.toList.map Char.toLower)
  | _, n => n

/-- Statements on a database whose tables and indexes are under what it takes their names for. -/
def runOn (backend : DatabaseBackend) (held : String → Bool) (sts : List Statement)
    (db : Database) : Option Database :=
  Ddl.run IndexDef.builds held (sts.map (Stmt.rename (nameKey backend))) db

/-- The names of the migration are already what every database takes them for. -/
theorem rename_up (backend : DatabaseBackend) : up.map (Stmt.rename (nameKey backend)) = up := by
  cases backend <;> rfl

theorem rename_down (backend : DatabaseBackend) :
    down.map (Stmt.rename (nameKey backend)) = down := by
  cases backend <;> rfl

theorem runOn_up (backend : DatabaseBackend) (held : String → Bool) (k : ℕ) :
    runOn backend held (up.take k) = Ddl.run IndexDef.builds held (up.take k) := by
  funext db
  rw [runOn, List.map_take, rename_up]

theorem runOn_down (backend : DatabaseBackend) (held : String → Bool) (k : ℕ) :
    runOn backend held (down.take k) = Ddl.run IndexDef.builds held (down.take k) := by
  funext db
  rw [runOn, List.map_take, rename_down]

/-! ## The migration's own part -/

def isOwn (n : String) : Bool := tableNames.contains n

/-- The migration's tables and the indexes on them. -/
abbrev own (s : Database) : Database := s.only isOwn

/-- All that is not the migration's. -/
abbrev others (s : Database) : Database := s.except isOwn

/-- Attempts at `up` and `down` that were cut off anywhere, rows put in, and whatever others do
    with what is theirs. -/
abbrev sharedDatabase (held : String → Bool) :
    TransitionSystem Database (Script.SharedAct String Row) :=
  script.shared held isOwn down

theorem down_eq : down = tableNames.reverse.map fun n => .dropTable n true := rfl

theorem mem_down {st : Statement} : st ∈ down ↔ ∃ n ∈ tableNames, .dropTable n true = st := by
  simp only [down_eq, List.mem_map, List.mem_reverse]

theorem isOwn_iff {n : String} : isOwn n = true ↔ n ∈ tableNames := List.contains_iff_mem

theorem owns {held : String → Bool} (hheld : ∀ n ∈ tableNames, held n = false) :
    script.Owns held isOwn down where
  steps := by decide
  created st hst := by
    obtain ⟨n, hn, rfl⟩ := mem_down.mp hst
    obtain ⟨d, hd⟩ := Migration.mem_tableNames.mp hn
    exact ⟨n, d, rfl, hd⟩
  all n g d hd := by
    obtain rfl : g = true := script.guarded _ hd
    exact mem_down.mpr ⟨n, Migration.mem_tableNames.mpr ⟨d, hd⟩, rfl⟩
  notHeld n hn := hheld n (isOwn_iff.mp hn)

/-! ## The check -/

section

variable {debug : String → String} {backend : DatabaseBackend} {usage : List (String × String)}
  {held : String → Bool} {s : Database}

theorem columns_own {n : String} (hn : n ∈ tableNames) : columns (own s) n = columns s n := by
  unfold columns
  rw [Db.only_tables (isOwn_iff.mpr hn)]

theorem keyColumnUsage_own : keyColumnUsage usage (own s) = keyColumnUsage usage s := by
  have hkeys : ∀ n ∈ tableNames, keyConstraints (own s) n = keyConstraints s n := by
    intro n hn
    unfold keyConstraints
    rw [columns_own hn]
  unfold keyColumnUsage
  rw [List.flatMap_congr hkeys]

theorem forM_congr {α ε : Type} {f g : α → Except ε Unit} {l : List α}
    (h : ∀ a ∈ l, f a = g a) : l.forM f = l.forM g := by
  induction l with
  | nil => rfl
  | cons a l ih =>
    rw [List.forall_mem_cons] at h
    change (f a >>= fun _ => l.forM f) = (g a >>= fun _ => l.forM g)
    rw [h.1, ih h.2]

/-- What else is in the database makes no difference to the check. -/
theorem check_own : check debug backend usage (own s) = check debug backend usage s := by
  rw [check_eq_forM, check_eq_forM]
  have hcheck : ∀ c ∈ checks, checkEntity debug backend usage (own s) c.1 c.2 =
      checkEntity debug backend usage s c.1 c.2 := by
    intro c hc
    have hcolumns : columns (own s) c.2 = columns s c.2 :=
      columns_own (SchemaCheck.mem_tableNames.mpr ⟨c, hc, rfl⟩)
    unfold checkEntity actualShape actualShapeSqlite actualShapePostgres tableInfo schemaColumns
      primaryKeyColumns keyConstraints
    rw [hcolumns, keyColumnUsage_own]
  exact forM_congr hcheck

/-- **The migration keeps to its own.** Let there be anything in the database under other names,
nothing of which refers to the six tables, and let attempts at `up` and `down` that were cut off
anywhere, rows put in and what others do with what is theirs come in any order. Then a run of `up`
gives the schema that it gives on an empty database, keeps all rows, and changes nothing when it
is run again; a run of `down` leaves nothing of it; the check passes exactly if the six tables are
there, where no other constraint has the name of one of their primary keys; and neither run, nor
any part of one, touches what is not the migration's. -/
theorem shared_database_kept (hbackend : backend ≠ .mySql)
    (hheld : ∀ n ∈ tableNames, held n = false) (husage : ∀ n ∈ tableNames, KeyNameFree usage n)
    (h : (sharedDatabase held).Reachable s) :
    (∃ t₀ t, runOn backend held up .empty = some t₀ ∧ runOn backend held up s = some t ∧
      (own t).schema = t₀.schema ∧ s.Extends t ∧ runOn backend held up t = some t ∧
      check debug backend usage t = .ok ()) ∧
    (∃ d, runOn backend held down s = some d ∧ own d = .empty) ∧
    (check debug backend usage s = .ok () ↔ ∀ n ∈ tableNames, (s.tables n).isSome) ∧
    ∀ k t, runOn backend held (up.take k) s = some t ∨
      runOn backend held (down.take k) s = some t → others t = others s := by
  have howns := owns hheld
  have hs := Script.Shared.of_reachable howns h
  have hup : runOn backend held up = Ddl.run IndexDef.builds held up :=
    runOn_up backend held up.length
  have hdown : runOn backend held down = Ddl.run IndexDef.builds held down :=
    runOn_down backend held down.length
  have hfree : ∀ c ∈ checks, KeyNameFree usage c.2 := fun c hc =>
    husage c.2 (SchemaCheck.mem_tableNames.mpr ⟨c, hc, rfl⟩)
  have h₀ : script.Within (.empty : Database) := Script.within_empty
  obtain ⟨t₀, ht₀, hc₀, -⟩ : ∃ t₀, Ddl.run IndexDef.builds held up .empty = some t₀ ∧
      script.Complete t₀ ∧ Db.Extends .empty t₀ := Script.run_succeeds h₀
  obtain ⟨t, ht, hcomplete, hext, -⟩ := hs.run_succeeds howns
  have hshared : script.Shared isOwn t :=
    hs.up (k := script.steps.length) howns (by rwa [List.take_length])
  obtain ⟨d, hd, hempty, -⟩ := hs.drops_succeed howns
  simp only [hup, hdown, runOn_up, runOn_down]
  refine ⟨⟨t₀, t, ht₀, ht, Script.schema_unique hcomplete hc₀, hext,
    hshared.run_again howns hcomplete, ?_⟩, ⟨d, hd, hempty⟩, ?_, ?_⟩
  · rw [← check_own, check_of_within hbackend hfree hcomplete.toWithin]
    exact fun n hn => (tables_of_complete hcomplete n).mpr hn
  · rw [← check_own, check_of_within hbackend hfree hs.within]
    exact forall₂_congr fun n hn => by rw [Db.only_tables (isOwn_iff.mpr hn)]
  · rintro k t (ht | ht)
    · exact run_except (fun st hst => howns.steps st (List.mem_of_mem_take hst)) ht
    · exact run_except (fun st hst => howns.table_drops (List.mem_of_mem_take hst)) ht

end

/-- A database in which the migrator has put down what it applied. -/
def migratorsDatabase : Database :=
  (Db.empty.addTable "seaql_migrations" [(ColumnDef.text "version").notNull.primaryKey]).insertRow
    "seaql_migrations" fun _ => .text "m20260411_000001_init"

/-- Something refers to what the migrator has put down. -/
def migratorsHeld (n : String) : Bool := n == "seaql_migrations"

theorem migratorsDatabase_reachable :
    (sharedDatabase migratorsHeld).Reachable migratorsDatabase := by
  have hnot : isOwn "seaql_migrations" = false := by decide
  refine .init ⟨?_, fun st hst => ?_⟩
  · rw [migratorsDatabase, Db.only_insertRow_of_not hnot, Db.only_addTable_of_not hnot]
    exact Db.ext (funext fun n => ite_self _) rfl
  · have hne : ∀ st ∈ up, st.name ≠ "seaql_migrations" := by decide
    simp [Db.Free, Db.only, migratorsDatabase, Db.insertRow, Db.addTable, Db.empty, hne st hst]

/-- `up` is cut off after the tasks, and `down` after four tables. -/
theorem shared_database_kept_migrator :
    ∃ s₁ s₂ t : Database, runOn .sqlite migratorsHeld (up.take 5) migratorsDatabase = some s₁ ∧
      runOn .sqlite migratorsHeld (down.take 4) s₁ = some s₂ ∧
      runOn .sqlite migratorsHeld up s₂ = some t ∧
      check id .sqlite [("seaql_migrations_pkey", "version")] s₂ ≠ .ok () ∧
      check id .sqlite [("seaql_migrations_pkey", "version")] t = .ok () ∧
      others s₂ = others migratorsDatabase := by
  have hbackend : DatabaseBackend.sqlite ≠ .mySql := by decide
  have hheld : ∀ n ∈ tableNames, migratorsHeld n = false := by decide
  have husage : ∀ n ∈ tableNames, KeyNameFree [("seaql_migrations_pkey", "version")] n := by
    unfold KeyNameFree
    decide
  obtain ⟨s₁, s₂, h₁, h₂, htasks⟩ : ∃ s₁ s₂,
      Ddl.run IndexDef.builds migratorsHeld (up.take 5) migratorsDatabase = some s₁ ∧
      Ddl.run IndexDef.builds migratorsHeld (down.take 4) s₁ = some s₂ ∧
      (s₂.tables "tasks").isSome = false :=
    ⟨_, _, rfl, rfl, rfl⟩
  have hup : (sharedDatabase migratorsHeld).Step migratorsDatabase (.up 5) s₁ := h₁
  have hdown : (sharedDatabase migratorsHeld).Step s₁ (.down 4) s₂ := h₂
  have hreach₁ := migratorsDatabase_reachable.step hup
  have hreach₂ := hreach₁.step hdown
  rw [← runOn_up .sqlite] at h₁
  rw [← runOn_down .sqlite] at h₂
  obtain ⟨-, -, -, hkept⟩ :=
    @shared_database_kept id _ _ _ _ hbackend hheld husage migratorsDatabase_reachable
  obtain ⟨-, -, -, hkept₁⟩ := @shared_database_kept id _ _ _ _ hbackend hheld husage hreach₁
  obtain ⟨⟨-, t, -, ht, -, -, -, hcheck⟩, -, hiff, -⟩ :=
    @shared_database_kept id _ _ _ _ hbackend hheld husage hreach₂
  refine ⟨s₁, s₂, t, h₁, h₂, ht, fun h => ?_, hcheck, ?_⟩
  · rw [hiff.mp h "tasks" (by decide)] at htasks
    cases htasks
  · exact (hkept₁ 4 s₂ (.inr h₂)).trans (hkept 5 s₁ (.inl h₁))

/-- SQLite takes another program's `State` for the migration's table. -/
example : isOwn (nameKey .sqlite "State") = true ∧ isOwn (nameKey .postgres "State") = false := by
  decide

end Forgeclaw.Store.Migration
