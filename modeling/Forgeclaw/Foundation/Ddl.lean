/-
  Schema changes of a database: tables with their rows, indexes on them, and the statements
  that create and drop them, with or without `IF [NOT] EXISTS`. Names are what the database tells
  apart (`Stmt.rename` takes a statement to these). Nothing is said of the drop of a table that
  somebody else's foreign keys or views refer to: it counts as a failure.

  A `Script` is a list of guarded create statements with one name each, every index after
  its table. It can be stopped anywhere and started again:

  * `Script.run_succeeds`: from what any such attempts leave, a whole run succeeds;
  * `Script.schema_unique`: and there is only one schema it can end in;
  * `Script.run_again`: a run after that changes nothing;
  * `Script.drops_succeed`: guarded drops of its tables leave nothing of it.
-/
import Forgeclaw.Foundation.Transition

namespace Ddl

variable {ν τ ι ρ : Type}

/-! ## Databases -/

/-- A table: how it was declared, and its rows. -/
structure Table (τ ρ : Type) where
  definition : τ
  rows : List ρ

/-- An index: the table it is on, and how it was declared. -/
structure Index (ν ι : Type) where
  table : ν
  definition : ι

/-- The tables and indexes of a database. An index is on a table that exists. -/
@[ext] structure Db (ν τ ι ρ : Type) where
  tables : ν → Option (Table τ ρ)
  indexes : ν → Option (Index ν ι)
  owned : ∀ n ix, indexes n = some ix → (tables ix.table).isSome

namespace Db

/-- A database with nothing in it. -/
def empty : Db ν τ ι ρ := ⟨fun _ => none, fun _ => none, by simp⟩

/-- What a database looks like without its rows. -/
def schema (s : Db ν τ ι ρ) : (ν → Option τ) × (ν → Option (Index ν ι)) :=
  (fun n => (s.tables n).map Table.definition, s.indexes)

/-- Everything in `s` is in `t` too, each table with the same rows. -/
structure Extends (s t : Db ν τ ι ρ) : Prop where
  tables : ∀ n tb, s.tables n = some tb → t.tables n = some tb
  indexes : ∀ n ix, s.indexes n = some ix → t.indexes n = some ix

theorem Extends.refl (s : Db ν τ ι ρ) : s.Extends s := ⟨fun _ _ h => h, fun _ _ h => h⟩

theorem Extends.trans {s t u : Db ν τ ι ρ} (h : s.Extends t) (h' : t.Extends u) :
    s.Extends u :=
  ⟨fun n tb hn => h'.tables n tb (h.tables n tb hn),
   fun n ix hn => h'.indexes n ix (h.indexes n ix hn)⟩

variable [DecidableEq ν]

/-- A new table with no rows. -/
def addTable (n : ν) (d : τ) (s : Db ν τ ι ρ) : Db ν τ ι ρ where
  tables := Function.update s.tables n (some ⟨d, []⟩)
  indexes := s.indexes
  owned n' ix h := by
    by_cases hn : ix.table = n
    · simp [hn]
    · simpa [hn] using s.owned n' ix h

/-- A new index on a table. -/
def addIndex (n t : ν) (d : ι) (s : Db ν τ ι ρ) (h : (s.tables t).isSome) : Db ν τ ι ρ where
  tables := s.tables
  indexes := Function.update s.indexes n (some ⟨t, d⟩)
  owned n' ix h' := by
    by_cases hn : n' = n
    · subst hn
      rw [Function.update_self, Option.some.injEq] at h'
      subst h'
      exact h
    · rw [Function.update_of_ne hn] at h'
      exact s.owned n' ix h'

/-- A table goes, and its indexes with it. -/
def drop (n : ν) (s : Db ν τ ι ρ) : Db ν τ ι ρ where
  tables := Function.update s.tables n none
  indexes n' := (s.indexes n').filter fun ix => ix.table ≠ n
  owned n' ix h := by
    obtain ⟨h, hne⟩ := Option.filter_eq_some_iff.mp h
    rw [Function.update_of_ne (by simpa using hne)]
    exact s.owned n' ix h

/-- A row goes into a table. -/
def insertRow (n : ν) (r : ρ) (s : Db ν τ ι ρ) : Db ν τ ι ρ where
  tables := Function.update s.tables n ((s.tables n).map fun tb => { tb with rows := tb.rows ++ [r] })
  indexes := s.indexes
  owned n' ix h := by
    by_cases hn : ix.table = n
    · simpa [hn] using s.owned n' ix h
    · simpa [hn] using s.owned n' ix h

end Db

/-! ## Statements -/

/-- The statements; `guarded` says that `IF NOT EXISTS` or `IF EXISTS` is there. -/
inductive Stmt (ν τ ι : Type)
  | createTable (name : ν) (guarded : Bool) (definition : τ)
  | createIndex (name : ν) (guarded : Bool) (table : ν) (definition : ι)
  | dropTable (name : ν) (guarded : Bool)

namespace Stmt

/-- What the statement creates or drops. -/
def name : Stmt ν τ ι → ν
  | createTable n _ _ => n
  | createIndex n _ _ _ => n
  | dropTable n _ => n

/-- The statement with the names that the database takes its names for. -/
def rename (f : ν → ν) : Stmt ν τ ι → Stmt ν τ ι
  | createTable n guarded d => createTable (f n) guarded d
  | createIndex n guarded t d => createIndex (f n) guarded (f t) d
  | dropTable n guarded => dropTable (f n) guarded

/-- A create statement with `IF NOT EXISTS`. -/
def IsGuardedCreate : Stmt ν τ ι → Prop
  | createTable _ guarded _ => guarded = true
  | createIndex _ guarded _ _ => guarded = true
  | dropTable _ _ => False

instance : DecidablePred fun st : Stmt ν τ ι => st.IsGuardedCreate
  | createTable _ guarded _ => inferInstanceAs (Decidable (guarded = true))
  | createIndex _ guarded _ _ => inferInstanceAs (Decidable (guarded = true))
  | dropTable _ _ => inferInstanceAs (Decidable False)

/-- What a create statement creates is there, as declared. -/
def Present (s : Db ν τ ι ρ) : Stmt ν τ ι → Prop
  | createTable n _ d => ∃ rows, s.tables n = some ⟨d, rows⟩
  | createIndex n _ t d => s.indexes n = some ⟨t, d⟩
  | dropTable n _ => s.tables n = none

theorem Present.mono {s t : Db ν τ ι ρ} (hst : s.Extends t) {st : Stmt ν τ ι}
    (hg : st.IsGuardedCreate) (h : st.Present s) : st.Present t := by
  cases st with
  | createTable n g d =>
    obtain ⟨rows, h⟩ := h
    exact ⟨rows, hst.tables n _ h⟩
  | createIndex n g tn e => exact hst.indexes n _ h
  | dropTable n g => exact hg.elim

end Stmt

variable [DecidableEq ν]

/-- Run one statement. `builds d rows` says that an index declared as `d` can be put on a
    table that holds `rows`; tables and indexes share their names. `held n` says that a foreign
    key or a view of somebody else's refers to the table. -/
def exec (builds : ι → List ρ → Bool) (held : ν → Bool) (st : Stmt ν τ ι) (s : Db ν τ ι ρ) :
    Option (Db ν τ ι ρ) :=
  match st with
  | .createTable n guarded d =>
    if (s.tables n).isSome then if guarded then some s else none
    else if (s.indexes n).isSome then none
    else some (s.addTable n d)
  | .createIndex n guarded t d =>
    if h : (s.tables t).isSome then
      if (s.indexes n).isSome then if guarded then some s else none
      else if (s.tables n).isSome then none
      else if builds d ((s.tables t).get h).rows then some (s.addIndex n t d h)
      else none
    else none
  | .dropTable n guarded =>
    if (s.tables n).isSome then if held n then none else some (s.drop n)
    else if guarded then some s else none

/-- Run statements one after the other; a failure ends the run. -/
def run (builds : ι → List ρ → Bool) (held : ν → Bool) :
    List (Stmt ν τ ι) → Db ν τ ι ρ → Option (Db ν τ ι ρ)
  | [], s => some s
  | st :: sts, s => (exec builds held st s).bind (run builds held sts)

/-- Every index comes after its table; `known` are the tables already there. -/
def InOrder : List ν → List (Stmt ν τ ι) → Prop
  | _, [] => True
  | known, .createTable n _ _ :: sts => InOrder (n :: known) sts
  | known, .createIndex _ _ t _ :: sts => t ∈ known ∧ InOrder known sts
  | known, .dropTable _ _ :: sts => InOrder known sts

/-- Create statements that can be run again after any of them. -/
structure Script (builds : ι → List ρ → Bool) (ν τ : Type) [DecidableEq ν] where
  steps : List (Stmt ν τ ι)
  guarded : ∀ st ∈ steps, st.IsGuardedCreate
  nodup : (steps.map Stmt.name).Nodup
  inOrder : InOrder [] steps
  builds : ∀ {n g t d}, .createIndex n g t d ∈ steps → ∀ rows, builds d rows

/-! ## What one statement does -/

section exec

variable {builds : ι → List ρ → Bool} {held : ν → Bool} {s t : Db ν τ ι ρ} {n tn : ν} {g : Bool}
  {d : τ} {e : ι}

theorem exec_createTable (h : exec builds held (.createTable n g d) s = some t) :
    (s.tables n).isSome ∧ t = s ∨
      s.tables n = none ∧ s.indexes n = none ∧ t = s.addTable n d := by
  simp only [exec, Option.isSome_iff_ne_none] at h ⊢
  grind

theorem exec_createIndex (h : exec builds held (.createIndex n g tn e) s = some t) :
    (s.tables tn).isSome ∧ (s.indexes n).isSome ∧ t = s ∨
      s.indexes n = none ∧ s.tables n = none ∧
        ∃ htn : (s.tables tn).isSome, t = s.addIndex n tn e htn := by
  simp only [exec, Option.isSome_iff_ne_none] at h ⊢
  grind

end exec

/-! ## Growing databases -/

theorem Db.extends_addTable {s : Db ν τ ι ρ} {n : ν} (h : s.tables n = none) (d : τ) :
    s.Extends (s.addTable n d) := by
  refine ⟨fun n' tb hn => ?_, fun _ _ hn => hn⟩
  have hne : n' ≠ n := by
    rintro rfl
    simp [h] at hn
  simpa [addTable, hne] using hn

theorem Db.extends_addIndex {s : Db ν τ ι ρ} {n t : ν} (h : s.indexes n = none) (e : ι)
    (ht : (s.tables t).isSome) : s.Extends (s.addIndex n t e ht) := by
  refine ⟨fun _ _ hn => hn, fun n' ix hn => ?_⟩
  have hne : n' ≠ n := by
    rintro rfl
    simp [h] at hn
  simpa [addIndex, hne] using hn

theorem Db.drop_extends (n : ν) (s : Db ν τ ι ρ) : (s.drop n).Extends s := by
  refine ⟨fun n' tb hn => ?_, fun n' ix hn => (Option.filter_eq_some_iff.mp hn).1⟩
  have hne : n' ≠ n := by
    rintro rfl
    simp [drop] at hn
  simpa [drop, hne] using hn

/-- A guarded create statement leaves alone what is there already. -/
theorem exec_of_present {builds : ι → List ρ → Bool} {held : ν → Bool} {s : Db ν τ ι ρ}
    {st : Stmt ν τ ι} (hg : st.IsGuardedCreate) (h : st.Present s) :
    exec builds held st s = some s := by
  cases st with
  | createTable n g d =>
    obtain ⟨rows, h⟩ := h
    obtain rfl : g = true := hg
    simp [exec, h]
  | createIndex n g tn e =>
    have htn : (s.tables tn).isSome := s.owned n ⟨tn, e⟩ h
    obtain rfl : g = true := hg
    replace h : s.indexes n = some ⟨tn, e⟩ := h
    simp [exec, htn, h]
  | dropTable n g => exact hg.elim

/-! ## Stopping and starting again -/

namespace Script

variable {builds : ι → List ρ → Bool} (script : Script builds ν τ)

/-- Nothing is in the database but what the script creates, as the script creates it. -/
structure Within (s : Db ν τ ι ρ) : Prop where
  tables : ∀ n tb, s.tables n = some tb → .createTable n true tb.definition ∈ script.steps
  indexes : ∀ n ix, s.indexes n = some ix →
    .createIndex n true ix.table ix.definition ∈ script.steps

/-- All that the script creates is in the database, and nothing else. -/
structure Complete (s : Db ν τ ι ρ) : Prop extends script.Within s where
  present : ∀ st ∈ script.steps, st.Present s

variable {script} {held : ν → Bool} {s t : Db ν τ ι ρ}

theorem eq_of_name_eq {st st' : Stmt ν τ ι} (h : st ∈ script.steps) (h' : st' ∈ script.steps)
    (hn : st.name = st'.name) : st = st' :=
  List.inj_on_of_nodup_map script.nodup h h' hn

theorem within_empty : script.Within (.empty : Db ν τ ι ρ) :=
  ⟨fun _ _ h => by simp [Db.empty] at h, fun _ _ h => by simp [Db.empty] at h⟩

theorem Within.addTable (hs : script.Within s) {n : ν} {d : τ}
    (h : .createTable n true d ∈ script.steps) : script.Within (s.addTable n d) := by
  refine ⟨fun n' tb hn => ?_, hs.indexes⟩
  by_cases hne : n' = n
  · subst hne
    obtain rfl : ⟨d, []⟩ = tb := by simpa [Db.addTable] using hn
    exact h
  · exact hs.tables n' tb (by simpa [Db.addTable, hne] using hn)

theorem Within.addIndex (hs : script.Within s) {n tn : ν} {e : ι}
    (h : .createIndex n true tn e ∈ script.steps) (ht : (s.tables tn).isSome) :
    script.Within (s.addIndex n tn e ht) := by
  refine ⟨hs.tables, fun n' ix hn => ?_⟩
  by_cases hne : n' = n
  · subst hne
    obtain rfl : ⟨tn, e⟩ = ix := by simpa [Db.addIndex] using hn
    exact h
  · exact hs.indexes n' ix (by simpa [Db.addIndex, hne] using hn)

theorem Within.insertRow (hs : script.Within s) (n : ν) (r : ρ) :
    script.Within (s.insertRow n r) := by
  refine ⟨fun n' tb hn => ?_, hs.indexes⟩
  by_cases hne : n' = n
  · subst hne
    obtain ⟨tb', h, rfl⟩ : ∃ tb', s.tables n' = some tb' ∧ { tb' with rows := tb'.rows ++ [r] } = tb := by
      simpa [Db.insertRow] using hn
    exact hs.tables n' tb' h
  · exact hs.tables n' tb (by simpa [Db.insertRow, hne] using hn)

/-- A step of the script, whether it finds its work done or does it. -/
theorem Within.exec (hs : script.Within s) {st : Stmt ν τ ι} (hst : st ∈ script.steps)
    (h : exec builds held st s = some t) : script.Within t ∧ s.Extends t ∧ st.Present t := by
  have hg := script.guarded st hst
  cases st with
  | createTable n g d =>
    obtain rfl : g = true := hg
    obtain ⟨hn, rfl⟩ | ⟨hn, -, rfl⟩ := exec_createTable h
    · obtain ⟨tb, hn⟩ := Option.isSome_iff_exists.mp hn
      have heq := eq_of_name_eq hst (hs.tables n tb hn) rfl
      obtain rfl : d = tb.definition := by simpa using heq
      exact ⟨hs, .refl t, tb.rows, hn⟩
    · exact ⟨hs.addTable hst, Db.extends_addTable hn d, [], by simp [Db.addTable]⟩
  | createIndex n g tn e =>
    obtain rfl : g = true := hg
    obtain ⟨-, hn, rfl⟩ | ⟨hn, -, htn, rfl⟩ := exec_createIndex h
    · obtain ⟨ix, hn⟩ := Option.isSome_iff_exists.mp hn
      have heq := eq_of_name_eq hst (hs.indexes n ix hn) rfl
      obtain ⟨rfl, rfl⟩ : tn = ix.table ∧ e = ix.definition := by simpa using heq
      exact ⟨hs, .refl t, hn⟩
    · exact ⟨hs.addIndex hst htn, Db.extends_addIndex hn e htn, by simp [Stmt.Present, Db.addIndex]⟩
  | dropTable n g => exact hg.elim

/-- A step of the script does not fail once its table is there. -/
theorem Within.exec_succeeds (hs : script.Within s) {st : Stmt ν τ ι} (hst : st ∈ script.steps)
    (ht : ∀ n g tn e, st = .createIndex n g tn e → (s.tables tn).isSome) :
    ∃ t, Ddl.exec builds held st s = some t := by
  have hg := script.guarded st hst
  cases st with
  | createTable n g d =>
    obtain rfl : g = true := hg
    by_cases hn : (s.tables n).isSome
    · exact ⟨s, by simp [Ddl.exec, hn]⟩
    · have hix : s.indexes n = none := by
        by_contra hix
        obtain ⟨ix, hix⟩ := Option.ne_none_iff_exists'.mp hix
        simpa using eq_of_name_eq hst (hs.indexes n ix hix) rfl
      exact ⟨s.addTable n d, by simp [Ddl.exec, hn, hix]⟩
  | createIndex n g tn e =>
    obtain rfl : g = true := hg
    have htn := ht n true tn e rfl
    by_cases hn : (s.indexes n).isSome
    · exact ⟨s, by simp [Ddl.exec, htn, hn]⟩
    · have htb : s.tables n = none := by
        by_contra htb
        obtain ⟨tb, htb⟩ := Option.ne_none_iff_exists'.mp htb
        simpa using eq_of_name_eq hst (hs.tables n tb htb) rfl
      exact ⟨s.addIndex n tn e htn, by simp [Ddl.exec, htn, hn, htb, script.builds hst]⟩
  | dropTable n g => exact hg.elim

theorem run_spec {sts : List (Stmt ν τ ι)} (hsub : ∀ st ∈ sts, st ∈ script.steps)
    (hs : script.Within s) (h : run builds held sts s = some t) :
    script.Within t ∧ s.Extends t ∧ ∀ st ∈ sts, st.Present t := by
  induction sts generalizing s with
  | nil =>
    obtain rfl : s = t := by simpa [run] using h
    exact ⟨hs, .refl s, by simp⟩
  | cons st sts ih =>
    obtain ⟨u, hu, ht⟩ := Option.bind_eq_some_iff.mp h
    have hst := hsub st (by simp)
    obtain ⟨hwu, hsu, hpu⟩ := hs.exec hst hu
    obtain ⟨hwt, hut, hpt⟩ := ih (fun st' h' => hsub st' (by simp [h'])) hwu ht
    refine ⟨hwt, hsu.trans hut, ?_⟩
    rw [List.forall_mem_cons]
    exact ⟨hpu.mono hut (script.guarded st hst), hpt⟩

theorem run_of_inOrder {known : List ν} {sts : List (Stmt ν τ ι)} (hord : InOrder known sts)
    (hsub : ∀ st ∈ sts, st ∈ script.steps) (hs : script.Within s)
    (hknown : ∀ n ∈ known, (s.tables n).isSome) : ∃ t, run builds held sts s = some t := by
  induction sts generalizing known s with
  | nil => exact ⟨s, rfl⟩
  | cons st sts ih =>
    have hst := hsub st (by simp)
    obtain ⟨u, hu⟩ : ∃ u, Ddl.exec builds held st s = some u :=
      hs.exec_succeeds hst fun n g tn e heq => by
        subst heq
        exact hknown tn hord.1
    obtain ⟨hwu, hsu, hpu⟩ := hs.exec hst hu
    have hmono : ∀ n ∈ known, (u.tables n).isSome := fun n hn => by
      obtain ⟨tb, htb⟩ := Option.isSome_iff_exists.mp (hknown n hn)
      simp [hsu.tables n tb htb]
    have hrest : ∃ known', InOrder known' sts ∧ ∀ n ∈ known', (u.tables n).isSome := by
      cases st with
      | createTable n g d =>
        obtain ⟨rows, hn⟩ := hpu
        refine ⟨n :: known, hord, ?_⟩
        rw [List.forall_mem_cons]
        exact ⟨by simp [hn], hmono⟩
      | createIndex n g tn e => exact ⟨known, hord.2, hmono⟩
      | dropTable n g => exact ⟨known, hord, hmono⟩
    obtain ⟨known', hord', hknown'⟩ := hrest
    obtain ⟨t, ht⟩ := ih hord' (fun st' h' => hsub st' (by simp [h'])) hwu hknown'
    exact ⟨t, by simp [run, hu, ht]⟩

/-- **A whole run succeeds**, makes the database complete and keeps every row. -/
theorem run_succeeds (hs : script.Within s) :
    ∃ t, run builds held script.steps s = some t ∧ script.Complete t ∧ s.Extends t := by
  obtain ⟨t, ht⟩ := run_of_inOrder script.inOrder (fun _ h => h) hs (by simp)
  obtain ⟨hw, hext, hp⟩ := run_spec (fun _ h => h) hs ht
  exact ⟨t, ht, ⟨hw, hp⟩, hext⟩

/-- **A run of a complete database changes nothing.** -/
theorem run_again (hs : script.Complete s) : run builds held script.steps s = some s := by
  suffices h : ∀ sts : List (Stmt ν τ ι), (∀ st ∈ sts, st ∈ script.steps) →
      run builds held sts s = some s from h _ fun _ h => h
  intro sts hsub
  induction sts with
  | nil => rfl
  | cons st sts ih =>
    have hst := hsub st (by simp)
    rw [run, exec_of_present (script.guarded st hst) (hs.present st hst), Option.bind_some]
    exact ih fun st' h' => hsub st' (by simp [h'])

theorem Complete.tables_eq (hs : script.Complete s) (ht : script.Complete t) {n : ν} {d : τ}
    (h : (s.tables n).map Table.definition = some d) :
    (t.tables n).map Table.definition = some d := by
  obtain ⟨tb, hn, rfl⟩ := Option.map_eq_some_iff.mp h
  obtain ⟨rows, hn'⟩ := ht.present _ (hs.tables n tb hn)
  simp [hn']

/-- **Complete databases have one schema.** -/
theorem schema_unique (hs : script.Complete s) (ht : script.Complete t) :
    s.schema = t.schema := by
  refine Prod.ext (funext fun n => Option.ext fun d => ?_) (funext fun n => Option.ext fun ix => ?_)
  · exact ⟨hs.tables_eq ht, ht.tables_eq hs⟩
  · exact ⟨fun h => ht.present _ (hs.indexes n ix h), fun h => hs.present _ (ht.indexes n ix h)⟩

/-! ## Attempts -/

variable (script)

/-- What may happen to the database: an attempt that stops after `n` steps (or earlier, at a
    step that fails), and a row that goes into a table. -/
inductive Action (ν ρ : Type)
  | attempt (n : ℕ)
  | insert (table : ν) (row : ρ)

/-- Attempts and inserts in any order, starting with nothing. -/
def attempts : TransitionSystem (Db ν τ ι ρ) (Action ν ρ) where
  Init s := s = .empty
  Step s
    | .attempt n, t => run builds (fun _ => false) (script.steps.take n) s = some t
    | .insert n r, t => (s.tables n).isSome ∧ t = s.insertRow n r

variable {script}

theorem within_of_reachable (h : script.attempts.Reachable s) : script.Within s := by
  refine h.invariant (I := script.Within) ?_ ?_
  · rintro s rfl
    exact within_empty
  · intro s a t hs hst
    cases a with
    | attempt n => exact (run_spec (fun st h => List.mem_of_mem_take h) hs hst).1
    | insert n r =>
      obtain ⟨-, rfl⟩ := hst
      exact hs.insertRow n r

/-! ## Dropping the tables -/

theorem run_drops (builds : ι → List ρ → Bool) {sts : List (Stmt ν τ ι)}
    (hsts : ∀ st ∈ sts, ∃ n, st = .dropTable n true ∧ held n = false) (s : Db ν τ ι ρ) :
    ∃ t, run builds held sts s = some t ∧ t.Extends s ∧
      ∀ n, .dropTable n true ∈ sts → t.tables n = none := by
  induction sts generalizing s with
  | nil => exact ⟨s, rfl, .refl s, by simp⟩
  | cons st sts ih =>
    obtain ⟨n, rfl, hheld⟩ := hsts st (by simp)
    obtain ⟨u, hu, hus, hun⟩ : ∃ u, exec builds held (.dropTable n true) s = some u ∧ u.Extends s ∧
        u.tables n = none := by
      by_cases hn : (s.tables n).isSome
      · exact ⟨s.drop n, by simp [exec, hn, hheld], Db.drop_extends n s, by simp [Db.drop]⟩
      · exact ⟨s, by simp [exec, hn], .refl s, by simpa using hn⟩
    obtain ⟨t, ht, htu, htn⟩ := ih (fun st' h' => hsts st' (by simp [h'])) u
    refine ⟨t, by simp [run, hu, ht], htu.trans hus, fun n' hn' => ?_⟩
    obtain heq | hn' := List.mem_cons.mp hn'
    · obtain rfl : n' = n := by simpa using heq
      by_contra hne
      obtain ⟨tb, htb⟩ := Option.ne_none_iff_exists'.mp hne
      have hu' := htu.tables n' tb htb
      simp [hun] at hu'
    · exact htn n' hn'

/-- **Guarded drops of the script's tables leave nothing of it**, where nothing else refers to
    them. -/
theorem drops_succeed (hs : script.Within s) {sts : List (Stmt ν τ ι)}
    (hsts : ∀ st ∈ sts, ∃ n, st = .dropTable n true ∧ held n = false)
    (hall : ∀ n g d, .createTable n g d ∈ script.steps → .dropTable n true ∈ sts) :
    run builds held sts s = some .empty := by
  obtain ⟨t, ht, hext, hn⟩ := run_drops builds hsts s
  have htables : ∀ n, t.tables n = none := fun n => by
    by_contra hne
    obtain ⟨tb, htb⟩ := Option.ne_none_iff_exists'.mp hne
    exact hne (hn n (hall n _ _ (hs.tables n tb (hext.tables n tb htb))))
  have hindexes : ∀ n, t.indexes n = none := fun n => by
    by_contra hne
    obtain ⟨ix, hix⟩ := Option.ne_none_iff_exists'.mp hne
    simpa [htables] using t.owned n ix hix
  rw [ht, Option.some.injEq]
  exact Db.ext (funext htables) (funext hindexes)

end Script

end Ddl
