/-
  Several runners of one script at the same time, on one database, each statement for itself.

  A runner has its place in the script. It can stop anywhere and begin again, and rows come in
  between.

  * `step_inv`: what a runner has behind it is there, and stays there;
  * `can_step`: a runner never fails at what it has before it;
  * `complete_of_done`: as soon as one of them is through, the database is complete;
  * `steps_rows`: no row is lost.
-/
import Forgeclaw.Foundation.Ddl

namespace Ddl.Script

variable {ν τ ι ρ κ : Type} [DecidableEq ν] [DecidableEq κ] {builds : ι → List ρ → Bool}

/-- The database, and how many statements each runner has behind it. -/
structure Running (ν τ ι ρ κ : Type) where
  db : Db ν τ ι ρ
  place : κ → Option Nat

inductive RunnerAct (ν ρ κ : Type) where
  | start (i : κ)
  | step (i : κ)
  | stop (i : κ)
  | insert (table : ν) (row : ρ)

variable (script : Script builds ν τ)

open Function in
inductive RunnerStep : Running ν τ ι ρ κ → RunnerAct ν ρ κ → Running ν τ ι ρ κ → Prop
  | start (s i) : s.place i = none →
      RunnerStep s (.start i) { s with place := update s.place i (some 0) }
  | step (s i k st db) : s.place i = some k → script.steps[k]? = some st →
      exec builds (fun _ => false) st s.db = some db →
      RunnerStep s (.step i) ⟨db, update s.place i (some (k + 1))⟩
  | stop (s i k) : s.place i = some k →
      RunnerStep s (.stop i) { s with place := update s.place i none }
  | insert (s n r) : (s.db.tables n).isSome →
      RunnerStep s (.insert n r) { s with db := s.db.insertRow n r }

/-- Any number of runners, starting with an empty database. -/
def runners (κ : Type) [DecidableEq κ] :
    TransitionSystem (Running ν τ ι ρ κ) (RunnerAct ν ρ κ) where
  Init s := s = ⟨.empty, fun _ => none⟩
  Step := RunnerStep script

/-! ## The invariant -/

/-- A runner is in the script, and what it has behind it is there. -/
structure Inv (s : Running ν τ ι ρ κ) : Prop where
  within : script.Within s.db
  done : ∀ i k, s.place i = some k →
    k ≤ script.steps.length ∧ ∀ st ∈ script.steps.take k, st.Present s.db

variable {script} {s t : Running ν τ ι ρ κ}

theorem present_insertRow {db : Db ν τ ι ρ} {st : Stmt ν τ ι} (h : st.Present db) (n : ν) (r : ρ) :
    st.Present (db.insertRow n r) := by
  cases st with
  | createTable n' g d =>
    obtain ⟨rows, h⟩ := h
    by_cases hne : n' = n
    · subst hne
      exact ⟨rows ++ [r], by simp [Db.insertRow, h]⟩
    · exact ⟨rows, by simpa [Db.insertRow, hne] using h⟩
  | createIndex n' g tn e => exact h
  | dropTable n' g =>
    replace h : db.tables n' = none := h
    by_cases hne : n' = n
    · subst hne
      simp [Stmt.Present, Db.insertRow, h]
    · simpa [Stmt.Present, Db.insertRow, hne] using h

omit [DecidableEq ν] in
theorem place_update {place : κ → Option Nat} {i j : κ} {p : Option Nat} {k : Nat}
    (h : Function.update place i p j = some k) : j = i ∧ p = some k ∨ place j = some k := by
  by_cases hj : j = i
  · subst hj
    rw [Function.update_self] at h
    exact .inl ⟨rfl, h⟩
  · rw [Function.update_of_ne hj] at h
    exact .inr h

theorem step_inv {a : RunnerAct ν ρ κ} (h : Inv script s) (hst : RunnerStep script s a t) :
    Inv script t := by
  cases hst with
  | start i hi =>
    refine ⟨h.within, fun j k hj => ?_⟩
    obtain ⟨-, hk⟩ | hj := place_update hj
    · cases hk
      exact ⟨Nat.zero_le _, by simp⟩
    · exact h.done j k hj
  | step i k st db hi hst hexec =>
    have hmem := List.mem_of_getElem? hst
    obtain ⟨hwithin, hext, hpresent⟩ := h.within.exec hmem hexec
    have hmono : ∀ m, ∀ st' ∈ script.steps.take m, st'.Present s.db → st'.Present db :=
      fun m st' hst' hp => hp.mono hext (script.guarded st' (List.mem_of_mem_take hst'))
    refine ⟨hwithin, fun j m hj => ?_⟩
    obtain ⟨-, hm⟩ | hj := place_update hj
    · cases hm
      obtain ⟨hlt, hget⟩ := List.getElem?_eq_some_iff.mp hst
      refine ⟨hlt, fun st' hst' => ?_⟩
      rw [List.take_add_one, hst, Option.toList_some, List.mem_append, List.mem_singleton] at hst'
      rcases hst' with hst' | rfl
      · exact hmono k st' hst' ((h.done i k hi).2 st' hst')
      · exact hpresent
    · obtain ⟨hle, hdone⟩ := h.done j m hj
      exact ⟨hle, fun st' hst' => hmono m st' hst' (hdone st' hst')⟩
  | stop i k hi =>
    refine ⟨h.within, fun j m hj => ?_⟩
    obtain ⟨-, hm⟩ | hj := place_update hj
    · cases hm
    · exact h.done j m hj
  | insert n r hn =>
    refine ⟨h.within.insertRow n r, fun j m hj => ?_⟩
    obtain ⟨hle, hdone⟩ := h.done j m hj
    exact ⟨hle, fun st' hst' => present_insertRow (hdone st' hst') n r⟩

theorem inv_of_reachable (h : (script.runners κ).Reachable s) : Inv script s := by
  refine h.invariant (I := Inv script) ?_ step_inv
  rintro s rfl
  exact ⟨within_empty, fun i k hi => by cases hi⟩

/-! ## What the runners can rely on -/

omit [DecidableEq ν] in
/-- The table of an index is known, or made before it. -/
theorem table_before {known : List ν} {sts : List (Stmt ν τ ι)} (hord : InOrder known sts) {k : Nat}
    {n tn : ν} {g : Bool} {e : ι} (hk : sts[k]? = some (.createIndex n g tn e)) :
    tn ∈ known ∨ ∃ g' d, .createTable tn g' d ∈ sts.take k := by
  induction sts generalizing known k with
  | nil => simp at hk
  | cons st sts ih =>
    cases k with
    | zero =>
      obtain rfl : st = .createIndex n g tn e := by simpa using hk
      exact .inl hord.1
    | succ k =>
      rw [List.getElem?_cons_succ] at hk
      rw [List.take_succ_cons]
      cases st with
      | createTable n' g' d =>
        obtain htn | ⟨g'', d', hmem⟩ := ih hord hk
        · rcases List.mem_cons.mp htn with rfl | htn
          · exact .inr ⟨g', d, List.mem_cons_self⟩
          · exact .inl htn
        · exact .inr ⟨g'', d', List.mem_cons_of_mem _ hmem⟩
      | createIndex n' g' tn' e' =>
        obtain htn | ⟨g'', d', hmem⟩ := ih hord.2 hk
        · exact .inl htn
        · exact .inr ⟨g'', d', List.mem_cons_of_mem _ hmem⟩
      | dropTable n' g' =>
        obtain htn | ⟨g'', d', hmem⟩ := ih hord hk
        · exact .inl htn
        · exact .inr ⟨g'', d', List.mem_cons_of_mem _ hmem⟩

/-- **A runner never fails at its next statement.** -/
theorem can_step (h : Inv script s) {i : κ} {k : Nat} (hi : s.place i = some k)
    (hk : k < script.steps.length) : ∃ t, RunnerStep script s (.step i) t := by
  obtain ⟨st, hst⟩ : ∃ st, script.steps[k]? = some st := ⟨_, List.getElem?_eq_getElem hk⟩
  obtain ⟨db, hdb⟩ := h.within.exec_succeeds (List.mem_of_getElem? hst) fun n g tn e heq => by
    subst heq
    obtain htn | ⟨g', d, hmem⟩ := table_before script.inOrder hst
    · simp at htn
    · obtain ⟨rows, hrows⟩ := (h.done i k hi).2 _ hmem
      simp [hrows]
  exact ⟨_, .step s i k st db hi hst hdb⟩

omit [DecidableEq κ] in
/-- **Where one runner is through, the database is complete.** -/
theorem complete_of_done (h : Inv script s) {i : κ} (hi : s.place i = some script.steps.length) :
    script.Complete s.db := by
  refine ⟨h.within, fun st hst => (h.done i _ hi).2 st ?_⟩
  rwa [List.take_length]

/-- Each table of `db` is in `db'`, declared in the same way, with at least its rows. -/
def Keeps (db db' : Db ν τ ι ρ) : Prop :=
  ∀ n tb, db.tables n = some tb → ∃ rows, db'.tables n = some ⟨tb.definition, tb.rows ++ rows⟩

omit [DecidableEq ν] in
theorem Keeps.of_extends {db db' : Db ν τ ι ρ} (h : db.Extends db') : Keeps db db' :=
  fun n tb hn => ⟨[], by simpa using h.tables n tb hn⟩

theorem Keeps.insertRow (db : Db ν τ ι ρ) (n : ν) (r : ρ) : Keeps db (db.insertRow n r) := by
  intro n' tb hn'
  by_cases hne : n' = n
  · subst hne
    exact ⟨[r], by simp [Db.insertRow, hn']⟩
  · exact ⟨[], by simpa [Db.insertRow, hne] using hn'⟩

omit [DecidableEq ν] in
theorem Keeps.trans {db db' db'' : Db ν τ ι ρ} (h : Keeps db db') (h' : Keeps db' db'') :
    Keeps db db'' := by
  intro n tb hn
  obtain ⟨rows, hrows⟩ := h n tb hn
  obtain ⟨rows', hrows'⟩ := h' n _ hrows
  exact ⟨rows ++ rows', by simpa using hrows'⟩

theorem step_rows {a : RunnerAct ν ρ κ} (h : Inv script s) (hst : RunnerStep script s a t) :
    Keeps s.db t.db := by
  cases hst with
  | start i hi => exact .of_extends (.refl _)
  | step i k st db hi hst hexec =>
    exact .of_extends (h.within.exec (List.mem_of_getElem? hst) hexec).2.1
  | stop i k hi => exact .of_extends (.refl _)
  | insert n r hn => exact .insertRow _ n r

/-- **No row is lost**, and no table changes its declaration. -/
theorem steps_rows (h : Inv script s) (hst : (script.runners κ).Steps s t) : Keeps s.db t.db := by
  refine (hst.invariant (I := fun t => Inv script t ∧ Keeps s.db t.db) ?_
    ⟨h, .of_extends (.refl _)⟩).2
  intro u a v hu hstep
  exact ⟨step_inv hu.1 hstep, hu.2.trans (step_rows hu.1 hstep)⟩

end Ddl.Script
