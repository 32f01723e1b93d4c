/-
  A database that a script shares with others.

  Tables of some names, with the indexes on them, are the one part of the database (`only`), and
  all others are the other part (`except`). Statements about the tables of the one part change
  that part as they would change it alone, and leave the other one as it is, as long as no other
  object has one of their names (`Free`).

  * `run_only`, `run_except`: the two parts of a run;
  * `Shared.of_reachable`: what attempts at the script and at dropping its tables leave, in any
    order, whatever the others do in between;
  * `Shared.run_succeeds`, `Shared.run_again`, `Shared.drops_succeed`: what the script does then.
-/
import Forgeclaw.Foundation.Ddl

namespace Ddl

variable {ν τ ι ρ : Type} {p q : ν → Bool}

/-! ## Parts of a database -/

namespace Db

/-- The tables of these names, and the indexes on them. -/
def only (p : ν → Bool) (s : Db ν τ ι ρ) : Db ν τ ι ρ where
  tables n := if p n then s.tables n else none
  indexes n := (s.indexes n).filter fun ix => p ix.table
  owned n ix h := by
    obtain ⟨hix, hp⟩ := Option.filter_eq_some_iff.mp h
    rw [if_pos hp]
    exact s.owned n ix hix

/-- All other tables, and the indexes on them. -/
abbrev except (p : ν → Bool) (s : Db ν τ ι ρ) : Db ν τ ι ρ := s.only fun n => !p n

/-- No other table or index has this name. -/
def Free (p : ν → Bool) (n : ν) (s : Db ν τ ι ρ) : Prop :=
  (s.except p).tables n = none ∧ (s.except p).indexes n = none

variable {s t : Db ν τ ι ρ} {n m : ν} {d : τ} {e : ι}

theorem only_tables (h : p n = true) : (s.only p).tables n = s.tables n := if_pos h

theorem Free.tables_eq (h : s.Free p n) : (s.only p).tables n = s.tables n := by
  cases hp : p n with
  | true => exact only_tables hp
  | false =>
    have hnone : s.tables n = none := by simpa [only, hp] using h.1
    simp [only, hp, hnone]

theorem Free.indexes_eq (h : s.Free p n) : (s.only p).indexes n = s.indexes n := by
  cases hix : s.indexes n with
  | none => simp [only, hix]
  | some ix =>
    have hp : p ix.table = true := by simpa [only, hix] using h.2
    simp [only, hix, hp]

theorem extends_of_parts (hp : (s.only p).Extends (t.only p)) (hq : t.except p = s.except p) :
    s.Extends t := by
  constructor
  · intro n tb hn
    cases hpn : p n with
    | true =>
      have hown := hp.tables n tb (by rwa [only_tables hpn])
      rwa [only_tables hpn] at hown
    | false =>
      have hother := congrFun (congrArg Db.tables hq) n
      rw [only_tables (by simp [hpn]), only_tables (by simp [hpn])] at hother
      rw [hother, hn]
  · intro n ix hn
    cases hpn : p ix.table with
    | true =>
      have hown := hp.indexes n ix (Option.filter_eq_some_iff.mpr ⟨hn, hpn⟩)
      exact (Option.filter_eq_some_iff.mp hown).1
    | false =>
      have hother : (t.except p).indexes n = some ix := by
        rw [hq]
        exact Option.filter_eq_some_iff.mpr ⟨hn, by simp [hpn]⟩
      exact (Option.filter_eq_some_iff.mp hother).1

theorem Extends.antisymm (h : s.Extends t) (h' : t.Extends s) : s = t := by
  refine Db.ext (funext fun n => Option.ext fun tb => ?_) (funext fun n => Option.ext fun ix => ?_)
  · exact ⟨h.tables n tb, h'.tables n tb⟩
  · exact ⟨h.indexes n ix, h'.indexes n ix⟩

/-- The two parts are the whole. -/
theorem eq_of_parts (hp : s.only p = t.only p) (hq : s.except p = t.except p) : s = t :=
  (extends_of_parts (hp ▸ .refl _) hq.symm).antisymm (extends_of_parts (hp ▸ .refl _) hq)

variable [DecidableEq ν]

theorem only_addTable (h : p n = true) : (s.addTable n d).only p = (s.only p).addTable n d := by
  refine Db.ext (funext fun m => ?_) rfl
  by_cases hm : m = n
  · subst hm
    simp [only, addTable, h]
  · simp [only, addTable, hm]

theorem only_addTable_of_not (h : p n = false) : (s.addTable n d).only p = s.only p := by
  refine Db.ext (funext fun m => ?_) rfl
  by_cases hm : m = n
  · subst hm
    simp [only, h]
  · simp [only, addTable, hm]

theorem only_addIndex (h : p m = true) (hm : (s.tables m).isSome) :
    (s.addIndex n m e hm).only p =
      (s.only p).addIndex n m e (by rwa [only_tables h]) := by
  refine Db.ext rfl (funext fun n' => ?_)
  by_cases hn : n' = n
  · subst hn
    simp [only, addIndex, h]
  · simp [only, addIndex, hn]

theorem only_addIndex_of_not (h : p m = false) (hm : (s.tables m).isSome)
    (hn : s.indexes n = none) : (s.addIndex n m e hm).only p = s.only p := by
  refine Db.ext rfl (funext fun n' => ?_)
  by_cases hn' : n' = n
  · subst hn'
    simp [only, addIndex, h, hn]
  · simp [only, addIndex, hn']

theorem only_drop (p : ν → Bool) (n : ν) (s : Db ν τ ι ρ) :
    (s.drop n).only p = (s.only p).drop n := by
  refine Db.ext (funext fun m => ?_) (funext fun m => ?_)
  · by_cases hm : m = n
    · subst hm
      simp [only, drop]
    · simp [only, drop, hm]
  · simp only [only, drop, Option.filter_filter]
    exact congrArg (Option.filter · _) (funext fun ix => Bool.and_comm ..)

theorem drop_of_none (h : s.tables n = none) : s.drop n = s := by
  refine (drop_extends n s).antisymm ⟨fun m tb hm => ?_, fun m ix hm => ?_⟩
  · have hne : m ≠ n := by
      rintro rfl
      cases h.symm.trans hm
    exact (Function.update_of_ne hne _ _).trans hm
  · refine Option.filter_eq_some_iff.mpr ⟨hm, decide_eq_true fun hne => ?_⟩
    have howned := s.owned m ix hm
    rw [hne, h] at howned
    cases howned

theorem only_drop_of_not (h : p n = false) : (s.drop n).only p = s.only p := by
  rw [only_drop]
  exact drop_of_none (by simp [only, h])

theorem only_insertRow (h : p n = true) (r : ρ) :
    (s.insertRow n r).only p = (s.only p).insertRow n r := by
  refine Db.ext (funext fun m => ?_) rfl
  by_cases hm : m = n
  · subst hm
    simp [only, insertRow, h]
  · simp [only, insertRow, hm]

theorem only_insertRow_of_not (h : p n = false) (r : ρ) :
    (s.insertRow n r).only p = s.only p := by
  refine Db.ext (funext fun m => ?_) rfl
  by_cases hm : m = n
  · subst hm
    simp [only, h]
  · simp [only, insertRow, hm]

end Db

/-! ## Statements about one part -/

/-- The table that the statement is about. -/
def Stmt.table : Stmt ν τ ι → ν
  | .createTable n _ _ => n
  | .createIndex _ _ t _ => t
  | .dropTable n _ => n

section exec

variable [DecidableEq ν] {builds : ι → List ρ → Bool} {held : ν → Bool} {s t : Db ν τ ι ρ}
  {st : Stmt ν τ ι}
  {sts : List (Stmt ν τ ι)}

theorem exec_only (hp : p st.table = true) (hfree : s.Free p st.name) :
    (exec builds held st s).map (Db.only p) = exec builds held st (s.only p) := by
  have htables := hfree.tables_eq
  have hindexes := hfree.indexes_eq
  cases st with
  | createTable n g d =>
    have hadd : (s.addTable n d).only p = (s.only p).addTable n d := Db.only_addTable hp
    change (s.only p).tables n = s.tables n at htables
    change (s.only p).indexes n = s.indexes n at hindexes
    simp only [exec, htables, hindexes, ← hadd]
    split
    · split <;> rfl
    · split <;> rfl
  | createIndex n g m e =>
    have hm : (s.only p).tables m = s.tables m := Db.only_tables hp
    change (s.only p).tables n = s.tables n at htables
    change (s.only p).indexes n = s.indexes n at hindexes
    by_cases h : (s.tables m).isSome
    · have h' : ((s.only p).tables m).isSome := by rwa [hm]
      have hadd := Db.only_addIndex (n := n) (e := e) hp h
      simp only [exec, dif_pos h, htables, hindexes, hm]
      split
      · split <;> rfl
      · split
        · rfl
        · split
          · exact congrArg some hadd
          · rfl
    · have h' : ¬ ((s.only p).tables m).isSome := by rwa [hm]
      simp only [exec, dif_neg h, dif_neg h']
      rfl
  | dropTable n g =>
    change (s.only p).tables n = s.tables n at htables
    simp only [exec, htables, ← Db.only_drop]
    split
    · split <;> rfl
    · split <;> rfl

/-- The statement leaves the tables that it is not about alone. -/
theorem exec_except (hp : p st.table = true) (h : exec builds held st s = some t) :
    t.except p = s.except p := by
  cases st with
  | createTable n g d =>
    have hn : (!p n) = false := by simpa [Stmt.table] using hp
    obtain ⟨-, rfl⟩ | ⟨-, -, rfl⟩ := exec_createTable h
    · rfl
    · exact Db.only_addTable_of_not hn
  | createIndex n g m e =>
    have hm : (!p m) = false := by simpa [Stmt.table] using hp
    obtain ⟨-, -, rfl⟩ | ⟨hix, -, htb, rfl⟩ := exec_createIndex h
    · rfl
    · exact Db.only_addIndex_of_not (p := fun n => !p n) hm htb hix
  | dropTable n g =>
    have hn : (!p n) = false := by simpa [Stmt.table] using hp
    simp only [exec] at h
    split at h
    · split at h
      · cases h
      · obtain rfl := Option.some.inj h
        exact Db.only_drop_of_not hn
    · split at h
      · obtain rfl := Option.some.inj h
        rfl
      · cases h

theorem run_except (hp : ∀ st ∈ sts, p st.table = true) (h : run builds held sts s = some t) :
    t.except p = s.except p := by
  induction sts generalizing s with
  | nil =>
    obtain rfl := Option.some.inj h
    rfl
  | cons st sts ih =>
    obtain ⟨u, hu, ht⟩ := Option.bind_eq_some_iff.mp h
    rw [ih (fun st' h' => hp st' (List.mem_cons_of_mem st h')) ht]
    exact exec_except (hp st List.mem_cons_self) hu

theorem run_only (hp : ∀ st ∈ sts, p st.table = true) (hfree : ∀ st ∈ sts, s.Free p st.name) :
    (run builds held sts s).map (Db.only p) = run builds held sts (s.only p) := by
  induction sts generalizing s with
  | nil => rfl
  | cons st sts ih =>
    have hst : (exec builds held st s).map (Db.only p) = exec builds held st (s.only p) :=
      exec_only (hp st List.mem_cons_self) (hfree st List.mem_cons_self)
    unfold run
    rw [← hst]
    cases hu : exec builds held st s with
    | none => rfl
    | some u =>
      have hexcept := exec_except (hp st List.mem_cons_self) hu
      refine ih (fun st' h' => hp st' (List.mem_cons_of_mem st h')) fun st' h' => ?_
      unfold Db.Free
      rw [hexcept]
      exact hfree st' (List.mem_cons_of_mem st h')

/-- What a run makes of the one part, it makes of the whole. -/
theorem run_of_only (hp : ∀ st ∈ sts, p st.table = true) (hfree : ∀ st ∈ sts, s.Free p st.name)
    {u : Db ν τ ι ρ} (h : run builds held sts (s.only p) = some u) :
    ∃ t, run builds held sts s = some t ∧ t.only p = u ∧ t.except p = s.except p := by
  rw [← run_only hp hfree] at h
  obtain ⟨t, ht, rfl⟩ := Option.map_eq_some_iff.mp h
  exact ⟨t, ht, rfl, run_except hp ht⟩

end exec

/-! ## A script and others -/

namespace Script

variable [DecidableEq ν] {builds : ι → List ρ → Bool} {held : ν → Bool}
  {script : Script builds ν τ}
  {s t : Db ν τ ι ρ} {drops : List (Stmt ν τ ι)}

/-- What the script does, and what takes it back, is about the tables of these names, to which
    nothing of the others refers. -/
structure Owns (script : Script builds ν τ) (held p : ν → Bool) (drops : List (Stmt ν τ ι)) :
    Prop where
  steps : ∀ st ∈ script.steps, p st.table = true
  created : ∀ st ∈ drops, ∃ n d, st = .dropTable n true ∧ .createTable n true d ∈ script.steps
  all : ∀ n g d, .createTable n g d ∈ script.steps → .dropTable n true ∈ drops
  notHeld : ∀ n, p n = true → held n = false

/-- In its part of the database is nothing but what the script creates, and the names are not
    used in the other part. -/
structure Shared (script : Script builds ν τ) (p : ν → Bool) (s : Db ν τ ι ρ) : Prop where
  within : script.Within (s.only p)
  free : ∀ st ∈ script.steps, s.Free p st.name

/-- An attempt at the script or at its drops that stops after `n` steps, a row that goes into
    some table, and what others do. -/
inductive SharedAct (ν ρ : Type)
  | up (n : ℕ)
  | down (n : ℕ)
  | insert (table : ν) (row : ρ)
  | others

/-- All of this in any order, starting with what the others have. They leave the tables of these
    names and what is on them alone, and use other names. -/
def shared (script : Script builds ν τ) (held p : ν → Bool) (drops : List (Stmt ν τ ι)) :
    TransitionSystem (Db ν τ ι ρ) (SharedAct ν ρ) where
  Init s := s.only p = .empty ∧ ∀ st ∈ script.steps, s.Free p st.name
  Step s
    | .up n, t => run builds held (script.steps.take n) s = some t
    | .down n, t => run builds held (drops.take n) s = some t
    | .insert n r, t => (s.tables n).isSome ∧ t = s.insertRow n r
    | .others, t => t.only p = s.only p ∧ ∀ st ∈ script.steps, t.Free p st.name

theorem Within.of_extends (hs : script.Within s) (h : t.Extends s) : script.Within t :=
  ⟨fun n tb hn => hs.tables n tb (h.tables n tb hn),
   fun n ix hn => hs.indexes n ix (h.indexes n ix hn)⟩

namespace Owns

variable {st : Stmt ν τ ι}

theorem table_drops (h : script.Owns held p drops) (hst : st ∈ drops) : p st.table = true := by
  obtain ⟨n, d, rfl, hd⟩ := h.created st hst
  exact h.steps (.createTable n true d) hd

theorem free_drops (h : script.Owns held p drops) (hs : script.Shared p s) (hst : st ∈ drops) :
    s.Free p st.name := by
  obtain ⟨n, d, rfl, hd⟩ := h.created st hst
  exact hs.free (.createTable n true d) hd

theorem dropTable (h : script.Owns held p drops) (hst : st ∈ drops) :
    ∃ n, st = .dropTable n true ∧ held n = false := by
  obtain ⟨n, d, rfl, -⟩ := h.created st hst
  exact ⟨n, rfl, h.notHeld n (h.table_drops hst)⟩

end Owns

namespace Shared

/-- A run that is about the script's part, and leaves it within the script. -/
theorem of_run (h : script.Shared p s) {sts : List (Stmt ν τ ι)}
    (htable : ∀ st ∈ sts, p st.table = true) (hfree : ∀ st ∈ sts, s.Free p st.name)
    (hrun : run builds held sts s = some t)
    (hw : ∀ u, run builds held sts (s.only p) = some u → script.Within u) : script.Shared p t := by
  have hown : run builds held sts (s.only p) = some (t.only p) := by
    rw [← run_only htable hfree, hrun]
    rfl
  refine ⟨hw _ hown, fun st hst => ?_⟩
  unfold Db.Free
  rw [run_except htable hrun]
  exact h.free st hst

theorem up (h : script.Shared p s) (hp : script.Owns held p drops) {k : ℕ}
    (hrun : run builds held (script.steps.take k) s = some t) : script.Shared p t := by
  have hsub : ∀ st ∈ script.steps.take k, st ∈ script.steps := fun st => List.mem_of_mem_take
  refine h.of_run (fun st hst => hp.steps st (hsub st hst))
    (fun st hst => h.free st (hsub st hst)) hrun fun u hu => ?_
  exact (run_spec hsub h.within hu).1

theorem down (h : script.Shared p s) (hp : script.Owns held p drops) {k : ℕ}
    (hrun : run builds held (drops.take k) s = some t) : script.Shared p t := by
  have hsub : ∀ st ∈ drops.take k, st ∈ drops := fun st => List.mem_of_mem_take
  refine h.of_run (fun st hst => hp.table_drops (hsub st hst))
    (fun st hst => hp.free_drops h (hsub st hst)) hrun fun u hu => ?_
  obtain ⟨u', hu', hext, -⟩ := run_drops builds (fun st hst => hp.dropTable (hsub st hst)) _
  obtain rfl := Option.some.inj (hu.symm.trans hu')
  exact h.within.of_extends hext

theorem insertRow (h : script.Shared p s) (n : ν) (r : ρ) :
    script.Shared p (s.insertRow n r) := by
  cases hn : p n with
  | true =>
    have hothers : (s.insertRow n r).except p = s.except p :=
      Db.only_insertRow_of_not (by simp [hn]) r
    constructor
    · rw [Db.only_insertRow hn]
      exact h.within.insertRow n r
    · unfold Db.Free
      rw [hothers]
      exact h.free
  | false =>
    refine ⟨?_, fun st hst => ?_⟩
    · rw [Db.only_insertRow_of_not hn]
      exact h.within
    · have hfree := h.free st hst
      have hrow : (s.insertRow n r).except p = (s.except p).insertRow n r :=
        Db.only_insertRow (by simp [hn]) r
      unfold Db.Free at hfree ⊢
      rw [hrow]
      refine ⟨?_, hfree.2⟩
      by_cases hne : st.name = n
      · subst hne
        simp [Db.insertRow, hfree.1]
      · simp [Db.insertRow, hne, hfree.1]

/-- **What is left in the script's part**, whatever came before, is the script's. -/
theorem of_reachable (hp : script.Owns held p drops) (h : (script.shared held p drops).Reachable s) :
    script.Shared p s := by
  refine h.invariant (I := script.Shared p) ?_ ?_
  · rintro s ⟨hempty, hfree⟩
    exact ⟨hempty ▸ within_empty, hfree⟩
  · intro s a t hs hst
    cases a with
    | up k => exact hs.up hp hst
    | down k => exact hs.down hp hst
    | insert n r =>
      obtain ⟨-, rfl⟩ := hst
      exact hs.insertRow n r
    | others => exact ⟨hst.1 ▸ hs.within, hst.2⟩

/-- **A whole run succeeds**, and leaves the others alone. -/
theorem run_succeeds (h : script.Shared p s) (hp : script.Owns held p drops) :
    ∃ t, run builds held script.steps s = some t ∧ script.Complete (t.only p) ∧ s.Extends t ∧
      t.except p = s.except p := by
  obtain ⟨u, hu, hcomplete, hext⟩ := Script.run_succeeds h.within
  obtain ⟨t, ht, rfl, hexcept⟩ := run_of_only hp.steps h.free hu
  exact ⟨t, ht, hcomplete, Db.extends_of_parts hext hexcept, hexcept⟩

/-- **A further run changes nothing.** -/
theorem run_again (h : script.Shared p s) (hp : script.Owns held p drops)
    (hcomplete : script.Complete (s.only p)) : run builds held script.steps s = some s := by
  obtain ⟨t, ht, hown, hexcept⟩ := run_of_only hp.steps h.free (Script.run_again hcomplete)
  rw [ht, Db.eq_of_parts hown hexcept]

/-- **The drops take it back**, and leave the others alone. -/
theorem drops_succeed (h : script.Shared p s) (hp : script.Owns held p drops) :
    ∃ t, run builds held drops s = some t ∧ t.only p = .empty ∧ t.except p = s.except p :=
  run_of_only (fun _ => hp.table_drops) (fun _ => hp.free_drops h)
    (Script.drops_succeed h.within (fun _ => hp.dropTable) hp.all)

end Shared

end Script

end Ddl
