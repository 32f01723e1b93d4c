/-
  Keys under concurrent transactions: no number and no id is in two places.

  What a transaction has drawn or inserted is its own until it commits. A step gives up some of
  it, adds a value that is nowhere yet, or makes it visible (`Separate`), so

  * `numbers_distinct`, `ids_distinct`: visible rows have distinct numbers and distinct ids;
  * `numbers_pos`: numbers are given from one on;
  * `waits_unique`: nobody waits for two at once;
  * `step_new_rows`: rows that become visible are rows of the committing transaction's own
    program.
-/
import Forgeclaw.Foundation.Transactions

namespace Transactions

variable {ι κ ν μ υ : Type}

/-! ## Values in one place each -/

/-- Among the visible values and the transactions' own none occurs twice. -/
structure Separate (rows : List υ) (own : ι → List υ) : Prop where
  visible : rows.Nodup
  each : ∀ i, (own i).Nodup
  rows_own : ∀ i, ∀ v ∈ rows, v ∉ own i
  own_own : ∀ i j, i ≠ j → ∀ v ∈ own i, v ∉ own j

theorem separate_empty : Separate ([] : List υ) fun _ : ι => [] where
  visible := List.nodup_nil
  each _ := List.nodup_nil
  rows_own _ _ h := by cases h
  own_own _ _ _ _ h := by cases h

namespace Separate

variable [DecidableEq ι] {rows : List υ} {own : ι → List υ}

theorem shrink (h : Separate rows own) {i : ι} {l : List υ} (hl : l.Sublist (own i)) :
    Separate rows (Function.update own i l) where
  visible := h.visible
  each j := by
    rw [Function.update_apply]
    split
    · exact (h.each i).sublist hl
    · exact h.each j
  rows_own j v hv := by
    rw [Function.update_apply]
    split
    · exact fun hmem => h.rows_own i v hv (hl.subset hmem)
    · exact h.rows_own j v hv
  own_own j k hjk v := by
    rw [Function.update_apply, Function.update_apply]
    split
    · rename_i hj
      rw [if_neg (hj ▸ hjk.symm)]
      exact fun hv => h.own_own i k (hj ▸ hjk) v (hl.subset hv)
    · split
      · rename_i hj hk
        exact fun hv hmem => h.own_own j i (hk ▸ hjk) v hv (hl.subset hmem)
      · exact h.own_own j k hjk v

theorem add (h : Separate rows own) {i : ι} {v : υ} (hrows : v ∉ rows) (hown : ∀ j, v ∉ own j) :
    Separate rows (Function.update own i (own i ++ [v])) where
  visible := h.visible
  each j := by
    rw [Function.update_apply]
    split
    · rw [← List.concat_eq_append]
      exact (h.each i).concat (hown i)
    · exact h.each j
  rows_own j w hw := by
    rw [Function.update_apply]
    split
    · rw [List.mem_append, List.mem_singleton, not_or]
      exact ⟨h.rows_own i w hw, fun he => hrows (he ▸ hw)⟩
    · exact h.rows_own j w hw
  own_own j k hjk w := by
    rw [Function.update_apply, Function.update_apply]
    split
    · rename_i hj
      rw [if_neg (hj ▸ hjk.symm), List.mem_append, List.mem_singleton]
      rintro (hw | rfl)
      · exact h.own_own i k (hj ▸ hjk) w hw
      · exact hown k
    · split
      · rename_i hj hk
        rw [List.mem_append, List.mem_singleton, not_or]
        exact fun hw => ⟨h.own_own j i (hk ▸ hjk) w hw, fun he => hown j (he ▸ hw)⟩
      · exact h.own_own j k hjk w

theorem publish (h : Separate rows own) {i : ι} {l : List υ} (hl : l.Sublist (own i)) :
    Separate (rows ++ l) (Function.update own i []) where
  visible := List.nodup_append.mpr ⟨h.visible, (h.each i).sublist hl, fun v hv w hw he =>
    h.rows_own i v hv (hl.subset (he ▸ hw))⟩
  each := (h.shrink (List.nil_sublist _)).each
  rows_own j v hv := by
    rw [Function.update_apply]
    split
    · exact List.not_mem_nil
    · rename_i hj
      rcases List.mem_append.mp hv with hv | hv
      · exact h.rows_own j v hv
      · exact h.own_own i j (Ne.symm hj) v (hl.subset hv)
  own_own := (h.shrink (List.nil_sublist _)).own_own

end Separate

/-- What the step of one owner does to the values; `New` is what it can add. -/
inductive Moves [DecidableEq ι] (New : υ → Prop) (rows : List υ) (own : ι → List υ) (i : ι) :
    List υ → (ι → List υ) → Prop
  | shrink (l : List υ) : l.Sublist (own i) →
      Moves New rows own i rows (Function.update own i l)
  | add (v : υ) : New v → Moves New rows own i rows (Function.update own i (own i ++ [v]))
  | publish (l : List υ) : l.Sublist (own i) →
      Moves New rows own i (rows ++ l) (Function.update own i [])

namespace Moves

variable [DecidableEq ι] {New : υ → Prop} {rows rows' : List υ} {own own' : ι → List υ} {i : ι}

theorem separate (h : Moves New rows own i rows' own') (hs : Separate rows own)
    (hnew : ∀ v, New v → v ∉ rows ∧ ∀ j, v ∉ own j) : Separate rows' own' := by
  cases h with
  | shrink l hl => exact hs.shrink hl
  | add v hv => exact hs.add (hnew v hv).1 (hnew v hv).2
  | publish l hl => exact hs.publish hl

/-- What holds of all values, and of new ones, still does. -/
theorem all {P : υ → Prop} (h : Moves New rows own i rows' own') (hrows : ∀ v ∈ rows, P v)
    (hown : ∀ j, ∀ v ∈ own j, P v) (hnew : ∀ v, New v → P v) :
    (∀ v ∈ rows', P v) ∧ ∀ j, ∀ v ∈ own' j, P v := by
  have hupdate : ∀ {l : List υ}, (∀ v ∈ l, P v) → ∀ j, ∀ v ∈ Function.update own i l j, P v := by
    intro l hl j
    rw [Function.update_apply]
    split
    · exact hl
    · exact hown j
  cases h with
  | shrink l hl => exact ⟨hrows, hupdate fun v hv => hown i v (hl.subset hv)⟩
  | add v hv =>
    refine ⟨hrows, hupdate fun w hw => ?_⟩
    rcases List.mem_append.mp hw with hw | hw
    · exact hown i w hw
    · exact List.mem_singleton.mp hw ▸ hnew v hv
  | publish l hl =>
    refine ⟨fun v hv => ?_, hupdate fun v hv => absurd hv List.not_mem_nil⟩
    rcases List.mem_append.mp hv with hv | hv
    · exact hrows v hv
    · exact hown i v (hl.subset hv)

end Moves

/-! ## The database's numbers and ids -/

section Machine

variable [DecidableEq ι] {uid : ν → υ} {prog : μ → List (Stmt κ ν)}

/-- The numbers of the rows inserted, and the one drawn for the next. -/
def Txn.numbers (t : Txn κ ν μ) : List Int := t.pending.map (·.1) ++ t.drawn.toList

def Txn.ids (uid : ν → υ) (t : Txn κ ν μ) : List υ := t.pending.map fun p => uid p.2

def Db.own {α : Type} (f : Txn κ ν μ → List α) (db : Db ι κ ν μ) (i : ι) : List α :=
  (db.txns i).elim [] f

theorem own_put {α : Type} (f : Txn κ ν μ → List α) (db : Db ι κ ν μ) (i : ι) (t : Txn κ ν μ) :
    (db.put i t).own f = Function.update (db.own f) i (f t) := by
  funext j
  rw [Db.own, put_txns, Function.update_apply]
  split <;> rfl

omit [DecidableEq ι] in
theorem own_of {α : Type} (f : Txn κ ν μ → List α) {db : Db ι κ ν μ} {i : ι} {t : Txn κ ν μ}
    (h : db.txns i = some t) : db.own f i = f t := by
  rw [Db.own, h]
  rfl

/-- Steps that give values up, or none. -/
theorem moves_put {α : Type} {New : α → Prop} {f : Txn κ ν μ → List α} {db : Db ι κ ν μ} {i : ι}
    {t t' : Txn κ ν μ} (hi : db.txns i = some t) (h : (f t').Sublist (f t)) (rows : List α) :
    Moves New rows (db.own f) i rows ((db.put i t').own f) := by
  rw [own_put]
  exact .shrink _ (own_of f hi ▸ h)

/-- A commit, for the values that `g` takes from the rows. -/
theorem moves_commit {α : Type} {New : α → Prop} {f : Txn κ ν μ → List α} (g : Int × ν → α)
    {db : Db ι κ ν μ} {i : ι} {t t' : Txn κ ν μ} (hi : db.txns i = some t)
    (hpending : (t.pending.map g).Sublist (f t)) (hnone : f t' = []) :
    Moves New (db.rows.map g) (db.own f) i ((db.rows ++ t.pending).map g)
      ((db.put i t').own f) := by
  rw [own_put, hnone, List.map_append]
  exact .publish _ (own_of f hi ▸ hpending)

theorem step_numbers {db db' : Db ι κ ν μ} {a : ι × Act} (h : Step uid prog db a db') :
    db.last ≤ db'.last ∧ Moves (fun q => db.last < q ∧ q ≤ db'.last) (db.rows.map (·.1))
      (db.own Txn.numbers) a.1 (db'.rows.map (·.1)) (db'.own Txn.numbers) := by
  cases h with
  | start i c hi =>
    refine ⟨le_rfl, ?_⟩
    rw [own_put]
    exact .shrink _ (List.nil_sublist _)
  | begin i t rest hi hrun htodo => exact ⟨le_rfl, moves_put hi (by exact .refl _) _⟩
  | lock i t k rest hi hrun htodo hfree => exact ⟨le_rfl, moves_put hi (by exact .refl _) _⟩
  | draw i t r rest q hi hrun htodo hdrawn hlt =>
    have hnumbers : Txn.numbers { t with drawn := some q } = db.own Txn.numbers i ++ [q] := by
      simp [own_of _ hi, Txn.numbers, hdrawn]
    refine ⟨hlt.le, ?_⟩
    rw [own_put, hnumbers]
    exact .add q ⟨hlt, le_rfl⟩
  | insert i t r rest q hi hrun htodo hdrawn hunclaimed htaken =>
    -- the number drawn goes to the row
    have hnumbers : Txn.numbers { t with
        todo := rest
        drawn := none
        pending := t.pending ++ [(q, r)] } = t.numbers := by
      simp [Txn.numbers, hdrawn]
    exact ⟨le_rfl, moves_put hi (by rw [hnumbers]) _⟩
  | duplicate i t r rest q hi hrun htodo hdrawn htaken =>
    exact ⟨le_rfl, moves_put hi (by exact .refl _) _⟩
  | commit i t rest hi hrun htodo =>
    exact ⟨le_rfl, moves_commit _ hi (List.sublist_append_left _ _) rfl⟩
  | rollback i t hi hfailed => exact ⟨le_rfl, moves_put hi (by exact List.nil_sublist _) _⟩
  | cancel i t hi hrun => exact ⟨le_rfl, moves_put hi (by exact List.nil_sublist _) _⟩
  | release i t hi hclosing => exact ⟨le_rfl, moves_put hi (by exact .refl _) _⟩

/-- An id that no row has, neither a visible one nor one of a transaction. -/
theorem new_id {db : Db ι κ ν μ} {i : ι} {t : Txn κ ν μ} {u : υ} (hi : db.txns i = some t)
    (hunclaimed : Unclaimed uid db i u) (htaken : ¬ Taken uid db t u) :
    u ∉ db.rows.map (fun p => uid p.2) ∧ ∀ j, u ∉ db.own (Txn.ids uid) j := by
  refine ⟨fun hmem => ?_, fun j hmem => ?_⟩
  · obtain ⟨p, hp, he⟩ := List.mem_map.mp hmem
    exact htaken (.inl ⟨p, hp, he⟩)
  · cases hj : db.txns j with
    | none => simp [Db.own, hj] at hmem
    | some t' =>
      rw [own_of _ hj] at hmem
      obtain ⟨p, hp, he⟩ := List.mem_map.mp hmem
      by_cases hji : j = i
      · obtain rfl : t = t' := Option.some.inj (hi.symm.trans (hji ▸ hj))
        exact htaken (.inr ⟨p, hp, he⟩)
      · exact hunclaimed j t' hji hj p hp he

theorem step_ids {db db' : Db ι κ ν μ} {a : ι × Act} (h : Step uid prog db a db') :
    Moves (fun u => u ∉ db.rows.map (fun p => uid p.2) ∧ ∀ j, u ∉ db.own (Txn.ids uid) j)
      (db.rows.map fun p => uid p.2) (db.own (Txn.ids uid)) a.1
      (db'.rows.map fun p => uid p.2) (db'.own (Txn.ids uid)) := by
  cases h with
  | start i c hi =>
    rw [own_put]
    exact .shrink _ (List.nil_sublist _)
  | begin i t rest hi hrun htodo => exact moves_put hi (by exact .refl _) _
  | lock i t k rest hi hrun htodo hfree => exact moves_put hi (by exact .refl _) _
  | draw i t r rest q hi hrun htodo hdrawn hlt => exact moves_put hi (by exact .refl _) _
  | insert i t r rest q hi hrun htodo hdrawn hunclaimed htaken =>
    have hids : Txn.ids uid { t with
        todo := rest
        drawn := none
        pending := t.pending ++ [(q, r)] } = db.own (Txn.ids uid) i ++ [uid r] := by
      simp [own_of _ hi, Txn.ids]
    rw [own_put, hids]
    exact .add _ (new_id hi hunclaimed htaken)
  | duplicate i t r rest q hi hrun htodo hdrawn htaken =>
    exact moves_put hi (by exact .refl _) _
  | commit i t rest hi hrun htodo =>
    exact moves_commit _ hi (List.Sublist.refl _) rfl
  | rollback i t hi hfailed => exact moves_put hi (by exact List.nil_sublist _) _
  | cancel i t hi hrun => exact moves_put hi (by exact List.nil_sublist _) _
  | release i t hi hclosing => exact moves_put hi (by exact .refl _) _

/-- No number is above the last one given, and none is in two places. -/
structure Numbered (db : Db ι κ ν μ) : Prop where
  separate : Separate (db.rows.map (·.1)) (db.own Txn.numbers)
  rows_le : ∀ q ∈ db.rows.map (·.1), q ≤ db.last
  own_le : ∀ i, ∀ q ∈ db.own Txn.numbers i, q ≤ db.last

theorem step_numbered {db db' : Db ι κ ν μ} {a : ι × Act} (h : Numbered db)
    (hstep : Step uid prog db a db') : Numbered db' := by
  obtain ⟨hle, hmoves⟩ := step_numbers hstep
  obtain ⟨hrows, hown⟩ := hmoves.all (P := (· ≤ db'.last))
    (fun q hq => (h.rows_le q hq).trans hle) (fun j q hq => (h.own_le j q hq).trans hle)
    fun q hq => hq.2
  refine ⟨hmoves.separate h.separate fun q hq => ?_, hrows, hown⟩
  exact ⟨fun hmem => absurd (h.rows_le q hmem) (not_le_of_gt hq.1),
    fun j hmem => absurd (h.own_le j q hmem) (not_le_of_gt hq.1)⟩

theorem numbers_distinct {db : Db ι κ ν μ} (h : (system ι uid prog).Reachable db) :
    (db.rows.map (·.1)).Nodup := by
  refine (h.invariant (I := Numbered) ?_ step_numbered).separate.visible
  rintro db rfl
  exact ⟨separate_empty, by simp, by simp [Db.own]⟩

/-- Numbers are given from one on. -/
theorem numbers_pos {db : Db ι κ ν μ} (h : (system ι uid prog).Reachable db) :
    ∀ q ∈ db.rows.map (·.1), 0 < q := by
  refine (h.invariant (I := fun db => 0 ≤ db.last ∧ (∀ q ∈ db.rows.map (·.1), 0 < q) ∧
    ∀ i, ∀ q ∈ db.own Txn.numbers i, 0 < q) ?_ ?_).2.1
  · rintro db rfl
    exact ⟨le_rfl, by simp, by simp [Db.own]⟩
  · rintro db a db' ⟨hlast, hrows, hown⟩ hstep
    obtain ⟨hle, hmoves⟩ := step_numbers hstep
    exact ⟨hlast.trans hle, hmoves.all hrows hown fun q hq => hlast.trans_lt hq.1⟩

theorem ids_separate {db : Db ι κ ν μ} (h : (system ι uid prog).Reachable db) :
    Separate (db.rows.map fun p => uid p.2) (db.own (Txn.ids uid)) := by
  refine h.invariant
    (I := fun db => Separate (db.rows.map fun p => uid p.2) (db.own (Txn.ids uid))) ?_
    fun hs hstep => (step_ids hstep).separate hs fun v hv => hv
  rintro db rfl
  exact separate_empty

theorem ids_distinct {db : Db ι κ ν μ} (h : (system ι uid prog).Reachable db) :
    (db.rows.map fun p => uid p.2).Nodup :=
  (ids_separate h).visible

/-! ## Whom a transaction waits for -/

theorem step_others {db db' : Db ι κ ν μ} {k i : ι} {a : Act} (h : Step uid prog db (k, a) db')
    (hne : k ≠ i) : db'.txns i = db.txns i := by
  cases h <;> simp [put_txns, hne.symm]

/-- A transaction stays, and stays the one of its call. -/
theorem step_call {db db' : Db ι κ ν μ} {a : ι × Act} (h : Step uid prog db a db') {i : ι}
    {t : Txn κ ν μ} (hi : db.txns i = some t) :
    ∃ t', db'.txns i = some t' ∧ t'.call = t.call := by
  obtain ⟨k, a⟩ := a
  by_cases hki : k = i
  · subst hki
    have hput : ∀ (db' : Db ι κ ν μ) {u u' : Txn κ ν μ}, db.txns k = some u →
        u'.call = u.call → ∃ t', (db'.put k u').txns k = some t' ∧ t'.call = t.call := by
      intro db' u u' hu hcall
      cases hi.symm.trans hu
      exact ⟨u', by simp [put_txns], hcall⟩
    cases h with
    | start _ c hnone => cases hi.symm.trans hnone
    | begin _ u rest hu => exact hput _ hu rfl
    | lock _ u key rest hu => exact hput _ hu rfl
    | draw _ u r rest q hu => exact hput _ hu rfl
    | insert _ u r rest q hu => exact hput _ hu rfl
    | duplicate _ u r rest q hu => exact hput _ hu rfl
    | commit _ u rest hu => exact hput _ hu rfl
    | rollback _ u hu => exact hput _ hu rfl
    | cancel _ u hu => exact hput _ hu rfl
    | release _ u hu => exact hput _ hu rfl
  · exact ⟨t, (step_others h hki).trans hi, rfl⟩

/-- A wait is a matter of the two transactions. -/
theorem step_waits {db db' : Db ι κ ν μ} {i j k : ι} {a : Act}
    (h : Step uid prog db (k, a) db') (hki : k ≠ i) (hkj : k ≠ j) :
    Waits uid db' i j ↔ Waits uid db i j := by
  simp only [Waits, WaitsLock, WaitsInsert, step_others h hki, step_others h hkj]

omit [DecidableEq ι] in
/-- A lock has one holder, and an uncommitted id one owner. -/
theorem waits_unique {key : ν → κ} {db : Db ι κ ν μ} (hinv : Inv key db)
    (hids : Separate (db.rows.map fun p => uid p.2) (db.own (Txn.ids uid))) {i j j' : ι}
    (h : Waits uid db i j) (h' : Waits uid db i j') : j = j' := by
  by_contra hne
  rcases h with ⟨-, t, u, k, rest, hi, -, htodo, hj, hk⟩ |
    ⟨-, t, u, r, rest, hi, -, htodo, -, hj, p, hp, hu⟩
  · rcases h' with ⟨-, t', u', k', rest', hi', -, htodo', hj', hk'⟩ |
      ⟨-, t', u', r', rest', hi', -, htodo', -⟩
    · obtain rfl := Option.some.inj (hi.symm.trans hi')
      obtain ⟨hkk, -⟩ := List.cons.inj (htodo.symm.trans htodo')
      cases hkk
      exact hinv.excl j u hj k hk j' u' (Ne.symm hne) hj' hk'
    · obtain rfl := Option.some.inj (hi.symm.trans hi')
      cases htodo.symm.trans htodo'
  · rcases h' with ⟨-, t', u', k', rest', hi', -, htodo', -⟩ |
      ⟨-, t', u', r', rest', hi', -, htodo', -, hj', p', hp', hu'⟩
    · obtain rfl := Option.some.inj (hi.symm.trans hi')
      cases htodo.symm.trans htodo'
    · obtain rfl := Option.some.inj (hi.symm.trans hi')
      obtain ⟨hrr, -⟩ := List.cons.inj (htodo.symm.trans htodo')
      cases hrr
      have hmem : uid r ∈ db.own (Txn.ids uid) j := by
        rw [own_of _ hj, ← hu]
        exact List.mem_map_of_mem hp
      have hmem' : uid r ∈ db.own (Txn.ids uid) j' := by
        rw [own_of _ hj', ← hu']
        exact List.mem_map_of_mem hp'
      exact hids.own_own j j' hne _ hmem hmem'

/-! ## Whose rows become visible -/

/-- What a transaction has still to run is of its program, and so are the rows it has
    inserted. -/
structure FromProgram (prog : μ → List (Stmt κ ν)) (t : Txn κ ν μ) : Prop where
  todo : t.todo ⊆ prog t.call
  pending : ∀ p ∈ t.pending, .insert p.2 ∈ prog t.call

theorem forall_put {P : Txn κ ν μ → Prop} {db : Db ι κ ν μ}
    (h : ∀ j t, db.txns j = some t → P t) {i : ι} {t : Txn κ ν μ} (ht : P t) :
    ∀ j t', (db.put i t).txns j = some t' → P t' := by
  intro j t' hj
  rw [put_txns] at hj
  split at hj
  · exact Option.some.inj hj ▸ ht
  · exact h j t' hj

theorem step_fromProgram {db db' : Db ι κ ν μ} {a : ι × Act}
    (h : ∀ j t, db.txns j = some t → FromProgram prog t) (hstep : Step uid prog db a db') :
    ∀ j t, db'.txns j = some t → FromProgram prog t := by
  -- a statement that has run leaves the others to run
  have hrest : ∀ i t st rest, db.txns i = some t → t.todo = st :: rest → rest ⊆ prog t.call :=
    fun i t st rest hi htodo s hs => (h i t hi).todo (by simp [htodo, hs])
  cases hstep with
  | start i c hi => exact forall_put h ⟨List.Subset.refl _, by simp⟩
  | begin i t rest hi hrun htodo =>
    exact forall_put h ⟨hrest i t _ rest hi htodo, (h i t hi).pending⟩
  | lock i t k rest hi hrun htodo hfree =>
    exact forall_put h ⟨hrest i t _ rest hi htodo, (h i t hi).pending⟩
  | draw i t r rest q hi hrun htodo hdrawn hlt =>
    exact forall_put h ⟨(h i t hi).todo, (h i t hi).pending⟩
  | insert i t r rest q hi hrun htodo hdrawn hunclaimed htaken =>
    refine forall_put h ⟨hrest i t _ rest hi htodo, fun p hp => ?_⟩
    rcases List.mem_append.mp hp with hp | hp
    · exact (h i t hi).pending p hp
    · obtain rfl := List.mem_singleton.mp hp
      exact (h i t hi).todo (by simp [htodo])
  | duplicate i t r rest q hi hrun htodo hdrawn htaken =>
    exact forall_put h ⟨(h i t hi).todo, (h i t hi).pending⟩
  | commit i t rest hi hrun htodo => exact forall_put h ⟨by simp, by simp⟩
  | rollback i t hi hfailed => exact forall_put h ⟨by simp, by simp⟩
  | cancel i t hi hrun => exact forall_put h ⟨by simp, by simp⟩
  | release i t hi hclosing =>
    exact forall_put h ⟨(h i t hi).todo, (h i t hi).pending⟩

theorem step_new_rows {db db' : Db ι κ ν μ} (hdb : (system ι uid prog).Reachable db) {i : ι}
    {a : Act} (hstep : Step uid prog db (i, a) db') :
    ∃ new, db'.rows = db.rows ++ new ∧
      ∀ p ∈ new, ∃ t, db'.txns i = some t ∧ .insert p.2 ∈ prog t.call := by
  have hprog : ∀ j t, db.txns j = some t → FromProgram prog t := by
    refine hdb.invariant (I := fun db => ∀ j t, db.txns j = some t → FromProgram prog t) ?_
      step_fromProgram
    rintro db rfl j t ⟨⟩
  have hself : ∀ (db : Db ι κ ν μ) (t : Txn κ ν μ), (db.put i t).txns i = some t := by
    simp [put_txns]
  cases hstep with
  | commit _ t rest hi hrun htodo =>
    exact ⟨t.pending, rfl, fun p hp => ⟨_, hself _ _, (hprog i t hi).pending p hp⟩⟩
  | _ => exact ⟨[], (List.append_nil _).symm, by simp⟩

/-! ## Locks that are let go -/

theorem step_locks {db db' : Db ι κ ν μ} {a : ι × Act}
    (h : ∀ j t, db.txns j = some t → t.phase = .closed → t.locks = [])
    (hstep : Step uid prog db a db') :
    ∀ j t, db'.txns j = some t → t.phase = .closed → t.locks = [] := by
  have hopen : ∀ {t : Txn κ ν μ}, t.phase = .running → t.phase = .closed → t.locks = [] :=
    fun hrun hclosed => by cases hrun.symm.trans hclosed
  cases hstep with
  | start i c hi => exact forall_put h nofun
  | begin i t rest hi hrun htodo => exact forall_put h (hopen hrun)
  | lock i t k rest hi hrun htodo hfree =>
    exact forall_put h fun hclosed => by cases hrun.symm.trans hclosed
  | draw i t r rest q hi hrun htodo hdrawn hlt => exact forall_put h (hopen hrun)
  | insert i t r rest q hi hrun htodo hdrawn hunclaimed htaken =>
    exact forall_put h (hopen hrun)
  | release i t hi hclosing => exact forall_put h fun _ => rfl
  | _ => exact forall_put h nofun

/-- A transaction that is closed holds no lock. -/
theorem locks_of_closed {db : Db ι κ ν μ} (h : (system ι uid prog).Reachable db) :
    ∀ i t, db.txns i = some t → t.phase = .closed → t.locks = [] := by
  refine h.invariant (I := fun db => ∀ i t, db.txns i = some t → t.phase = .closed →
    t.locks = []) ?_ step_locks
  rintro db rfl i t ⟨⟩

end Machine

end Transactions
