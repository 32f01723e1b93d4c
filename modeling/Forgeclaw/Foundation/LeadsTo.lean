/-
  Runs without end, and what they come to.

  A `Trace` takes a step of the system or none at each time. Fairness is an assumption about a
  trace: where something stays possible for good (`WeaklyFair`), or becomes possible again and
  again (`StronglyFair`), it is done.

  * `leadsTo_of_weak`, `leadsTo_of_strong`: what lasts until a fair action ends it, ends;
  * `LeadsTo.descent`: what only leads to less of itself, or out, leads out.
-/
import Forgeclaw.Foundation.Transition

open Filter

namespace TransitionSystem

variable {σ α : Type} {T : TransitionSystem σ α}

structure Trace (T : TransitionSystem σ α) where
  state : Nat → σ
  /-- `none`: nothing happens at this time. -/
  act : Nat → Option α
  init : T.Init (state 0)
  step : ∀ t a, act t = some a → T.Step (state t) a (state (t + 1))
  idle : ∀ t, act t = none → state (t + 1) = state t

/-- While the first holds, a step keeps it or makes the second hold. -/
def Unless (T : TransitionSystem σ α) (P Q : σ → Prop) : Prop :=
  ∀ {s a s'}, T.Reachable s → T.Step s a s' → P s → P s' ∨ Q s'

namespace Trace

variable (r : T.Trace)

theorem reachable (t : Nat) : T.Reachable (r.state t) := by
  induction t with
  | zero => exact .init r.init
  | succ t ih =>
    cases h : r.act t with
    | none =>
      rw [r.idle t h]
      exact ih
    | some a => exact ih.step (r.step t a h)

/-- At some time an action of this kind is taken. -/
def Takes (A : α → Prop) (t : Nat) : Prop := ∃ a, r.act t = some a ∧ A a

/-- What stays possible for good is done, again and again. -/
def WeaklyFair (E : σ → Prop) (A : α → Prop) : Prop :=
  (∀ᶠ t in atTop, E (r.state t)) → ∃ᶠ t in atTop, r.Takes A t

/-- What is possible again and again is done, again and again. -/
def StronglyFair (E : σ → Prop) (A : α → Prop) : Prop :=
  (∃ᶠ t in atTop, E (r.state t)) → ∃ᶠ t in atTop, r.Takes A t

/-- Whenever the first holds, the second does then or later. -/
def LeadsTo (P Q : σ → Prop) : Prop := ∀ t, P (r.state t) → ∃ u, t ≤ u ∧ Q (r.state u)

variable {r} {P P' Q E : σ → Prop} {A : α → Prop}

/-- What each step from some time on keeps. -/
theorem keeps {t : Nat} (hP : P (r.state t))
    (hstep : ∀ u a, t ≤ u → r.act u = some a → P (r.state u) → P (r.state (u + 1))) :
    ∀ u, t ≤ u → P (r.state u) := by
  intro u htu
  induction u, htu using Nat.le_induction with
  | base => exact hP
  | succ u htu ih =>
    cases h : r.act u with
    | none =>
      rw [r.idle u h]
      exact ih
    | some a => exact hstep u a htu h ih

/-! ## Rules -/

theorem LeadsTo.of_imp (h : ∀ s, T.Reachable s → P s → Q s) : r.LeadsTo P Q :=
  fun t hP => ⟨t, Nat.le_refl t, h _ (r.reachable t) hP⟩

/-- On the way, what leads further may be replaced by what it leads to. -/
theorem LeadsTo.via (hPQ : r.LeadsTo P fun s => P' s ∨ Q s) (hP' : r.LeadsTo P' Q) :
    r.LeadsTo P Q := by
  intro t hP
  obtain ⟨u, htu, h | hQ⟩ := hPQ t hP
  · obtain ⟨v, huv, hQ⟩ := hP' u h
    exact ⟨v, htu.trans huv, hQ⟩
  · exact ⟨u, htu, hQ⟩

/-- **Descent.** -/
theorem LeadsTo.descent {P : Nat → σ → Prop}
    (h : ∀ n, r.LeadsTo (P n) fun s => (∃ m, m < n ∧ P m s) ∨ Q s) (n : Nat) :
    r.LeadsTo (P n) Q := by
  induction n using Nat.strong_induction_on with
  | _ n ih =>
    refine (h n).via fun t hP => ?_
    obtain ⟨m, hmn, hm⟩ := hP
    exact ih m hmn t hm

/-! ## Fair actions -/

/-- What a step keeps unless something else comes, is kept as long as that does not come. -/
theorem stays (hunless : T.Unless P Q) {t : Nat} (hP : P (r.state t))
    (hQ : ∀ u, t ≤ u → ¬ Q (r.state u)) : ∀ u, t ≤ u → P (r.state u) := by
  refine keeps hP fun u a htu ha hu => ?_
  exact (hunless (r.reachable u) (r.step u a ha) hu).resolve_right (hQ _ (by omega))

/-- What lasts until something else comes, and does not last, comes to that. -/
theorem leadsTo_of_ends (hunless : T.Unless P Q) (hends : r.LeadsTo P fun s => ¬ P s) :
    r.LeadsTo P Q := by
  intro t hP
  by_contra hnever
  push Not at hnever
  obtain ⟨u, htu, hnot⟩ := hends t hP
  exact hnot (stays hunless hP hnever u htu)

/-- The time of an action that is taken again and again, with what holds until then. -/
theorem leadsTo_of_frequently (hunless : T.Unless P Q)
    (hstep : ∀ {s a s'}, T.Reachable s → T.Step s a s' → A a → P s → Q s')
    (hfair : ∀ t, (∀ u, t ≤ u → P (r.state u)) → (∀ u, t ≤ u → ¬ Q (r.state u)) →
      ∃ᶠ u in atTop, r.Takes A u) :
    r.LeadsTo P Q := by
  intro t hP
  by_contra hnever
  push Not at hnever
  have hstays := stays hunless hP hnever
  obtain ⟨u, htu, a, ha, hA⟩ := frequently_atTop.mp (hfair t hstays hnever) t
  exact hnever (u + 1) (by omega) (hstep (r.reachable u) (r.step u a ha) hA (hstays u htu))

/-- **A weakly fair action** ends what makes it possible. -/
theorem leadsTo_of_weak (hfair : r.WeaklyFair E A) (hE : ∀ s, T.Reachable s → P s → E s)
    (hunless : T.Unless P Q)
    (hstep : ∀ {s a s'}, T.Reachable s → T.Step s a s' → A a → P s → Q s') : r.LeadsTo P Q := by
  refine leadsTo_of_frequently hunless hstep fun t hP _ => hfair ?_
  exact eventually_atTop.mpr ⟨t, fun u htu => hE _ (r.reachable u) (hP u htu)⟩

/-- **A strongly fair action** ends what makes it possible again and again. -/
theorem leadsTo_of_strong (hfair : r.StronglyFair E A)
    (hE : r.LeadsTo P fun s => E s ∨ Q s) (hunless : T.Unless P Q)
    (hstep : ∀ {s a s'}, T.Reachable s → T.Step s a s' → A a → P s → Q s') : r.LeadsTo P Q := by
  refine leadsTo_of_frequently hunless hstep fun t hP hQ => hfair ?_
  refine frequently_atTop.mpr fun n => ?_
  obtain ⟨u, hu, h⟩ := hE (max n t) (hP _ (le_max_right n t))
  exact ⟨u, by omega, h.resolve_right (hQ u (by omega))⟩

/-! ## A part of a system -/

/-- What a part of the system does meanwhile; the other actions leave it as it is. -/
def map {τ β : Type} {U : TransitionSystem τ β} (r : T.Trace) (f : σ → τ) (g : α → Option β)
    (hinit : ∀ {s}, T.Init s → U.Init (f s))
    (hstep : ∀ {s a s' b}, T.Step s a s' → g a = some b → U.Step (f s) b (f s'))
    (hidle : ∀ {s a s'}, T.Step s a s' → g a = none → f s' = f s) : U.Trace where
  state t := f (r.state t)
  act t := (r.act t).bind g
  init := hinit r.init
  step t b hb := by
    obtain ⟨a, ha, hg⟩ := Option.bind_eq_some_iff.mp hb
    exact hstep (r.step t a ha) hg
  idle t ht := by
    cases ha : r.act t with
    | none => rw [r.idle t ha]
    | some a =>
      rw [ha] at ht
      exact hidle (r.step t a ha) ht

/-! ## Traces that come to rest -/

theorem stronglyFair_of_rest (h : ∀ᶠ t in atTop, ¬ E (r.state t)) : r.StronglyFair E A :=
  fun hE => (hE.and_eventually h).exists.elim fun _ ht => (ht.2 ht.1).elim

theorem weaklyFair_of_rest (h : ∀ᶠ t in atTop, ¬ E (r.state t)) : r.WeaklyFair E A :=
  fun hE => stronglyFair_of_rest h hE.frequently

/-- Nothing ever happens. -/
def rest (s : σ) (h : T.Init s) : T.Trace where
  state _ := s
  act _ := none
  init := h
  step _ _ h := by cases h
  idle _ _ := rfl

/-- The trace up to a time, a step, and nothing more. -/
def stop (r : T.Trace) (n : Nat) (a : α) (s' : σ) (h : T.Step (r.state n) a s') : T.Trace where
  state t := if t ≤ n then r.state t else s'
  act t := if t < n then r.act t else if t = n then some a else none
  init := by simpa using r.init
  step t b hb := by
    split at hb
    · rename_i hlt
      rw [if_pos hlt.le, if_pos (by omega)]
      exact r.step t b hb
    · split at hb
      · rename_i heq
        cases hb
        rw [if_pos (by omega), if_neg (by omega), heq]
        exact h
      · cases hb
  idle t ht := by
    split at ht
    · rename_i hlt
      rw [if_pos hlt.le, if_pos (by omega)]
      exact r.idle t ht
    · split at ht
      · cases ht
      · rw [if_neg (by omega), if_neg (by omega)]

/-- The trace up to a time, and then two steps to and fro without end. -/
def cycle (r : T.Trace) (n : Nat) (a b : α) (s' : σ) (h : T.Step (r.state n) a s')
    (h' : T.Step s' b (r.state n)) : T.Trace where
  state t := if t ≤ n then r.state t else if (t - n) % 2 = 0 then r.state n else s'
  act t := if t < n then r.act t else if (t - n) % 2 = 0 then some a else some b
  init := by simpa using r.init
  step t c hc := by
    split at hc
    · rename_i hlt
      rw [if_pos hlt.le, if_pos (by omega)]
      exact r.step t c hc
    · rename_i hge
      rw [if_neg (by omega : ¬ t + 1 ≤ n)]
      split at hc
      · rename_i heven
        cases hc
        rw [if_neg (by omega : ¬ (t + 1 - n) % 2 = 0)]
        obtain rfl | hlt : t = n ∨ n < t := by omega
        · rwa [if_pos le_rfl]
        · rwa [if_neg (by omega), if_pos heven]
      · rename_i hodd
        cases hc
        rwa [if_pos (by omega : (t + 1 - n) % 2 = 0), if_neg (by omega), if_neg hodd]
  idle t ht := by
    split at ht
    · rename_i hlt
      rw [if_pos hlt.le, if_pos (by omega)]
      exact r.idle t ht
    · split at ht <;> cases ht

section

variable {n : Nat} {a b : α} {s' : σ} {h : T.Step (r.state n) a s'} {g : T.Step s' b (r.state n)}

theorem cycle_after {t : Nat} (ht : n ≤ t) :
    (r.cycle n a b s' h g).state t = r.state n ∨ (r.cycle n a b s' h g).state t = s' := by
  unfold cycle
  dsimp only
  split
  · rename_i hle
    exact .inl (by rw [Nat.le_antisymm hle ht])
  · split
    · exact .inl rfl
    · exact .inr rfl

theorem act_cycle {t : Nat} {c : α} (hc : (r.cycle n a b s' h g).act t = some c) :
    r.act t = some c ∨ c = a ∨ c = b := by
  unfold cycle at hc
  dsimp only at hc
  split at hc
  · exact .inl hc
  · split at hc
    · exact .inr (.inl (Option.some.inj hc).symm)
    · exact .inr (.inr (Option.some.inj hc).symm)

/-- Again and again the first of the two steps is taken. -/
theorem cycle_again (m : Nat) : (r.cycle n a b s' h g).state (n + 2 * m) = r.state n ∧
    (r.cycle n a b s' h g).state (n + 2 * m + 1) = s' := by
  unfold cycle
  dsimp only
  constructor
  · split
    · rw [(by omega : n + 2 * m = n)]
    · rw [if_pos (by omega)]
  · rw [if_neg (by omega), if_neg (by omega)]

end

/-- After the last action, nothing changes. -/
theorem comes_to_rest {as : List α} (hact : ∀ t, r.act t = as[t]?) :
    ∀ᶠ t in atTop, r.state t = r.state as.length := by
  refine eventually_atTop.mpr ⟨as.length, fun t ht => ?_⟩
  induction t, ht using Nat.le_induction with
  | base => rfl
  | succ t ht ih =>
    rw [r.idle t (by rw [hact, List.getElem?_eq_none ht]), ih]

end Trace

end TransitionSystem
