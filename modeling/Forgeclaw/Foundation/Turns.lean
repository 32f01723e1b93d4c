/-
  Processes that take the steps of a system in turn, and wait for one another.

  Who is waited for is further on than who waits (`rank`), a step of one's own leaves less to do
  (`work`), and who stops being waited for leaves nobody else in the way. Then each process comes
  to its end (`ends`), if it gets its turn again and again where nobody is in its way.
-/
import Forgeclaw.Foundation.LeadsTo

namespace TransitionSystem

variable {σ ι α : Type} {T : TransitionSystem σ (ι × α)}

/-- The processes of a system whose actions name who acts. -/
structure Processes (T : TransitionSystem σ (ι × α)) where
  live : σ → ι → Prop
  waits : σ → ι → ι → Prop
  /-- How much is left to do. -/
  work : σ → ι → Nat
  /-- How far a process is, for those that wait. -/
  rank : σ → ι → Nat
  bound : Nat
  rank_le : ∀ s i, rank s i ≤ bound
  waits_live : ∀ {s i j}, T.Reachable s → waits s i j → live s j
  waits_rank : ∀ {s i j}, T.Reachable s → waits s i j → rank s i < rank s j
  own : ∀ {s s' i a}, T.Reachable s → T.Step s (i, a) s' → live s i → live s' i →
    work s' i < work s i ∧ rank s i ≤ rank s' i
  others : ∀ {s s' i j a}, T.Reachable s → T.Step s (j, a) s' → j ≠ i →
    (live s i → live s' i) ∧ work s' i = work s i ∧ rank s' i = rank s i
  /-- A wait is a matter of the two. -/
  waits_others : ∀ {s s' i j k a}, T.Step s (k, a) s' → k ≠ i → k ≠ j →
    (waits s' i j ↔ waits s i j)
  waits_unique : ∀ {s i j j'}, T.Reachable s → waits s i j → waits s i j' → j = j'

namespace Processes

/-- Who is in nobody's queue again and again, gets its turn again and again. -/
def Fair (P : T.Processes) (r : T.Trace) : Prop :=
  ∀ i, r.StronglyFair (fun s => P.live s i ∧ ∀ j, ¬ P.waits s i j) fun a => a.1 = i

variable (P : T.Processes) {r : T.Trace}

/-- Alive, at least this far, and with so much to do. -/
def Busy (i : ι) (d w : Nat) (s : σ) : Prop :=
  P.live s i ∧ P.bound < P.rank s i + d ∧ P.work s i = w

variable {P}

/-- A step leaves a process as busy, or less, or at its end. -/
theorem Busy.step {i k : ι} {a : α} {d w : Nat} {s s' : σ} (h : P.Busy i d w s)
    (hs : T.Reachable s) (hst : T.Step s (k, a) s') :
    k ≠ i ∧ P.Busy i d w s' ∨ (∃ m, m < w ∧ P.Busy i d m s') ∨ ¬ P.live s' i := by
  obtain ⟨hlive, hrank, hwork⟩ := h
  by_cases hki : k = i
  · subst hki
    by_cases hlive' : P.live s' k
    · obtain ⟨hless, hle⟩ := P.own hs hst hlive hlive'
      exact .inr (.inl ⟨_, by omega, hlive', by omega, rfl⟩)
    · exact .inr (.inr hlive')
  · obtain ⟨hkeeps, hwork', hrank'⟩ := P.others hs hst hki
    exact .inl ⟨hki, hkeeps hlive, by omega, by omega⟩

/-- Who has waited for one alone, is free when that wait is over. -/
theorem free_of_not_waits {i j k : ι} {a : α} {s s' : σ} (hs : T.Reachable s)
    (hst : T.Step s (k, a) s') (hki : k ≠ i) (hwaits : P.waits s i j)
    (hwaits' : ¬ P.waits s' i j) : ∀ j', ¬ P.waits s' i j' := by
  have hkj : k = j := by
    by_contra hkj
    exact hwaits' ((P.waits_others hst hki hkj).mpr hwaits)
  intro j' hj'
  by_cases hkj' : k = j'
  · exact hwaits' (hkj ▸ hkj' ▸ hj')
  · have hbefore := (P.waits_others hst hki hkj').mp hj'
    exact hkj' (hkj.trans (P.waits_unique hs hwaits hbefore))

/-- Those ahead come to their end, so that nobody is in the way any more. -/
theorem busy_leadsTo_free {d : Nat}
    (ih : ∀ j, r.LeadsTo (fun s => P.live s j ∧ P.bound < P.rank s j + d) fun s => ¬ P.live s j)
    (i : ι) (w : Nat) :
    r.LeadsTo (P.Busy i (d + 1) w) fun s =>
      (P.live s i ∧ ∀ j, ¬ P.waits s i j) ∨
        (∃ m, m < w ∧ P.Busy i (d + 1) m s) ∨ ¬ P.live s i := by
  intro t h
  by_cases hwait : ∃ j, P.waits (r.state t) i j
  · obtain ⟨j, hj⟩ := hwait
    have hends : r.LeadsTo (fun s => P.Busy i (d + 1) w s ∧ P.waits s i j)
        fun s => ¬ (P.Busy i (d + 1) w s ∧ P.waits s i j) := by
      rintro u ⟨⟨-, hrank, -⟩, hwaits⟩
      have hlt := P.waits_rank (r.reachable u) hwaits
      obtain ⟨v, huv, hdead⟩ := ih j u ⟨P.waits_live (r.reachable u) hwaits, by omega⟩
      exact ⟨v, huv, fun h => hdead (P.waits_live (r.reachable v) h.2)⟩
    have hunless : T.Unless (fun s => P.Busy i (d + 1) w s ∧ P.waits s i j) fun s =>
        (P.live s i ∧ ∀ j, ¬ P.waits s i j) ∨
          (∃ m, m < w ∧ P.Busy i (d + 1) m s) ∨ ¬ P.live s i := by
      rintro s ⟨k, a⟩ s' hs hst ⟨hbusy, hwaits⟩
      rcases hbusy.step hs hst with ⟨hki, hbusy'⟩ | hout
      · by_cases hwaits' : P.waits s' i j
        · exact .inl ⟨hbusy', hwaits'⟩
        · exact .inr (.inl ⟨hbusy'.1, free_of_not_waits hs hst hki hwaits hwaits'⟩)
      · exact .inr (.inr hout)
    exact Trace.leadsTo_of_ends hunless hends t ⟨h, hj⟩
  · push Not at hwait
    exact ⟨t, Nat.le_refl t, .inl ⟨h.1, hwait⟩⟩

theorem ends_of_rank (hfair : P.Fair r) (d : Nat) (i : ι) :
    r.LeadsTo (fun s => P.live s i ∧ P.bound < P.rank s i + d) fun s => ¬ P.live s i := by
  induction d generalizing i with
  | zero =>
    rintro t ⟨-, hrank⟩
    have := P.rank_le (r.state t) i
    omega
  | succ d ih =>
    have hbusy : ∀ w, r.LeadsTo (P.Busy i (d + 1) w) fun s => ¬ P.live s i := by
      refine Trace.LeadsTo.descent fun w => ?_
      refine Trace.leadsTo_of_strong (hfair i) (busy_leadsTo_free ih i w) ?_ ?_
      · rintro s ⟨k, a⟩ s' hs hst h
        exact (h.step hs hst).imp_left And.right
      · rintro s ⟨k, a⟩ s' hs hst rfl h
        exact (h.step hs hst).resolve_left fun hne => hne.1 rfl
    rintro t ⟨hlive, hrank⟩
    exact hbusy _ t ⟨hlive, hrank, rfl⟩

/-- **Every process comes to its end.** -/
theorem ends (hfair : P.Fair r) (i : ι) :
    r.LeadsTo (fun s => P.live s i) fun s => ¬ P.live s i := fun t hlive =>
  ends_of_rank hfair (P.bound + 1) i t ⟨hlive, by omega⟩

end Processes

end TransitionSystem
