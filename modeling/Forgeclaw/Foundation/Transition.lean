/-
  Labelled transition systems: runs, reachable states, and the rule for invariants.

  * `Reachable.invariant`: what holds at the start and is kept by each step holds of every
    reachable state;
  * `Run.foldl`: a part of the state that each action changes by a function is what the
    actions of a run give, folded over it.
-/
import Mathlib

/-- States, actions and what an action may do. -/
structure TransitionSystem (σ α : Type) where
  Init : σ → Prop
  Step : σ → α → σ → Prop

namespace TransitionSystem

variable {σ α : Type} {T : TransitionSystem σ α}

/-- `t` comes out of `s` by finitely many steps. -/
inductive Steps (T : TransitionSystem σ α) (s : σ) : σ → Prop
  | refl : Steps T s s
  | tail {t u : σ} {a : α} : Steps T s t → T.Step t a u → Steps T s u

/-- A state that some run from a start state gets to. -/
def Reachable (T : TransitionSystem σ α) (t : σ) : Prop := ∃ s, T.Init s ∧ T.Steps s t

theorem Reachable.init {s : σ} (h : T.Init s) : T.Reachable s := ⟨s, h, .refl⟩

theorem Reachable.step {s t : σ} {a : α} (h : T.Reachable s) (hst : T.Step s a t) :
    T.Reachable t := by
  obtain ⟨s₀, h₀, hs⟩ := h
  exact ⟨s₀, h₀, hs.tail hst⟩

theorem Reachable.steps {s t : σ} (h : T.Reachable s) (hst : T.Steps s t) : T.Reachable t := by
  induction hst with
  | refl => exact h
  | tail _ hstep ih => exact ih.step hstep

theorem Steps.invariant {I : σ → Prop} (hstep : ∀ {s a t}, I s → T.Step s a t → I t)
    {s t : σ} (hs : I s) (hst : T.Steps s t) : I t := by
  induction hst with
  | refl => exact hs
  | tail _ h ih => exact hstep ih h

/-- **The rule for invariants.** -/
theorem Reachable.invariant {I : σ → Prop} (hinit : ∀ {s}, T.Init s → I s)
    (hstep : ∀ {s a t}, I s → T.Step s a t → I t) {t : σ} (h : T.Reachable t) : I t := by
  obtain ⟨s, hs, hst⟩ := h
  exact hst.invariant hstep (hinit hs)

/-! ## Runs with their actions -/

/-- `t` comes out of `s` by these actions, in their order. -/
inductive Run (T : TransitionSystem σ α) (s : σ) : List α → σ → Prop
  | nil : Run T s [] s
  | concat {as : List α} {t u : σ} {a : α} :
      Run T s as t → T.Step t a u → Run T s (as ++ [a]) u

theorem Run.steps {s t : σ} {as : List α} (h : T.Run s as t) : T.Steps s t := by
  induction h with
  | nil => exact .refl
  | concat _ hstep ih => exact ih.tail hstep

theorem Run.reachable {s t : σ} {as : List α} (h : T.Run s as t) (hs : T.Init s) :
    T.Reachable t := ⟨s, hs, h.steps⟩

theorem Run.foldl {β : Type} {f : σ → β} {g : β → α → β}
    (hstep : ∀ {s a t}, T.Step s a t → f t = g (f s) a) {s t : σ} {as : List α}
    (h : T.Run s as t) : f t = as.foldl g (f s) := by
  induction h with
  | nil => rfl
  | concat _ hlast ih => rw [hstep hlast, ih, List.foldl_append, List.foldl_cons, List.foldl_nil]

theorem Run.cons {s t u : σ} {a : α} {as : List α} (hst : T.Step s a t) (h : T.Run t as u) :
    T.Run s (a :: as) u := by
  induction h with
  | nil => exact .concat .nil hst
  | concat _ hlast ih => exact .concat ih hlast

/-- The same where the function is only right where an invariant holds. -/
theorem Run.foldl_of_invariant {β : Type} {f : σ → β} {g : β → α → β} {I : σ → Prop}
    (hinv : ∀ {s a t}, I s → T.Step s a t → I t)
    (hstep : ∀ {s a t}, I s → T.Step s a t → f t = g (f s) a) {s t : σ} {as : List α}
    (hs : I s) (h : T.Run s as t) : f t = as.foldl g (f s) := by
  induction h with
  | nil => rfl
  | concat hrun hlast ih =>
    rw [hstep (hrun.steps.invariant hinv hs) hlast, ih, List.foldl_append, List.foldl_cons,
      List.foldl_nil]

/-! ## Runs under a condition -/

/-- The system as long as a condition holds of every step. -/
def restrict (T : TransitionSystem σ α) (P : σ → α → Prop) : TransitionSystem σ α where
  Init := T.Init
  Step s a t := P s a ∧ T.Step s a t

theorem Reachable.of_restrict {P : σ → α → Prop} {s : σ} (h : (T.restrict P).Reachable s) :
    T.Reachable s :=
  h.invariant (fun hs => .init hs) fun hs hst => hs.step hst.2

end TransitionSystem
