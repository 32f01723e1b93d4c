/-
  A subscriber that receives on is told of every event.

  Whatever is emitted meanwhile, and whatever the other subscribers do: each `recv` that does not
  wait accounts for at least one event more, as long as there is one that is not accounted for.
-/
import Forgeclaw.Core.EventDelivery
import Forgeclaw.Foundation.LeadsTo

open Filter

namespace Forgeclaw.Core.Event

open Broadcast TransitionSystem

/-- How many events it has been given, or told to have missed. -/
def Subscription.told {E : Type} (u : Subscription E) : Nat := (u.trace.map Received.count).sum

section

variable {β ρ E : Type} [DecidableEq β] [DecidableEq ρ] {M : Channel E ρ} {capacity : Nat}
  {s s' : State M β} {a : Act β ρ E} {x : ρ} {u : Subscription E} {events : List E}

/-! ## What a step does to a subscriber -/

/-- What is received stands for an event, if there is one to be told of. -/
theorem count_pos (hs : (system M β capacity).Reachable s) (hx : s.subs x = some u)
    (hu : u.live = true) (hbehind : u.told < u.emitted.length) {r : Received E} {chan : M.Chan}
    (hr : M.recv s.chan x = some (r, chan)) : 0 < r.count := by
  have hlength := (account_of_reachable hs hx hu).1.length
  unfold Subscription.told at hbehind
  obtain ⟨hmissed, rfl, -⟩ | ⟨-, _, _, -, rfl, -⟩ | ⟨hmissed, hpending, -, -, -⟩ :=
    Inbox.recv_eq_some (Ring.recv_inbox (recv_eq_some hr))
  · exact hmissed
  · exact Nat.one_pos
  · change (s.ring.inbox x).missed = 0 at hmissed
    change (s.ring.inbox x).pending = [] at hpending
    rw [hmissed, hpending] at hlength
    simp only [List.length_nil] at hlength
    omega

/-- A subscriber that is not dropped keeps what it has, and gets on with each `recv`. -/
theorem step_sub (hs : (system M β capacity).Reachable s) (hst : Step M s a s')
    (hstays : a ≠ .dropReceiver x) (hx : s.subs x = some u) (hu : u.live = true) :
    ∃ u', s'.subs x = some u' ∧ u'.live = true ∧ u.emitted <+: u'.emitted ∧ u.told ≤ u'.told ∧
      (a = .recv x → u.told < u.emitted.length → u.told < u'.told) := by
  cases hst with
  | clone b b' hb hb' => exact ⟨u, hx, hu, List.prefix_rfl, Nat.le_refl _, by simp⟩
  | dropBus b hb => exact ⟨u, hx, hu, List.prefix_rfl, Nat.le_refl _, by simp⟩
  | emit b event hb =>
    refine ⟨u.emit event, congrArg (Option.map _) hx, ?_⟩
    rw [Subscription.emit, if_pos hu]
    exact ⟨hu, List.prefix_append _ _, Nat.le_refl _, by simp⟩
  | subscribe b y hb hy =>
    have hne : x ≠ y := by
      rintro rfl
      cases hx.symm.trans hy
    exact ⟨u, (Function.update_of_ne hne _ _).trans hx, hu, List.prefix_rfl, Nat.le_refl _,
      by simp⟩
  | recv y w r chan hy hw hr =>
    by_cases hxy : x = y
    · subst hxy
      obtain rfl := Option.some.inj (hx.symm.trans hy)
      have htold : (u.recv r).told = u.told + r.count := by
        simp [Subscription.told, Subscription.recv]
      refine ⟨u.recv r, Function.update_self .., hu, List.prefix_rfl, by omega, ?_⟩
      intro _ hbehind
      have := count_pos hs hx hu hbehind hr
      omega
    · refine ⟨u, (Function.update_of_ne hxy _ _).trans hx, hu, List.prefix_rfl, Nat.le_refl _, ?_⟩
      rintro ⟨⟩
      exact absurd rfl hxy
  | dropReceiver y w hy hw =>
    have hne : x ≠ y := by
      rintro rfl
      exact hstays rfl
    exact ⟨u, (Function.update_of_ne hne _ _).trans hx, hu, List.prefix_rfl, Nat.le_refl _,
      by simp⟩

/-! ## Event by event -/

/-- Something waits for the subscriber. -/
def CanRecv (x : ρ) (s : State M β) : Prop :=
  ∃ u, s.subs x = some u ∧ u.live = true ∧ M.recv s.chan x ≠ none

/-- The subscriber is there, has been sent these events, and has so many to be told of. -/
def Behind (x : ρ) (events : List E) (n : Nat) (s : State M β) : Prop :=
  ∃ u, s.subs x = some u ∧ u.live = true ∧ events <+: u.emitted ∧ events.length = u.told + n

/-- It has been told of all of them. -/
def CaughtUp (x : ρ) (events : List E) (s : State M β) : Prop :=
  ∃ u, s.subs x = some u ∧ events <+: u.emitted ∧ events.length ≤ u.told

theorem Behind.canRecv {n : Nat} (hs : (system M β capacity).Reachable s)
    (h : Behind x events (n + 1) s) : CanRecv x s := by
  obtain ⟨u, hx, hu, hevents, hlength⟩ := h
  refine ⟨u, hx, hu, fun hnone => ?_⟩
  have hrecv := (recv_inbox s.chan x).symm
  rw [hnone] at hrecv
  obtain ⟨hmissed, hpending⟩ := Inbox.recv_eq_none (Option.map_eq_none_iff.1 hrecv)
  have hall := ((account_of_reachable hs hx hu).1.covers hmissed hpending).length_eq
  have hle := hevents.length_le
  unfold Subscription.told at hlength
  omega

theorem Behind.step {n : Nat} (hs : (system M β capacity).Reachable s) (hst : Step M s a s')
    (hstays : a ≠ .dropReceiver x) (h : Behind x events (n + 1) s) :
    a ≠ .recv x ∧ Behind x events (n + 1) s' ∨
      (∃ m, m < n + 1 ∧ Behind x events m s') ∨ CaughtUp x events s' := by
  obtain ⟨u, hx, hu, hevents, hlength⟩ := h
  obtain ⟨u', hx', hu', hemitted, htold, hrecv⟩ := step_sub hs hst hstays hx hu
  have hle := hevents.length_le
  by_cases hall : events.length ≤ u'.told
  · exact .inr (.inr ⟨u', hx', hevents.trans hemitted, hall⟩)
  · have hbehind : Behind x events (events.length - u'.told) s' :=
      ⟨u', hx', hu', hevents.trans hemitted, by omega⟩
    by_cases hsame : u'.told = u.told
    · refine .inl ⟨fun ha => ?_, by rwa [(by omega : events.length - u'.told = n + 1)] at hbehind⟩
      have := hrecv ha (by omega)
      omega
    · exact .inr (.inl ⟨_, by omega, hbehind⟩)

/-- The subscriber is not dropped. -/
def Stays (x : ρ) (_ : State M β) (a : Act β ρ E) : Prop := a ≠ .dropReceiver x

theorem behind_leadsTo {r : ((system M β capacity).restrict (Stays x)).Trace}
    (hrecv : r.WeaklyFair (CanRecv x) (· = .recv x)) (n : Nat) :
    r.LeadsTo (Behind x events n) (CaughtUp x events) := by
  refine Trace.LeadsTo.descent (fun n => ?_) n
  cases n with
  | zero =>
    refine .of_imp fun s _ h => .inr ?_
    obtain ⟨u, hx, -, hevents, hlength⟩ := h
    exact ⟨u, hx, hevents, hlength.le⟩
  | succ n =>
    refine Trace.leadsTo_of_weak hrecv (fun s hs h => h.canRecv hs.of_restrict) ?_ ?_
    · rintro s a s' hs ⟨hstays, hst⟩ h
      exact (h.step hs.of_restrict hst hstays).imp_left And.right
    · rintro s a s' hs ⟨hstays, hst⟩ rfl h
      exact (h.step hs.of_restrict hst hstays).resolve_left fun hne => hne.1 rfl

/-- **Every event arrives.** Where a subscriber that stays receives on, whatever waits for it, its
trace comes to stand for all events emitted for it so far: as themselves, or among those that it
is told to have missed. -/
theorem every_event_arrives {r : ((system M β capacity).restrict (Stays x)).Trace}
    (hrecv : r.WeaklyFair (CanRecv x) (· = .recv x)) {t : Nat}
    (hx : (r.state t).subs x = some u) (hu : u.live = true) :
    ∃ v u' told, t ≤ v ∧ (r.state v).subs x = some u' ∧ Covers u'.trace told ∧
      u.emitted <+: told ∧ told <+: u'.emitted := by
  have hlength := (account_of_reachable (r.reachable t).of_restrict hx hu).1.length
  have hbehind : Behind x u.emitted (u.emitted.length - u.told) (r.state t) :=
    ⟨u, hx, hu, List.prefix_rfl, by unfold Subscription.told; omega⟩
  obtain ⟨v, htv, u', hx', hemitted, hle⟩ := behind_leadsTo hrecv _ t hbehind
  obtain ⟨b, haccount, -, -⟩ := served_of_reachable (r.reachable v).of_restrict x u' hx'
  obtain ⟨told, hcovers, htold⟩ := haccount.told
  refine ⟨v, u', told, htv, hx', hcovers, ?_, htold⟩
  exact List.prefix_of_prefix_length_le hemitted htold (hcovers.length_eq ▸ hle)

end

/-! ## One event -/

abbrev sampleSystem :=
  (system (Ring.channel Nat Nat) Nat 2).restrict (Stays (E := Nat) (β := Nat) 0)

/-- The subscriber comes, and an event. -/
def emitted : sampleSystem.Trace :=
  let r₀ : sampleSystem.Trace := .rest (new _ 2 0 0) ⟨by decide, 0, 0, rfl⟩
  let r₁ := r₀.stop 0 (.subscribe 0 0) _ ⟨nofun, .subscribe _ 0 0 (Finset.mem_singleton_self 0) rfl⟩
  r₁.stop 1 (.emit 0 7) _ ⟨nofun, .emit _ 0 7 (Finset.mem_singleton_self 0)⟩

/-- It receives the event, and nothing more happens. -/
def received : sampleSystem.Trace :=
  emitted.stop 2 (.recv 0) _ ⟨nofun, .recv _ 0 ⟨[7], [], true⟩ (.value 7) _ rfl rfl rfl⟩

theorem act_received :
    ∀ t, received.act t = [.subscribe 0 0, .emit 0 7, .recv 0][t]?
  | 0 | 1 | 2 => rfl
  | t + 3 => by simp [received, emitted, Trace.stop, Trace.rest]

theorem every_event_arrives_one :
    ∃ v u' told, 2 ≤ v ∧ (received.state v).subs 0 = some u' ∧ Covers u'.trace told ∧
      [7] <+: told ∧ told <+: u'.emitted := by
  have hrecv : received.WeaklyFair (CanRecv 0) (· = .recv 0) :=
    Trace.weaklyFair_of_rest ((Trace.comes_to_rest act_received).mono fun t ht => by
      rw [ht]
      rintro ⟨u, -, -, hcan⟩
      exact hcan rfl)
  have hx : (received.state 2).subs 0 = some ⟨[7], [], true⟩ := rfl
  exact every_event_arrives hrecv hx rfl

end Forgeclaw.Core.Event
