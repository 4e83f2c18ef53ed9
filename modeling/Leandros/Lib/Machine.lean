import Mathlib

/-!
# Leandros.Lib.Machine

**Executable machines and their runs.** A machine takes an action in a state
and returns the next one, or nothing when the action cannot be taken there. All
nondeterminism (the order of steps, the answers of what is not modelled) is in
the choice of actions.

* `Reachable init ok step` — the states of all runs whose actions meet `ok` in
  the state they are taken in.
* `Reachable.invariant` — the induction over a run.
* `guard_eq_some` — inversion of a step that is taken under a condition.
* `replay` — one run, computed; `Reachable.replay` puts its end among the
  reachable states, and `Reachable.observe` keeps what is seen there.
-/

namespace Leandros

variable {σ α : Type*}

/-- The states reached from an initial one by actions that meet `ok`. -/
inductive Reachable (init : σ → Prop) (ok : σ → α → Prop) (step : σ → α → Option σ) : σ → Prop
  | start {s : σ} (h : init s) : Reachable init ok step s
  | next {s s' : σ} {a : α} (h : Reachable init ok step s) (hok : ok s a)
      (hs : step s a = some s') : Reachable init ok step s'

variable {init : σ → Prop} {ok : σ → α → Prop} {step : σ → α → Option σ}

/-- **The invariant rule.** -/
theorem Reachable.invariant {P : σ → Prop} (h0 : ∀ s, init s → P s)
    (hstep : ∀ s a s', P s → ok s a → step s a = some s' → P s') {s : σ}
    (h : Reachable init ok step s) : P s := by
  induction h with
  | start hs => exact h0 _ hs
  | next _ hok hs ih => exact hstep _ _ _ ih hok hs

/-- A step taken under a condition. -/
theorem guard_eq_some {p : Prop} [Decidable p] {s s' : σ}
    (h : (if p then some s else none) = some s') : p ∧ s = s' := by
  split at h
  · next hp => exact ⟨hp, Option.some.inj h⟩
  · contradiction

/-- Take the actions in turn; `none` if one is not allowed or cannot be taken. -/
def replay (ok : σ → α → Prop) [∀ s a, Decidable (ok s a)] (step : σ → α → Option σ) :
    σ → List α → Option σ
  | s, [] => some s
  | s, a :: as => if ok s a then (step s a).bind (replay ok step · as) else none

/-- The actions may have been checked against a stronger condition. -/
theorem Reachable.replay_of_imp {can : σ → α → Prop} [∀ s a, Decidable (can s a)]
    (himp : ∀ s a, can s a → ok s a) {s s' : σ} {as : List α} (h : Reachable init ok step s)
    (hr : Leandros.replay can step s as = some s') : Reachable init ok step s' := by
  induction as generalizing s with
  | nil =>
    cases hr
    exact h
  | cons a as ih =>
    rw [Leandros.replay] at hr
    split at hr
    · next hok =>
      obtain ⟨t, ht, hr⟩ := Option.bind_eq_some_iff.mp hr
      exact ih (h.next (himp s a hok) ht) hr
    · exact absurd hr (by simp)

theorem Reachable.replay [∀ s a, Decidable (ok s a)] {s s' : σ} {as : List α}
    (h : Reachable init ok step s) (hr : Leandros.replay ok step s as = some s') :
    Reachable init ok step s' :=
  h.replay_of_imp (fun _ _ => id) hr

/-- What is seen at the end of one run is seen in a reachable state. -/
theorem Reachable.observe [∀ s a, Decidable (ok s a)] {s : σ} {as : List α} {p : σ → Bool}
    (h : init s) (hp : (Leandros.replay ok step s as).any p = true) :
    ∃ t, Reachable init ok step t ∧ p t = true := by
  obtain ⟨t, ht, hp⟩ := (Option.any_eq_true _ _).mp hp
  exact ⟨t, (Reachable.start h).replay ht, hp⟩

end Leandros
