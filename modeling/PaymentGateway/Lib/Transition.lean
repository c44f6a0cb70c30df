/-
# Guarded runs of a partial transition function

A system is a partial step function `step : σ → α → Option σ` on labels `α`.  A
*guard* `σ → α → Prop` selects the steps a run may take: the discipline of the
callers, a schedule that keeps some calls indivisible, or the condition under
which a property is claimed.  `Reaches step guard s s'` says that a finite run
whose steps all satisfy the guard leads from `s` to `s'`.

The rules below are the ones every later induction over runs goes through:
invariants (`Reaches.invariant`), weaker guards (`Reaches.mono`) and composition
(`Reaches.trans`).  `exec` computes a run, so that a concrete schedule can be checked
by evaluation (`reaches_of_exec`).
-/

import Mathlib.Logic.Function.Basic

namespace PaymentGateway
namespace Lib

variable {σ α : Type*}

/-- A run from `s` all of whose steps satisfy `guard` leads to the given state. -/
inductive Reaches (step : σ → α → Option σ) (guard : σ → α → Prop) (s : σ) : σ → Prop
  | refl : Reaches step guard s s
  | tail {s₁ s₂ : σ} {a : α} :
      Reaches step guard s s₁ → guard s₁ a → step s₁ a = some s₂ → Reaches step guard s s₂

section Rules

variable {step : σ → α → Option σ} {guard guard' : σ → α → Prop} {s s' s'' : σ}

/-- **The invariant rule**, with everything already known about the states of
the run at hand: what holds at the start and is kept by every guarded step from
a reached state holds in every state reached. -/
@[elab_as_elim]
theorem Reaches.invariant {P : σ → Prop} (h : Reaches step guard s s') (h₀ : P s)
    (hstep : ∀ s₁ a s₂, Reaches step guard s s₁ → P s₁ → guard s₁ a → step s₁ a = some s₂ → P s₂) :
    P s' := by
  induction h with
  | refl => exact h₀
  | tail hr hg hs ih => exact hstep _ _ _ hr ih hg hs

/-- A weaker guard admits the same runs. -/
theorem Reaches.mono (h : Reaches step guard s s') (hg : ∀ s₁ a, guard s₁ a → guard' s₁ a) :
    Reaches step guard' s s' := by
  induction h with
  | refl => exact .refl
  | tail _ hg₁ hs ih => exact .tail ih (hg _ _ hg₁) hs

theorem Reaches.trans (h : Reaches step guard s s') (h' : Reaches step guard s' s'') :
    Reaches step guard s s'' := by
  induction h' with
  | refl => exact h
  | tail _ hg hs ih => exact .tail ih hg hs

theorem Reaches.single {a : α} (hg : guard s a) (hs : step s a = some s') :
    Reaches step guard s s' :=
  .tail .refl hg hs

end Rules

/-! ### Runs by evaluation -/

section Exec

variable (step : σ → α → Option σ) (guard : σ → α → Prop) [∀ s a, Decidable (guard s a)]

/-- Run the labels in order, as long as each of them passes the guard. -/
def exec : σ → List α → Option σ
  | s, [] => some s
  | s, a :: as => if guard s a then (step s a).bind fun s' => exec s' as else none

variable {step guard}

theorem exec_append (s : σ) (as bs : List α) :
    exec step guard s (as ++ bs) = (exec step guard s as).bind fun s' => exec step guard s' bs := by
  induction as generalizing s with
  | nil => rfl
  | cons a as ih =>
      rw [List.cons_append, exec, exec]
      split
      · rw [Option.bind_assoc]
        exact congrArg _ (funext ih)
      · rfl

/-- The last step of a computed run. -/
theorem exec_concat {s s' : σ} {as : List α} {a : α} :
    exec step guard s (as ++ [a]) = some s' ↔
      ∃ s₁, exec step guard s as = some s₁ ∧ guard s₁ a ∧ step s₁ a = some s' := by
  rw [exec_append, Option.bind_eq_some_iff]
  refine exists_congr fun s₁ => and_congr_right fun _ => ?_
  simp [exec]

/-- A computed run is a run. -/
theorem reaches_of_exec {as : List α} {s s' : σ} (h : exec step guard s as = some s') :
    Reaches step guard s s' := by
  induction as generalizing s with
  | nil =>
      obtain rfl := Option.some.inj h
      exact .refl
  | cons a as ih =>
      rw [exec] at h
      split at h
      · rename_i ha
        obtain ⟨s₁, hs₁, h⟩ := Option.bind_eq_some_iff.1 h
        exact (Reaches.single ha hs₁).trans (ih h)
      · cases h

/-- A schedule whose final state passes the test `p` leads to such a state. -/
theorem exists_reaches_of_exec (as : List α) {s : σ} {p : σ → Bool}
    (h : (exec step guard s as).any p = true) : ∃ s', Reaches step guard s s' ∧ p s' = true := by
  obtain ⟨s', hs', hp⟩ := (Option.any_eq_true _ _).1 h
  exact ⟨s', reaches_of_exec hs', hp⟩

end Exec

end Lib
end PaymentGateway
