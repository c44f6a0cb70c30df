/-
# Counting and recording along a schedule

`exec` runs a list of labels.  Two systems run the same lists in step when a map from the
states of one to those of the other commutes with every step (`exec_map`); it is enough
for reaching a state that it takes every step to a run (`Reaches.map`), or that a relation
between the states does (`Reaches.forward`).  Two accounts of a run are kept besides.

A *rank* bounds how often one party can step: if every step of the party lowers the
rank, up to a slack its label admits, and the steps of the others never raise it, the
party makes at most as many steps as the rank at the start and the slack of the
schedule together (`countP_add_rank_le`).  Nothing is asked of the others, who may
stop for ever.

The *outputs* of a run are what its steps show, in order.  They serve as a history
variable: a property of the outputs so far and the state that every step keeps holds
at the end of the run (`outputs_invariant`).
-/

import Mathlib.Algebra.BigOperators.Group.List.Basic
import Mathlib.Data.List.Induction
import Mathlib.Tactic.Ring
import PaymentGateway.Lib.Transition

namespace PaymentGateway
namespace Lib

variable {σ α β : Type*} {step : σ → α → Option σ} {guard : σ → α → Prop} {s s' : σ}

/-! ### Two systems in step -/

/-- **Refinement**: a map that takes every step to a run, of any length, takes runs to
runs. -/
theorem Reaches.map {τ γ : Type*} {step' : τ → γ → Option τ} {guard' : τ → γ → Prop} (f : σ → τ)
    (h : Reaches step guard s s')
    (hstep : ∀ s₁ a s₂, Reaches step guard s s₁ → guard s₁ a → step s₁ a = some s₂ →
      Reaches step' guard' (f s₁) (f s₂)) :
    Reaches step' guard' (f s) (f s') := by
  refine h.invariant (P := fun s₁ => Reaches step' guard' (f s) (f s₁)) .refl ?_
  exact fun s₁ a s₂ hs₁ hf ha hs => hf.trans (hstep s₁ a s₂ hs₁ ha hs)

/-- **Forward simulation**: when related states stay related by letting the second system run,
for any length, at every step of the first, every run of the first is matched by one of the
second. -/
theorem Reaches.forward {τ γ : Type*} {step' : τ → γ → Option τ} {guard' : τ → γ → Prop} {t : τ}
    {R : σ → τ → Prop} (h : Reaches step guard s s') (hR : R s t)
    (hstep : ∀ s₁ a s₂ t₁, Reaches step' guard' t t₁ → R s₁ t₁ → guard s₁ a →
      step s₁ a = some s₂ → ∃ t₂, Reaches step' guard' t₁ t₂ ∧ R s₂ t₂) :
    ∃ t', Reaches step' guard' t t' ∧ R s' t' := by
  refine h.invariant (P := fun s₁ => ∃ t₁, Reaches step' guard' t t₁ ∧ R s₁ t₁) ⟨t, .refl, hR⟩ ?_
  rintro s₁ a s₂ - ⟨t₁, ht₁, hR₁⟩ ha hs
  obtain ⟨t₂, ht₂, hR₂⟩ := hstep s₁ a s₂ t₁ ht₁ hR₁ ha hs
  exact ⟨t₂, ht₁.trans ht₂, hR₂⟩

variable [∀ s a, Decidable (guard s a)]

/-- **Runs carry over** along a map that commutes with every step from a reached state. -/
theorem exec_map {τ : Type*} {step' : τ → α → Option τ} {guard' : τ → α → Prop}
    [∀ s a, Decidable (guard' s a)] {f : σ → τ}
    (hstep : ∀ s₁ a, Reaches step guard s s₁ → (guard' (f s₁) a ↔ guard s₁ a) ∧
      (guard s₁ a → step' (f s₁) a = (step s₁ a).map f)) (as : List α) :
    exec step' guard' (f s) as = (exec step guard s as).map f := by
  induction as using List.reverseRecOn with
  | nil => rfl
  | append_singleton as a ih =>
      rw [exec_append, exec_append, ih]
      cases hs : exec step guard s as with
      | none => rfl
      | some s₁ =>
          obtain ⟨hguard, hmap⟩ := hstep s₁ a (reaches_of_exec hs)
          simp only [Option.map_some, Option.bind_some, exec, hguard]
          split
          · rename_i ha
            rw [hmap ha]
            cases step s₁ a <;> rfl
          · rfl

/-! ### Ranks -/

/-- **A rank bounds the steps of one party**, in every schedule: however the steps of the
others are placed, and whether or not they go on. -/
theorem countP_add_rank_le (own : α → Bool) (slack : α → ℕ) (rank : σ → ℕ)
    (hstep : ∀ s₁ a s₂, guard s₁ a → step s₁ a = some s₂ →
      (own a).toNat + rank s₂ ≤ rank s₁ + slack a)
    {as : List α} (h : exec step guard s as = some s') :
    as.countP own + rank s' ≤ rank s + (as.map slack).sum := by
  induction as generalizing s with
  | nil =>
      obtain rfl := Option.some.inj h
      simp
  | cons a as ih =>
      rw [exec] at h
      split at h
      · rename_i ha
        obtain ⟨s₁, hs₁, h⟩ := Option.bind_eq_some_iff.1 h
        have h₁ := hstep s a s₁ ha hs₁
        have h₂ := ih h
        rw [List.countP_cons, List.map_cons, List.sum_cons]
        cases hown : own a <;> simp [hown] at h₁ ⊢ <;> omega
      · cases h

/-- The slack of a schedule in which each of certain steps admits `k`. -/
theorem sum_slack (p : α → Bool) (k : ℕ) (as : List α) :
    (as.map fun a => if p a then k else 0).sum = k * as.countP p := by
  induction as with
  | nil => rfl
  | cons a as ih =>
      rw [List.map_cons, List.sum_cons, ih, List.countP_cons]
      split <;> ring

/-! ### Outputs -/

section Outputs

variable (step) (out : σ → α → List β)

/-- What the steps of a schedule show, as far as the schedule can be run. -/
def outputs : σ → List α → List β
  | _, [] => []
  | s, a :: as => out s a ++ (step s a).elim [] fun s' => outputs s' as

variable {step out}

/-- The outputs of a run that goes on. -/
theorem outputs_append {s₁ : σ} {as : List α} (h : exec step guard s as = some s₁)
    (bs : List α) :
    outputs step out s (as ++ bs) = outputs step out s as ++ outputs step out s₁ bs := by
  induction as generalizing s with
  | nil =>
      obtain rfl := Option.some.inj h
      rfl
  | cons a as ih =>
      rw [exec] at h
      split at h
      · obtain ⟨s₂, hs₂, h⟩ := Option.bind_eq_some_iff.1 h
        rw [List.cons_append, outputs, outputs, hs₂, Option.elim_some, Option.elim_some, ih h,
          List.append_assoc]
      · cases h

/-- **The invariant rule with a history**: what holds at the start with nothing shown, and
is kept by every step when its output is appended, holds at the end of the run. -/
theorem outputs_invariant {P : List β → σ → Prop} {as : List α}
    (h : exec step guard s as = some s') (h₀ : P [] s)
    (hstep : ∀ bs s₁ a s₂, P bs s₁ → guard s₁ a → step s₁ a = some s₂ → P (bs ++ out s₁ a) s₂) :
    P (outputs step out s as) s' := by
  induction as using List.reverseRecOn generalizing s' with
  | nil =>
      obtain rfl := Option.some.inj h
      exact h₀
  | append_singleton as a ih =>
      obtain ⟨s₁, hs₁, ha, hs'⟩ := exec_concat.1 h
      rw [outputs_append hs₁]
      simpa [outputs, hs'] using hstep _ _ _ _ (ih hs₁) ha hs'

/-- When only the labels with `p` show an item with `q`, and one each at most, there are at
most as many items with `q` as labels with `p`. -/
theorem countP_outputs_le {p : α → Bool} {q : β → Bool}
    (hout : ∀ s a, (out s a).countP q ≤ if p a = true then 1 else 0) (s : σ) (as : List α) :
    (outputs step out s as).countP q ≤ as.countP p := by
  induction as generalizing s with
  | nil => exact le_rfl
  | cons a as ih =>
      have hrest : ((step s a).elim [] fun s' => outputs step out s' as).countP q ≤
          as.countP p := by
        cases step s a with
        | none => exact Nat.zero_le _
        | some s' => exact ih s'
      have := hout s a
      rw [outputs, List.countP_append, List.countP_cons]
      omega

end Outputs

end Lib
end PaymentGateway
