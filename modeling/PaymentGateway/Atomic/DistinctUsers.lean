/-
# Threads with distinct user ids

The runs most properties of `AtomicPaymentTree` are about: a tree is built, then
any number of threads make any calls, each with a user id of its own that is not
-1, and every interleaving of their accesses is allowed (`OwnRun`).  Distinct ids
make the owner checks sound, so along such a run the books of the counters
balance and custody is kept (`OwnRun.sound_custody`).

Two properties follow at once.  Same-node exclusion: a lock state is 1 exactly
while one thread holds the node, and only that thread sets it back to 0
(`lockState_tracks_holder`).  Counter accounting: no counter is ever negative, and
without calls in flight all counters are exact (`counters_account`).
-/

import PaymentGateway.Atomic.Custody

namespace PaymentGateway
namespace Atomic

open Lib

variable {Tid : Type}

/-- The user ids tell the threads apart, and none of them means "no owner". -/
structure DistinctUsers (user : Tid → ℤ) : Prop where
  injective : Function.Injective user
  ne_none : ∀ i, user i ≠ -1

/-- The states of the runs, on a tree built by `adds`, in which every thread makes
all its calls with its own id. -/
def OwnRun [DecidableEq Tid] (adds : List NodeSpec) (user : Tid → ℤ) (s : State Tid) : Prop :=
  Reaches (step (AtomicPaymentTree.build adds).shape) (fun _ l => OwnUser user l)
    (start (AtomicPaymentTree.build adds)) s

/-! ### Concrete runs -/

section Runs

variable [DecidableEq Tid]

/-- `k` steps of the thread `i` without spurious failures. -/
def turns (i : Tid) (k : ℕ) : List (Label Tid) := List.replicate k (.tick i)

instance (user : Tid → ℤ) (l : Label Tid) : Decidable (OwnUser user l) := by
  rcases l with _ | _ <;> unfold OwnUser <;> infer_instance

/-- The ids 0 and 1. -/
def twoUsers (i : Fin 2) : ℤ := i

theorem twoUsers_distinct : DistinctUsers twoUsers := ⟨by decide, by decide⟩

/-- The state after a schedule on the tree built by `adds`, if all its steps can be
made and all calls use the ids of their threads. -/
def play (adds : List NodeSpec) (user : Tid → ℤ) (ls : List (Label Tid)) : Option (State Tid) :=
  exec (step (AtomicPaymentTree.build adds).shape) (fun _ l => OwnUser user l)
    (start (AtomicPaymentTree.build adds)) ls

/-- A schedule that ends in a state with the property `p` is a run to such a state. -/
theorem ownRun_of_play (adds : List NodeSpec) (user : Tid → ℤ) (ls : List (Label Tid))
    (p : State Tid → Bool) (h : (play adds user ls).any p = true) :
    ∃ s, OwnRun adds user s ∧ p s = true :=
  exists_reaches_of_exec ls h

/-- The state after a schedule; the start if the schedule cannot be played. -/
def after (adds : List NodeSpec) (user : Tid → ℤ) (ls : List (Label Tid)) : State Tid :=
  (play adds user ls).getD (start (AtomicPaymentTree.build adds))

theorem ownRun_after (adds : List NodeSpec) (user : Tid → ℤ) (ls : List (Label Tid)) :
    OwnRun adds user (after adds user ls) := by
  unfold after
  cases h : play adds user ls with
  | none => exact .refl
  | some s => exact reaches_of_exec h

end Runs

/-! ### The two properties -/

variable [Fintype Tid] [DecidableEq Tid] {adds : List NodeSpec} {user : Tid → ℤ} {s s' : State Tid}

/-- **Distinct ids are enough** for balanced books and custody. -/
theorem OwnRun.sound_custody (h : OwnRun adds user s) (hu : DistinctUsers user) :
    Sound (AtomicPaymentTree.build adds).shape s ∧ Custody user s := by
  unfold OwnRun at h
  refine h.invariant ?_ ?_
  · exact ⟨sound_start adds, custody_start adds⟩
  · exact fun s₁ l s₂ _ h hown hs =>
      sound_custody_step h hown (h.2.byHolder hu.injective hu.ne_none l) hs

/-- **Same-node mutual exclusion.**  In every reachable state a lock state is 1
exactly when one thread holds the node, 0 exactly when none does, and a step that
sets it from 1 to 0 is a step of the thread that holds the node. -/
theorem lockState_tracks_holder (hu : DistinctUsers user) (h : OwnRun adds user s) (n : ℕ) :
    ((s.mem.node n).lockState = 1 ↔ ∃! i, Holds i n s.hist) ∧
      ((s.mem.node n).lockState = 0 ↔ ∀ i, ¬Holds i n s.hist) ∧
      ∀ l s', OwnUser user l → step (AtomicPaymentTree.build adds).shape s l = some s' →
        (s.mem.node n).lockState = 1 → (s'.mem.node n).lockState = 0 → Holds l.tid n s.hist := by
  obtain ⟨hsound, hcust⟩ := h.sound_custody hu
  refine ⟨?_, ?_, ?_⟩
  · rw [hcust.locked_iff]
    exact ⟨fun ⟨i, hi⟩ => ⟨i, hi, fun j hj => hcust.unique j i n hj hi⟩, fun ⟨i, hi, _⟩ => ⟨i, hi⟩⟩
  · rw [← not_exists, ← hcust.locked_iff]
    have := hsound.lockState n
    omega
  · intro l s' _ hs h1 h0
    cases move_of_step hs with
    | invoke i c hi => exact absurd (h1.symm.trans h0) (by decide)
    | ret i sp c k r hi => exact absurd (h1.symm.trans h0) (by decide)
    | exec i sp c k y pc hi =>
        rcases Memory.apply_lockState_cases s.mem _ n with hkeep | hset
        · exact absurd ((hkeep.trans h1).symm.trans h0) (by decide)
        · rcases hcust.exec_set hi hset with ⟨hone, -⟩ | ⟨-, hH⟩
          · exact absurd (hone.symm.trans h0) (by decide)
          · exact hH

/-- Two threads try to lock `Left`; the first of them holds it afterwards, alone. -/
theorem lockState_tracks_holder_contended :
    ∃ s : State (Fin 2), OwnRun smallTree twoUsers s ∧ (s.mem.node 1).lockState = 1 ∧
      Holds 0 1 s.hist ∧ ∃! i, Holds i 1 s.hist := by
  obtain ⟨s, hs, hp⟩ := ownRun_of_play smallTree twoUsers
    ([.invoke 0 ⟨.lock, "Left", 0⟩, .invoke 1 ⟨.lock, "Left", 1⟩] ++ turns 0 2 ++ turns 1 2 ++
      [.tick 0 true] ++ turns 0 2 ++ turns 1 2)
    (fun s => decide ((s.mem.node 1).lockState = 1 ∧ Holds 0 1 s.hist)) (by decide +kernel)
  obtain ⟨h1, h0⟩ := of_decide_eq_true hp
  exact ⟨s, hs, h1, h0, ((lockState_tracks_holder twoUsers_distinct hs 1).1).1 h1⟩

/-- **Counter accounting.**  In every reachable state no counter is negative, and
when no call is in flight every counter is the number of locked proper relatives
it stands for. -/
theorem counters_account (hu : DistinctUsers user) (h : OwnRun adds user s) :
    (∀ n, 0 ≤ (s.mem.node n).ancestorLockedCount ∧ 0 ≤ (s.mem.node n).descendantLockedCount) ∧
      ((∀ i, s.thread i = .idle) → ∀ n,
        (s.mem.node n).ancestorLockedCount =
            (AtomicPaymentTree.build adds).shape.countAbove s.mem.flag n ∧
          (s.mem.node n).descendantLockedCount =
            (AtomicPaymentTree.build adds).shape.countBelow s.mem.flag n) := by
  obtain ⟨hsound, -⟩ := h.sound_custody hu
  exact ⟨fun n => ⟨hsound.ancestors_nonneg n, hsound.descendants_nonneg n⟩, hsound.exact_of_idle⟩

/-- A lock of `Left` and a failed lock of `Root` later, the root counts one locked
descendant. -/
theorem counters_account_after_lock :
    ∃ s : State (Fin 2), OwnRun smallTree twoUsers s ∧ (∀ i, s.thread i = .idle) ∧
      (s.mem.node 0).descendantLockedCount = 1 ∧
      (AtomicPaymentTree.build smallTree).shape.countBelow s.mem.flag 0 = 1 := by
  obtain ⟨s, hs, hp⟩ := ownRun_of_play smallTree twoUsers
    (.invoke 0 ⟨.lock, "Left", 0⟩ :: turns 0 10 ++ .invoke 1 ⟨.lock, "Root", 1⟩ :: turns 1 3)
    (fun s => decide ((∀ i, s.thread i = .idle) ∧
      (s.mem.node 0).descendantLockedCount = 1)) (by decide +kernel)
  obtain ⟨hidle, h1⟩ := of_decide_eq_true hp
  have h := (((counters_account twoUsers_distinct hs).2 hidle) 0).2
  exact ⟨s, hs, hidle, h1, by omega⟩

end Atomic
end PaymentGateway
