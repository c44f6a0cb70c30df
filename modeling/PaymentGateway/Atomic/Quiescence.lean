/-
# When a concurrent tree is one that a sequential tree could be

While calls are in flight, the counters of `AtomicPaymentTree` lag behind and owners are
not recorded yet.  What is left when all calls have returned, after any interleaving of
`lock`, `unlock` and `upgradeLock` by threads with ids of their own?

Of everything that `PaymentTree` keeps only one thing can be lost: hierarchical exclusion.
The tree is, in every field, one that calls on a `PaymentTree` lead to, if and only if no
locked node has a locked proper ancestor (`quiescent_iff`).  Two `lock` calls that overlap
may lose it, and later calls then go on from a state that no sequential tree is ever in.
-/

import PaymentGateway.Atomic.Calls
import PaymentGateway.Atomic.Solo
import PaymentGateway.Sequential.Recovery

namespace PaymentGateway
namespace Atomic

open Lib

variable {Tid : Type}

/-- The `PaymentTree` whose fields are those in memory. -/
def sequentialTree (t : TreeShape) (m : Memory) : PaymentTree where
  shape := t
  node n := ⟨m.flag n, (m.node n).lockedBy, (m.node n).ancestorLockedCount,
    (m.node n).descendantLockedCount⟩

/-- A tree agrees with memory when it is the one with these fields. -/
theorem agrees_iff {T : PaymentTree} {t : TreeShape} {m : Memory}
    (hstate : ∀ n, (m.node n).lockState = 0 ∨ (m.node n).lockState = 1) :
    Agrees T ⟨t, m⟩ ↔ T = sequentialTree t m := by
  constructor
  · intro h
    refine PaymentTree.ext_node h.shape (funext fun n => ?_)
    have hnode : m.node n = .of (T.node n) := h.node n
    simp only [sequentialTree, Memory.flag, hnode, AtomicTreeNode.of]
    cases hT : T.node n with
    | mk isLocked lockedBy ancestorLockedCount descendantLockedCount => cases isLocked <;> rfl
  · rintro rfl
    refine ⟨rfl, fun n => ?_⟩
    have hlock : (m.node n).lockState = if m.flag n = true then 1 else 0 := by
      rcases hstate n with h | h <;> simp [Memory.flag, h]
    exact congrArg (AtomicTreeNode.mk · _ _ _) hlock

section Run

variable [DecidableEq Tid] {adds : List NodeSpec} {user : Tid → ℤ} {s : State Tid}

/-- A locked node is found under its name: it was found when it was locked. -/
theorem OwnRun.getNode_name (h : OwnRun adds user s) {n : ℕ}
    (hn : (s.mem.node n).lockState = 1) :
    (AtomicPaymentTree.build adds).shape.getNode
      ((AtomicPaymentTree.build adds).shape.name n) = some n := by
  have hkeys : (AtomicPaymentTree.build adds).shape.KeysMatch := by
    rw [AtomicPaymentTree.build_shape_eq]
    exact TreeShape.keysMatch_build adds
  suffices hrun : ∀ n, (s.mem.node n).lockState = 1 →
      (AtomicPaymentTree.build adds).shape.getNode
        ((AtomicPaymentTree.build adds).shape.name n) = some n from hrun n hn
  unfold OwnRun at h
  refine h.invariant (P := fun s => ∀ n, (s.mem.node n).lockState = 1 →
    (AtomicPaymentTree.build adds).shape.getNode
      ((AtomicPaymentTree.build adds).shape.name n) = some n) (fun n hn => ?_) ?_
  · rw [start, build_node] at hn
    cases hn
  · intro s₁ l s₂ hr ih _ hs n hn
    have hrun : OwnRun adds user s₁ := hr
    cases move_of_step hs with
    | invoke i c hi => exact ih n hn
    | ret i sp c k r hi => exact ih n hn
    | exec i sp c k m pc hi =>
        have hcall := hrun.resolved.calls i
        rw [hi] at hcall
        rcases Memory.locked_of_apply _ _ _ hn with hn | hset
        · exact ih n hn
        · rcases exec_setLockState hset with ⟨rfl, -⟩ | ⟨h0, -⟩
          · rw [hkeys _ n hcall.1]
            exact hcall.1
          · cases h0

variable [Fintype Tid]

/-- **What is left when all calls have returned.**  Threads with distinct ids may have made
any calls in any interleaving.  If none of them is in flight, the tree is in every field one
that some calls on a `PaymentTree` lead to, exactly when no locked node has a locked proper
ancestor. -/
theorem quiescent_iff (hu : DistinctUsers user) (h : OwnRun adds user s)
    (hidle : ∀ i, s.thread i = .idle) :
    (∃ calls, Agrees ((PaymentTree.build adds).run calls)
        ⟨(AtomicPaymentTree.build adds).shape, s.mem⟩) ↔
      ∀ a n, (AtomicPaymentTree.build adds).shape.IsAncestor a n →
        (s.mem.node n).lockState = 1 → (s.mem.node a).lockState = 0 := by
  obtain ⟨hsound, hcust⟩ := h.sound_custody hu
  let T := sequentialTree (AtomicPaymentTree.build adds).shape s.mem
  have hflag : T.flag = s.mem.flag := rfl
  have hexact : T.Exact := by
    refine ⟨fun n => (hsound.exact_of_idle hidle n).1, fun n => (hsound.exact_of_idle hidle n).2,
      fun n hn => hcust.lockedBy_of_idle hidle ?_⟩
    have hfree : s.mem.flag n = false := hn
    exact fun hone => Bool.false_ne_true
      (hfree.symm.trans ((Memory.flag_eq_true_iff _ _).2 hone))
  have hexclusive : T.Exclusive ↔ ∀ a n,
      (AtomicPaymentTree.build adds).shape.IsAncestor a n →
        (s.mem.node n).lockState = 1 → (s.mem.node a).lockState = 0 := by
    refine forall₃_congr fun a n _ => imp_congr (Memory.flag_eq_true_iff _ _) ?_
    have hfalse : (T.node a).isLocked = false ↔ ¬(s.mem.node a).lockState = 1 := by
      rw [← Memory.flag_eq_true_iff, Bool.not_eq_true]
      rfl
    have := hsound.lockState a
    rw [hfalse]
    omega
  have hshape : T.shape = (PaymentTree.build adds).shape :=
    (AtomicPaymentTree.build_shape_eq adds).trans (PaymentTree.build_shape_eq adds).symm
  simp only [agrees_iff hsound.lockState]
  rw [← hexclusive]
  constructor
  · rintro ⟨calls, hcalls⟩
    have hinv := (PaymentTree.run_invariant adds calls).2.1
    rwa [hcalls] at hinv
  · intro hexcl
    exact hexact.exists_run hshape hexcl fun n hn =>
      h.getNode_name ((Memory.flag_eq_true_iff _ _).1 hn)

/-- **A state without a sequential counterpart**: two overlapping `lock` calls, on `Root` and
on `Left`, have both returned true. -/
theorem quiescent_iff_overlapping :
    ∃ s : State (Fin 2), OwnRun smallTree twoUsers s ∧ (∀ i, s.thread i = .idle) ∧
      ¬∃ calls, Agrees ((PaymentTree.build smallTree).run calls)
        ⟨(AtomicPaymentTree.build smallTree).shape, s.mem⟩ := by
  obtain ⟨s, hs, hp⟩ := ownRun_of_play smallTree twoUsers
    ([.invoke 0 ⟨.lock, "Root", 0⟩, .invoke 1 ⟨.lock, "Left", 1⟩] ++ turns 0 3 ++ turns 1 3 ++
      turns 0 2 ++ turns 1 2 ++ turns 0 6 ++ turns 1 5)
    (fun s => decide ((∀ i, s.thread i = .idle) ∧ (s.mem.node 0).lockState = 1 ∧
      (s.mem.node 1).lockState = 1)) (by decide +kernel)
  obtain ⟨hidle, hroot, hleft⟩ := of_decide_eq_true hp
  refine ⟨s, hs, hidle, fun hsequential => ?_⟩
  have hfree := (quiescent_iff twoUsers_distinct hs hidle).1 hsequential 0 1 (by decide +kernel)
    hleft
  rw [hroot] at hfree
  cases hfree

end Run

end Atomic
end PaymentGateway
