/-
# The counters of `PaymentTree` are exact

After any sequence of calls every `ancestorLockedCount` is the number of locked
proper ancestors, every `descendantLockedCount` the number of locked proper
descendants, and no free node keeps an owner (`Exact`, `exact_run`).

One settled node moves its own flag and, by the same amount, the counters of all
related nodes (`Exact.settle`).  `lock` and `unlock` settle one node, and the release
loop of `upgradeLock` settles one locked node after the other (`settles_call`), so
the invariant is carried through each of its intermediate states.  Exact counters are
between 0 and the number of nodes, so `int` holds them (`run_counters_in_range`).
-/

import PaymentGateway.Sequential.PaymentTree

namespace PaymentGateway

open Lib

namespace PaymentTree

/-- The counters are what they are meant to be, and a free node has no owner. -/
structure Exact (t : PaymentTree) : Prop where
  ancestors : ∀ n, (t.node n).ancestorLockedCount = t.shape.countAbove t.flag n
  descendants : ∀ n, (t.node n).descendantLockedCount = t.shape.countBelow t.flag n
  owner : ∀ n, (t.node n).isLocked = false → (t.node n).lockedBy = -1

variable {t : PaymentTree}

/-- Settling a node by the difference of its flags keeps the counters exact. -/
theorem Exact.settle (h : t.Exact) (n : ℕ) (b : Bool) {u δ : ℤ}
    (hδ : δ = (b.toNat : ℤ) - (t.flag n).toNat) (hu : b = false → u = -1) :
    (t.settle n b u δ).Exact where
  ancestors x := by
    rw [settle_node, settle_shape, settle_flag, Forest.countAbove_update, h.ancestors, hδ]
  descendants x := by
    rw [settle_node, settle_shape, settle_flag, Forest.countBelow_update, h.descendants, hδ]
  owner x hx := by
    rw [settle_node] at hx ⊢
    by_cases hxn : x = n
    · subst hxn
      simpa using hu (by simpa using hx)
    · simpa [hxn] using h.owner x (by simpa [hxn, flag] using hx)

theorem Exact.settles {t' : PaymentTree} (h : t.Exact) (hs : Settles t t') : t'.Exact := by
  induction hs with
  | refl => exact h
  | settle _ n b hδ hu ih => exact ih.settle n b hδ hu

/-- **Every call keeps the counters exact.** -/
theorem Exact.call (h : t.Exact) (c : Call) : (t.call c).1.Exact := h.settles (settles_call t c)

theorem Exact.run (h : t.Exact) (calls : List Call) : (t.run calls).Exact := by
  induction calls generalizing t with
  | nil => exact h
  | cons c calls ih => exact ih (h.call c)

/-- The shape of a tree that has only been built. -/
theorem build_shape_eq (adds : List NodeSpec) : (build adds).shape = TreeShape.build adds :=
  (List.foldl_hom PaymentTree.shape fun _ _ => rfl).symm

/-- A tree that has only been built has fresh nodes everywhere. -/
theorem build_node (adds : List NodeSpec) (n : ℕ) : (build adds).node n = .fresh := by
  unfold build
  refine List.foldlRecOn adds _ (motive := fun t : PaymentTree => ∀ n, t.node n = .fresh)
    (fun _ => rfl) (fun t h a _ n => ?_) n
  unfold addNode
  dsimp only
  split
  · exact h n
  · by_cases hn : n = t.shape.size <;> simp [hn, h]

theorem exact_build (adds : List NodeSpec) : (build adds).Exact := by
  have hflag : (build adds).flag = fun _ => false := funext fun n => by
    rw [flag, build_node]
    rfl
  refine ⟨fun n => ?_, fun n => ?_, fun n _ => by rw [build_node]; rfl⟩
  · simp [hflag, build_node, Forest.countAbove, TreeNode.fresh]
  · simp [hflag, build_node, Forest.countBelow, TreeNode.fresh]

/-- **Counter exactness.**  Whatever `addNode` calls built the tree and whatever
calls of `lock`, `unlock` and `upgradeLock` follow, by any users on any names:
after each of them both counters of every node are exact and a free node has
owner `-1`. -/
theorem exact_run (adds : List NodeSpec) (calls : List Call) :
    ∀ n, (((build adds).run calls).node n).ancestorLockedCount =
        ((build adds).run calls).shape.countAbove ((build adds).run calls).flag n ∧
      (((build adds).run calls).node n).descendantLockedCount =
        ((build adds).run calls).shape.countBelow ((build adds).run calls).flag n ∧
      ((((build adds).run calls).node n).isLocked = false →
        (((build adds).run calls).node n).lockedBy = -1) := by
  have h := (exact_build adds).run calls
  exact fun n => ⟨h.ancestors n, h.descendants n, h.owner n⟩

/-- Exact counters are between 0 and the number of nodes. -/
theorem Exact.counters_in_range (h : t.Exact) (n : ℕ) :
    (0 ≤ (t.node n).ancestorLockedCount ∧ (t.node n).ancestorLockedCount ≤ t.shape.size) ∧
      0 ≤ (t.node n).descendantLockedCount ∧ (t.node n).descendantLockedCount ≤ t.shape.size := by
  rw [h.ancestors, h.descendants]
  have habove := t.shape.countAbove_le_size t.flag n
  have hbelow := t.shape.countBelow_le_size t.flag n
  omega

/-- **The counters of `PaymentTree` stay in the range of `int`**, on every tree with fewer
than `2 ^ 31` nodes and after any calls on it. -/
theorem run_counters_in_range (adds : List NodeSpec) (calls : List Call)
    (hsize : (build adds).shape.size < 2 ^ 31) (n : ℕ) :
    let v := ((build adds).run calls).node n
    (0 ≤ v.ancestorLockedCount ∧ v.ancestorLockedCount < 2 ^ 31) ∧
      0 ≤ v.descendantLockedCount ∧ v.descendantLockedCount < 2 ^ 31 := by
  have hrange := ((exact_build adds).run calls).counters_in_range n
  rw [run_shape] at hrange
  omega

end PaymentTree
end PaymentGateway
