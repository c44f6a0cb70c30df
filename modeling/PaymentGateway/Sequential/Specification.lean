/-
# What `PaymentTree` is for

The specification of the tree knows no counters and no flags: its state says which
node is owned by which user, and `lock`, `unlock` and `upgradeLock` are the requests
of a `Hierarchy` whose order is "proper ancestor" (`TreeShape.specCall`).

`PaymentTree` answers by two cached counters and a scan that stops early.  On every
history it gives the answers of the specification and changes the owners the same
way, and a call that returns false changes nothing at all (`refines_specification`).
The step lemma is `Exact.call_spec`: exact counters decide as a walk over all
relatives would.  A tree with exact counters is determined by its shape and its
owners (`Exact.ext`), so what the specification satisfies carries over to the whole
state; that no locked node has a locked proper ancestor is the first example
(`hierarchical_exclusion`).
-/

import PaymentGateway.Lib.Hierarchy
import PaymentGateway.Sequential.Counters

namespace PaymentGateway

open Lib

/-! ### The specification -/

/-- The request a call of an operation makes about the node `n`. -/
def Op.request (n : ℕ) (u : ℤ) : Op → Request ℕ ℤ
  | .lock => .lock n u
  | .unlock => .unlock n u
  | .upgradeLock => .upgrade n u

@[simp] theorem Op.target_request (op : Op) (n : ℕ) (u : ℤ) : (op.request n u).target = n := by
  cases op <;> rfl

namespace TreeShape

/-- A call of the specification: unknown names are refused, the rest is decided by the
owners alone. -/
noncomputable def specCall (t : TreeShape) (o : Owners ℕ ℤ) (c : Call) : Owners ℕ ℤ × Bool :=
  match t.getNode c.nodeName with
  | none => (o, false)
  | some n => t.hierarchy.perform o (c.op.request n c.userId)

/-- A sequence of calls of the specification: the owners it leads to and what the calls
return. -/
noncomputable def specRun (t : TreeShape) (o : Owners ℕ ℤ) : List Call → Owners ℕ ℤ × List Bool
  | [] => (o, [])
  | c :: cs =>
      let next := specRun t (t.specCall o c).1 cs
      (next.1, (t.specCall o c).2 :: next.2)

end TreeShape

namespace PaymentTree

variable {t t' : PaymentTree} {n x : ℕ}

/-- The owners a tree records. -/
def owners (t : PaymentTree) : Owners ℕ ℤ := fun n =>
  if (t.node n).isLocked then some (t.node n).lockedBy else none

/-- What the calls of a sequence return. -/
def results (t : PaymentTree) : List Call → List Bool
  | [] => []
  | c :: cs => (t.call c).2 :: results (t.call c).1 cs

/-! ### Owners -/

theorem owners_eq_none : t.owners n = none ↔ t.flag n = false := by
  simp [owners, flag]

theorem owners_eq_some {u : ℤ} :
    t.owners n = some u ↔ t.flag n = true ∧ (t.node n).lockedBy = u := by
  simp [owners, flag]

theorem owners_ne_none : t.owners n ≠ none ↔ t.flag n = true := by
  rw [ne_eq, owners_eq_none, Bool.not_eq_false]

theorem settle_owners (t : PaymentTree) (n : ℕ) (b : Bool) (u δ : ℤ) :
    (t.settle n b u δ).owners = Function.update t.owners n (if b then some u else none) := by
  funext x
  by_cases hx : x = n
  · simp [owners, settle_node, hx]
  · simp [owners, settle_node, hx, flag]

theorem release_owners (t : PaymentTree) (ds : List ℕ) :
    (t.release ds).owners = fun x => if x ∈ ds then none else t.owners x := by
  induction ds generalizing t with
  | nil => simp [release]
  | cons d ds ih =>
      refine (ih (t.settle d false (-1) (-1))).trans (funext fun x => ?_)
      rw [settle_owners]
      by_cases hx : x = d <;> simp [hx]

/-- **Owners determine a tree with exact counters.** -/
theorem Exact.ext (h : t.Exact) (h' : t'.Exact) (hshape : t.shape = t'.shape)
    (howners : t.owners = t'.owners) : t = t' := by
  have hflag : t.flag = t'.flag := funext fun x => by
    rw [Bool.eq_iff_iff, ← owners_ne_none, ← owners_ne_none, howners]
  refine ext_node hshape (funext fun x => ?_)
  have hlocked : (t.node x).isLocked = (t'.node x).isLocked := congrFun hflag x
  have hanc : (t.node x).ancestorLockedCount = (t'.node x).ancestorLockedCount := by
    rw [h.ancestors, h'.ancestors, hshape, hflag]
  have hdesc : (t.node x).descendantLockedCount = (t'.node x).descendantLockedCount := by
    rw [h.descendants, h'.descendants, hshape, hflag]
  have hby : (t.node x).lockedBy = (t'.node x).lockedBy := by
    cases hx : t.flag x with
    | false => rw [h.owner x hx, h'.owner x (hlocked ▸ hx)]
    | true =>
        have hsome : t'.owners x = some (t.node x).lockedBy :=
          howners ▸ owners_eq_some.2 ⟨hx, rfl⟩
        exact (owners_eq_some.1 hsome).2.symm
  cases hv : t.node x
  cases hv' : t'.node x
  simp_all

/-! ### Exact counters decide as the specification does -/

/-- A counter that is not positive says that no proper ancestor is owned. -/
theorem Exact.ancestors_free (h : t.Exact) : (t.node n).ancestorLockedCount ≤ 0 ↔
    ∀ a, t.shape.IsAncestor a n → t.owners a = none := by
  simp only [owners_eq_none]
  rw [h.ancestors, ← Forest.countAbove_eq_zero]
  omega

/-- A counter that is 0 says that no proper descendant is owned. -/
theorem Exact.descendants_free (h : t.Exact) : (t.node n).descendantLockedCount = 0 ↔
    ∀ d, t.shape.IsAncestor n d → t.owners d = none := by
  simp only [owners_eq_none]
  rw [h.descendants, ← Forest.countBelow_eq_zero]
  omega

theorem Exact.descendants_nonneg (h : t.Exact) : 0 ≤ (t.node n).descendantLockedCount := by
  rw [h.descendants]
  omega

/-- **The checks of an operation decide as the specification does.** -/
theorem Exact.request_spec (h : t.Exact) {c : Call} (hn : t.getNode c.nodeName = some n) :
    ((t.call c).2, (t.call c).1.owners) =
      ((t.shape.hierarchy.perform t.owners (c.op.request n c.userId)).2,
        (t.shape.hierarchy.perform t.owners (c.op.request n c.userId)).1) := by
  have hdesc : (t.node n).descendantLockedCount ≤ 0 ↔
      ∀ d, t.shape.IsAncestor n d → t.owners d = none := by
    rw [← h.descendants_free]
    have := h.descendants_nonneg (n := n)
    omega
  unfold PaymentTree.call
  cases c.op with
  | lock =>
      have hgrants : t.shape.hierarchy.Grants t.owners (.lock n c.userId) ↔
          t.flag n = false ∧ (t.node n).ancestorLockedCount ≤ 0 ∧
            (t.node n).descendantLockedCount ≤ 0 := by
        rw [h.ancestors_free, hdesc, ← owners_eq_none]
        rfl
      dsimp only
      rw [lock_eq _ hn, Op.request]
      split
      · rename_i hok
        rw [Hierarchy.perform_of_grants (hgrants.2 hok), settle_owners, Hierarchy.effect_lock]
        rfl
      · rename_i hno
        rw [Hierarchy.perform_of_not_grants (mt hgrants.1 hno)]
  | unlock =>
      have hgrants : t.shape.hierarchy.Grants t.owners (.unlock n c.userId) ↔
          t.flag n = true ∧ (t.node n).lockedBy = c.userId := owners_eq_some
      dsimp only
      rw [unlock_eq _ hn, Op.request]
      split
      · rename_i hok
        rw [Hierarchy.perform_of_grants (hgrants.2 hok), settle_owners, Hierarchy.effect_unlock]
        rfl
      · rename_i hno
        rw [Hierarchy.perform_of_not_grants (mt hgrants.1 hno)]
  | upgradeLock =>
      have hgrants : t.shape.hierarchy.Grants t.owners (.upgrade n c.userId) ↔
          t.flag n = false ∧ (t.node n).ancestorLockedCount ≤ 0 ∧
            (t.node n).descendantLockedCount ≠ 0 ∧
            ∀ d ∈ t.lockedBelow n, (t.node d).lockedBy = c.userId := by
        have hown : (∀ d ∈ t.lockedBelow n, (t.node d).lockedBy = c.userId) ↔
            ∀ d, t.shape.IsAncestor n d → ∀ v, t.owners d = some v → v = c.userId := by
          simp only [mem_lockedBelow, owners_eq_some, and_imp]
          exact ⟨fun H d hd v hflag hv => hv ▸ H d hd hflag,
            fun H d hd hflag => H d hd _ hflag rfl⟩
        rw [h.ancestors_free, ne_eq, h.descendants_free, hown, ← owners_eq_none]
        simp only [not_forall, exists_prop]
        rfl
      dsimp only
      rw [upgradeLock_eq _ hn, Op.request]
      split
      · rename_i hok
        have hcleared : (fun d => if d ∈ t.lockedBelow n then none else t.owners d) =
            fun d => if t.shape.IsAncestor n d then none else t.owners d := funext fun d => by
          by_cases hd : t.shape.IsAncestor n d <;> by_cases hflag : t.flag d = true
          · simp [mem_lockedBelow, hd, hflag]
          · simp [hd, owners_eq_none.2 (by simpa using hflag : t.flag d = false)]
          · simp [mem_lockedBelow, hd]
          · simp [mem_lockedBelow, hd]
        rw [Hierarchy.perform_of_grants (hgrants.2 hok), settle_owners, release_owners, hcleared]
        exact congrArg (true, ·) (Hierarchy.effect_upgrade (H := t.shape.hierarchy) ..).symm
      · rename_i hno
        rw [Hierarchy.perform_of_not_grants (mt hgrants.1 hno)]

/-- **One call refines the specification.** -/
theorem Exact.call_spec (h : t.Exact) (c : Call) :
    (t.call c).2 = (t.shape.specCall t.owners c).2 ∧
      (t.call c).1.owners = (t.shape.specCall t.owners c).1 := by
  unfold TreeShape.specCall
  cases hn : t.shape.getNode c.nodeName with
  | none =>
      rw [call_eq_of_unknown hn]
      exact ⟨rfl, rfl⟩
  | some n => exact Prod.mk.injEq .. ▸ h.request_spec hn

/-- **A call that returns false changes nothing**, whatever the counters say. -/
theorem call_eq_of_false {c : Call} (h : (t.call c).2 = false) : (t.call c).1 = t := by
  cases hn : t.getNode c.nodeName with
  | none => rw [call_eq_of_unknown hn]
  | some n =>
      revert h
      unfold call
      cases c.op with
      | lock =>
          dsimp only
          rw [lock_eq _ hn]
          split <;> simp
      | unlock =>
          dsimp only
          rw [unlock_eq _ hn]
          split <;> simp
      | upgradeLock =>
          dsimp only
          rw [upgradeLock_eq _ hn]
          split <;> simp

/-- A sequence of calls refines the specification. -/
theorem Exact.run_spec (h : t.Exact) (calls : List Call) :
    t.results calls = (t.shape.specRun t.owners calls).2 ∧
      (t.run calls).owners = (t.shape.specRun t.owners calls).1 := by
  induction calls generalizing t with
  | nil => exact ⟨rfl, rfl⟩
  | cons c calls ih =>
      obtain ⟨hresult, howners⟩ := h.call_spec c
      obtain ⟨hresults, hrun⟩ := ih (h.call c)
      rw [call_shape, howners] at hresults hrun
      exact ⟨congrArg₂ _ hresult hresults, hrun⟩

theorem owners_build (adds : List NodeSpec) : (build adds).owners = fun _ => none :=
  funext fun n => by simp [owners, build_node, TreeNode.fresh]

/-- **`PaymentTree` refines its specification.**  On a tree that `addNode` calls built,
every sequence of calls returns what the specification returns and leaves the owners
the specification leaves, and a further call that returns false leaves every field of
every node as it was. -/
theorem refines_specification (adds : List NodeSpec) (calls : List Call) :
    (build adds).results calls = ((build adds).shape.specRun (fun _ => none) calls).2 ∧
      ((build adds).run calls).owners =
        ((build adds).shape.specRun (fun _ => none) calls).1 ∧
      ∀ c, (((build adds).run calls).call c).2 = false →
        (((build adds).run calls).call c).1 = (build adds).run calls := by
  obtain ⟨hresults, howners⟩ := (exact_build adds).run_spec calls
  rw [owners_build] at hresults howners
  exact ⟨hresults, howners, fun _ => call_eq_of_false⟩

/-! ### Hierarchical exclusion -/

/-- No locked node has a locked proper ancestor. -/
def Exclusive (t : PaymentTree) : Prop :=
  ∀ a n, t.shape.IsAncestor a n → (t.node n).isLocked = true → (t.node a).isLocked = false

theorem exclusive_iff : t.Exclusive ↔ t.shape.hierarchy.Exclusive t.owners := by
  refine forall₃_congr fun a n _ => ?_
  rw [owners_ne_none, owners_eq_none]
  unfold flag
  cases (t.node n).isLocked <;> cases (t.node a).isLocked <;> simp

/-- **No call locks a node above or below a locked one.** -/
theorem Exclusive.call (h : t.Exclusive) (hexact : t.Exact) (c : Call) :
    (t.call c).1.Exclusive := by
  rw [exclusive_iff] at h ⊢
  rw [(hexact.call_spec c).2, call_shape]
  unfold TreeShape.specCall
  split
  · exact h
  · exact h.perform _

theorem Exclusive.run (h : t.Exclusive) (hexact : t.Exact) (calls : List Call) :
    (t.run calls).Exclusive := by
  induction calls generalizing t with
  | nil => exact h
  | cons c calls ih => exact ih (h.call hexact c) (hexact.call c)

/-- **Hierarchical exclusion.**  Whatever users lock, unlock and upgrade whatever nodes
of a tree that `addNode` calls built, no locked node ever has a locked proper
ancestor, not even one of the same user. -/
theorem hierarchical_exclusion (adds : List NodeSpec) (calls : List Call) :
    ((build adds).run calls).Exclusive := by
  refine Exclusive.run (fun a n _ h => ?_) (exact_build adds) calls
  rw [build_node] at h
  cases h

end PaymentTree
end PaymentGateway
