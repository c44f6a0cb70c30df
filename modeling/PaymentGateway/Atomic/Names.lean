/-
# Which nodes can be used by name

What the agreement of the name index with the tree is for: in a tree that has just been
built, a node that its name leads to can be locked and unlocked under that name by every
user, in both trees (`usable_of_getNode`).  The atomic tree has this from the sequential
one, which it agrees with when a single thread makes the calls (`Agrees.call`).

So a sequence of `addNode` calls leaves every node reachable, freed once and usable
exactly when no call replaces a root or repeats a name (`index_agrees_iff`).
-/

import PaymentGateway.Tree.Index
import PaymentGateway.Atomic.Solo

namespace PaymentGateway

namespace PaymentTree

/-- Some name locks and unlocks the node, for every user. -/
def Usable (t : PaymentTree) (n : ℕ) : Prop :=
  ∃ s, ∀ userId, (t.lock s userId).2 = true ∧ (t.lock s userId).1.flag n = true ∧
    ((t.lock s userId).1.unlock s userId).2 = true ∧
    ((t.lock s userId).1.unlock s userId).1.flag n = false

variable {adds : List NodeSpec} {s : String} {n : ℕ}

/-- `lock` of a node that has just been built. -/
theorem lock_build (userId : ℤ) (hn : (build adds).getNode s = some n) :
    (build adds).lock s userId = ((build adds).settle n true userId 1, true) := by
  rw [lock_eq userId hn, flag, build_node]
  exact if_pos ⟨rfl, le_rfl, le_rfl⟩

/-- `unlock` after that. -/
theorem unlock_lock_build (userId : ℤ) (hn : (build adds).getNode s = some n) :
    ((build adds).lock s userId).1.unlock s userId =
      (((build adds).settle n true userId 1).settle n false (-1) (-1), true) := by
  rw [lock_build userId hn]
  have hn' : ((build adds).settle n true userId 1).getNode s = some n := hn
  rw [unlock_eq userId hn', settle_flag, settle_node]
  exact if_pos ⟨Function.update_self .., if_pos rfl⟩

/-- **A node its name leads to can be used**, in a tree that has just been built. -/
theorem usable_of_getNode (hn : (build adds).getNode s = some n) : (build adds).Usable n := by
  refine ⟨s, fun userId => ?_⟩
  rw [unlock_lock_build userId hn, lock_build userId hn, settle_flag, settle_flag]
  exact ⟨rfl, Function.update_self .., rfl, Function.update_self ..⟩

/-- A node that no name leads to cannot be used. -/
theorem usable_iff : (build adds).Usable n ↔
    (build adds).getNode ((build adds).shape.name n) = some n := by
  refine ⟨fun ⟨s, h⟩ => ?_, usable_of_getNode⟩
  obtain ⟨hlock, hflag, -⟩ := h 0
  cases hs : (build adds).getNode s with
  | none =>
      rw [lock, hs] at hlock
      cases hlock
  | some m =>
      rw [lock_build 0 hs, settle_flag] at hflag
      obtain rfl : n = m := by
        by_contra hne
        rw [Function.update_of_ne hne, flag, build_node] at hflag
        cases hflag
      have hkeys : (build adds).shape.KeysMatch := by
        rw [build_shape_eq]
        exact TreeShape.keysMatch_build adds
      rw [hkeys s n hs]
      exact hs

end PaymentTree

namespace Atomic

/-- Both trees that the same calls have built agree. -/
theorem agrees_build (adds : List NodeSpec) :
    Agrees (PaymentTree.build adds) (AtomicPaymentTree.build adds) :=
  List.foldl_rel (r := Agrees) ⟨rfl, fun _ => rfl⟩
    fun a _ _ _ h => h.addNode a.nodeName a.parentName

theorem Agrees.lockState {T : PaymentTree} {t : AtomicPaymentTree} (h : Agrees T t) (n : ℕ) :
    (t.mem.node n).lockState = if T.flag n = true then 1 else 0 :=
  Mirrors.lockState h.node n

namespace AtomicPaymentTree

/-- Some name locks and unlocks the node, for every user: both calls return true, made
by one thread alone, whichever of its steps fail spuriously. -/
def Usable (t : AtomicPaymentTree) (n : ℕ) : Prop :=
  ∃ s, ∀ userId fails₁ fails₂, ∃ t₁ t₂,
    t.Completes ⟨.lock, s, userId⟩ fails₁ t₁ true ∧ (t₁.mem.node n).lockState = 1 ∧
    t₁.Completes ⟨.unlock, s, userId⟩ fails₂ t₂ true ∧ (t₂.mem.node n).lockState = 0

/-- **A node its name leads to can be used**, in a tree that has just been built. -/
theorem usable_of_getNode {adds : List NodeSpec} {s : String} {n : ℕ}
    (hn : (build adds).shape.getNode s = some n) : (build adds).Usable n := by
  have hagrees := agrees_build adds
  have hn' : (PaymentTree.build adds).getNode s = some n := by
    rw [PaymentTree.getNode, hagrees.shape]
    exact hn
  refine ⟨s, fun userId fails₁ fails₂ => ?_⟩
  have hexact : (PaymentTree.build adds).DescendantsExact :=
    (PaymentTree.exact_build adds).descendants
  obtain ⟨t₁, hlock, hagrees₁⟩ := hagrees.call hexact ⟨.lock, s, userId⟩ fails₁
  obtain ⟨t₂, hunlock, hagrees₂⟩ := hagrees₁.call
    (hexact.settles (PaymentTree.settles_call _ ⟨.lock, s, userId⟩)) ⟨.unlock, s, userId⟩ fails₂
  dsimp only [PaymentTree.call] at hlock hunlock hagrees₁ hagrees₂
  rw [PaymentTree.unlock_lock_build userId hn'] at hunlock hagrees₂
  rw [PaymentTree.lock_build userId hn'] at hlock hagrees₁
  refine ⟨t₁, t₂, hlock, ?_, hunlock, ?_⟩
  · rw [hagrees₁.lockState, PaymentTree.settle_flag]
    simp
  · rw [hagrees₂.lockState, PaymentTree.settle_flag]
    simp

end AtomicPaymentTree

/-- **When the name index and the tree agree.**  After a sequence of `addNode` calls, in
either tree: every node below `root` is the one its name leads to, every node in `nodeMap`
is below `root`, the destructor frees every allocated node once, and every one can be
locked and unlocked by name, if and only if no parentless call found a root already there
and no call under a known parent repeated a name. -/
theorem index_agrees_iff (adds : List NodeSpec) :
    let T := PaymentTree.build adds
    let t := AtomicPaymentTree.build adds
    (T.shape.IndexAgrees ∧ (∀ n < T.shape.size, T.Usable n) ↔
      ∀ bs a, bs ++ [a] <+: adds → (TreeShape.build bs).AddsNew a) ∧
    (t.shape.IndexAgrees ∧ (∀ n < t.shape.size, t.Usable n) ↔
      ∀ bs a, bs ++ [a] <+: adds → (TreeShape.build bs).AddsNew a) := by
  intro T t
  have hshape : T.shape = TreeShape.build adds := PaymentTree.build_shape_eq adds
  have hshape' : t.shape = TreeShape.build adds := AtomicPaymentTree.build_shape_eq adds
  refine ⟨?_, ?_⟩
  · rw [← TreeShape.indexAgrees_build_iff, ← hshape]
    refine and_iff_left_of_imp fun h n hn => ?_
    exact PaymentTree.usable_of_getNode (TreeShape.indexAgrees_iff.1 h n hn).2
  · rw [← TreeShape.indexAgrees_build_iff, ← hshape']
    refine and_iff_left_of_imp fun h n hn => ?_
    exact AtomicPaymentTree.usable_of_getNode (TreeShape.indexAgrees_iff.1 h n hn).2

/-- **A hidden node and a leaked one.**  The second `A` under `Root` takes the name away
from the first, which stays below `Root` and can no longer be locked; the second root
replaces the first, which is still in `nodeMap` and which the destructor misses. -/
theorem index_hides_and_leaks :
    let twice : List NodeSpec := [⟨"Root", ""⟩, ⟨"A", "Root"⟩, ⟨"A", "Root"⟩]
    let roots : List NodeSpec := [⟨"Root", ""⟩, ⟨"Other", ""⟩]
    (¬(PaymentTree.build twice).shape.IndexAgrees ∧ ¬(PaymentTree.build twice).Usable 1 ∧
      ¬(AtomicPaymentTree.build twice).shape.IndexAgrees) ∧
    ¬(PaymentTree.build roots).shape.IndexAgrees ∧
      (PaymentTree.build roots).shape.destructor = [1] ∧
      ¬(AtomicPaymentTree.build roots).shape.IndexAgrees := by
  refine ⟨⟨fun h => ?_, fun h => ?_, fun h => ?_⟩, fun h => ?_, by decide +kernel, fun h => ?_⟩
  · have := h.reached 1 ⟨0, by decide +kernel, .inr (by decide +kernel)⟩
    revert this
    decide +kernel
  · have := PaymentTree.usable_iff.1 h
    revert this
    decide +kernel
  · have := h.reached 1 ⟨0, by decide +kernel, .inr (by decide +kernel)⟩
    revert this
    decide +kernel
  · have := h.freed 0 (by decide +kernel)
    revert this
    decide +kernel
  · have := h.freed 0 (by decide +kernel)
    revert this
    decide +kernel

end Atomic
end PaymentGateway
