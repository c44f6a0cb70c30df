/-
# The loops over the tree, in both implementations

Three loops of `AtomicPaymentTree` have a counterpart in `PaymentTree`: the upward walk
of `informAncestorsAtomic`, the downward walk of `informDescendantsAtomic`, and the scan
with which `upgradeLock` collects the locked descendants (`src/atomic_tree.cpp`, lines
42-57 and 144-166; `src/tree.cpp`, lines 51-68 and 113-128).

`Walks` says what a thread does from a program counter until it is out of a loop: its
accesses, one a step, and where it comes out.  The two propagations make the same
accesses whatever the other threads write in between (`walks_up`, `walks_down`), one
`fetch_add` at each node of `Forest.ancestors` or `Forest.descendants`.  The scan
depends on the flags and the owners alone (`walks_scan`); it writes nothing.

So the propagations of both trees are dual (`propagations_dual`), and the recursive scan
and the scan with a queue agree (`scans_agree`).
-/

import PaymentGateway.Atomic.Machine
import PaymentGateway.Sequential.PaymentTree

namespace PaymentGateway
namespace Atomic

open Lib

/-! ### Inside a loop -/

namespace Pc

/-- Inside the loop of `informAncestorsAtomic`. -/
def climbing : Pc → Bool
  | .informUp _ _ (some _) _ => true
  | _ => false

/-- Inside the recursion of `informDescendantsAtomic`. -/
def descending : Pc → Bool
  | .informDown _ _ (_ :: _) _ => true
  | _ => false

/-- Inside the loop of `upgradeLock` that empties the queue. -/
def scanning : Pc → Bool
  | .upgradeScan (_ :: _) _ => true
  | .upgradeLoadOwner .. => true
  | _ => false

end Pc

/-- From a program counter on, a thread in a call on `n` by `userId` makes the accesses
`as`, one a step, and then is out of the loop, with `next`: in whatever memory with `M`
each step is made, and whether or not it fails spuriously. -/
inductive Walks (t : TreeShape) (M : Memory → Prop) (userId : ℤ) (n : ℕ) (inside : Pc → Bool) :
    Pc → List Access → Next → Prop
  | out {pc : Pc} (h : inside pc = false) : Walks t M userId n inside pc [] (.goto pc)
  | finish {pc : Pc} {a : Access} {result : Bool} (h : inside pc = true)
      (hexec : ∀ m spurious, M m → pc.exec t m userId n spurious = (a, .finish result)) :
      Walks t M userId n inside pc [a] (.finish result)
  | goto {pc pc' : Pc} {a : Access} {as : List Access} {next : Next} (h : inside pc = true)
      (hexec : ∀ m spurious, M m → pc.exec t m userId n spurious = (a, .goto pc'))
      (rest : Walks t M userId n inside pc' as next) :
      Walks t M userId n inside pc (a :: as) next

section Propagations

variable {t : TreeShape} {M : Memory → Prop} {userId : ℤ} {n y : ℕ} {δ : ℤ} {after : After}

/-- **The upward walk** adds `delta` at every node of the parent chain, in order. -/
theorem walks_up (current : Option ℕ) :
    Walks t M userId n Pc.climbing (.informUp y δ current after)
      ((t.chain current).map (.addDescendantLocked · δ)) (.goto (.informUp y δ none after)) := by
  induction hk : (t.chain current).length generalizing current with
  | zero =>
      cases current with
      | none => exact .out rfl
      | some c => simp at hk
  | succ k ih =>
      cases current with
      | none => simp at hk
      | some c =>
          rw [Forest.chain_some, List.length_cons] at hk
          rw [Forest.chain_some, List.map_cons]
          exact .goto rfl (fun _ _ _ => rfl) (ih (t.parent c) (by omega))

/-- **The downward walk** adds `delta` at every node of the subtrees still to visit, in
the order of the recursion. -/
theorem walks_down (children : List ℕ) :
    Walks t M userId n Pc.descending (.informDown y δ children after)
      ((t.below children).map (.addAncestorLocked · δ)) (.goto (.informDown y δ [] after)) := by
  induction hk : (t.below children).length generalizing children with
  | zero =>
      cases children with
      | nil => exact .out rfl
      | cons c rest => simp [Forest.below_cons] at hk
  | succ k ih =>
      cases children with
      | nil => simp at hk
      | cons c rest =>
          rw [Forest.below_cons, ← Forest.below_append, List.length_cons] at hk
          rw [Forest.below_cons, ← Forest.below_append, List.map_cons]
          exact .goto rfl (fun _ _ _ => rfl) (ih (t.children c ++ rest) (by omega))

end Propagations

section Scan

/-- The memory shows the flags and the owners of the nodes. -/
def Shows (node : ℕ → TreeNode) (m : Memory) : Prop :=
  ∀ d, ((m.node d).lockState = 1 ↔ (node d).isLocked = true) ∧
    (m.node d).lockedBy = (node d).lockedBy

theorem foldl_apply_read (m : Memory) (reads : ℕ) :
    (List.replicate reads Access.read).foldl Memory.apply m = m := by
  induction reads with
  | zero => rfl
  | succ reads ih => rwa [List.replicate_succ, List.foldl_cons, Memory.apply]

/-- **The scan** of the subtrees in the queue only reads.  It refuses when one of their
locked nodes belongs to somebody else, and otherwise ends with the locked nodes appended
in the order of the queue. -/
theorem walks_scan (T : PaymentTree) (userId : ℤ) (n : ℕ) (w ds : List ℕ) : ∃ reads next,
    Walks T.shape (Shows T.node) userId n Pc.scanning (.upgradeScan w ds)
      (List.replicate reads .read) next ∧
    ((∃ d ∈ T.shape.below w, T.flag d = true ∧ (T.node d).lockedBy ≠ userId) ∧
        next = .finish false ∨
      (∀ d ∈ T.shape.below w, T.flag d = true → (T.node d).lockedBy = userId) ∧
        next = .goto (.upgradeScan [] (ds ++ (T.shape.levels w).filter T.flag))) := by
  induction w using Forest.levels.induct T.shape.toForest generalizing ds with
  | case1 =>
      refine ⟨0, _, .out rfl, .inr ⟨by simp, ?_⟩⟩
      simp [Forest.levels]
  | case2 d w ih =>
      have hround {e : ℕ} : e ∈ T.shape.below (d :: w) ↔
          e = d ∨ e ∈ T.shape.below (w ++ T.shape.children d) := by
        rw [Forest.below_cons, Forest.below_append, List.mem_cons, List.mem_append,
          List.mem_append, or_comm (a := e ∈ T.shape.below w)]
      simp only [hround, exists_eq_or_imp, forall_eq_or_imp]
      rw [Forest.levels]
      by_cases hflag : T.flag d = true
      case neg =>
        obtain ⟨reads, next, hwalk, hnext⟩ := ih ds
        refine ⟨reads + 1, next, ?_, ?_⟩
        · rw [List.replicate_succ]
          exact .goto rfl (fun m _ hm => if_neg fun h => hflag ((hm d).1.1 h)) hwalk
        · rw [List.filter_cons_of_neg hflag]
          simpa [hflag] using hnext
      have hload : ∀ m spurious, Shows T.node m →
          (Pc.upgradeScan (d :: w) ds).exec T.shape m userId n spurious =
            (.read, .goto (.upgradeLoadOwner d w ds)) := fun m _ hm =>
        if_pos ((hm d).1.2 hflag)
      by_cases howner : (T.node d).lockedBy = userId
      case neg =>
        refine ⟨2, .finish false, .goto rfl hload (.finish rfl fun m _ hm => if_pos ?_), ?_⟩
        · rw [(hm d).2]
          exact howner
        · exact .inl ⟨.inl ⟨hflag, howner⟩, rfl⟩
      obtain ⟨reads, next, hwalk, hnext⟩ := ih (ds ++ [d])
      refine ⟨reads + 2, next, ?_, ?_⟩
      · rw [List.replicate_succ, List.replicate_succ]
        refine .goto rfl hload (.goto rfl (fun m _ hm => if_neg ?_) hwalk)
        rw [(hm d).2]
        exact not_not.2 howner
      · rw [List.filter_cons_of_pos hflag, List.append_cons]
        simpa [hflag, howner] using hnext

end Scan

/-! ### Both trees -/

/-- **The two propagations are dual.**  Whatever `addNode` calls built the structure and
whatever its nodes hold, both walks end, and `informAncestors` of `b` adds `delta` to the
counter of `a`, once, exactly when `informDescendants` of `a` adds `delta` to the counter
of `b`, once; neither touches the node it starts from or anything else.  The atomic walks
make one `fetch_add` at each of these nodes, whatever the other threads write in between. -/
theorem propagations_dual (adds : List NodeSpec) (node : ℕ → TreeNode) (a b : ℕ) (δ : ℤ) :
    let t := TreeShape.build adds
    let T : PaymentTree := ⟨t, node⟩
    let up := T.informAncestors b δ
    let down := T.informDescendants a δ
    (up.shape = t ∧ down.shape = t) ∧
    (t.IsAncestor a b ∧
        up.node a = { node a with
          descendantLockedCount := (node a).descendantLockedCount + δ } ∧
        down.node b = { node b with
          ancestorLockedCount := (node b).ancestorLockedCount + δ } ∨
      ¬t.IsAncestor a b ∧ up.node a = node a ∧ down.node b = node b) ∧
    ((up.node a).descendantLockedCount = (node a).descendantLockedCount + δ ↔
      (down.node b).ancestorLockedCount = (node b).ancestorLockedCount + δ) ∧
    (up.node b = node b ∧ down.node a = node a) ∧
    ∀ userId n after,
      Walks t (fun _ => True) userId n Pc.climbing (.informUp b δ (t.parent b) after)
        ((t.ancestors b).map (.addDescendantLocked · δ)) (.goto (.informUp b δ none after)) ∧
      Walks t (fun _ => True) userId n Pc.descending (.informDown a δ (t.children a) after)
        ((t.descendants a).map (.addAncestorLocked · δ)) (.goto (.informDown a δ [] after)) ∧
      (t.ancestors b).count a = (if t.IsAncestor a b then 1 else 0) ∧
      (t.descendants a).count b = (if t.IsAncestor a b then 1 else 0) ∧
      b ∉ t.ancestors b ∧ a ∉ t.descendants a := by
  intro t T up down
  have hup : ∀ x, up.node x = { node x with
      descendantLockedCount := (node x).descendantLockedCount +
        δ * if t.IsAncestor x b then 1 else 0 } := fun x => by
    rw [T.informAncestors_node b δ x, Forest.count_ancestors, Nat.cast_ite]
    rfl
  have hdown : ∀ x, down.node x = { node x with
      ancestorLockedCount := (node x).ancestorLockedCount +
        δ * if t.IsAncestor a x then 1 else 0 } := fun x => by
    rw [T.informDescendants_node a δ x, Forest.count_descendants, Nat.cast_ite]
    rfl
  have hself : ∀ x, ¬t.IsAncestor x x := fun x h => h.ne rfl
  refine ⟨⟨rfl, rfl⟩, ?_, ?_, ⟨?_, ?_⟩, fun userId n after => ⟨?_, ?_, ?_, ?_, ?_, ?_⟩⟩
  · rw [hup, hdown]
    by_cases h : t.IsAncestor a b
    · exact .inl ⟨h, by simp [h], by simp [h]⟩
    · exact .inr ⟨h, by simp [h], by simp [h]⟩
  · rw [hup, hdown]
    simp
  · rw [hup]
    simp [hself]
  · rw [hdown]
    simp [hself]
  · rw [← Forest.chain_parent]
    exact walks_up (t.parent b)
  · rw [Forest.descendants_eq]
    exact walks_down (t.children a)
  · exact Forest.count_ancestors a b
  · exact Forest.count_descendants b a
  · exact fun h => hself b (Forest.mem_ancestors.1 h)
  · exact fun h => hself a (Forest.mem_descendants.1 h)

/-- The locked proper descendants of a node, each once. -/
def Collects (T : PaymentTree) (n : ℕ) (ds : List ℕ) : Prop :=
  ds.Nodup ∧ ∀ d, d ∈ ds ↔ T.shape.IsAncestor n d ∧ T.flag d = true

/-- **The recursive scan and the scan with a queue agree.**  Whatever `addNode` calls
built the tree and whatever the flags and the owners are, `collectLockedDescendants` sets
`valid` to false exactly when a locked proper descendant belongs to somebody else; the
loop of `upgradeLock`, with no writer at work, ends, writes nothing, and returns false
from its middle in exactly the same cases.  Otherwise both have collected every locked
proper descendant once, each in its own order. -/
theorem scans_agree (adds : List NodeSpec) (node : ℕ → TreeNode) (n : ℕ) (userId : ℤ) :
    let T : PaymentTree := ⟨TreeShape.build adds, node⟩
    let dfs := T.collectLockedDescendants n userId [] true
    (dfs.2 = false ↔ ∃ d, T.shape.IsAncestor n d ∧ T.flag d = true ∧ (node d).lockedBy ≠ userId) ∧
    ∃ reads next,
      Walks T.shape (Shows node) userId n Pc.scanning (.upgradeScan (T.shape.children n) [])
        (List.replicate reads .read) next ∧
      (dfs.2 = false ∧ next = .finish false ∨
        dfs.2 = true ∧ ∃ bfs, next = .goto (.upgradeScan [] bfs) ∧
          Collects T n dfs.1 ∧ Collects T n bfs ∧ dfs.1.Perm bfs) := by
  intro T dfs
  obtain ⟨hown, hlist⟩ := T.collectLockedDescendants_spec n userId
  have hbelow : ∀ d, d ∈ T.shape.below (T.shape.children n) ↔ T.shape.IsAncestor n d := fun d => by
    rw [← Forest.descendants_eq, Forest.mem_descendants]
  have hcollects : Collects T n (T.lockedBelow n) :=
    ⟨T.nodup_lockedBelow n, fun d => PaymentTree.mem_lockedBelow⟩
  refine ⟨?_, ?_⟩
  · rw [← Bool.not_eq_true, hown]
    simp only [PaymentTree.mem_lockedBelow, and_imp]
    push Not
    rfl
  · obtain ⟨reads, next, hwalk, hnext⟩ := walks_scan T userId n (T.shape.children n) []
    refine ⟨reads, next, hwalk, ?_⟩
    rcases hnext with ⟨⟨d, hd, hflag, howner⟩, rfl⟩ | ⟨hall, rfl⟩
    · refine .inl ⟨?_, rfl⟩
      rw [← Bool.not_eq_true, hown]
      exact fun h => howner (h d (PaymentTree.mem_lockedBelow.2 ⟨(hbelow d).1 hd, hflag⟩))
    · have hvalid : dfs.2 = true := hown.2 fun d hd => by
        obtain ⟨hd, hflag⟩ := PaymentTree.mem_lockedBelow.1 hd
        exact hall d ((hbelow d).2 hd) hflag
      have hperm := T.perm_lockedBelow n
      rw [hlist hvalid, List.nil_append]
      refine .inr ⟨hvalid, _, rfl, hcollects, ⟨hperm.nodup_iff.2 hcollects.1, fun d => ?_⟩,
        hperm.symm⟩
      rw [hperm.mem_iff]
      exact hcollects.2 d

end Atomic
end PaymentGateway
