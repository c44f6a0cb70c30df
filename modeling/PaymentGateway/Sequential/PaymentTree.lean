/-
# `PaymentTree`

The sequential tree of `src/tree.cpp` and `include/tree_node.h`.  A `TreeNode`
keeps its lock flag, its owner, and two counters: how many of its proper
ancestors and of its proper descendants are locked.  `lock` and `unlock` decide
by the counters alone and then bring the counters of all related nodes up to
date; `upgradeLock` moves the locks of one user below a node to that node.

The two propagation walks are written as in the source: `informAncestors` is a
loop over parent pointers, `informDescendants` a recursion over child vectors,
and `collectLockedDescendants` the same recursion with an early exit through the
out-parameter `valid`.  What a walk does to a node is in the lemmas after it:
`climb_apply` and `visit_apply` add the increment once for every visit, and
`collect_spec` is the filter the recursion computes when it is not cut short.

The counters are `int` in the source and `ℤ` here: they never exceed the number
of nodes of the tree.
-/

import PaymentGateway.Tree.Shape

namespace PaymentGateway

open Lib

/-- The fields of a `TreeNode` that locking changes. -/
structure TreeNode where
  isLocked : Bool
  lockedBy : ℤ
  ancestorLockedCount : ℤ
  descendantLockedCount : ℤ
  deriving DecidableEq, Repr

/-- The fields set by the constructor `TreeNode::TreeNode`. -/
def TreeNode.fresh : TreeNode := ⟨false, -1, 0, 0⟩

/-- A tree: its shape and the node each pointer points to. -/
structure PaymentTree where
  shape : TreeShape
  node : ℕ → TreeNode

namespace PaymentTree

/-- The constructor `PaymentTree::PaymentTree`. -/
def empty : PaymentTree := ⟨.empty, fun _ => .fresh⟩

/-- `addNode`; a newly allocated node gets the fields of the constructor. -/
def addNode (t : PaymentTree) (nodeName parentName : String) : PaymentTree where
  shape := t.shape.addNode nodeName parentName
  node := if (t.shape.addNode nodeName parentName).size = t.shape.size then t.node
    else Function.update t.node t.shape.size .fresh

/-- The tree after a sequence of `addNode` calls. -/
def build (adds : List NodeSpec) : PaymentTree :=
  adds.foldl (fun t a => t.addNode a.nodeName a.parentName) empty

/-- A tree is its shape and its nodes. -/
theorem ext_node {t t' : PaymentTree} (hshape : t.shape = t'.shape) (hnode : t.node = t'.node) :
    t = t' := by
  cases t
  cases t'
  exact congrArg₂ PaymentTree.mk hshape hnode

/-! ### The propagation walks -/

section Walks

variable (F : Forest)

/-- The loop of `informAncestors`, standing at `current`. -/
def climb (delta : ℤ) (current : Option ℕ) (node : ℕ → TreeNode) : ℕ → TreeNode :=
  match current with
  | none => node
  | some c =>
      climb delta (F.parent c) (Function.update node c
        { node c with descendantLockedCount := (node c).descendantLockedCount + delta })
termination_by (F.chain current).length
decreasing_by simp

/-- The recursion of `informDescendants` over a vector of children. -/
def visit (delta : ℤ) (children : List ℕ) (node : ℕ → TreeNode) : ℕ → TreeNode :=
  match children with
  | [] => node
  | child :: rest =>
      visit delta rest (visit delta (F.children child) (Function.update node child
        { node child with ancestorLockedCount := (node child).ancestorLockedCount + delta }))
termination_by (F.below children).length
decreasing_by all_goals simp [Forest.below_cons]; try omega

/-- The recursion of `collectLockedDescendants` over a vector of children: the
locked nodes found and the out-parameter `valid`. -/
def collect (node : ℕ → TreeNode) (userId : ℤ) (children : List ℕ) (result : List ℕ)
    (valid : Bool) : List ℕ × Bool :=
  match children with
  | [] => (result, valid)
  | child :: rest =>
      if (node child).isLocked = true ∧ (node child).lockedBy ≠ userId then (result, false)
      else
        let result := if (node child).isLocked then result ++ [child] else result
        let sub := collect node userId (F.children child) result valid
        if !sub.2 then sub else collect node userId rest sub.1 sub.2
termination_by (F.below children).length
decreasing_by all_goals simp [Forest.below_cons]; try omega

/-- The upward loop adds `delta` once for every node it meets. -/
theorem climb_apply (delta : ℤ) (current : Option ℕ) (node : ℕ → TreeNode) (x : ℕ) :
    climb F delta current node x =
      { node x with descendantLockedCount :=
          (node x).descendantLockedCount + delta * (F.chain current).count x } := by
  induction current, node using climb.induct F delta with
  | case1 node => simp [climb]
  | case2 node c ih =>
      rw [climb, ih, Forest.chain_some, List.count_cons]
      by_cases hx : x = c
      · subst hx
        simp
        ring
      · simp [hx, Ne.symm hx]

/-- The downward recursion adds `delta` once for every node it meets. -/
theorem visit_apply (delta : ℤ) (children : List ℕ) (node : ℕ → TreeNode) (x : ℕ) :
    visit F delta children node x =
      { node x with ancestorLockedCount :=
          (node x).ancestorLockedCount + delta * (F.below children).count x } := by
  induction children, node using visit.induct F delta generalizing x with
  | case1 node => simp [visit]
  | case2 node c rest ih₁ ih₂ =>
      rw [visit, ih₂, ih₁, Forest.below_cons, List.count_cons, List.count_append]
      by_cases hx : x = c
      · subst hx
        simp
        ring
      · simp [hx, Ne.symm hx]
        ring

/-- The scan of a child and its siblings goes on exactly when the child is free or
owned by the user and nothing below the child has cut the scan short. -/
theorem collect_cons (node : ℕ → TreeNode) (userId : ℤ) (c : ℕ) (rest result : List ℕ) :
    collect F node userId (c :: rest) result true =
      if (node c).isLocked = true ∧ (node c).lockedBy ≠ userId then (result, false)
      else
        let result := if (node c).isLocked then result ++ [c] else result
        let sub := collect F node userId (F.children c) result true
        if sub.2 = true then collect F node userId rest sub.1 true else (sub.1, false) := by
  rw [collect]
  refine if_congr Iff.rfl rfl ?_
  dsimp only
  generalize collect F node userId (F.children c) _ true = sub
  obtain ⟨found, valid⟩ := sub
  cases valid <;> simp

/-- **What the scan computes.**  `valid` stays true exactly when every locked node
met belongs to the user, and then the locked nodes are appended in the order met. -/
theorem collect_spec (node : ℕ → TreeNode) (userId : ℤ) (children result : List ℕ) :
    ((collect F node userId children result true).2 = true ↔
      ∀ d ∈ F.below children, (node d).isLocked = true → (node d).lockedBy = userId) ∧
    ((collect F node userId children result true).2 = true →
      (collect F node userId children result true).1 =
        result ++ (F.below children).filter fun d => (node d).isLocked) := by
  induction hk : (F.below children).length using Nat.strongRecOn generalizing children result with
  | _ k ih =>
      cases children with
      | nil => simp [collect]
      | cons c rest =>
          simp only [Forest.below_cons, List.length_cons, List.length_append] at hk
          rw [collect_cons]
          by_cases hc : (node c).isLocked = true ∧ (node c).lockedBy ≠ userId
          · rw [if_pos hc]
            simp only [Forest.below_cons, List.mem_cons, Bool.false_eq_true, false_iff, not_forall,
              false_implies, and_true]
            exact ⟨c, .inl rfl, hc.1, hc.2⟩
          · rw [if_neg hc]
            dsimp only
            have hown : (node c).isLocked = true → (node c).lockedBy = userId := fun h =>
              not_not.1 fun h' => hc ⟨h, h'⟩
            set found := if (node c).isLocked = true then result ++ [c] else result with hfound
            obtain ⟨hsub, hsubEq⟩ := ih _ (by omega) (F.children c) found rfl
            set sub := collect F node userId (F.children c) found true
            by_cases hs : sub.2 = true
            · rw [if_pos hs]
              obtain ⟨hrest, hrestEq⟩ := ih _ (by omega) rest sub.1 rfl
              refine ⟨?_, fun h => ?_⟩
              · rw [hrest, Forest.below_cons]
                simp only [List.mem_cons, List.mem_append]
                constructor
                · rintro h d (rfl | hd | hd)
                  · exact hown
                  · exact hsub.1 hs d hd
                  · exact h d hd
                · exact fun h d hd => h d (.inr (.inr hd))
              · rw [hrestEq h, hsubEq hs, Forest.below_cons, List.filter_cons, List.filter_append,
                  hfound]
                split <;> simp
            · rw [if_neg hs]
              refine ⟨?_, fun h => absurd h Bool.false_ne_true⟩
              simp only [Bool.false_eq_true, false_iff]
              intro h
              refine hs (hsub.2 fun d hd => h d ?_)
              rw [Forest.below_cons]
              exact List.mem_cons_of_mem _ (List.mem_append_left _ hd)

end Walks

/-! ### The operations -/

section Operations

variable (t : PaymentTree)

def getNode (nodeName : String) : Option ℕ := t.shape.getNode nodeName

def informAncestors (n : ℕ) (delta : ℤ) : PaymentTree :=
  { t with node := climb t.shape.toForest delta (t.shape.parent n) t.node }

def informDescendants (n : ℕ) (delta : ℤ) : PaymentTree :=
  { t with node := visit t.shape.toForest delta (t.shape.children n) t.node }

def collectLockedDescendants (n : ℕ) (userId : ℤ) (result : List ℕ) (valid : Bool) :
    List ℕ × Bool :=
  collect t.shape.toForest t.node userId (t.shape.children n) result valid

/-- The assignments to `isLocked` and `lockedBy`, followed by the two propagation
calls: the block that ends `lock` and `unlock`, and that `upgradeLock` runs once
for every collected descendant and once for its target. -/
def settle (n : ℕ) (isLocked : Bool) (lockedBy : ℤ) (delta : ℤ) : PaymentTree :=
  let node := { t.node n with isLocked := isLocked, lockedBy := lockedBy }
  let t' := { t with node := Function.update t.node n node }
  (t'.informAncestors n delta).informDescendants n delta

/-- `PaymentTree::lock`: the new tree and the returned value. -/
def lock (nodeName : String) (userId : ℤ) : PaymentTree × Bool :=
  match t.getNode nodeName with
  | none => (t, false)
  | some n =>
      if (t.node n).isLocked then (t, false)
      else if (t.node n).ancestorLockedCount > 0 then (t, false)
      else if (t.node n).descendantLockedCount > 0 then (t, false)
      else (t.settle n true userId 1, true)

/-- `PaymentTree::unlock`. -/
def unlock (nodeName : String) (userId : ℤ) : PaymentTree × Bool :=
  match t.getNode nodeName with
  | none => (t, false)
  | some n =>
      if !(t.node n).isLocked then (t, false)
      else if (t.node n).lockedBy ≠ userId then (t, false)
      else (t.settle n false (-1) (-1), true)

/-- `PaymentTree::upgradeLock`: after the checks and the scan, release what the
scan collected, then lock the target. -/
def upgradeLock (nodeName : String) (userId : ℤ) : PaymentTree × Bool :=
  match t.getNode nodeName with
  | none => (t, false)
  | some n =>
      if (t.node n).isLocked then (t, false)
      else if (t.node n).ancestorLockedCount > 0 then (t, false)
      else if (t.node n).descendantLockedCount = 0 then (t, false)
      else
        let (lockedDescendants, valid) := t.collectLockedDescendants n userId [] true
        if !valid then (t, false)
        else
          let released := lockedDescendants.foldl (fun t desc => t.settle desc false (-1) (-1)) t
          (released.settle n true userId 1, true)

/-- Run one call. -/
def call (c : Call) : PaymentTree × Bool :=
  match c.op with
  | .lock => t.lock c.nodeName c.userId
  | .unlock => t.unlock c.nodeName c.userId
  | .upgradeLock => t.upgradeLock c.nodeName c.userId

/-- The tree after a sequence of calls. -/
def run (calls : List Call) : PaymentTree := calls.foldl (fun t c => (t.call c).1) t

/-- The lock flags of all nodes. -/
def flag (n : ℕ) : Bool := (t.node n).isLocked

/-- `informAncestors` adds `delta` at every proper ancestor. -/
theorem informAncestors_node (n : ℕ) (delta : ℤ) (x : ℕ) :
    (t.informAncestors n delta).node x =
      { t.node x with descendantLockedCount :=
          (t.node x).descendantLockedCount + delta * (t.shape.ancestors n).count x } := by
  simp only [informAncestors, climb_apply, Forest.chain_parent]

/-- `informDescendants` adds `delta` at every proper descendant. -/
theorem informDescendants_node (n : ℕ) (delta : ℤ) (x : ℕ) :
    (t.informDescendants n delta).node x =
      { t.node x with ancestorLockedCount :=
          (t.node x).ancestorLockedCount + delta * (t.shape.descendants n).count x } := by
  simp only [informDescendants, visit_apply, ← Forest.descendants_eq]

@[simp] theorem settle_shape (n : ℕ) (b : Bool) (u δ : ℤ) : (t.settle n b u δ).shape = t.shape :=
  rfl

/-- **What a settled node leaves behind**: its own flag and owner, `delta` on the
counters of every proper descendant and every proper ancestor, nothing else. -/
theorem settle_node (n : ℕ) (b : Bool) (u δ : ℤ) (x : ℕ) :
    (t.settle n b u δ).node x =
      { isLocked := Function.update t.flag n b x
        lockedBy := if x = n then u else (t.node x).lockedBy
        ancestorLockedCount :=
          (t.node x).ancestorLockedCount + δ * (t.shape.descendants n).count x
        descendantLockedCount :=
          (t.node x).descendantLockedCount + δ * (t.shape.ancestors n).count x } := by
  rw [settle, informDescendants_node, informAncestors_node]
  dsimp only [informAncestors]
  by_cases hx : x = n
  · subst hx
    simp
  · simp [hx, flag]

theorem settle_flag (n : ℕ) (b : Bool) (u δ : ℤ) :
    (t.settle n b u δ).flag = Function.update t.flag n b :=
  funext fun x => by rw [flag, settle_node]

/-- Settling two nodes the same way does not depend on the order. -/
theorem settle_comm (x y : ℕ) (b : Bool) (u δ : ℤ) :
    (t.settle x b u δ).settle y b u δ = (t.settle y b u δ).settle x b u δ := by
  refine ext_node rfl (funext fun z => ?_)
  simp only [settle_node, settle_flag, settle_shape, TreeNode.mk.injEq]
  refine ⟨?_, ?_, ?_, ?_⟩
  · by_cases hx : z = x <;> by_cases hy : z = y <;> simp [hx, hy, Function.update_apply]
  · by_cases hx : z = x <;> by_cases hy : z = y <;> simp [hx, hy]
  · ring
  · ring

/-- The release loop of `upgradeLock`. -/
def release (ds : List ℕ) : PaymentTree :=
  ds.foldl (fun t desc => t.settle desc false (-1) (-1)) t

/-- The locked proper descendants of `n`, in the order of the scan. -/
def lockedBelow (n : ℕ) : List ℕ := (t.shape.descendants n).filter t.flag

end Operations

/-! ### What the operations come to -/

section Outcomes

variable {t : PaymentTree} {nodeName : String} {n : ℕ}

/-- The order of the releases does not matter. -/
theorem release_perm {ds ds' : List ℕ} (h : ds.Perm ds') : t.release ds = t.release ds' :=
  h.foldl_eq' (fun x _ y _ t => settle_comm t x y false (-1) (-1)) t

theorem mem_lockedBelow {d : ℕ} :
    d ∈ t.lockedBelow n ↔ t.shape.IsAncestor n d ∧ t.flag d = true := by
  rw [lockedBelow, List.mem_filter, Forest.mem_descendants]

theorem nodup_lockedBelow (t : PaymentTree) (n : ℕ) : (t.lockedBelow n).Nodup :=
  (Forest.nodup_descendants n).filter _

/-- The locked proper descendants in the order of a queue. -/
theorem perm_lockedBelow (t : PaymentTree) (n : ℕ) :
    ((t.shape.levels (t.shape.children n)).filter t.flag).Perm (t.lockedBelow n) := by
  rw [lockedBelow, Forest.descendants_eq]
  exact (t.shape.levels_perm _).filter _

/-- **What `collectLockedDescendants` computes**: `valid` stays true exactly when the
user owns every locked proper descendant, and then these are the result. -/
theorem collectLockedDescendants_spec (t : PaymentTree) (n : ℕ) (userId : ℤ) :
    ((t.collectLockedDescendants n userId [] true).2 = true ↔
      ∀ d ∈ t.lockedBelow n, (t.node d).lockedBy = userId) ∧
    ((t.collectLockedDescendants n userId [] true).2 = true →
      (t.collectLockedDescendants n userId [] true).1 = t.lockedBelow n) := by
  obtain ⟨hvalid, hfound⟩ := collect_spec t.shape.toForest t.node userId (t.shape.children n) []
  rw [← Forest.descendants_eq] at hvalid hfound
  refine ⟨hvalid.trans ?_, hfound⟩
  simp only [lockedBelow, List.mem_filter, and_imp, flag]

/-- An unknown name is refused. -/
theorem call_eq_of_unknown {c : Call} (hn : t.getNode c.nodeName = none) :
    t.call c = (t, false) := by
  unfold call lock unlock upgradeLock
  rw [hn]
  cases c.op <;> rfl

/-- `lock` settles its node, or does nothing. -/
theorem lock_eq (userId : ℤ) (hn : t.getNode nodeName = some n) : t.lock nodeName userId =
    if t.flag n = false ∧ (t.node n).ancestorLockedCount ≤ 0 ∧
        (t.node n).descendantLockedCount ≤ 0 then (t.settle n true userId 1, true)
    else (t, false) := by
  rw [lock, hn, flag]
  dsimp only
  cases (t.node n).isLocked <;>
    by_cases hanc : (t.node n).ancestorLockedCount ≤ 0 <;>
    by_cases hdesc : (t.node n).descendantLockedCount ≤ 0 <;>
    simp [hanc, hdesc, Int.not_lt.2, Int.not_le.1]

/-- `unlock` succeeds for the owner of a locked node. -/
theorem unlock_eq (userId : ℤ) (hn : t.getNode nodeName = some n) : t.unlock nodeName userId =
    if t.flag n = true ∧ (t.node n).lockedBy = userId then (t.settle n false (-1) (-1), true)
    else (t, false) := by
  rw [unlock, hn, flag]
  dsimp only
  cases (t.node n).isLocked <;> by_cases howner : (t.node n).lockedBy = userId <;> simp [howner]

/-- **`upgradeLock` releases what is locked below its node and settles the node**, or
does nothing: the scan has found every locked proper descendant, once each. -/
theorem upgradeLock_eq (userId : ℤ) (hn : t.getNode nodeName = some n) :
    t.upgradeLock nodeName userId =
      if t.flag n = false ∧ (t.node n).ancestorLockedCount ≤ 0 ∧
          (t.node n).descendantLockedCount ≠ 0 ∧
          ∀ d ∈ t.lockedBelow n, (t.node d).lockedBy = userId then
        ((t.release (t.lockedBelow n)).settle n true userId 1, true)
      else (t, false) := by
  obtain ⟨hown, hscan⟩ := t.collectLockedDescendants_spec n userId
  simp only [← hown]
  rw [upgradeLock, hn, flag]
  dsimp only
  cases hv : (t.collectLockedDescendants n userId [] true).2 with
  | false => simp
  | true =>
      rw [hscan hv]
      cases (t.node n).isLocked <;>
        by_cases hanc : (t.node n).ancestorLockedCount ≤ 0 <;>
        by_cases hdesc : (t.node n).descendantLockedCount = 0 <;>
        simp [hanc, hdesc, Int.not_lt.2, Int.not_le.1, release]

end Outcomes

/-! ### Settling by the difference of the flags -/

/-- The trees that settling nodes one after the other leads to, each by the difference
of its flags, and a released node without owner. -/
inductive Settles (t : PaymentTree) : PaymentTree → Prop
  | refl : Settles t t
  | settle {t' : PaymentTree} (h : Settles t t') (n : ℕ) (b : Bool) {u δ : ℤ}
      (hδ : δ = (b.toNat : ℤ) - (t'.flag n).toNat) (hu : b = false → u = -1) :
      Settles t (t'.settle n b u δ)

section Settles

variable {t t' : PaymentTree}

theorem Settles.shape_eq (h : Settles t t') : t'.shape = t.shape := by
  induction h with
  | refl => rfl
  | settle _ _ _ _ _ ih => exact ih

/-- Releasing locked nodes one after the other, none of them twice, settles each by the
difference of its flags. -/
theorem Settles.release (h : Settles t t') {ds : List ℕ} (hnd : ds.Nodup)
    (hlocked : ∀ d ∈ ds, t'.flag d = true) :
    Settles t (t'.release ds) ∧ ∀ x, (t'.release ds).flag x = (t'.flag x && decide (x ∉ ds)) := by
  induction ds generalizing t' with
  | nil => exact ⟨h, fun x => by simp [PaymentTree.release]⟩
  | cons d ds ih =>
      obtain ⟨hd, hnd⟩ := List.nodup_cons.1 hnd
      have hflag : t'.flag d = true := hlocked d (List.mem_cons_self ..)
      have hrest : ∀ e ∈ ds, (t'.settle d false (-1) (-1)).flag e = true := fun e he => by
        have hne : e ≠ d := fun hed => hd (hed ▸ he)
        rw [settle_flag, Function.update_of_ne hne]
        exact hlocked e (List.mem_cons_of_mem _ he)
      obtain ⟨hrun, hflags⟩ := ih (h.settle d false (by simp [hflag]) fun _ => rfl) hnd hrest
      refine ⟨hrun, fun x => (hflags x).trans ?_⟩
      rw [settle_flag]
      by_cases hx : x = d <;> simp [hx]

/-- **Every call settles nodes by the difference of their flags**, whatever the
counters say. -/
theorem settles_call (t : PaymentTree) (c : Call) : Settles t (t.call c).1 := by
  cases hn : t.getNode c.nodeName with
  | none =>
      rw [call_eq_of_unknown hn]
      exact .refl
  | some n =>
      unfold call
      cases c.op with
      | lock =>
          dsimp only
          rw [lock_eq _ hn]
          split
          · rename_i h
            exact .settle .refl n true (by simp [h.1]) nofun
          · exact .refl
      | unlock =>
          dsimp only
          rw [unlock_eq _ hn]
          split
          · rename_i h
            exact .settle .refl n false (by simp [h.1]) fun _ => rfl
          · exact .refl
      | upgradeLock =>
          dsimp only
          rw [upgradeLock_eq _ hn]
          split
          · rename_i h
            obtain ⟨hrun, hflags⟩ := Settles.refl.release (nodup_lockedBelow t n)
              fun d hd => (mem_lockedBelow.1 hd).2
            exact hrun.settle n true (by simp [hflags, h.1]) nofun
          · exact .refl

@[simp] theorem call_shape (t : PaymentTree) (c : Call) : (t.call c).1.shape = t.shape :=
  (settles_call t c).shape_eq

@[simp] theorem run_shape (t : PaymentTree) (calls : List Call) :
    (t.run calls).shape = t.shape := by
  induction calls generalizing t with
  | nil => rfl
  | cons c calls ih => exact (ih (t.call c).1).trans (call_shape t c)

end Settles

end PaymentTree
end PaymentGateway
