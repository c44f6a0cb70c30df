/-
# The part of both trees that locking never changes

`TreeNode` (`include/tree_node.h`) and `AtomicTreeNode`
(`include/atomic_tree_node.h`) share their names, parent pointers and child
vectors, and both trees keep a `root` pointer and a `nodeMap` from names to
nodes.  `TreeShape` is that common part.  A node pointer is the number of nodes
allocated before it, so `new` returns `size`; nothing is ever freed while a tree
is in use.

`addNode` is the setup function of both classes (`src/tree.cpp`, lines 21-36,
`src/atomic_tree.cpp`, lines 22-34), which differ in nothing: a parentless node
becomes `root`, a node under a known parent is appended to its children, and the
map entry of the name is overwritten.  Names are not checked, so a name may be
added twice and a second root leaves the first tree allocated but unreachable;
the two directions of every edge agree all the same, which is what `Forest`
carries.
-/

import PaymentGateway.Lib.Forest

namespace PaymentGateway

open Lib

/-- The arguments of a call of `addNode`; the default parent name is `""`. -/
structure NodeSpec where
  nodeName : String
  parentName : String := ""
  deriving DecidableEq, Repr

/-- Names, parent pointers, children, `root` and `nodeMap`. -/
structure TreeShape extends Forest where
  name : ℕ → String
  root : Option ℕ
  nodeMap : String → Option ℕ
  root_lt : ∀ {n : ℕ}, root = some n → n < size
  nodeMap_lt : ∀ {s : String} {n : ℕ}, nodeMap s = some n → n < size

namespace TreeShape

/-- The tree of the constructors: no node, `root == nullptr`. -/
def empty : TreeShape where
  toForest := .empty
  name _ := ""
  root := none
  nodeMap _ := none
  root_lt h := by cases h
  nodeMap_lt h := by cases h

/-- `getNode`: the node of a name, `nullptr` for an unknown one. -/
def getNode (t : TreeShape) (nodeName : String) : Option ℕ := t.nodeMap nodeName

theorem getNode_lt {t : TreeShape} {s : String} {n : ℕ} (h : t.getNode s = some n) : n < t.size :=
  t.nodeMap_lt h

/-- `addNode`: allocate a node, link it, and enter it in `nodeMap`; with an
unknown parent nothing happens. -/
def addNode (t : TreeShape) (nodeName parentName : String) : TreeShape :=
  if parentName.isEmpty then
    { toForest := t.addRoot
      name := Function.update t.name t.size nodeName
      root := some t.size
      nodeMap := fun s => if s = nodeName then some t.size else t.nodeMap s
      root_lt := fun h => by cases h; exact Nat.lt_succ_self _
      nodeMap_lt := fun {s n} h => by
        split at h
        · cases h
          exact Nat.lt_succ_self _
        · exact Nat.lt_succ_of_lt (t.nodeMap_lt h) }
  else
    match h : t.getNode parentName with
    | none => t
    | some parent =>
        { toForest := t.addChild parent (getNode_lt h)
          name := Function.update t.name t.size nodeName
          root := t.root
          nodeMap := fun s => if s = nodeName then some t.size else t.nodeMap s
          root_lt := fun h => Nat.lt_succ_of_lt (t.root_lt h)
          nodeMap_lt := fun {s n} h => by
            split at h
            · cases h
              exact Nat.lt_succ_self _
            · exact Nat.lt_succ_of_lt (t.nodeMap_lt h) }

/-- **What `addNode` does**, to the edges and to the names: nothing under an unknown
parent, and otherwise a new node under its name, as `root` or as a leaf. -/
theorem addNode_spec (t : TreeShape) (nodeName parentName : String) :
    (parentName.isEmpty = false ∧ t.getNode parentName = none ∧
      t.addNode nodeName parentName = t) ∨
    ((t.addNode nodeName parentName).size = t.size + 1 ∧
      (t.addNode nodeName parentName).name = Function.update t.name t.size nodeName ∧
      (∀ s, (t.addNode nodeName parentName).getNode s =
        if s = nodeName then some t.size else t.getNode s) ∧
      (parentName.isEmpty = true ∧
          (t.addNode nodeName parentName).root = some t.size ∧
          (t.addNode nodeName parentName).toForest = t.addRoot ∨
        ∃ parent, ∃ hp : parent < t.size, parentName.isEmpty = false ∧
          t.getNode parentName = some parent ∧
          (t.addNode nodeName parentName).root = t.root ∧
          (t.addNode nodeName parentName).toForest = t.addChild parent hp)) := by
  unfold addNode
  by_cases hempty : parentName.isEmpty = true
  · rw [if_pos hempty]
    exact .inr ⟨rfl, rfl, fun _ => rfl, .inl ⟨hempty, rfl, rfl⟩⟩
  · rw [if_neg hempty]
    have hempty : parentName.isEmpty = false := by simpa using hempty
    split
    · rename_i hnone
      exact .inl ⟨hempty, hnone, rfl⟩
    · rename_i parent hparent
      exact .inr ⟨rfl, rfl, fun _ => rfl,
        .inr ⟨parent, getNode_lt hparent, hempty, hparent, rfl, rfl⟩⟩

/-- Every node is the one its name leads to. -/
def Named (t : TreeShape) : Prop := ∀ n < t.size, t.getNode (t.name n) = some n

/-- A name that is not taken yet leads to its node, and takes none away from another. -/
theorem Named.addNode {t : TreeShape} (h : t.Named) {nodeName : String} (parentName : String)
    (hfresh : ∀ n < t.size, t.name n ≠ nodeName) : (t.addNode nodeName parentName).Named := by
  rcases t.addNode_spec nodeName parentName with ⟨-, -, heq⟩ | ⟨hsize, hname, hget, -⟩
  · rwa [heq]
  · intro n hn
    rw [hget, hname]
    by_cases hnew : n = t.size
    · simp [hnew]
    · have hn : n < t.size := by omega
      rw [Function.update_of_ne hnew, if_neg (hfresh n hn), h n hn]

/-- The shape after a sequence of `addNode` calls. -/
def build (adds : List NodeSpec) : TreeShape :=
  adds.foldl (fun t a => t.addNode a.nodeName a.parentName) empty

theorem build_concat (adds : List NodeSpec) (a : NodeSpec) :
    build (adds ++ [a]) = (build adds).addNode a.nodeName a.parentName := by
  rw [build, List.foldl_append]
  rfl

/-- Names added are the names of nodes. -/
theorem name_addNode {t : TreeShape} {nodeName parentName : String} {n : ℕ}
    (hn : n < (t.addNode nodeName parentName).size) :
    (t.addNode nodeName parentName).name n = nodeName ∨
      n < t.size ∧ (t.addNode nodeName parentName).name n = t.name n := by
  rcases t.addNode_spec nodeName parentName with ⟨-, -, heq⟩ | ⟨hsize, hname, -⟩
  · rw [heq] at hn ⊢
    exact .inr ⟨hn, rfl⟩
  · by_cases hnew : n = t.size
    · exact .inl (by rw [hname, hnew, Function.update_self])
    · exact .inr ⟨by omega, by rw [hname, Function.update_of_ne hnew]⟩

/-- Every node carries a name that was added. -/
theorem exists_spec_of_lt {adds : List NodeSpec} {n : ℕ} (hn : n < (build adds).size) :
    ∃ a ∈ adds, (build adds).name n = a.nodeName := by
  induction adds using List.reverseRecOn with
  | nil => exact absurd hn (Nat.not_lt_zero n)
  | append_singleton adds a ih =>
      rw [build_concat] at hn ⊢
      rcases name_addNode hn with hname | ⟨hn, hname⟩
      · exact ⟨a, by simp, hname⟩
      · obtain ⟨b, hb, hname'⟩ := ih hn
        exact ⟨b, List.mem_append_left _ hb, hname.trans hname'⟩

/-- **Distinct names lead to their nodes.** -/
theorem named_build {adds : List NodeSpec} (h : (adds.map NodeSpec.nodeName).Nodup) :
    (build adds).Named := by
  suffices hrun : ∀ (adds : List NodeSpec) (t : TreeShape), t.Named →
      (∀ n < t.size, t.name n ∉ adds.map NodeSpec.nodeName) →
      (adds.map NodeSpec.nodeName).Nodup →
      (adds.foldl (fun t a => t.addNode a.nodeName a.parentName) t).Named from
    hrun adds empty (fun n hn => absurd hn (Nat.not_lt_zero n))
      (fun n hn => absurd hn (Nat.not_lt_zero n)) h
  intro adds
  induction adds with
  | nil => exact fun t ht _ _ => ht
  | cons a adds ih =>
      intro t ht hfresh hnd
      rw [List.map_cons, List.nodup_cons] at hnd
      refine ih _ (ht.addNode _ fun n hn heq => hfresh n hn ?_) (fun n hn => ?_) hnd.2
      · rw [heq]
        exact List.mem_cons_self ..
      · rcases name_addNode hn with hname | ⟨hn, hname⟩
        · rw [hname]
          exact hnd.1
        · rw [hname]
          exact fun hmem => hfresh n hn (List.mem_cons_of_mem _ hmem)

/-- The nodes in ancestor relation with `n`. -/
def Related (t : TreeShape) (a n : ℕ) : Prop := t.IsAncestor a n ∨ t.IsAncestor n a

instance (t : TreeShape) : DecidableRel t.Related := fun a n =>
  inferInstanceAs (Decidable (t.IsAncestor a n ∨ t.IsAncestor n a))

end TreeShape

/-! ### Calls -/

/-- The operations both trees offer on nodes. -/
inductive Op
  | lock
  | unlock
  | upgradeLock
  deriving DecidableEq, Repr

/-- A call of an operation with its two arguments. -/
structure Call where
  op : Op
  nodeName : String
  userId : ℤ
  deriving DecidableEq, Repr

/-- What can be done with a tree: add a node, or call an operation. -/
inductive Action
  | addNode (nodeName : String) (parentName : String := "")
  | call (c : Call)
  deriving DecidableEq, Repr

/-- A root with two children, nodes 0, 1 and 2. -/
def smallTree : List NodeSpec := [⟨"Root", ""⟩, ⟨"Left", "Root"⟩, ⟨"Right", "Root"⟩]

end PaymentGateway
