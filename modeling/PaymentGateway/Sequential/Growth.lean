/-
# Adding nodes under held locks

`addNode` is public and looks at no lock.  A new node starts with both counters at 0
(`TreeNode::TreeNode`), which is right only when none of its ancestors is locked: under
a locked chain its `ancestorLockedCount` misses every lock above it, and `lock`, which
promises that "no ancestor can be locked" but reads the counter, then grants a lock
below a held one (`growth_breaks_exclusion`).

This is all that goes wrong.  A sequence of `addNode` calls and operations keeps the
counters of ancestors exact and locked nodes unrelated, in every state on the way, if
and only if every node it adds is added under an unlocked chain (`growth_safe_iff`).
-/

import PaymentGateway.Sequential.Specification

namespace PaymentGateway

open Lib

namespace PaymentTree

/-- The tree after an action, and what the action returns; `addNode` returns nothing. -/
def act (t : PaymentTree) : Action → PaymentTree × Option Bool
  | .addNode nodeName parentName => (t.addNode nodeName parentName, none)
  | .call c => ((t.call c).1, some (t.call c).2)

/-- The tree after a sequence of actions. -/
def runActions (t : PaymentTree) (as : List Action) : PaymentTree :=
  as.foldl (fun t a => (t.act a).1) t

/-- Every `ancestorLockedCount` is exact, and no locked node has a locked proper
ancestor. -/
structure Safe (t : PaymentTree) : Prop where
  ancestors : ∀ n, (t.node n).ancestorLockedCount = t.shape.countAbove t.flag n
  exclusive : t.Exclusive

/-- An action adds a node only under a parent that is unlocked, as are all its proper
ancestors. -/
def AddsUnderFree (t : PaymentTree) : Action → Prop
  | .addNode _ parentName => parentName.isEmpty = false → ∀ parent,
      t.getNode parentName = some parent → t.flag parent = false ∧
        ∀ a, t.shape.IsAncestor a parent → t.flag a = false
  | .call _ => True

variable {t : PaymentTree} {nodeName parentName : String}

/-- **What `addNode` does**: nothing under an unknown parent, otherwise a fresh node
whose ancestors are its parent and the ancestors of its parent; the other nodes keep
their fields and their ancestors. -/
theorem addNode_cases (t : PaymentTree) (nodeName parentName : String) :
    (parentName.isEmpty = false ∧ t.getNode parentName = none ∧
      t.addNode nodeName parentName = t) ∨
      ((t.addNode nodeName parentName).node = Function.update t.node t.shape.size .fresh ∧
        (∀ a n, n ≠ t.shape.size →
          ((t.addNode nodeName parentName).shape.IsAncestor a n ↔ t.shape.IsAncestor a n)) ∧
        ∀ a, (t.addNode nodeName parentName).shape.IsAncestor a t.shape.size ↔
          ∃ parent, parentName.isEmpty = false ∧ t.getNode parentName = some parent ∧
            (a = parent ∨ t.shape.IsAncestor a parent)) := by
  have hnew (a : ℕ) : ¬t.shape.IsAncestor a t.shape.size := fun h =>
    absurd h.lt_size (lt_irrefl _)
  rcases t.shape.addNode_spec nodeName parentName with
    ⟨hempty, hnone, heq⟩ |
    ⟨-, -, -, ⟨hempty, -, hforest⟩ | ⟨parent, hp, hempty, hparent, -, hforest⟩⟩
  · refine .inl ⟨hempty, hnone, ?_⟩
    rw [addNode, heq, if_pos rfl]
  · refine .inr ⟨?_, fun a n _ => ?_, fun a => ?_⟩
    · rw [addNode, hforest]
      exact if_neg (Nat.succ_ne_self _)
    · rw [addNode, hforest, Forest.isAncestor_addRoot]
    · rw [addNode, hforest, Forest.isAncestor_addRoot]
      simp [hnew, hempty]
  · refine .inr ⟨?_, fun a n hn => ?_, fun a => ?_⟩
    · rw [addNode, hforest]
      exact if_neg (Nat.succ_ne_self _)
    · rw [addNode, hforest, Forest.isAncestor_addChild]
      simp [hn]
    · rw [addNode, hforest, Forest.isAncestor_addChild]
      simp [hnew, hempty, getNode, hparent]

/-- The flags after `addNode`: a new node is unlocked. -/
theorem flag_addNode (h : (t.addNode nodeName parentName).node =
    Function.update t.node t.shape.size .fresh) :
    (t.addNode nodeName parentName).flag = Function.update t.flag t.shape.size false := by
  funext x
  rw [flag, h]
  by_cases hx : x = t.shape.size
  · rw [hx, Function.update_self, Function.update_self]
    rfl
  · rw [Function.update_of_ne hx, Function.update_of_ne hx]
    rfl

/-- The `descendantLockedCount` of every node is exact. -/
def DescendantsExact (t : PaymentTree) : Prop :=
  ∀ n, (t.node n).descendantLockedCount = t.shape.countBelow t.flag n

/-- **A new node is right to start at 0 below itself**, whatever is locked above it. -/
theorem DescendantsExact.addNode (h : t.DescendantsExact) (nodeName parentName : String) :
    (t.addNode nodeName parentName).DescendantsExact := by
  rcases t.addNode_cases nodeName parentName with
    ⟨-, -, heq⟩ | ⟨hnode, hold, hnew⟩
  · rwa [heq]
  · intro x
    rw [hnode, flag_addNode hnode]
    by_cases hx : x = t.shape.size
    · subst hx
      have hzero : (t.addNode nodeName parentName).shape.countBelow
          (Function.update t.flag t.shape.size false) t.shape.size = 0 := by
        refine Forest.countBelow_eq_zero.2 fun d hd => ?_
        have hne : d ≠ t.shape.size := hd.ne.symm
        exact absurd (((hold _ d hne).1 hd).lt.trans ((hold _ d hne).1 hd).lt_size) (lt_irrefl _)
      rw [Function.update_self, hzero]
      rfl
    · rw [Function.update_of_ne hx, h x]
      refine congrArg Nat.cast (Forest.countBelow_congr fun d => ?_).symm
      by_cases hd : d = t.shape.size
      · subst hd
        simp only [Function.update_self, Bool.false_eq_true, and_false, false_iff, not_and]
        exact fun hxd => absurd hxd.lt_size (lt_irrefl _)
      · rw [Function.update_of_ne hd, hold x d hd]

/-- **Adding a node under an unlocked chain keeps the counters exact.** -/
theorem Exact.addNode (h : t.Exact) (hfree : t.AddsUnderFree (.addNode nodeName parentName)) :
    (t.addNode nodeName parentName).Exact := by
  refine ⟨?_, DescendantsExact.addNode h.descendants nodeName parentName, ?_⟩
  all_goals rcases t.addNode_cases nodeName parentName with
    ⟨-, -, heq⟩ | ⟨hnode, hold, hnew⟩
  · rw [heq]
    exact h.ancestors
  · intro x
    rw [hnode, flag_addNode hnode]
    by_cases hx : x = t.shape.size
    · subst hx
      have hzero : (t.addNode nodeName parentName).shape.countAbove
          (Function.update t.flag t.shape.size false) t.shape.size = 0 := by
        refine Forest.countAbove_eq_zero.2 fun a ha => ?_
        rw [Function.update_of_ne ha.ne]
        obtain ⟨parent, hempty, hparent, ha⟩ := (hnew a).1 ha
        obtain ⟨hself, habove⟩ := hfree hempty parent hparent
        rcases ha with rfl | ha
        · exact hself
        · exact habove a ha
      rw [Function.update_self, hzero]
      rfl
    · rw [Function.update_of_ne hx, h.ancestors x]
      refine congrArg Nat.cast (Forest.countAbove_congr fun a => ?_).symm
      rw [hold a x hx]
      refine and_congr_right fun ha => ?_
      rw [Function.update_of_ne (ha.lt.trans ha.lt_size).ne]
  · rw [heq]
    exact h.owner
  · intro x hx
    rw [hnode] at hx ⊢
    by_cases hxn : x = t.shape.size
    · rw [hxn, Function.update_self]
      rfl
    · rw [Function.update_of_ne hxn] at hx ⊢
      exact h.owner x hx

/-- A new node is unlocked, so it breaks no exclusion. -/
theorem Exclusive.addNode (h : t.Exclusive) (nodeName parentName : String) :
    (t.addNode nodeName parentName).Exclusive := by
  rcases t.addNode_cases nodeName parentName with
    ⟨-, -, heq⟩ | ⟨hnode, hold, hnew⟩
  · rwa [heq]
  · intro a n han hn
    rw [hnode] at hn ⊢
    have hne : n ≠ t.shape.size := by
      rintro rfl
      rw [Function.update_self] at hn
      cases hn
    rw [Function.update_of_ne hne] at hn
    have han := (hold a n hne).1 han
    rw [Function.update_of_ne (han.lt.trans han.lt_size).ne]
    exact h a n han hn

/-- **One action under the condition** keeps exact counters and exclusion. -/
theorem exact_exclusive_act (h : t.Exact ∧ t.Exclusive) {a : Action}
    (hfree : t.AddsUnderFree a) : (t.act a).1.Exact ∧ (t.act a).1.Exclusive := by
  cases a with
  | addNode nodeName parentName => exact ⟨h.1.addNode hfree, h.2.addNode nodeName parentName⟩
  | call c => exact ⟨h.1.call c, h.2.call h.1 c⟩

/-- **A node added under a locked chain is wrong at once.** -/
theorem Safe.addsUnderFree {a : Action} (h : (t.act a).1.Safe) : t.AddsUnderFree a := by
  cases a with
  | call c => trivial
  | addNode nodeName parentName =>
      intro hempty parent hparent
      have hlt : parent < t.shape.size := TreeShape.getNode_lt hparent
      have hcount := h.ancestors t.shape.size
      simp only [act] at hcount
      rcases t.addNode_cases nodeName parentName with ⟨-, hnone, -⟩ | ⟨hnode, -, hnew⟩
      · exact absurd (hnone.symm.trans hparent) nofun
      · rw [hnode, Function.update_self, flag_addNode hnode] at hcount
        have hzero := Forest.countAbove_eq_zero.1 (Nat.cast_eq_zero.1 hcount.symm)
        have hchain {x : ℕ} (hx : x = parent ∨ t.shape.IsAncestor x parent) : t.flag x = false := by
          have hsize : x < t.shape.size := by
            rcases hx with rfl | hx
            · exact hlt
            · exact hx.lt.trans hlt
          have := hzero x ((hnew x).2 ⟨parent, hempty, hparent, hx⟩)
          rwa [Function.update_of_ne hsize.ne] at this
        exact ⟨hchain (.inl rfl), fun x hx => hchain (.inr hx)⟩

theorem runActions_concat (t : PaymentTree) (as : List Action) (a : Action) :
    t.runActions (as ++ [a]) = ((t.runActions as).act a).1 := by
  rw [runActions, List.foldl_append]
  rfl

/-- **When exclusion survives the growth of the tree.**  Along a sequence of `addNode`
calls and operations, from the empty tree on, every state has exact counters of locked
ancestors and no locked node below a locked one, if and only if every node is added
under an unlocked chain. -/
theorem growth_safe_iff (as : List Action) :
    (∀ bs, bs <+: as → (empty.runActions bs).Safe) ↔
      ∀ bs a, bs ++ [a] <+: as → (empty.runActions bs).AddsUnderFree a := by
  constructor
  · intro h bs a hbs
    have hsafe := h _ hbs
    rw [runActions_concat] at hsafe
    exact hsafe.addsUnderFree
  · intro h bs hbs
    suffices hrun : (empty.runActions bs).Exact ∧ (empty.runActions bs).Exclusive from
      ⟨hrun.1.ancestors, hrun.2⟩
    induction bs using List.reverseRecOn with
    | nil => exact ⟨exact_build [], fun a n _ hn => by cases hn⟩
    | append_singleton bs a ih =>
        rw [runActions_concat]
        exact exact_exclusive_act (ih ((List.prefix_append bs [a]).trans hbs)) (h bs a hbs)

/-- **A lock below a held lock.**  `Child` is added while its parent is locked; its
counter misses that lock, and `lock` of `Child` by another user returns true. -/
theorem growth_breaks_exclusion :
    let t := empty.runActions [.addNode "Root", .call ⟨.lock, "Root", 1⟩, .addNode "Child" "Root"]
    (t.node 1).ancestorLockedCount ≠ t.shape.countAbove t.flag 1 ∧
      (t.act (.call ⟨.lock, "Child", 2⟩)).2 = some true ∧
      ¬(t.act (.call ⟨.lock, "Child", 2⟩)).1.Exclusive := by
  refine ⟨by decide +kernel, by decide +kernel, fun h => ?_⟩
  have h10 := h 0 1 (by decide +kernel) (by decide +kernel)
  revert h10
  decide +kernel

end PaymentTree
end PaymentGateway
