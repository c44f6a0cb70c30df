/-
# Whether the name index and the tree agree

Both trees keep their nodes twice: in `nodeMap`, which `lock`, `unlock`, `upgradeLock`
and the parent lookup of `addNode` read, and in the child vectors below `root`, which
the propagations, `toJson` and `deleteTree` walk.  `addNode` writes both and checks
neither (`src/tree.cpp`, lines 6-45, `src/atomic_tree.cpp`, lines 13-40).

A repeated name takes the map entry away from the older node, which stays in the tree
under a name that leads elsewhere; a second parentless call replaces `root`, and the
older tree is never freed.  Neither is ever put right again, so the index and the tree
agree exactly when no call on the way does either (`indexAgrees_build_iff`).
-/

import PaymentGateway.Tree.Shape

namespace PaymentGateway

open Lib

namespace TreeShape

variable (t : TreeShape)

/-! ### Freeing the tree -/

/-- `deleteTree` of a node: the nodes in the order in which they are freed. -/
def deleteTree (n : ℕ) : List ℕ :=
  ((t.children n).attach.flatMap fun c => deleteTree c.1) ++ [n]
termination_by t.size - n
decreasing_by
  have h₁ := t.lt_of_mem_children c.2
  have h₂ := t.children_lt_size c.2
  omega

/-- The destructor: `deleteTree(root)`, which does nothing for a null pointer. -/
def destructor : List ℕ :=
  match t.root with
  | none => []
  | some root => t.deleteTree root

/-- The node is `root`, or below it. -/
def Reached (n : ℕ) : Prop := ∃ root, t.root = some root ∧ (n = root ∨ t.IsAncestor root n)

/-- What is reached, in the order of a recursive visit. -/
def visited : List ℕ :=
  match t.root with
  | none => []
  | some root => root :: t.descendants root

theorem deleteTree_eq (n : ℕ) :
    t.deleteTree n = (t.children n).flatMap t.deleteTree ++ [n] := by
  rw [deleteTree]
  simp [List.flatMap_def]

/-- `deleteTree` frees a node and its proper descendants, each once. -/
theorem deleteTree_perm (n : ℕ) : (t.deleteTree n).Perm (n :: t.descendants n) := by
  induction n using deleteTree.induct t with
  | case1 n ih =>
      rw [deleteTree_eq, Forest.descendants_eq, Forest.below]
      refine (List.perm_append_singleton n _).trans (.cons n ?_)
      exact List.Perm.flatMap_left _ fun c hc => ih ⟨c, hc⟩

theorem destructor_perm : t.destructor.Perm t.visited := by
  unfold destructor visited
  cases t.root with
  | none => exact .nil
  | some root => exact t.deleteTree_perm root

theorem nodup_visited : t.visited.Nodup := by
  unfold visited
  cases t.root with
  | none => exact List.nodup_nil
  | some root =>
      refine List.nodup_cons.2 ⟨fun h => ?_, Forest.nodup_descendants root⟩
      exact (Forest.mem_descendants.1 h).ne rfl

variable {t} {n : ℕ}

theorem mem_visited : n ∈ t.visited ↔ t.Reached n := by
  unfold visited Reached
  cases t.root with
  | none => simp
  | some root => simp [Forest.mem_descendants]

theorem Reached.lt (h : t.Reached n) : n < t.size := by
  obtain ⟨root, hroot, rfl | h⟩ := h
  · exact t.root_lt hroot
  · exact h.lt_size

/-- **The destructor frees what is reached from `root`, once, and nothing else.** -/
theorem count_destructor : t.destructor.count n = 1 ↔ t.Reached n := by
  rw [← mem_visited, t.destructor_perm.count_eq]
  constructor
  · intro h
    exact List.count_pos_iff.1 (by omega)
  · exact List.count_eq_one_of_mem t.nodup_visited

/-! ### Agreement -/

/-- The name index and the tree agree. -/
structure IndexAgrees (t : TreeShape) : Prop where
  /-- a node reached from `root` is the one its name leads to -/
  reached : ∀ n, t.Reached n → t.getNode (t.name n) = some n
  /-- a node in `nodeMap` is reached from `root` -/
  stored : ∀ s n, t.getNode s = some n → t.Reached n
  /-- an allocated node is freed once -/
  freed : ∀ n < t.size, t.destructor.count n = 1

/-- What keeps the index and the tree in agreement: a parentless call finds the tree
empty, and a call under a known parent brings a name that is not in `nodeMap`; a call
under an unknown parent does nothing. -/
def AddsNew (t : TreeShape) (a : NodeSpec) : Prop :=
  if a.parentName.isEmpty = true then t.root = none
  else t.getNode a.parentName ≠ none → t.getNode a.nodeName = none

/-- The index and the tree agree when every node is reached and named. -/
theorem indexAgrees_iff :
    t.IndexAgrees ↔ ∀ n < t.size, t.Reached n ∧ t.getNode (t.name n) = some n := by
  constructor
  · intro h n hn
    have hreached := count_destructor.1 (h.freed n hn)
    exact ⟨hreached, h.reached n hreached⟩
  · intro h
    refine ⟨fun n hn => (h n hn.lt).2, fun s n hs => (h n (getNode_lt hs)).1, fun n hn => ?_⟩
    exact count_destructor.2 (h n hn).1

/-! ### One call -/

/-- A key of `nodeMap` is the name of its node. -/
def KeysMatch (t : TreeShape) : Prop := ∀ s n, t.getNode s = some n → t.name n = s

theorem KeysMatch.addNode (h : t.KeysMatch) (a : NodeSpec) :
    (t.addNode a.nodeName a.parentName).KeysMatch := by
  rcases t.addNode_spec a.nodeName a.parentName with ⟨-, -, heq⟩ | ⟨-, hname, hget, -⟩
  · rwa [heq]
  · intro s n hs
    rw [hget] at hs
    rw [hname]
    split at hs
    · rename_i hkey
      rw [← Option.some.inj hs, Function.update_self, hkey]
    · rw [Function.update_of_ne (getNode_lt hs).ne]
      exact h s n hs

section Added

variable {t' : TreeShape} {a : NodeSpec}

/-- A new root agrees with the index when it is the first: older nodes are not below it. -/
theorem indexAgrees_addRoot (hsize : t'.size = t.size + 1)
    (hname : t'.name = Function.update t.name t.size a.nodeName)
    (hget : ∀ s, t'.getNode s = if s = a.nodeName then some t.size else t.getNode s)
    (hroot : t'.root = some t.size) (hforest : t'.toForest = t.addRoot) :
    t'.IndexAgrees ↔ t.IndexAgrees ∧ t.root = none := by
  rw [indexAgrees_iff, indexAgrees_iff]
  constructor
  · intro h
    have hnew : t.size = 0 := by
      by_contra hne
      obtain ⟨⟨root, hroot', hreach⟩, -⟩ := h 0 (by omega)
      obtain rfl := Option.some.inj (hroot.symm.trans hroot')
      rw [hforest, Forest.isAncestor_addRoot] at hreach
      rcases hreach with hreach | hreach
      · exact hne hreach.symm
      · exact absurd hreach.lt (Nat.not_lt_zero _)
    refine ⟨fun n hn => absurd hn (by omega), ?_⟩
    cases hold : t.root with
    | none => rfl
    | some root => exact absurd (t.root_lt hold) (by omega)
  · rintro ⟨h, hnone⟩ n hn
    have hzero : ¬0 < t.size := fun hpos => by
      obtain ⟨⟨root, hroot', -⟩, -⟩ := h 0 hpos
      exact absurd (hnone.symm.trans hroot') nofun
    obtain rfl : n = t.size := by omega
    rw [hget, hname, Function.update_self, if_pos rfl]
    exact ⟨⟨_, hroot, .inl rfl⟩, rfl⟩

/-- A new leaf agrees with the index when its name was not taken: otherwise the older
node of that name loses it. -/
theorem indexAgrees_addLeaf (hkeys : t.KeysMatch) (hsize : t'.size = t.size + 1)
    (hname : t'.name = Function.update t.name t.size a.nodeName)
    (hget : ∀ s, t'.getNode s = if s = a.nodeName then some t.size else t.getNode s)
    {parent : ℕ} (hp : parent < t.size) (hroot : t'.root = t.root)
    (hforest : t'.toForest = t.addChild parent hp) :
    t'.IndexAgrees ↔ t.IndexAgrees ∧ t.getNode a.nodeName = none := by
  rw [indexAgrees_iff, indexAgrees_iff]
  have hreach {n : ℕ} (hn : n < t.size) : t'.Reached n ↔ t.Reached n := by
    unfold Reached
    rw [hroot, hforest]
    refine exists_congr fun root => and_congr_right fun _ => or_congr_right ?_
    simp [Forest.isAncestor_addChild, hn.ne]
  constructor
  · intro h
    have hold : ∀ n < t.size, t.name n ≠ a.nodeName ∧ t.Reached n ∧
        t.getNode (t.name n) = some n := by
      intro n hn
      obtain ⟨hr, hg⟩ := h n (by omega)
      rw [hname, Function.update_of_ne hn.ne, hget] at hg
      split at hg
      · exact absurd (Option.some.inj hg) hn.ne'
      · exact ⟨‹_›, (hreach hn).1 hr, hg⟩
    refine ⟨fun n hn => (hold n hn).2, ?_⟩
    cases hn : t.getNode a.nodeName with
    | none => rfl
    | some n => exact absurd (hkeys _ n hn) (hold n (getNode_lt hn)).1
  · rintro ⟨h, hfree⟩ n hn
    rw [hname, hget]
    by_cases hlast : n = t.size
    · subst hlast
      obtain ⟨root, hroot', hpath⟩ := (h parent hp).1
      rw [Function.update_self, if_pos rfl]
      refine ⟨⟨root, hroot.trans hroot', .inr ?_⟩, rfl⟩
      rw [hforest, Forest.isAncestor_addChild]
      exact .inr ⟨rfl, hpath.imp Eq.symm id⟩
    · have hn : n < t.size := by omega
      obtain ⟨hr, hg⟩ := h n hn
      have hne : t.name n ≠ a.nodeName := fun heq => by
        rw [heq, hfree] at hg
        cases hg
      rw [Function.update_of_ne hlast, if_neg hne]
      exact ⟨(hreach hn).2 hr, hg⟩

/-- **One call keeps the agreement exactly when it adds a new name in the right place**,
and no call restores it. -/
theorem indexAgrees_addNode (hkeys : t.KeysMatch) (a : NodeSpec) :
    (t.addNode a.nodeName a.parentName).IndexAgrees ↔ t.IndexAgrees ∧ t.AddsNew a := by
  rcases t.addNode_spec a.nodeName a.parentName with
    ⟨hempty, hnone, heq⟩ |
    ⟨hsize, hname, hget, ⟨hempty, hroot, hforest⟩ | ⟨parent, hp, hempty, hparent, hroot, hforest⟩⟩
  · rw [heq]
    simp [AddsNew, hempty, hnone]
  · rw [AddsNew, if_pos hempty]
    exact indexAgrees_addRoot hsize hname hget hroot hforest
  · rw [AddsNew, if_neg (by simp [hempty]), indexAgrees_addLeaf hkeys hsize hname hget hp hroot
      hforest]
    simp [hparent]

end Added

/-! ### Whole histories -/

theorem keysMatch_build (adds : List NodeSpec) : (build adds).KeysMatch := by
  induction adds using List.reverseRecOn with
  | nil => exact fun s n h => by cases h
  | append_singleton adds a ih =>
      rw [build_concat]
      exact ih.addNode a

/-- **When the index and the tree agree**: no `addNode` call has replaced a root or
repeated a name. -/
theorem indexAgrees_build_iff (adds : List NodeSpec) :
    (build adds).IndexAgrees ↔ ∀ bs a, bs ++ [a] <+: adds → (build bs).AddsNew a := by
  induction adds using List.reverseRecOn with
  | nil =>
      refine iff_of_true (indexAgrees_iff.2 fun n hn => absurd hn (Nat.not_lt_zero n)) ?_
      intro bs a h
      simpa using h.length_le
  | append_singleton adds a ih =>
      rw [build_concat, indexAgrees_addNode (keysMatch_build adds), ih]
      constructor
      · rintro ⟨h, ha⟩ bs b hbs
        rcases List.prefix_concat_iff.1 hbs with heq | hbs
        · obtain ⟨rfl, hb⟩ := List.append_inj' heq rfl
          obtain rfl := List.singleton_inj.1 hb
          exact ha
        · exact h bs b hbs
      · intro h
        refine ⟨fun bs b hbs => h bs b (hbs.trans (List.prefix_append adds [a])), ?_⟩
        exact h adds a List.prefix_rfl

end TreeShape
end PaymentGateway
