/-
# The destructor and the heap

`deleteTree` (`src/tree.cpp`, lines 12-18, `src/atomic_tree.cpp`, lines 13-19) goes
through the child vector of a node, deletes every child, and then the node.  Its order is
all that keeps it from reading the vector of a node that is gone.

Here it runs on a heap that says which nodes are allocated, and fails when it touches one
that is not.  Since every node is allocated by `addNode` and freed by nobody else, the
destructor never fails: it reads no node it has freed and frees no node twice.  What it
leaves allocated are the nodes that cannot be reached from `root`; there are none exactly
when no parentless `addNode` call has replaced a root (`destructor_safe`).
-/

import PaymentGateway.Tree.Index

namespace PaymentGateway

open Lib

namespace TreeShape

/-- Which nodes are allocated. -/
abbrev Heap : Type := ℕ → Bool

/-- The heap once the nodes of a list have been freed. -/
def Heap.without (heap : Heap) (ns : List ℕ) : Heap := fun x => heap x && decide (x ∉ ns)

/-- `delete` of a node. -/
def Heap.delete (heap : Heap) (n : ℕ) : Option Heap :=
  if heap n then some (heap.without [n]) else none

variable (t : TreeShape)

/-- `deleteTree` of a node on the heap.  The loop reads the child vector of the node before
every round, so the node has to be allocated until it is deleted itself. -/
def deleteTreeOn (heap : Heap) (n : ℕ) : Option Heap :=
  ((t.children n).attach.foldlM
    (fun (heap : Heap) c => if heap n then deleteTreeOn heap c.1 else none) heap).bind
    (Heap.delete · n)
termination_by t.size - n
decreasing_by
  have h₁ := t.lt_of_mem_children c.2
  have h₂ := t.children_lt_size c.2
  omega

/-- The destructor on the heap. -/
def destructorOn (heap : Heap) : Option Heap :=
  match t.root with
  | none => some heap
  | some root => t.deleteTreeOn heap root

/-- Every node that `addNode` has allocated. -/
def allocated : Heap := fun n => decide (n < t.size)

variable {t} {heap : Heap} {n x : ℕ} {ns ms : List ℕ}

theorem Heap.without_eq_true : heap.without ns x = true ↔ heap x = true ∧ x ∉ ns := by
  simp [without]

theorem Heap.without_nil : heap.without [] = heap := by
  funext x
  simp [without]

theorem Heap.without_append :
    (heap.without ns).without ms = heap.without (ns ++ ms) := by
  funext x
  simp [without, Bool.and_assoc, not_or, Bool.decide_and]

theorem deleteTreeOn_eq (heap : Heap) (n : ℕ) : t.deleteTreeOn heap n =
    ((t.children n).foldlM
      (fun (heap : Heap) c => if heap n then t.deleteTreeOn heap c else none) heap).bind
      (Heap.delete · n) := by
  rw [deleteTreeOn]
  congr 1
  simp [List.foldlM_subtype (g := fun (heap : Heap) c =>
    if heap n then t.deleteTreeOn heap c else none)]

/-- The loop over the children: each finds what it is to free still allocated, since the
nodes below its siblings are others. -/
theorem deleteTreeOn_children {cs : List ℕ}
    (hfree : ∀ c ∈ cs, ∀ heap : Heap, (∀ x ∈ t.deleteTree c, heap x = true) →
      t.deleteTreeOn heap c = some (heap.without (t.deleteTree c)))
    (hnd : (cs.flatMap t.deleteTree).Nodup) (hn : n ∉ cs.flatMap t.deleteTree)
    (hself : heap n = true) (hall : ∀ x ∈ cs.flatMap t.deleteTree, heap x = true) :
    cs.foldlM (fun (heap : Heap) c => if heap n then t.deleteTreeOn heap c else none) heap =
      some (heap.without (cs.flatMap t.deleteTree)) := by
  induction cs generalizing heap with
  | nil => exact congrArg some Heap.without_nil.symm
  | cons c cs ih =>
      rw [List.flatMap_cons] at hnd hn hall ⊢
      obtain ⟨-, hrest, hdisjoint⟩ := List.nodup_append.1 hnd
      rw [List.mem_append, not_or] at hn
      have hc := hfree c (List.mem_cons_self ..) heap fun x hx =>
        hall x (List.mem_append_left _ hx)
      rw [List.foldlM_cons, if_pos hself, hc]
      refine (ih (fun d hd => hfree d (List.mem_cons_of_mem _ hd)) hrest hn.2 ?_ ?_).trans ?_
      · exact Heap.without_eq_true.2 ⟨hself, hn.1⟩
      · exact fun x hx => Heap.without_eq_true.2 ⟨hall x (List.mem_append_right _ hx),
          fun hx' => hdisjoint x hx' x hx rfl⟩
      · rw [Heap.without_append]

/-- **`deleteTree` touches no node that is gone**, when the node and all below it are
allocated, and frees exactly these. -/
theorem deleteTreeOn_eq_some (heap : Heap) (hall : ∀ x ∈ t.deleteTree n, heap x = true) :
    t.deleteTreeOn heap n = some (heap.without (t.deleteTree n)) := by
  induction n using deleteTree.induct t generalizing heap with
  | case1 n ih =>
      have hnd : (t.deleteTree n).Nodup := (t.deleteTree_perm n).nodup_iff.2
        (List.nodup_cons.2 ⟨fun h => (Forest.mem_descendants.1 h).ne rfl,
          Forest.nodup_descendants n⟩)
      rw [deleteTree_eq] at hall hnd ⊢
      obtain ⟨hbelow, -, hdisjoint⟩ := List.nodup_append.1 hnd
      have hn : n ∉ (t.children n).flatMap t.deleteTree := fun h =>
        hdisjoint n h n (List.mem_singleton.2 rfl) rfl
      have hself : heap n = true := hall n (List.mem_append_right _ (List.mem_singleton.2 rfl))
      rw [deleteTreeOn_eq, deleteTreeOn_children (fun c hc heap => ih ⟨c, hc⟩ heap) hbelow hn hself
        fun x hx => hall x (List.mem_append_left _ hx), Option.bind_some, Heap.delete,
        if_pos (Heap.without_eq_true.2 ⟨hself, hn⟩), Heap.without_append]

/-- The destructor frees what is reached from `root`. -/
theorem destructorOn_eq_some (heap : Heap) (hall : ∀ x, t.Reached x → heap x = true) :
    t.destructorOn heap = some (heap.without t.destructor) := by
  have hmem (x : ℕ) : x ∈ t.destructor ↔ t.Reached x := by
    rw [t.destructor_perm.mem_iff, mem_visited]
  unfold destructorOn destructor at *
  cases hroot : t.root with
  | none => exact congrArg some Heap.without_nil.symm
  | some root =>
      rw [hroot] at hmem
      exact deleteTreeOn_eq_some heap fun x hx => hall x ((hmem x).1 hx)

/-! ### What is left -/

/-- A call leaves a node out of reach exactly when it replaces a root. -/
theorem allReached_addNode (a : NodeSpec) :
    (∀ n < (t.addNode a.nodeName a.parentName).size,
        (t.addNode a.nodeName a.parentName).Reached n) ↔
      (∀ n < t.size, t.Reached n) ∧ (a.parentName.isEmpty = true → t.root = none) := by
  rcases t.addNode_spec a.nodeName a.parentName with
    ⟨hempty, -, heq⟩ |
    ⟨hsize, -, -, ⟨hempty, hroot, hforest⟩ | ⟨parent, hp, hempty, -, hroot, hforest⟩⟩
  · rw [heq]
    simp [hempty]
  · rw [hsize]
    constructor
    · intro h
      have hnew : t.size = 0 := by
        by_contra hne
        obtain ⟨root, hroot', hreach⟩ := h 0 (Nat.succ_pos _)
        obtain rfl := Option.some.inj (hroot.symm.trans hroot')
        rw [hforest, Forest.isAncestor_addRoot] at hreach
        rcases hreach with hreach | hreach
        · exact hne hreach.symm
        · exact absurd hreach.lt (Nat.not_lt_zero _)
      refine ⟨fun n hn => absurd hn (by omega), fun _ => ?_⟩
      cases hold : t.root with
      | none => rfl
      | some root => exact absurd (t.root_lt hold) (by omega)
    · rintro ⟨h, hnone⟩ n hn
      have hzero : ¬0 < t.size := fun hpos => by
        obtain ⟨root, hroot', -⟩ := h 0 hpos
        exact absurd ((hnone hempty).symm.trans hroot') (Option.some_ne_none root).symm
      exact ⟨t.size, hroot, .inl (by omega)⟩
  · have hold {n : ℕ} (hn : n < t.size) :
        (t.addNode a.nodeName a.parentName).Reached n ↔ t.Reached n := by
      unfold Reached
      rw [hroot, hforest]
      refine exists_congr fun root => and_congr_right fun _ => or_congr_right ?_
      simp [Forest.isAncestor_addChild, hn.ne]
    rw [hsize]
    constructor
    · intro h
      exact ⟨fun n hn => (hold hn).1 (h n (by omega)), fun hparent => by simp [hempty] at hparent⟩
    · rintro ⟨h, -⟩ n hn
      rcases Nat.lt_succ_iff_lt_or_eq.1 hn with hn | rfl
      · exact (hold hn).2 (h n hn)
      · obtain ⟨root, hroot', hpath⟩ := h parent hp
        refine ⟨root, hroot.trans hroot', .inr ?_⟩
        rw [hforest, Forest.isAncestor_addChild]
        exact .inr ⟨rfl, hpath.imp Eq.symm id⟩

/-- Every node is reached as long as no call replaces a root. -/
theorem allReached_build_iff (adds : List NodeSpec) :
    (∀ n < (build adds).size, (build adds).Reached n) ↔
      ∀ bs a, bs ++ [a] <+: adds → a.parentName.isEmpty = true → (build bs).root = none := by
  induction adds using List.reverseRecOn with
  | nil =>
      refine iff_of_true (fun n hn => absurd hn (Nat.not_lt_zero n)) fun bs a h => ?_
      simpa using h.length_le
  | append_singleton adds a ih =>
      rw [build_concat, allReached_addNode, ih]
      constructor
      · rintro ⟨h, ha⟩ bs b hbs
        rcases List.prefix_concat_iff.1 hbs with heq | hbs
        · obtain ⟨rfl, hb⟩ := List.append_inj' heq rfl
          obtain rfl := List.singleton_inj.1 hb
          exact ha
        · exact h bs b hbs
      · intro h
        exact ⟨fun bs b hbs => h bs b (hbs.trans (List.prefix_append adds [a])),
          h adds a List.prefix_rfl⟩

/-- **The destructor is safe**: on the tree that any `addNode` calls have built it touches
only nodes that are still allocated, so it reads no node it has freed and frees none twice.
Afterwards the nodes that are out of reach of `root` are allocated, and no others; and there
are none exactly when no parentless call found a root already there. -/
theorem destructor_safe (adds : List NodeSpec) :
    ∃ heap, (build adds).destructorOn (build adds).allocated = some heap ∧
      (∀ n, heap n = true ↔ n < (build adds).size ∧ ¬(build adds).Reached n) ∧
      ((∀ n, heap n = false) ↔ ∀ bs a, bs ++ [a] <+: adds → a.parentName.isEmpty = true →
        (build bs).root = none) := by
  have hleft (n : ℕ) : (build adds).allocated.without (build adds).destructor n = true ↔
      n < (build adds).size ∧ ¬(build adds).Reached n := by
    rw [Heap.without_eq_true, (build adds).destructor_perm.mem_iff, mem_visited]
    simp [allocated]
  refine ⟨_, destructorOn_eq_some _ fun x hx => decide_eq_true hx.lt, hleft, ?_⟩
  rw [← allReached_build_iff]
  refine forall_congr' fun n => ?_
  rw [← Bool.not_eq_true, hleft, not_and_not_right]

end TreeShape
end PaymentGateway
