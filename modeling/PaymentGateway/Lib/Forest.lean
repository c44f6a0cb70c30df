/-
# Forests kept as parent pointers and child lists

A forest on the nodes `0, …, size - 1` that stores every edge twice: the parent
pointer of the child, and the child list of the parent.  The two agree, no child
is listed twice, and a parent is older (smaller) than its children; growing by
roots and by leaves keeps all of it, so the fields carry the proofs.

Two walks read such a forest.  The upward one follows parent pointers
(`ancestors`, `chain`), the downward one keeps a list of subtrees still to visit
(`below`).  Each meets every node of its range exactly once (`count_ancestors`,
`count_descendants`), and the two are dual: `x` is above `y` exactly when `y` is
below `x`.

A visit that keeps a queue instead meets the same nodes in another order (`levels`,
`levels_perm`).

`countAbove` and `countBelow` count the flagged proper ancestors and descendants
of a node; `countAbove_update` and `countBelow_update` say how they move when one
flag changes, `countAbove_congr` and `countBelow_congr` that they depend on the
flagged relatives alone.
-/

import Mathlib.Algebra.BigOperators.Group.Finset.Basic
import Mathlib.Algebra.BigOperators.Ring.Finset
import Mathlib.Data.List.Count
import Mathlib.Data.List.Nodup
import Mathlib.Logic.Function.Basic
import Mathlib.Logic.Relation
import Mathlib.Tactic.Ring
import PaymentGateway.Lib.Hierarchy

namespace PaymentGateway
namespace Lib

/-- A finite forest with parent pointers and child lists. -/
structure Forest where
  size : ℕ
  parent : ℕ → Option ℕ
  children : ℕ → List ℕ
  parent_lt : ∀ {c p : ℕ}, parent c = some p → p < c
  lt_size : ∀ {c p : ℕ}, parent c = some p → c < size
  mem_children : ∀ {p c : ℕ}, c ∈ children p ↔ parent c = some p
  nodup_children : ∀ p : ℕ, (children p).Nodup

namespace Forest

/-- The forest without nodes. -/
def empty : Forest where
  size := 0
  parent _ := none
  children _ := []
  parent_lt h := by cases h
  lt_size h := by cases h
  mem_children := by simp
  nodup_children _ := List.nodup_nil

variable (F : Forest)

theorem parent_eq_none_of_size_le {c : ℕ} (h : F.size ≤ c) : F.parent c = none := by
  cases hp : F.parent c with
  | none => rfl
  | some p => exact absurd (F.lt_size hp) (by omega)

theorem children_lt_size {p c : ℕ} (h : c ∈ F.children p) : c < F.size :=
  F.lt_size (F.mem_children.1 h)

theorem lt_of_mem_children {p c : ℕ} (h : c ∈ F.children p) : p < c :=
  F.parent_lt (F.mem_children.1 h)

/-- A new tree with the single node `size`. -/
def addRoot : Forest where
  size := F.size + 1
  parent := F.parent
  children := F.children
  parent_lt := F.parent_lt
  lt_size h := Nat.lt_succ_of_lt (F.lt_size h)
  mem_children := F.mem_children
  nodup_children := F.nodup_children

/-- A new last child `size` of the node `p`. -/
def addChild (p : ℕ) (hp : p < F.size) : Forest where
  size := F.size + 1
  parent c := if c = F.size then some p else F.parent c
  children q := if q = p then F.children q ++ [F.size] else F.children q
  parent_lt {c q} h := by
    split at h
    · simp only [Option.some.injEq] at h
      omega
    · exact F.parent_lt h
  lt_size {c q} h := by
    split at h
    · omega
    · exact Nat.lt_succ_of_lt (F.lt_size h)
  mem_children {q c} := by
    have hnone : F.parent F.size = none := F.parent_eq_none_of_size_le le_rfl
    by_cases hq : q = p <;> by_cases hc : c = F.size
    · simp [hq, hc]
    · simp [hq, hc, F.mem_children]
    · simp [hq, hc, F.mem_children, hnone, Ne.symm hq]
    · simp [hq, hc, F.mem_children]
  nodup_children q := by
    have hnew : F.size ∉ F.children q := fun h => absurd (F.children_lt_size h) (by omega)
    split
    · exact List.nodup_append.2 ⟨F.nodup_children q, List.nodup_singleton _, fun a ha b hb => by
        rintro rfl
        exact hnew (List.mem_singleton.1 hb ▸ ha)⟩
    · exact F.nodup_children q

/-! ### Ancestors -/

/-- `a` is a proper ancestor of `n`. -/
def IsAncestor (a n : ℕ) : Prop := Relation.TransGen (fun p c => F.parent c = some p) a n

variable {F} {a b c n p x y : ℕ}

theorem IsAncestor.single (h : F.parent n = some a) : F.IsAncestor a n := Relation.TransGen.single h

theorem IsAncestor.trans (h : F.IsAncestor a b) (h' : F.IsAncestor b c) : F.IsAncestor a c :=
  Relation.TransGen.trans h h'

theorem IsAncestor.lt (h : F.IsAncestor a n) : a < n := by
  induction h with
  | single h => exact F.parent_lt h
  | tail _ h ih => exact ih.trans (F.parent_lt h)

theorem IsAncestor.ne (h : F.IsAncestor a n) : a ≠ n := h.lt.ne

theorem IsAncestor.lt_size (h : F.IsAncestor a n) : n < F.size := by
  cases h with
  | single h => exact F.lt_size h
  | tail _ h => exact F.lt_size h

/-- The last edge of a path: the parent is the ancestor, or below it. -/
theorem isAncestor_iff_parent :
    F.IsAncestor a n ↔ ∃ p, F.parent n = some p ∧ (a = p ∨ F.IsAncestor a p) := by
  constructor
  · intro h
    cases h with
    | single h => exact ⟨a, h, .inl rfl⟩
    | tail h' h => exact ⟨_, h, .inr h'⟩
  · rintro ⟨p, hp, rfl | h⟩
    · exact .single hp
    · exact h.trans (.single hp)

/-- The first edge of a path: some child is the node, or above it. -/
theorem isAncestor_iff_child :
    F.IsAncestor a n ↔ ∃ c ∈ F.children a, n = c ∨ F.IsAncestor c n := by
  constructor
  · intro h
    rcases Relation.TransGen.head'_iff.1 h with ⟨c, hc, h⟩
    refine ⟨c, F.mem_children.2 hc, ?_⟩
    rcases Relation.reflTransGen_iff_eq_or_transGen.1 h with h | h
    · exact .inl h
    · exact .inr h
  · rintro ⟨c, hc, rfl | h⟩
    · exact .single (F.mem_children.1 hc)
    · exact IsAncestor.trans (.single (F.mem_children.1 hc)) h

/-- Two ancestors of one node are comparable. -/
theorem IsAncestor.comparable (ha : F.IsAncestor a n) (hb : F.IsAncestor b n) :
    a = b ∨ F.IsAncestor a b ∨ F.IsAncestor b a := by
  induction n using Nat.strongRecOn with
  | _ n ih =>
      obtain ⟨p, hp, ha⟩ := isAncestor_iff_parent.1 ha
      obtain ⟨q, hq, hb⟩ := isAncestor_iff_parent.1 hb
      obtain rfl : p = q := Option.some.inj (hp.symm.trans hq)
      rcases ha with rfl | ha <;> rcases hb with rfl | hb
      · exact .inl rfl
      · exact .inr (.inr hb)
      · exact .inr (.inl ha)
      · exact ih p (F.parent_lt hp) ha hb

/-- The nodes of a forest under its proper ancestors. -/
def hierarchy (F : Forest) : Hierarchy ℕ where
  above := F.IsAncestor
  irrefl _ h := h.ne rfl
  trans := IsAncestor.trans
  comparable := IsAncestor.comparable

/-- A new root is nobody's relative. -/
theorem isAncestor_addRoot : F.addRoot.IsAncestor a n ↔ F.IsAncestor a n := Iff.rfl

/-- A new leaf is below its parent and the ancestors of its parent, and nothing else
changes. -/
theorem isAncestor_addChild (hp : p < F.size) : (F.addChild p hp).IsAncestor a n ↔
    F.IsAncestor a n ∨ n = F.size ∧ (a = p ∨ F.IsAncestor a p) := by
  induction n using Nat.strongRecOn with
  | _ n ih =>
      have hnone : ¬F.IsAncestor a F.size := fun h => absurd h.lt_size (lt_irrefl _)
      rw [isAncestor_iff_parent]
      by_cases hn : n = F.size
      · subst hn
        have hlink : (F.addChild p hp).parent F.size = some p := if_pos rfl
        simp [hlink, hnone, ih p hp, hp.ne]
      · have hlink : (F.addChild p hp).parent n = F.parent n := if_neg hn
        rw [hlink, isAncestor_iff_parent]
        simp only [hn, false_and, or_false]
        refine exists_congr fun q => and_congr_right fun hq => or_congr_right ?_
        have hqs : q ≠ F.size := ((F.parent_lt hq).trans (F.lt_size hq)).ne
        rw [ih q (F.parent_lt hq)]
        simp [hqs]

variable (F)

/-- The nodes met on the way up from `n`, nearest first. -/
def ancestors (n : ℕ) : List ℕ :=
  match _h : F.parent n with
  | none => []
  | some p => p :: ancestors p
termination_by n
decreasing_by exact F.parent_lt _h

/-- The nodes met by a walk up that stands at `cur`. -/
def chain : Option ℕ → List ℕ
  | none => []
  | some c => c :: F.ancestors c

@[simp] theorem chain_none : F.chain none = [] := rfl

@[simp] theorem chain_some (c : ℕ) : F.chain (some c) = c :: F.chain (F.parent c) := by
  rw [chain, ancestors]
  split <;> rename_i h <;> rw [h] <;> rfl

theorem chain_parent (n : ℕ) : F.chain (F.parent n) = F.ancestors n := by
  have := F.chain_some n
  rw [chain, List.cons.injEq] at this
  exact this.2.symm

/-- The proper descendants of `n` in the order of a recursive visit. -/
def descendants (n : ℕ) : List ℕ :=
  (F.children n).attach.flatMap fun c => c.1 :: descendants c.1
termination_by F.size - n
decreasing_by
  have h₁ := F.lt_of_mem_children c.2
  have h₂ := F.children_lt_size c.2
  omega

/-- The nodes a recursive visit still meets when the subtrees of `work` are left. -/
def below (work : List ℕ) : List ℕ := work.flatMap fun c => c :: F.descendants c

theorem descendants_eq (n : ℕ) : F.descendants n = F.below (F.children n) := by
  rw [descendants, below]
  simp [List.flatMap_def]

@[simp] theorem below_nil : F.below [] = [] := rfl

theorem below_append (w w' : List ℕ) : F.below (w ++ w') = F.below w ++ F.below w' :=
  List.flatMap_append

theorem below_cons (c : ℕ) (w : List ℕ) :
    F.below (c :: w) = c :: (F.below (F.children c) ++ F.below w) := by
  rw [← descendants_eq]
  rfl

variable {F}

theorem mem_chain {cur : Option ℕ} :
    x ∈ F.chain cur ↔ ∃ c, cur = some c ∧ (x = c ∨ F.IsAncestor x c) := by
  cases cur with
  | none => simp
  | some c =>
      induction c using Nat.strongRecOn with
      | _ c ih =>
          have hstep : x ∈ F.chain (F.parent c) ↔ F.IsAncestor x c := by
            rw [isAncestor_iff_parent]
            cases hp : F.parent c with
            | none => simp
            | some p => exact ih p (F.parent_lt hp)
          simp [chain_some, hstep]

theorem mem_ancestors : a ∈ F.ancestors n ↔ F.IsAncestor a n := by
  rw [← chain_parent, mem_chain, isAncestor_iff_parent]

theorem mem_descendants : x ∈ F.descendants n ↔ F.IsAncestor n x := by
  induction n using descendants.induct F with
  | case1 n ih =>
      rw [descendants_eq, below, List.mem_flatMap, isAncestor_iff_child]
      refine exists_congr fun c => and_congr_right fun hc => ?_
      rw [List.mem_cons, ih ⟨c, hc⟩]

/-- One round of a breadth-first visit: the first node of the queue is met, its
children go to the end of the queue. -/
theorem mem_below_next {w : List ℕ} (h : x ∈ F.below (c :: w)) (hne : x ≠ c) :
    x ∈ F.below (w ++ F.children c) := by
  rw [below_append, List.mem_append]
  rw [below_cons, List.mem_cons, List.mem_append] at h
  exact (h.resolve_left hne).symm

theorem nodup_ancestors (n : ℕ) : (F.ancestors n).Nodup := by
  induction n using Nat.strongRecOn with
  | _ n ih =>
      rw [← chain_parent]
      cases hp : F.parent n with
      | none => simp
      | some p =>
          rw [chain_some, chain_parent]
          refine List.nodup_cons.2 ⟨fun h => (mem_ancestors.1 h).ne rfl, ih p (F.parent_lt hp)⟩

/-- Subtrees of different children of a node are disjoint. -/
theorem not_isAncestor_of_siblings (ha : F.parent a = some p) (hb : F.parent b = some p) :
    ¬F.IsAncestor a b := by
  intro h
  obtain ⟨q, hq, h⟩ := isAncestor_iff_parent.1 h
  obtain rfl : p = q := Option.some.inj (hb.symm.trans hq)
  have hpa := F.parent_lt ha
  rcases h with rfl | h
  · exact absurd hpa (lt_irrefl _)
  · exact absurd (h.lt.trans hpa) (lt_irrefl _)

theorem nodup_descendants (n : ℕ) : (F.descendants n).Nodup := by
  induction n using descendants.induct F with
  | case1 n ih =>
      rw [descendants_eq, below, List.nodup_flatMap]
      refine ⟨fun c hc => ?_, (F.nodup_children n).imp_of_mem fun {a b} ha hb hab => ?_⟩
      · exact List.nodup_cons.2 ⟨fun h => (mem_descendants.1 h).ne rfl, ih ⟨c, hc⟩⟩
      · have hpa := F.mem_children.1 ha
        have hpb := F.mem_children.1 hb
        intro x hxa hxb
        rw [List.mem_cons, mem_descendants] at hxa hxb
        rcases hxa with rfl | hxa <;> rcases hxb with rfl | hxb
        · exact hab rfl
        · exact not_isAncestor_of_siblings hpb hpa hxb
        · exact not_isAncestor_of_siblings hpa hpb hxa
        · rcases hxa.comparable hxb with h | h | h
          · exact hab h
          · exact not_isAncestor_of_siblings hpa hpb h
          · exact not_isAncestor_of_siblings hpb hpa h

instance : DecidableRel F.IsAncestor := fun _ _ => decidable_of_iff _ mem_ancestors

instance : DecidableRel F.hierarchy.above := inferInstanceAs (DecidableRel F.IsAncestor)

/-- **The upward walk meets every proper ancestor once, and nothing else.** -/
theorem count_ancestors (x n : ℕ) :
    (F.ancestors n).count x = if F.IsAncestor x n then 1 else 0 := by
  split <;> rename_i h
  · exact List.count_eq_one_of_mem (nodup_ancestors n) (mem_ancestors.2 h)
  · exact List.count_eq_zero.2 fun hx => h (mem_ancestors.1 hx)

/-- **The downward walk meets every proper descendant once, and nothing else.** -/
theorem count_descendants (x n : ℕ) :
    (F.descendants n).count x = if F.IsAncestor n x then 1 else 0 := by
  split <;> rename_i h
  · exact List.count_eq_one_of_mem (nodup_descendants n) (mem_descendants.2 h)
  · exact List.count_eq_zero.2 fun hx => h (mem_descendants.1 hx)

/-! ### Visiting with a queue -/

/-- The nodes a visit meets that takes the first node of a queue and puts its children
at the end, in the order met. -/
def levels (F : Forest) : List ℕ → List ℕ
  | [] => []
  | c :: w => c :: levels F (w ++ F.children c)
termination_by w => (F.below w).length
decreasing_by simp [below_cons, below_append]; omega

/-- **Queue and recursion visit the same nodes.** -/
theorem levels_perm (F : Forest) (w : List ℕ) : (F.levels w).Perm (F.below w) := by
  induction w using levels.induct F with
  | case1 => rw [levels, below_nil]
  | case2 c w ih =>
      rw [levels, below_cons]
      refine (ih.trans ?_).cons c
      rw [below_append]
      exact List.perm_append_comm

/-! ### Counting flagged nodes along the two walks -/

/-- How many proper ancestors of `x` are flagged. -/
def countAbove (F : Forest) (flag : ℕ → Bool) (x : ℕ) : ℕ :=
  ((Finset.range F.size).filter fun a => F.IsAncestor a x ∧ flag a = true).card

/-- How many proper descendants of `x` are flagged. -/
def countBelow (F : Forest) (flag : ℕ → Bool) (x : ℕ) : ℕ :=
  ((Finset.range F.size).filter fun d => F.IsAncestor x d ∧ flag d = true).card

/-- The flagged proper ancestors decide `countAbove`. -/
theorem countAbove_congr {F F' : Forest} {flag flag' : ℕ → Bool} {x : ℕ}
    (h : ∀ a, F'.IsAncestor a x ∧ flag' a = true ↔ F.IsAncestor a x ∧ flag a = true) :
    F'.countAbove flag' x = F.countAbove flag x := by
  unfold countAbove
  congr 1
  ext a
  simp only [Finset.mem_filter, Finset.mem_range, h a]
  exact and_congr_left fun ha =>
    iff_of_true (((h a).2 ha).1.lt.trans ((h a).2 ha).1.lt_size) (ha.1.lt.trans ha.1.lt_size)

/-- The flagged proper descendants decide `countBelow`. -/
theorem countBelow_congr {F F' : Forest} {flag flag' : ℕ → Bool} {x : ℕ}
    (h : ∀ d, F'.IsAncestor x d ∧ flag' d = true ↔ F.IsAncestor x d ∧ flag d = true) :
    F'.countBelow flag' x = F.countBelow flag x := by
  unfold countBelow
  congr 1
  ext d
  simp only [Finset.mem_filter, Finset.mem_range, h d]
  exact and_congr_left fun hd => iff_of_true ((h d).2 hd).1.lt_size hd.1.lt_size

theorem countAbove_le_size (F : Forest) (flag : ℕ → Bool) (x : ℕ) : F.countAbove flag x ≤ F.size :=
  (Finset.card_filter_le _ _).trans_eq (Finset.card_range _)

theorem countBelow_le_size (F : Forest) (flag : ℕ → Bool) (x : ℕ) : F.countBelow flag x ≤ F.size :=
  (Finset.card_filter_le _ _).trans_eq (Finset.card_range _)

theorem countAbove_eq_zero {flag : ℕ → Bool} {x : ℕ} :
    F.countAbove flag x = 0 ↔ ∀ a, F.IsAncestor a x → flag a = false := by
  simp only [countAbove, Finset.card_eq_zero, Finset.filter_eq_empty_iff, Finset.mem_range, not_and,
    Bool.not_eq_true]
  exact ⟨fun h a ha => h (ha.lt.trans ha.lt_size) ha, fun h a _ => h a⟩

theorem countBelow_eq_zero {flag : ℕ → Bool} {x : ℕ} :
    F.countBelow flag x = 0 ↔ ∀ d, F.IsAncestor x d → flag d = false := by
  simp only [countBelow, Finset.card_eq_zero, Finset.filter_eq_empty_iff, Finset.mem_range, not_and,
    Bool.not_eq_true]
  exact ⟨fun h d hd => h hd.lt_size hd, fun h d _ => h d⟩

/-- Changing one flag moves a count of flagged nodes in `P` by the difference of
the flags, if the node is in `P`. -/
theorem card_filter_update (s : Finset ℕ) (P : ℕ → Prop) [DecidablePred P] (flag : ℕ → Bool)
    (n : ℕ) (v : Bool) (hn : P n → n ∈ s) :
    ((s.filter fun y => P y ∧ Function.update flag n v y = true).card : ℤ) =
      (s.filter fun y => P y ∧ flag y = true).card +
        (v.toNat - (flag n).toNat) * (if P n then 1 else 0) := by
  by_cases hP : P n
  · have hsplit (g : ℕ → Bool) : ((s.filter fun y => P y ∧ g y = true).card : ℤ) =
        (g n).toNat + ((s.erase n).filter fun y => P y ∧ g y = true).card := by
      rw [← Finset.insert_erase (hn hP), Finset.filter_insert]
      cases hg : g n
      · simp
      · simp [hP, hg, Int.add_comm]
    rw [hsplit (Function.update flag n v), hsplit flag]
    have hrest : ((s.erase n).filter fun y => P y ∧ Function.update flag n v y = true) =
        (s.erase n).filter fun y => P y ∧ flag y = true :=
      Finset.filter_congr fun y hy => by
        rw [Function.update_of_ne (Finset.ne_of_mem_erase hy)]
    rw [hrest]
    simp [hP]
    ring
  · have hrest : (s.filter fun y => P y ∧ Function.update flag n v y = true) =
        s.filter fun y => P y ∧ flag y = true :=
      Finset.filter_congr fun y _ => and_congr_right fun hy => by
        have hne : y ≠ n := by
          rintro rfl
          exact hP hy
        rw [Function.update_of_ne hne]
    rw [hrest]
    simp [hP]

/-- Flagging or clearing `n` moves the count of flagged proper ancestors of the
descendants of `n`. -/
theorem countAbove_update (flag : ℕ → Bool) (n : ℕ) (v : Bool) (x : ℕ) :
    (F.countAbove (Function.update flag n v) x : ℤ) =
      F.countAbove flag x + (v.toNat - (flag n).toNat) * (F.descendants n).count x := by
  rw [countAbove, card_filter_update _ (F.IsAncestor · x) flag n v
    fun h => Finset.mem_range.2 (h.lt.trans h.lt_size), count_descendants, countAbove]
  push_cast
  rfl

/-- Flagging or clearing `n` moves the count of flagged proper descendants of the
ancestors of `n`. -/
theorem countBelow_update (flag : ℕ → Bool) (n : ℕ) (v : Bool) (x : ℕ) :
    (F.countBelow (Function.update flag n v) x : ℤ) =
      F.countBelow flag x + (v.toNat - (flag n).toNat) * (F.ancestors n).count x := by
  rw [countBelow, card_filter_update _ (F.IsAncestor x ·) flag n v
    fun h => Finset.mem_range.2 h.lt_size, count_ancestors, countBelow]
  push_cast
  rfl

end Forest
end Lib
end PaymentGateway
