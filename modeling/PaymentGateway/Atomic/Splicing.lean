/-
# When two trees have the same JSON

`toJson` puts the names between quotes as they are (`src/atomic_tree.cpp`, lines
189-205), and `addNode` accepts any name.  A name that goes on with what `serialize`
writes after a name, `","isLocked":` and the rest, reads as a node that has ended, so
two different trees can have one text (`toJson_hides_lock`).

Nothing else makes two trees look the same.  Where two texts are equal, the names at the
front of them are equal, or one of them begins with the other and what is written after
it (`splices_or_eq`): the keyword text does not overlap with itself.  By induction on the
tree, two trees with the same text are the same tree exactly when at no place one name
goes on where the other ends (`toJson_injective_iff`).
-/

import PaymentGateway.Tree.Index
import PaymentGateway.Atomic.ToJson

namespace PaymentGateway
namespace Atomic

open Lib

/-! ### Where a name ends -/

/-- What `serialize` writes between the name of a node and its children. -/
def afterName (isLocked : Bool) : List Char :=
  ("\",\"isLocked\":" ++ (if isLocked then "true" else "false") ++ ",\"children\":[").toList

/-- The name `b` begins with the name `a` and what `serialize` writes after a name. -/
def Splices (a b : String) : Prop := ∃ isLocked, a.toList ++ afterName isLocked <+: b.toList

/-- At no place one of the names splices onto the other. -/
def Unspliced (names names' : List String) : Prop :=
  ∀ p ∈ names.zip names', ¬Splices p.1 p.2 ∧ ¬Splices p.2 p.1

instance (a b : String) : Decidable (Splices a b) :=
  inferInstanceAs (Decidable (∃ isLocked, a.toList ++ afterName isLocked <+: b.toList))

instance (names names' : List String) : Decidable (Unspliced names names') :=
  inferInstanceAs (Decidable (∀ p ∈ names.zip names', ¬Splices p.1 p.2 ∧ ¬Splices p.2 p.1))

/-- What is written after a name does not begin again before it ends. -/
theorem afterName_drop : ∀ (b : Bool), ∀ i < (afterName b).length, 0 < i →
    ¬((afterName b).drop i).take 3 <+: ['\"', ',', '\"'] := by
  decide +kernel

theorem take_afterName (b : Bool) (x : List Char) :
    (afterName b ++ x).take 3 = ['\"', ',', '\"'] := by
  cases b <;> rfl

theorem afterName_inj {b b' : Bool} {x x' : List Char}
    (h : afterName b ++ x = afterName b' ++ x') : b = b' ∧ x = x' := by
  have hdiff : (afterName true).take 14 ≠ (afterName false).take 14 := by decide +kernel
  have htake : ∀ (b : Bool) (x : List Char),
      (afterName b ++ x).take 14 = (afterName b).take 14 := by
    intro b x
    exact List.take_append_of_le_length (by cases b <;> decide +kernel)
  have hprefix := congrArg (List.take 14) h
  rw [htake, htake] at hprefix
  obtain rfl : b = b' := by
    cases b <;> cases b'
    · rfl
    · exact absurd hprefix.symm hdiff
    · exact absurd hprefix hdiff
    · rfl
  exact ⟨rfl, List.append_cancel_left h⟩

/-- What follows the shorter of two names is a whole `afterName` inside the longer one,
or the names are equal. -/
theorem afterName_prefix_or_nil {b b' : Bool} {w x x' : List Char}
    (h : afterName b ++ x = w ++ (afterName b' ++ x')) : afterName b <+: w ∨ w = [] := by
  rcases List.append_eq_append_iff.1 h with ⟨v, rfl, -⟩ | ⟨v, hb, hx⟩
  · exact .inl (List.prefix_append _ _)
  · by_contra hcon
    obtain ⟨hw, hnil⟩ := not_or.1 hcon
    have hpos : 0 < w.length := List.length_pos_of_ne_nil hnil
    have hlt : w.length < (afterName b).length := by
      rw [hb, List.length_append]
      refine Nat.lt_add_of_pos_right (List.length_pos_of_ne_nil fun hv => hw ?_)
      rw [hb, hv, List.append_nil]
    have hdrop : (afterName b).drop w.length = v := by rw [hb, List.drop_left]
    have htake := congrArg (List.take 3) hx
    rw [take_afterName, List.take_append] at htake
    refine afterName_drop b _ hlt hpos ?_
    rw [hdrop, htake]
    exact List.prefix_append _ _

/-- The longer of two names splices onto the shorter, or it is not longer. -/
theorem splices_or_eq_of_append {a a' : String} {b b' : Bool} {w x x' : List Char}
    (hname : a'.toList = a.toList ++ w) (h : afterName b ++ x = w ++ (afterName b' ++ x')) :
    Splices a a' ∨ (a = a' ∧ b = b' ∧ x = x') := by
  rcases afterName_prefix_or_nil h with hpre | rfl
  · refine .inl ⟨b, ?_⟩
    rw [hname]
    exact (List.prefix_append_right_inj a.toList).2 hpre
  · rw [List.append_nil] at hname
    exact .inr ⟨(String.toList_inj.1 hname).symm, afterName_inj h⟩

/-- **Two names at the front of one text**: one splices onto the other, or they are
equal and so is what follows. -/
theorem splices_or_eq {a a' : String} {b b' : Bool} {x x' : List Char}
    (h : a.toList ++ (afterName b ++ x) = a'.toList ++ (afterName b' ++ x')) :
    Splices a a' ∨ Splices a' a ∨ (a = a' ∧ b = b' ∧ x = x') := by
  rcases List.append_eq_append_iff.1 h with ⟨w, hname, hrest⟩ | ⟨w, hname, hrest⟩
  · exact (splices_or_eq_of_append hname hrest).imp_right .inr
  · rcases splices_or_eq_of_append hname hrest with hs | ⟨rfl, rfl, rfl⟩
    · exact .inr (.inl hs)
    · exact .inr (.inr ⟨rfl, rfl, rfl⟩)

/-! ### Texts of trees -/

section Trees

variable {t t' : TreeShape} {f f' : ℕ → ℤ}

/-- The names of the subtrees of the nodes `work`, in the order of the text. -/
def namesBelow (t : TreeShape) (work : List ℕ) : List String := (t.below work).map t.name

theorem namesBelow_cons (t : TreeShape) (c : ℕ) (work : List ℕ) :
    namesBelow t (c :: work) = namesBelow t [c] ++ namesBelow t work := by
  rw [namesBelow, namesBelow, namesBelow, ← List.map_append, ← Forest.below_append]
  rfl

theorem namesBelow_singleton (t : TreeShape) (n : ℕ) :
    namesBelow t [n] = t.name n :: namesBelow t (t.children n) := by
  rw [namesBelow, namesBelow, Forest.below_cons, Forest.below_nil, List.append_nil, List.map_cons]

theorem Unspliced.left {l l' m m' : List String} (h : Unspliced (l ++ m) (l' ++ m')) :
    Unspliced l l' := by
  intro p hp
  refine h p ?_
  clear h
  induction l generalizing l' with
  | nil => simp at hp
  | cons a l ih =>
      cases l' with
      | nil => simp at hp
      | cons a' l' =>
          rw [List.zip_cons_cons, List.mem_cons] at hp
          rw [List.cons_append, List.cons_append, List.zip_cons_cons, List.mem_cons]
          exact hp.imp_right ih

theorem Unspliced.right {l l' m m' : List String} (h : Unspliced (l ++ m) (l' ++ m'))
    (hlength : l.length = l'.length) : Unspliced m m' := by
  intro p hp
  refine h p ?_
  rw [List.zip_append hlength]
  exact List.mem_append_right _ hp

/-- Equal names never splice. -/
theorem unspliced_self (names : List String) : Unspliced names names := by
  have hself (a : String) : ¬Splices a a := fun ⟨b, h⟩ => by
    have hpos : 0 < (afterName b).length := by cases b <;> decide +kernel
    have hle := h.length_le
    rw [List.length_append] at hle
    omega
  intro p hp
  have heq : p.1 = p.2 := by
    induction names with
    | nil => simp at hp
    | cons a names ih =>
        rw [List.zip_cons_cons, List.mem_cons] at hp
        rcases hp with rfl | hp
        · rfl
        · exact ih hp
  rw [heq]
  exact ⟨hself _, hself _⟩

theorem intercalate_cons (x : List Char) (xs : List (List Char)) :
    [','].intercalate (x :: xs) = x ++ xs.flatMap (',' :: ·) := by
  induction xs generalizing x with
  | nil => simp [List.intercalate]
  | cons y ys ih =>
      have := ih y
      simp only [List.intercalate] at this ⊢
      simp [this]

/-- The text of a node, part by part. -/
theorem toList_serialize (t : TreeShape) (f : ℕ → ℤ) (n : ℕ) :
    (serialize t f n).toList = "\x7b\"name\":\"".toList ++ ((t.name n).toList ++
      (afterName (f n = 1) ++ ([','].intercalate ((t.children n).map fun c =>
        (serialize t f c).toList) ++ [']', '\x7d']))) := by
  rw [serialize_eq]
  by_cases hf : f n = 1 <;> simp [afterName, hf, Function.comp_def, String.toList_intercalate]

/-- Siblings that are the same trees have the same names below them, if each has. -/
theorem namesBelow_congr {cs cs' : List ℕ}
    (hall : ∀ c ∈ cs, ∀ c', document t (fun n => f n = 1) c = document t' (fun n => f' n = 1) c' →
      namesBelow t [c] = namesBelow t' [c'])
    (h : cs.map (document t fun n => f n = 1) = cs'.map (document t' fun n => f' n = 1)) :
    namesBelow t cs = namesBelow t' cs' := by
  induction cs generalizing cs' with
  | nil =>
      cases cs' with
      | nil => rfl
      | cons c' cs' => simp at h
  | cons c cs ih =>
      cases cs' with
      | nil => simp at h
      | cons c' cs' =>
          rw [List.map_cons, List.map_cons, List.cons.injEq] at h
          rw [namesBelow_cons, namesBelow_cons t', hall c (List.mem_cons_self ..) c' h.1,
            ih (fun c hc => hall c (List.mem_cons_of_mem _ hc)) h.2]

/-- The same tree has the same names. -/
theorem namesBelow_of_document {n n' : ℕ} (h : document t (fun n => f n = 1) n =
    document t' (fun n => f' n = 1) n') : namesBelow t [n] = namesBelow t' [n'] := by
  induction n using serialize.induct t generalizing n' with
  | case1 n ih =>
      rw [document_eq, document_eq] at h
      simp only [Json.object.injEq, List.cons.injEq, Prod.mk.injEq, Json.string.injEq,
        Json.array.injEq, true_and, and_true] at h
      obtain ⟨hname, -, hchildren⟩ := h
      rw [namesBelow_singleton, namesBelow_singleton, hname]
      exact congrArg _ (namesBelow_congr (fun c hc c' => ih ⟨c, hc⟩) hchildren)

/-! ### Unique reading -/

/-- The text at the front of a list of characters determines the tree at `n`. -/
def ReadsUniquely (t t' : TreeShape) (f f' : ℕ → ℤ) (n : ℕ) : Prop :=
  ∀ n' r r', Unspliced (namesBelow t [n]) (namesBelow t' [n']) →
    (serialize t f n).toList ++ r = (serialize t' f' n').toList ++ r' →
    document t (fun n => f n = 1) n = document t' (fun n => f' n = 1) n' ∧ r = r'

/-- A child and what follows it. -/
theorem child_unique {c c' : ℕ} {cs cs' : List ℕ} {x x' : List Char}
    (hc : ReadsUniquely t t' f f' c)
    (hnames : Unspliced (namesBelow t (c :: cs)) (namesBelow t' (c' :: cs')))
    (h : (serialize t f c).toList ++ x = (serialize t' f' c').toList ++ x') :
    document t (fun n => f n = 1) c = document t' (fun n => f' n = 1) c' ∧ x = x' ∧
      Unspliced (namesBelow t cs) (namesBelow t' cs') := by
  rw [namesBelow_cons, namesBelow_cons t'] at hnames
  obtain ⟨hdoc, hx⟩ := hc c' x x' hnames.left h
  exact ⟨hdoc, hx, hnames.right (congrArg List.length (namesBelow_of_document hdoc))⟩

/-- The children after the first, up to the closing bracket: a comma goes on, a bracket
ends the list. -/
theorem siblings_unique {cs cs' : List ℕ} {r r' : List Char}
    (hall : ∀ c ∈ cs, ReadsUniquely t t' f f' c)
    (hnames : Unspliced (namesBelow t cs) (namesBelow t' cs'))
    (h : (cs.map fun c => (serialize t f c).toList).flatMap (',' :: ·) ++ ']' :: r =
      (cs'.map fun c => (serialize t' f' c).toList).flatMap (',' :: ·) ++ ']' :: r') :
    cs.map (document t fun n => f n = 1) = cs'.map (document t' fun n => f' n = 1) ∧ r = r' := by
  induction cs generalizing cs' with
  | nil =>
      cases cs' with
      | nil => exact ⟨rfl, (List.cons.inj h).2⟩
      | cons c' cs' => exact absurd (List.cons.inj h).1 (by decide)
  | cons c cs ih =>
      cases cs' with
      | nil => exact absurd (List.cons.inj h).1 (by decide)
      | cons c' cs' =>
          simp only [List.map_cons, List.flatMap_cons, List.cons_append, List.append_assoc,
            List.cons.injEq, true_and] at h
          obtain ⟨hdoc, hrest, hnames⟩ :=
            child_unique (hall c (List.mem_cons_self ..)) hnames h
          obtain ⟨hdocs, hr⟩ := ih (fun c hc => hall c (List.mem_cons_of_mem _ hc)) hnames hrest
          exact ⟨by rw [List.map_cons, List.map_cons, hdoc, hdocs], hr⟩

/-- All children, up to the closing bracket. -/
theorem children_unique {cs cs' : List ℕ} {r r' : List Char}
    (hall : ∀ c ∈ cs, ReadsUniquely t t' f f' c)
    (hnames : Unspliced (namesBelow t cs) (namesBelow t' cs'))
    (h : [','].intercalate (cs.map fun c => (serialize t f c).toList) ++ ']' :: r =
      [','].intercalate (cs'.map fun c => (serialize t' f' c).toList) ++ ']' :: r') :
    cs.map (document t fun n => f n = 1) = cs'.map (document t' fun n => f' n = 1) ∧ r = r' := by
  have hopen (t : TreeShape) (f : ℕ → ℤ) (c : ℕ) (cs : List ℕ) (x : List Char) :
      ([','].intercalate ((c :: cs).map fun c => (serialize t f c).toList) ++ x).head? =
        some '\x7b' := by
    rw [List.map_cons, intercalate_cons, toList_serialize]
    rfl
  cases cs with
  | nil =>
      cases cs' with
      | nil => exact ⟨rfl, (List.cons.inj h).2⟩
      | cons c' cs' =>
          have hhead : some ']' = some '\x7b' :=
            (congrArg List.head? h).trans (hopen t' f' c' cs' _)
          exact absurd hhead (by decide)
  | cons c cs =>
      cases cs' with
      | nil =>
          have hhead : some ']' = some '\x7b' :=
            (congrArg List.head? h).symm.trans (hopen t f c cs _)
          exact absurd hhead (by decide)
      | cons c' cs' =>
          rw [List.map_cons, List.map_cons, intercalate_cons, intercalate_cons, List.append_assoc,
            List.append_assoc] at h
          obtain ⟨hdoc, hrest, hnames⟩ :=
            child_unique (hall c (List.mem_cons_self ..)) hnames h
          obtain ⟨hdocs, hr⟩ := siblings_unique
            (fun c hc => hall c (List.mem_cons_of_mem _ hc)) hnames hrest
          exact ⟨by rw [List.map_cons, List.map_cons, hdoc, hdocs], hr⟩

/-- **Texts are read in one way only**, where no name splices. -/
theorem serialize_unique (t t' : TreeShape) (f f' : ℕ → ℤ) (n : ℕ) :
    ReadsUniquely t t' f f' n := by
  induction n using serialize.induct t with
  | case1 n ih =>
      intro n' r r' hnames h
      rw [namesBelow_singleton, namesBelow_singleton] at hnames
      rw [toList_serialize, toList_serialize] at h
      simp only [List.append_assoc, List.cons_append, List.nil_append] at h
      have hhead : ¬Splices (t.name n) (t'.name n') ∧ ¬Splices (t'.name n') (t.name n) :=
        hnames (t.name n, t'.name n') (List.mem_cons_self ..)
      rcases splices_or_eq (List.append_cancel_left h) with hs | hs | ⟨hname, hflag, hrest⟩
      · exact absurd hs hhead.1
      · exact absurd hs hhead.2
      · obtain ⟨hdocs, hr⟩ := children_unique (fun c hc => ih ⟨c, hc⟩)
          (@Unspliced.right [_] [_] _ _ hnames rfl) hrest
        rw [document_eq, document_eq, hname, hflag, hdocs]
        exact ⟨rfl, (List.cons.inj hr).2⟩

end Trees

namespace AtomicPaymentTree

/-- The names of the nodes below `root`, in the order of the text. -/
def names (t : AtomicPaymentTree) : List String := t.shape.visited.map t.shape.name

/-- The text, the value and the names of a tree, empty or not. -/
theorem toJson_cases (t : AtomicPaymentTree) :
    (t.toJson = "\x7b\x7d" ∧ t.document = .object [] ∧ t.names = []) ∨
      ∃ root, t.toJson = serialize t.shape (fun n => (t.mem.node n).lockState) root ∧
        t.document = Atomic.document t.shape (fun n => (t.mem.node n).lockState = 1) root ∧
        t.names = namesBelow t.shape [root] := by
  unfold toJson document names TreeShape.visited
  cases t.shape.root with
  | none => exact .inl ⟨rfl, rfl, rfl⟩
  | some root =>
      refine .inr ⟨root, rfl, rfl, ?_⟩
      rw [namesBelow, Forest.below_cons, Forest.below_nil, List.append_nil,
        ← Forest.descendants_eq]

/-- The same tree has the same names. -/
theorem names_of_document {t t' : AtomicPaymentTree} (h : t.document = t'.document) :
    t.names = t'.names := by
  rcases t.toJson_cases with ⟨-, hdoc, hnames⟩ | ⟨root, -, hdoc, hnames⟩ <;>
    rcases t'.toJson_cases with ⟨-, hdoc', hnames'⟩ | ⟨root', -, hdoc', hnames'⟩
  · rw [hnames, hnames']
  · rw [hdoc, hdoc', document_eq] at h
    cases h
  · rw [hdoc, hdoc', document_eq] at h
    cases h
  · rw [hnames, hnames']
    rw [hdoc, hdoc'] at h
    exact namesBelow_of_document h

/-- **When the JSON determines the tree.**  Two trees with the same text, whatever their
names and their lock states are, are the same tree from the root, name by name, flag by
flag and child by child, if and only if at no place in the order of the text one of the
two names goes on where the other ends. -/
theorem toJson_injective_iff (t t' : AtomicPaymentTree) (h : t.toJson = t'.toJson) :
    t.document = t'.document ↔ Unspliced t.names t'.names := by
  constructor
  · intro hdoc
    rw [names_of_document hdoc]
    exact unspliced_self _
  · intro hspliced
    rcases t.toJson_cases with ⟨htext, hdoc, -⟩ | ⟨root, htext, hdoc, hnames⟩ <;>
      rcases t'.toJson_cases with ⟨htext', hdoc', -⟩ | ⟨root', htext', hdoc', hnames'⟩
    · rw [hdoc, hdoc']
    · rw [htext, htext'] at h
      have hlist := (congrArg String.toList h).trans (toList_serialize _ _ _)
      cases hlist
    · rw [htext, htext'] at h
      have hlist := (congrArg String.toList h).symm.trans (toList_serialize _ _ _)
      cases hlist
    · rw [htext, htext'] at h
      rw [hnames, hnames'] at hspliced
      rw [hdoc, hdoc']
      exact (serialize_unique _ _ _ _ root root' [] [] hspliced
        (congrArg (String.toList · ++ []) h)).1

/-- One tree, built in two orders, with a lock on `B`. -/
theorem toJson_injective_iff_orders :
    let t : AtomicPaymentTree :=
      { build [⟨"Root", ""⟩, ⟨"A", "Root"⟩, ⟨"B", "A"⟩, ⟨"C", "Root"⟩] with
        mem := ⟨fun n => if n = 2 then ⟨1, 7, 0, 0⟩ else .fresh, {}⟩ }
    let t' : AtomicPaymentTree :=
      { build [⟨"Root", ""⟩, ⟨"A", "Root"⟩, ⟨"C", "Root"⟩, ⟨"B", "A"⟩] with
        mem := ⟨fun n => if n = 3 then ⟨1, 7, 0, 0⟩ else .fresh, {}⟩ }
    t.toJson = t'.toJson ∧ t.document = t'.document := by
  intro t t'
  have htext : t.toJson = t'.toJson := by decide +kernel
  exact ⟨htext, (toJson_injective_iff t t' htext).2 (by decide +kernel)⟩

/-- **A held lock that the JSON hides.**  `Root` with the children `A`, locked, and `B`,
and `Root` with a single child that nobody has locked, whose name reads as both: one
text, two trees. -/
theorem toJson_hides_lock :
    let t : AtomicPaymentTree :=
      { build [⟨"Root", ""⟩, ⟨"A", "Root"⟩, ⟨"B", "Root"⟩] with
        mem := ⟨fun n => if n = 1 then ⟨1, 7, 0, 0⟩ else .fresh, {}⟩ }
    let t' : AtomicPaymentTree :=
      build [⟨"Root", ""⟩,
        ⟨"A\",\"isLocked\":true,\"children\":[]\x7d,\x7b\"name\":\"B", "Root"⟩]
    t.toJson = t'.toJson ∧ t.document ≠ t'.document ∧ t.names.length ≠ t'.names.length ∧
      (t.mem.node 1).lockState = 1 ∧ ∀ n < t'.shape.size, (t'.mem.node n).lockState = 0 := by
  intro t t'
  have hlength : t.names.length ≠ t'.names.length := by decide +kernel
  refine ⟨by decide +kernel, fun h => hlength ?_, hlength, rfl, by decide +kernel⟩
  rw [names_of_document h]

end AtomicPaymentTree

end Atomic
end PaymentGateway
