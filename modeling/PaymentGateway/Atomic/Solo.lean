/-
# One thread: `AtomicPaymentTree` does what `PaymentTree` does

A single thread adds nodes and makes calls in any order, nodes also under held locks,
and a finite pattern says which of its steps fail spuriously.  Every call returns, and
both trees return the same and hold the same nodes after every action
(`trees_agree`).

The two implementations differ in the order of their checks, in what `unlock` tests,
in the test for "nothing to upgrade from", and in the order in which they find the
locked descendants.  `Leads P s` says that the thread, running alone from `s`, comes to
the end of its call in a state with the property `P`; its rules take one step of the
machine (`Leads.goto`), a whole loop (`Leads.walk`), and so a whole propagation
(`leads_settle`), the scan (`leads_scan`) and the release loop (`leads_release`)
backwards, and each operation is a chain of them.  The only fact about the counters they
need is that `descendantLockedCount` is exact, which holds whatever nodes are added
(`DescendantsExact`); that the two scans find the same nodes is `PaymentTree.perm_lockedBelow`, and
that the order of the releases does not matter `PaymentTree.release_perm`.
-/

import PaymentGateway.Atomic.Walks
import PaymentGateway.Sequential.Growth

namespace PaymentGateway

open Lib

/-! ### The sequential side -/

namespace PaymentTree

/-- What the actions of a sequence return. -/
def actResults (t : PaymentTree) : List Action → List (Option Bool)
  | [] => []
  | a :: as => (t.act a).2 :: actResults (t.act a).1 as

variable {t : PaymentTree}

theorem DescendantsExact.settles {t' : PaymentTree} (h : t.DescendantsExact) (hs : Settles t t') :
    t'.DescendantsExact := by
  induction hs with
  | refl => exact h
  | settle _ n b hδ _ ih =>
      intro x
      rw [settle_node, settle_shape, settle_flag, Forest.countBelow_update, ← ih x, hδ]

/-- **Every action keeps `descendantLockedCount` exact.** -/
theorem DescendantsExact.act (h : t.DescendantsExact) (a : Action) :
    (t.act a).1.DescendantsExact := by
  cases a with
  | addNode nodeName parentName => exact h.addNode nodeName parentName
  | call c => exact h.settles (settles_call t c)

end PaymentTree

namespace Atomic

/-! ### Running alone -/

/-- The thread steps until it is outside every call; the first flag of the list says
whether its next step may fail spuriously, and no step does once the list is empty. -/
inductive Solo (t : TreeShape) : List Bool → State Unit → State Unit → Prop
  | done {fails : List Bool} {s : State Unit} (h : s.thread () = .idle) : Solo t fails s s
  | tick {fails : List Bool} {s s₁ s' : State Unit}
      (h : step t s (.tick () (fails.headD false)) = some s₁) (rest : Solo t fails.tail s₁ s') :
      Solo t fails s s'

/-- Running alone is deterministic. -/
theorem Solo.unique {t : TreeShape} {fails : List Bool} {s s₁ s₂ : State Unit}
    (h₁ : Solo t fails s s₁) (h₂ : Solo t fails s s₂) : s₁ = s₂ := by
  have hidle {s s' : State Unit} {sp : Bool} (hs : s.thread () = .idle) :
      step t s (.tick () sp) ≠ some s' := by simp [step, hs]
  induction h₁ with
  | done h =>
      cases h₂ with
      | done _ => rfl
      | tick h' _ => exact absurd h' (hidle h)
  | tick h _ ih =>
      cases h₂ with
      | done h' => exact absurd h (hidle h')
      | tick h' rest => exact ih (Option.some.inj (h.symm.trans h') ▸ rest)

namespace AtomicPaymentTree

/-- The call, made alone, returns `result` and leaves the tree `t'`. -/
def Completes (t : AtomicPaymentTree) (c : Call) (fails : List Bool) (t' : AtomicPaymentTree)
    (result : Bool) : Prop :=
  ∃ s₁ s₂ k, step t.shape (start t) (.invoke () c) = some s₁ ∧ Solo t.shape fails s₁ s₂ ∧
    s₂.hist.head? = some (.ret () c k result) ∧ t' = ⟨t.shape, s₂.mem⟩

/-- The action leads to the tree `t'` and returns `result`; `addNode` returns nothing. -/
def Acts (t : AtomicPaymentTree) (fails : List Bool) (t' : AtomicPaymentTree)
    (result : Option Bool) : Action → Prop
  | .addNode nodeName parentName => t' = t.addNode nodeName parentName ∧ result = none
  | .call c => ∃ r, result = some r ∧ t.Completes c fails t' r

/-- The actions, each with its pattern of spurious failures, lead to the tree `t'` and
return `results`. -/
def ActsAll (t : AtomicPaymentTree) :
    List (Action × List Bool) → AtomicPaymentTree → List (Option Bool) → Prop
  | [], t', results => t' = t ∧ results = []
  | (a, fails) :: as, t', results => ∃ t₁ r rs,
      t.Acts fails t₁ r a ∧ ActsAll t₁ as t' rs ∧ results = r :: rs

end AtomicPaymentTree

/-- The node of the atomic tree that holds what a `TreeNode` holds. -/
def AtomicTreeNode.of (v : TreeNode) : AtomicTreeNode :=
  ⟨if v.isLocked then 1 else 0, v.lockedBy, v.ancestorLockedCount, v.descendantLockedCount⟩

/-- Both trees have the same nodes under the same names, and corresponding nodes hold
the same. -/
structure Agrees (T : PaymentTree) (t : AtomicPaymentTree) : Prop where
  shape : T.shape = t.shape
  node : ∀ n, t.mem.node n = .of (T.node n)

/-! ### Rules -/

/-- The thread alone, in the call `l`. -/
def alone (m : Memory) (l : Local) (H : List (Event Unit)) : State Unit := ⟨m, fun _ => l, H⟩

/-- Running alone from `s`, whatever the pattern of spurious failures, the thread comes
to the end of its call, and there `P` holds. -/
def Leads (t : TreeShape) (P : State Unit → Prop) (s : State Unit) : Prop :=
  ∀ fails, ∃ s', Solo t fails s s' ∧ P s'

section Rules

variable {t : TreeShape} {P : State Unit → Prop} {m : Memory} {H : List (Event Unit)} {c : Call}
  {k n : ℕ} {pc : Pc} {r : Bool}

theorem step_alone (sp : Bool) : step t (alone m (.running c k n pc) H) (.tick () sp) =
    some (alone (m.apply (pc.exec t m c.userId n sp).1)
      ((pc.exec t m c.userId n sp).2.toLocal c k n)
      ((pc.exec t m c.userId n sp).1.events () ++ H)) := by
  simp [step, alone, funext_iff]

/-- A step that cannot fail spuriously. -/
theorem Leads.goto {a : Access} {next : Next}
    (hexec : ∀ sp, pc.exec t m c.userId n sp = (a, next))
    (h : ∀ H, Leads t P (alone (m.apply a) (next.toLocal c k n) H)) :
    Leads t P (alone m (.running c k n pc) H) := by
  intro fails
  obtain ⟨s', hs', hP⟩ := h (a.events () ++ H) fails.tail
  refine ⟨s', .tick ?_ hs', hP⟩
  rw [step_alone, hexec]

/-- A step that changes nothing. -/
theorem Leads.read (next : Next) (hexec : ∀ sp, pc.exec t m c.userId n sp = (.read, next))
    (h : ∀ H, Leads t P (alone m (next.toLocal c k n) H)) :
    Leads t P (alone m (.running c k n pc) H) :=
  .goto (a := .read) hexec h

/-- A loop, in memory that stays as the loop needs it. -/
theorem Leads.walk {M : Memory → Prop} {inside : Pc → Bool} {as : List Access} {next : Next}
    (hwalk : Walks t M c.userId n inside pc as next)
    (hkeep : ∀ a ∈ as, ∀ m, M m → M (m.apply a)) (hm : M m)
    (h : ∀ H, Leads t P (alone (as.foldl Memory.apply m) (next.toLocal c k n) H)) :
    Leads t P (alone m (.running c k n pc) H) := by
  induction hwalk generalizing m H with
  | out _ => exact h H
  | finish _ hexec => exact .goto (fun sp => hexec m sp hm) h
  | goto _ hexec _ ih =>
      refine .goto (fun sp => hexec m sp hm) fun H => ?_
      exact ih (fun a ha => hkeep a (List.mem_cons_of_mem _ ha))
        (hkeep _ (List.mem_cons_self ..) m hm) h

/-- The end of a call. -/
theorem Leads.ret (h : P (alone m .idle (.ret () c k r :: H))) :
    Leads t P (alone m (.returning c k r) H) := by
  intro fails
  refine ⟨_, .tick ?_ (.done rfl), h⟩
  simp [step, alone, funext_iff]

/-- **The retry loop ends**, since only finitely many steps fail spuriously. -/
theorem Leads.cas (hfree : (m.node n).lockState = 0)
    (h : ∀ (m' : Memory) H, m'.node = m.node →
      Leads t P (alone (m'.apply (.setLockState n 1)) (.running c k n .lockReloadAncestors) H)) :
    Leads t P (alone m (.running c k n .lockCas) H) := by
  suffices hrun : ∀ len (fails : List Bool), fails.length ≤ len →
      ∀ (m' : Memory) H, m'.node = m.node →
        ∃ s', Solo t fails (alone m' (.running c k n .lockCas) H) s' ∧ P s' from
    fun fails => hrun _ fails le_rfl m H rfl
  intro len
  induction len using Nat.strongRecOn with
  | _ len ih =>
      intro fails hlen m' H hm
      have hfree' : (m'.node n).lockState = 0 := by rw [hm, hfree]
      cases hsp : fails.headD false with
      | false =>
          obtain ⟨s', hs', hP⟩ := h m' _ hm fails.tail
          refine ⟨s', .tick ?_ hs', hP⟩
          rw [hsp, step_alone]
          simp only [Pc.exec, hfree', ne_eq, not_true_eq_false, if_false, Bool.false_eq_true]
          rfl
      | true =>
          cases fails with
          | nil => cases hsp
          | cons sp fails =>
              obtain rfl : sp = true := hsp
              have hlt : fails.tail.length < len := by
                rw [List.length_tail]
                rw [List.length_cons] at hlen
                omega
              obtain ⟨s', hs', hP⟩ := ih _ hlt fails.tail le_rfl
                (m'.apply .addCasRetries) H hm
              have hspurious : step t (alone m' (.running c k n .lockCas) H) (.tick () true) =
                  some (alone m' (.running c k n .lockCountRetry) H) := by
                rw [step_alone]
                simp only [Pc.exec, hfree', ne_eq, not_true_eq_false, if_false, if_true]
                rfl
              have hretry : step t (alone m' (.running c k n .lockCountRetry) H)
                  (.tick () (fails.headD false)) =
                    some (alone (m'.apply .addCasRetries) (.running c k n .lockCas) H) := by
                rw [step_alone]
                rfl
              exact ⟨s', .tick hspurious (.tick hretry hs'), hP⟩

end Rules

/-! ### Memory that holds the nodes of a sequential tree -/

/-- The memory holds what the nodes hold. -/
def Mirrors (m : Memory) (node : ℕ → TreeNode) : Prop := ∀ n, m.node n = .of (node n)

section Mirrors

variable {m : Memory} {node : ℕ → TreeNode}

theorem Mirrors.lockState (h : Mirrors m node) (n : ℕ) :
    (m.node n).lockState = if (node n).isLocked then 1 else 0 := by rw [h n]; rfl

theorem Mirrors.lockedBy (h : Mirrors m node) (n : ℕ) :
    (m.node n).lockedBy = (node n).lockedBy := by rw [h n]; rfl

theorem Mirrors.shows (h : Mirrors m node) : Shows node m := fun n => by
  refine ⟨?_, h.lockedBy n⟩
  rw [h.lockState n]
  cases (node n).isLocked <;> simp

theorem Mirrors.ancestors (h : Mirrors m node) (n : ℕ) :
    (m.node n).ancestorLockedCount = (node n).ancestorLockedCount := by rw [h n]; rfl

theorem Mirrors.descendants (h : Mirrors m node) (n : ℕ) :
    (m.node n).descendantLockedCount = (node n).descendantLockedCount := by rw [h n]; rfl

/-- An access to one node of the memory is the assignment to that node. -/
theorem Mirrors.apply (h : Mirrors m node) {a : Access} {n : ℕ} {v : TreeNode}
    (ha : m.apply a = m.setNode n (.of v)) : Mirrors (m.apply a) (Function.update node n v) := by
  intro x
  rw [ha]
  change Function.update m.node n (.of v) x = _
  by_cases hx : x = n
  · rw [hx, Function.update_self, Function.update_self]
  · rw [Function.update_of_ne hx, Function.update_of_ne hx]
    exact h x

theorem Mirrors.setLockState (h : Mirrors m node) (n : ℕ) (b : Bool) :
    Mirrors (m.apply (.setLockState n (if b then 1 else 0)))
      (Function.update node n { node n with isLocked := b }) :=
  h.apply (by rw [Memory.apply, h n]; rfl)

theorem Mirrors.setLockedBy (h : Mirrors m node) (n : ℕ) (u : ℤ) :
    Mirrors (m.apply (.setLockedBy n u)) (Function.update node n { node n with lockedBy := u }) :=
  h.apply (by rw [Memory.apply, h n]; rfl)

theorem Mirrors.addDescendantLocked (h : Mirrors m node) (n : ℕ) (δ : ℤ) :
    Mirrors (m.apply (.addDescendantLocked n δ)) (Function.update node n
      { node n with descendantLockedCount := (node n).descendantLockedCount + δ }) :=
  h.apply (by rw [Memory.apply, h n]; rfl)

theorem Mirrors.addAncestorLocked (h : Mirrors m node) (n : ℕ) (δ : ℤ) :
    Mirrors (m.apply (.addAncestorLocked n δ)) (Function.update node n
      { node n with ancestorLockedCount := (node n).ancestorLockedCount + δ }) :=
  h.apply (by rw [Memory.apply, h n]; rfl)

/-- The two stores of an acquisition, and of a release in `upgradeLock`. -/
theorem Mirrors.setState_setOwner (h : Mirrors m node) (n : ℕ) (b : Bool) (u : ℤ) :
    Mirrors ((m.apply (.setLockState n (if b then 1 else 0))).apply (.setLockedBy n u))
      (Function.update node n { node n with isLocked := b, lockedBy := u }) := by
  simpa using (h.setLockState n b).setLockedBy n u

/-- The two stores of a release in `unlock`. -/
theorem Mirrors.setOwner_setState (h : Mirrors m node) (n : ℕ) (b : Bool) (u : ℤ) :
    Mirrors ((m.apply (.setLockedBy n u)).apply (.setLockState n (if b then 1 else 0)))
      (Function.update node n { node n with isLocked := b, lockedBy := u }) := by
  simpa using (h.setLockedBy n u).setLockState n b

end Mirrors

/-! ### The propagations -/

section Propagation

variable {t : TreeShape} {P : State Unit → Prop} {m : Memory} {H : List (Event Unit)} {c : Call}
  {k n y : ℕ} {δ : ℤ} {after : After}

/-- The upward walk does what the loop of `informAncestors` does. -/
theorem leads_up {node : ℕ → TreeNode} {current : Option ℕ} (hm : Mirrors m node)
    (h : ∀ m' H, Mirrors m' (PaymentTree.climb t.toForest δ current node) →
      Leads t P (alone m' (.running c k n (.informDown y δ (t.children y) after)) H)) :
    Leads t P (alone m (.running c k n (.informUp y δ current after)) H) := by
  induction current, node using PaymentTree.climb.induct t.toForest δ generalizing m H with
  | case1 node =>
      rw [PaymentTree.climb] at h
      exact .goto (fun _ => rfl) fun H => h m H hm
  | case2 node current ih =>
      rw [PaymentTree.climb] at h
      exact .goto (fun _ => rfl) fun H => ih (hm.addDescendantLocked current δ) h

/-- The downward walk does what the recursion of `informDescendants` does. -/
theorem leads_down {node : ℕ → TreeNode} {children rest : List ℕ} (hm : Mirrors m node)
    (h : ∀ m' H, Mirrors m' (PaymentTree.visit t.toForest δ children node) →
      Leads t P (alone m' (.running c k n (.informDown y δ rest after)) H)) :
    Leads t P (alone m (.running c k n (.informDown y δ (children ++ rest) after)) H) := by
  induction children, node using PaymentTree.visit.induct t.toForest δ generalizing m H rest with
  | case1 node =>
      rw [PaymentTree.visit] at h
      exact h m H hm
  | case2 node child siblings ih₁ ih₂ =>
      rw [PaymentTree.visit] at h
      refine .goto (fun _ => rfl) fun H => ?_
      exact ih₁ (hm.addAncestorLocked child δ) fun m' H hm' => ih₂ hm' h

/-- **A propagation settles its node**: with the flag and the owner of `y` assigned,
both walks leave what the sequential block leaves. -/
theorem leads_settle {T : PaymentTree} {b : Bool} {u : ℤ} (hshape : T.shape = t)
    (hm : Mirrors m (Function.update T.node y { T.node y with isLocked := b, lockedBy := u }))
    (h : ∀ m' H, Mirrors m' (T.settle y b u δ).node →
      Leads t P (alone m' (.running c k n (.informDown y δ [] after)) H)) :
    Leads t P (alone m (.running c k n (.informUp y δ (t.parent y) after)) H) := by
  subst hshape
  refine leads_up hm fun m' H hm' => ?_
  rw [← List.append_nil (T.shape.children y)]
  exact leads_down hm' h

/-- What a call that runs alone ends with: its result, and the nodes of a sequential
tree. -/
def Ends (T : PaymentTree) (c : Call) (result : Bool) (s : State Unit) : Prop :=
  (∃ k, s.hist.head? = some (.ret () c k result)) ∧ Mirrors s.mem T.node

theorem Leads.ends {T : PaymentTree} {r : Bool} (hm : Mirrors m T.node) :
    Leads t (Ends T c r) (alone m (.returning c k r) H) :=
  .ret ⟨⟨k, rfl⟩, hm⟩

/-- A call that publishes and then returns true. -/
theorem leads_publish {T : PaymentTree} {b : Bool} {u : ℤ} (hshape : T.shape = t)
    (hm : Mirrors m (Function.update T.node n { T.node n with isLocked := b, lockedBy := u })) :
    Leads t (Ends (T.settle n b u δ) c true)
      (alone m (.running c k n (.informUp n δ (t.parent n) .finish)) H) :=
  leads_settle hshape hm fun _ _ hm' => .goto (fun _ => rfl) fun _ => .ends hm'

end Propagation

/-! ### The operations -/

section Operations

variable {T : PaymentTree} {m : Memory} {H : List (Event Unit)} {c : Call} {k n : ℕ}

/-- `lock`, alone. -/
theorem leads_lock (hm : Mirrors m T.node) (hn : T.getNode c.nodeName = some n) :
    Leads T.shape (Ends (T.lock c.nodeName c.userId).1 c (T.lock c.nodeName c.userId).2)
      (alone m (.running c k n .lockLoadAncestors) H) := by
  have hanc := hm.ancestors n
  have hdesc := hm.descendants n
  have hstate := hm.lockState n
  rw [PaymentTree.lock_eq c.userId hn]
  by_cases ha : (T.node n).ancestorLockedCount ≤ 0
  case neg =>
    rw [if_neg fun h => ha h.2.1]
    exact .read (.finish false) (fun _ => if_pos (by omega)) fun _ => .ends hm
  refine .read (.goto .lockLoadDescendants) (fun _ => if_neg (by omega)) fun H => ?_
  by_cases hd : (T.node n).descendantLockedCount ≤ 0
  case neg =>
    rw [if_neg fun h => hd h.2.2]
    exact .read (.finish false) (fun _ => if_pos (by omega)) fun _ => .ends hm
  refine .read (.goto .lockCas) (fun _ => if_neg (by omega)) fun H => ?_
  by_cases hflag : (T.node n).isLocked = true
  · rw [if_neg fun h => Bool.false_ne_true (h.1.symm.trans hflag)]
    rw [if_pos hflag] at hstate
    exact .read (.finish false) (fun _ => if_pos (by omega)) fun _ => .ends hm
  · rw [if_pos ⟨Bool.eq_false_iff.2 hflag, ha, hd⟩]
    rw [if_neg hflag] at hstate
    refine .cas hstate fun m' H hnode => ?_
    have hm' : Mirrors m' T.node := fun x => by rw [hnode, hm x]
    have hwon : Mirrors (m'.apply (.setLockState n 1)) _ := hm'.setLockState n true
    -- nobody else is there, so the counters are those of the first check
    have hanc' := hwon.ancestors n
    have hdesc' := hwon.descendants n
    rw [Function.update_self] at hanc' hdesc'
    dsimp only at hanc' hdesc'
    refine .read (.goto .lockReloadDescendants) (fun _ => if_neg (by omega)) fun H => ?_
    refine .read (.goto .storeOwner) (fun _ => if_neg (by omega)) fun H => ?_
    exact .goto (fun _ => rfl) fun H =>
      leads_publish rfl (hm'.setState_setOwner n true c.userId)

/-- `unlock`, alone. -/
theorem leads_unlock (hm : Mirrors m T.node) (hn : T.getNode c.nodeName = some n) :
    Leads T.shape (Ends (T.unlock c.nodeName c.userId).1 c (T.unlock c.nodeName c.userId).2)
      (alone m (.running c k n .unlockLoadOwner) H) := by
  have hload := hm.lockedBy n
  rw [PaymentTree.unlock_eq c.userId hn]
  by_cases howner : (T.node n).lockedBy = c.userId
  case neg =>
    rw [if_neg fun h => howner h.2]
    exact .read (.finish false) (fun _ => if_pos (by omega)) fun _ => .ends hm
  refine .read (.goto .unlockClearOwner) (fun _ => if_neg (by omega)) fun H => ?_
  refine .goto (fun _ => rfl) fun H => ?_
  have hcleared := hm.setLockedBy n (-1)
  have hstate := hcleared.lockState n
  rw [Function.update_self] at hstate
  by_cases hflag : (T.node n).isLocked = true
  · rw [if_pos ⟨hflag, howner⟩]
    rw [if_pos hflag] at hstate
    exact .goto (fun _ => if_pos hstate) fun H =>
      leads_publish rfl (hm.setOwner_setState n false (-1))
  · rw [if_neg fun h => hflag h.1]
    rw [if_neg hflag] at hstate
    refine .read (.goto .unlockRestoreOwner) (fun _ => if_neg (by omega)) fun H => ?_
    refine .goto (fun _ => rfl) fun H => .goto (fun _ => rfl) fun H => .ends fun x => ?_
    -- the store that restores the owner puts back what was there
    have hrestored := hcleared.setLockedBy n c.userId
    change ((m.apply (.setLockedBy n (-1))).apply (.setLockedBy n c.userId)).node x = _
    rw [hrestored x, ← howner]
    simp

/-- **The scan** of the subtrees in the queue refuses when it meets a locked node of
another user, and otherwise appends the locked nodes in the order of the queue. -/
theorem leads_scan {P : State Unit → Prop} (hm : Mirrors m T.node) {w ds : List ℕ}
    (hrefused : (∃ d ∈ T.shape.below w, T.flag d = true ∧ (T.node d).lockedBy ≠ c.userId) →
      ∀ H, Leads T.shape P (alone m (.returning c k false) H))
    (hfound : (∀ d ∈ T.shape.below w, T.flag d = true → (T.node d).lockedBy = c.userId) →
      ∀ H, Leads T.shape P (alone m
        (.running c k n (.upgradeScan [] (ds ++ (T.shape.levels w).filter T.flag))) H)) :
    Leads T.shape P (alone m (.running c k n (.upgradeScan w ds)) H) := by
  obtain ⟨reads, next, hwalk, hnext⟩ := walks_scan T c.userId n w ds
  refine .walk hwalk (fun a ha m hm => ?_) hm.shows fun H => ?_
  · obtain rfl := List.eq_of_mem_replicate ha
    exact hm
  · rw [foldl_apply_read]
    rcases hnext with ⟨hbad, rfl⟩ | ⟨hown, rfl⟩
    · exact hrefused hbad H
    · exact hfound hown H

/-- **The release loop** does what that of `PaymentTree` does. -/
theorem leads_release {t : TreeShape} {P : State Unit → Prop} {ds : List ℕ} (hshape : T.shape = t)
    (hm : Mirrors m T.node) (h : ∀ m' H, Mirrors m' (T.release ds).node →
      Leads t P (alone m' (.running c k n .upgradeCas) H)) :
    Leads t P (alone m (.running c k n (.upgradeRelease ds)) H) := by
  induction ds generalizing T m H with
  | nil => exact .read _ (fun _ => rfl) fun H => h m H hm
  | cons d ds ih =>
      refine .goto (fun _ => rfl) fun H => .goto (fun _ => rfl) fun H => ?_
      refine leads_settle hshape (hm.setState_setOwner d false (-1)) fun m' H hm' => ?_
      exact .read _ (fun _ => rfl) fun H =>
        ih (T := T.settle d false (-1) (-1)) hshape hm' h

/-- `upgradeLock`, alone. -/
theorem leads_upgradeLock (hm : Mirrors m T.node) (hexact : T.DescendantsExact)
    (hn : T.getNode c.nodeName = some n) :
    Leads T.shape
      (Ends (T.upgradeLock c.nodeName c.userId).1 c (T.upgradeLock c.nodeName c.userId).2)
      (alone m (.running c k n .upgradeLoadState) H) := by
  have hanc := hm.ancestors n
  have hstate := hm.lockState n
  rw [PaymentTree.upgradeLock_eq c.userId hn]
  by_cases hflag : (T.node n).isLocked = true
  · rw [if_neg fun h => Bool.false_ne_true (h.1.symm.trans hflag)]
    rw [if_pos hflag] at hstate
    exact .read (.finish false) (fun _ => if_pos (by omega)) fun _ => .ends hm
  rw [if_neg hflag] at hstate
  have hfree : T.flag n = false := Bool.eq_false_iff.2 hflag
  refine .read (.goto .upgradeLoadAncestors) (fun _ => if_neg (by omega)) fun H => ?_
  by_cases ha : (T.node n).ancestorLockedCount ≤ 0
  case neg =>
    rw [if_neg fun h => ha h.2.1]
    exact .read (.finish false) (fun _ => if_pos (by omega)) fun _ => .ends hm
  refine .read (.goto (.upgradeScan (T.shape.children n) [])) (fun _ => if_neg (by omega))
    fun H => ?_
  -- the scan finds the locked descendants, in its own order
  have hperm := T.perm_lockedBelow n
  have hlocked {d : ℕ} : d ∈ T.lockedBelow n ↔
      d ∈ T.shape.below (T.shape.children n) ∧ T.flag d = true := by
    rw [PaymentTree.lockedBelow, List.mem_filter, Forest.descendants_eq]
  refine leads_scan hm (fun hforeign _ => ?_) fun hown H => ?_
  · obtain ⟨d, hd, hdflag, howner⟩ := hforeign
    rw [if_neg fun h => howner (h.2.2.2 d (hlocked.2 ⟨hd, hdflag⟩))]
    exact .ends hm
  rw [List.nil_append]
  set ds := (T.shape.levels (T.shape.children n)).filter T.flag
  have hnone : (T.node n).descendantLockedCount = 0 ↔ ds = [] := by
    rw [hexact n, Nat.cast_eq_zero, Forest.countBelow_eq_zero, List.eq_nil_iff_forall_not_mem]
    refine forall_congr' fun d => ?_
    rw [hperm.mem_iff, PaymentTree.mem_lockedBelow, not_and, Bool.not_eq_true]
  by_cases hds : ds = []
  · rw [if_neg fun h => h.2.2.1 (hnone.2 hds)]
    refine .read (.finish false) (fun _ => if_pos ?_) fun _ => .ends hm
    rw [hds, List.isEmpty_nil]
  · rw [if_pos ⟨hfree, ha, mt hnone.1 hds, fun d hd => hown d (hlocked.1 hd).1 (hlocked.1 hd).2⟩]
    refine .read (.goto (.upgradeRelease ds))
      (fun _ => if_neg (by rwa [List.isEmpty_iff])) fun H => ?_
    refine leads_release rfl hm fun m' H hm' => ?_
    rw [PaymentTree.release_perm hperm] at hm'
    -- the target has stayed unlocked during the releases
    obtain ⟨hsettles, hflags⟩ := PaymentTree.Settles.refl.release (T.nodup_lockedBelow n)
      fun d hd => (PaymentTree.mem_lockedBelow.1 hd).2
    have hstate' := hm'.lockState n
    rw [show ((T.release (T.lockedBelow n)).node n).isLocked = false from
      (hflags n).trans (by rw [hfree, Bool.false_and]), if_neg Bool.false_ne_true] at hstate'
    refine .goto (fun _ => if_pos hstate') fun H => .goto (fun _ => rfl) fun H => ?_
    exact leads_publish hsettles.shape_eq (hm'.setState_setOwner n true c.userId)

end Operations

/-! ### Whole sequences -/

theorem AtomicPaymentTree.Completes.unique {t t₁ t₂ : AtomicPaymentTree} {c : Call}
    {fails : List Bool} {r₁ r₂ : Bool} (h₁ : t.Completes c fails t₁ r₁)
    (h₂ : t.Completes c fails t₂ r₂) : t₁ = t₂ ∧ r₁ = r₂ := by
  obtain ⟨s₁, s₁', k₁, hbegin₁, hsolo₁, hret₁, rfl⟩ := h₁
  obtain ⟨s₂, s₂', k₂, hbegin₂, hsolo₂, hret₂, rfl⟩ := h₂
  obtain rfl := Option.some.inj (hbegin₁.symm.trans hbegin₂)
  obtain rfl := hsolo₁.unique hsolo₂
  have hret := Option.some.inj (hret₁.symm.trans hret₂)
  simp only [Event.ret.injEq] at hret
  exact ⟨rfl, hret.2.2.2⟩

section Sequences

variable {T : PaymentTree} {t : AtomicPaymentTree}

theorem Agrees.addNode (h : Agrees T t) (nodeName parentName : String) :
    Agrees (T.addNode nodeName parentName) (t.addNode nodeName parentName) := by
  obtain ⟨hshape, hnode⟩ := h
  refine ⟨congrArg (·.addNode nodeName parentName) hshape, fun n => ?_⟩
  rw [AtomicPaymentTree.addNode, PaymentTree.addNode, hshape]
  dsimp only
  split
  · exact hnode n
  · dsimp only
    by_cases hn : n = t.shape.size
    · rw [hn, Function.update_self, Function.update_self]
      rfl
    · rw [Function.update_of_ne hn, Function.update_of_ne hn]
      exact hnode n

/-- **One call.**  It returns, with the result of the sequential call, and the trees
agree again. -/
theorem Agrees.call (h : Agrees T t) (hexact : T.DescendantsExact) (c : Call)
    (fails : List Bool) : ∃ t', t.Completes c fails t' (T.call c).2 ∧ Agrees (T.call c).1 t' := by
  obtain ⟨hshape, hnode⟩ := h
  have hends : Leads t.shape (Ends (T.call c).1 c (T.call c).2)
      (alone t.mem (.enter t.shape c 0) [.invoke () c]) := by
    rw [← hshape, Local.enter]
    cases hn : T.shape.getNode c.nodeName with
    | none =>
        rw [PaymentTree.call_eq_of_unknown hn]
        exact .ends hnode
    | some n =>
        rw [PaymentTree.call]
        cases hop : c.op with
        | lock => exact leads_lock hnode hn
        | unlock => exact leads_unlock hnode hn
        | upgradeLock => exact leads_upgradeLock hnode hexact hn
  obtain ⟨s, hsolo, ⟨k, hret⟩, hmirrors⟩ := hends fails
  refine ⟨⟨t.shape, s.mem⟩, ⟨_, s, k, ?_, hsolo, hret, rfl⟩, ?_, hmirrors⟩
  · simp [step, start, alone, funext_iff]
  · rw [PaymentTree.call_shape, hshape]

/-- One action. -/
theorem Agrees.act (h : Agrees T t) (hexact : T.DescendantsExact) (a : Action)
    (fails : List Bool) : ∃ t', t.Acts fails t' (T.act a).2 a ∧ Agrees (T.act a).1 t' := by
  cases a with
  | addNode nodeName parentName => exact ⟨_, ⟨rfl, rfl⟩, h.addNode nodeName parentName⟩
  | call c =>
      obtain ⟨t', hc, ht'⟩ := h.call hexact c fails
      exact ⟨t', ⟨_, rfl, hc⟩, ht'⟩

theorem AtomicPaymentTree.Acts.unique {t₁ t₂ : AtomicPaymentTree} {a : Action}
    {fails : List Bool} {r₁ r₂ : Option Bool} (h₁ : t.Acts fails t₁ r₁ a)
    (h₂ : t.Acts fails t₂ r₂ a) : t₁ = t₂ ∧ r₁ = r₂ := by
  cases a with
  | addNode nodeName parentName =>
      exact ⟨h₁.1.trans h₂.1.symm, h₁.2.trans h₂.2.symm⟩
  | call c =>
      obtain ⟨b₁, rfl, hc₁⟩ := h₁
      obtain ⟨b₂, rfl, hc₂⟩ := h₂
      obtain ⟨rfl, rfl⟩ := hc₁.unique hc₂
      exact ⟨rfl, rfl⟩

/-- Every sequence of actions, from trees that agree. -/
theorem Agrees.actions (h : Agrees T t) (hexact : T.DescendantsExact)
    (as : List (Action × List Bool)) : (∃ t' rs, t.ActsAll as t' rs) ∧
      ∀ t' rs, t.ActsAll as t' rs →
        rs = T.actResults (as.map Prod.fst) ∧ Agrees (T.runActions (as.map Prod.fst)) t' := by
  induction as generalizing T t with
  | nil =>
      refine ⟨⟨t, [], rfl, rfl⟩, ?_⟩
      rintro t' rs ⟨rfl, rfl⟩
      exact ⟨rfl, h⟩
  | cons a as ih =>
      obtain ⟨a, fails⟩ := a
      obtain ⟨t₁, hact, hagrees⟩ := h.act hexact a fails
      obtain ⟨⟨t', rs, hrest⟩, hall⟩ := ih hagrees (hexact.act a)
      refine ⟨⟨t', _, t₁, _, rs, hact, hrest, rfl⟩, ?_⟩
      rintro t' rs ⟨t₂, r₂, rs, hact', hrest', rfl⟩
      obtain ⟨rfl, rfl⟩ := hact.unique hact'
      obtain ⟨rfl, hend⟩ := hall t' rs hrest'
      exact ⟨rfl, hend⟩

/-- **The two trees agree when used by one thread.**  Whatever a single thread does,
`addNode` between calls included, and whichever of its steps fail spuriously, every
call of `AtomicPaymentTree` returns, and what it returns is what `PaymentTree` returns;
after the last action, so after every one, both trees have the same nodes, which hold
the same. -/
theorem trees_agree (as : List (Action × List Bool)) :
    (∃ t rs, AtomicPaymentTree.empty.ActsAll as t rs) ∧
      ∀ t rs, AtomicPaymentTree.empty.ActsAll as t rs →
        rs = PaymentTree.empty.actResults (as.map Prod.fst) ∧
          Agrees (PaymentTree.empty.runActions (as.map Prod.fst)) t := by
  refine Agrees.actions ⟨rfl, fun _ => rfl⟩ ?_ as
  exact (PaymentTree.exact_build []).descendants

end Sequences

end Atomic
end PaymentGateway
