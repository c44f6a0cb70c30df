/-
# `AtomicPaymentTree` linearizes to `PaymentTree` on unrelated targets

Threads with distinct ids lock and unlock nodes of a set `S` in which no node is an
ancestor of another, such as the leaves.  Every complete history of their calls is
explained by one sequential order of the same calls on a `PaymentTree`
(`linearizes`): the order respects real time, every call returns what it returned,
and the two trees end with the same locks, owners and counters.

The counters of the targets stay at 0, although their ancestors' counters lag
behind (`Confined.counters`): no relative of a target is ever locked, and no call on
another target owes it anything.  So the counter checks of `lock` pass and the
rollback is never taken.  A call takes effect at the `compare_exchange` on its node,
successful or not, except for an `unlock` that fails its owner check, which takes
effect there (`exec_takes_effect`).  The owner fields of the two trees differ
between the `compare_exchange` and the stores of an owner; `Explains` therefore
relates the owner of the sequential tree to the thread that holds the node.
-/

import PaymentGateway.Atomic.Calls
import PaymentGateway.Atomic.Recorded
import PaymentGateway.Lib.Linearization
import PaymentGateway.Sequential.Counters

namespace PaymentGateway

open Lib

/-! ### The sequential calls -/

namespace PaymentTree

variable {T : PaymentTree} {nodeName : String} {n : ℕ}

/-- `lock` of a node without locked relatives looks at the node alone. -/
theorem Exact.lock_eq_of_counts (h : T.Exact) (userId : ℤ) (hn : T.shape.getNode nodeName = some n)
    (habove : T.shape.countAbove T.flag n = 0) (hbelow : T.shape.countBelow T.flag n = 0) :
    T.lock nodeName userId =
      if T.flag n = true then (T, false) else (T.settle n true userId 1, true) := by
  have hanc := h.ancestors n
  have hdesc := h.descendants n
  rw [habove] at hanc
  rw [hbelow] at hdesc
  cases hlocked : (T.node n).isLocked <;>
    simp [PaymentTree.lock, getNode, hn, flag, hanc, hdesc, hlocked]

end PaymentTree

namespace Atomic

variable {Tid : Type}

/-! ### The runs, and what they return -/

/-- The calls are `lock` and `unlock` of nodes in `S`, each with the id of its thread. -/
def OnTargets (t : TreeShape) (user : Tid → ℤ) (S : Set ℕ) : Label Tid → Prop
  | .invoke i c => c.userId = user i ∧ c.op ≠ .upgradeLock ∧
      ∃ n ∈ S, t.getNode c.nodeName = some n
  | .tick _ _ => True

instance (t : TreeShape) (user : Tid → ℤ) (S : Set ℕ) [DecidablePred (· ∈ S)] (l : Label Tid) :
    Decidable (OnTargets t user S l) :=
  match l with
  | .invoke i c =>
      decidable_of_iff (c.userId = user i ∧ c.op ≠ .upgradeLock ∧
        (t.getNode c.nodeName).any fun n => decide (n ∈ S))
        (by simp [OnTargets, Option.any_eq_true, and_comm])
  | .tick _ _ => inferInstanceAs (Decidable True)

/-- The states of the runs with such calls, on the tree built by `adds`. -/
def TargetRun [DecidableEq Tid] (adds : List NodeSpec) (user : Tid → ℤ) (S : Set ℕ)
    (s : State Tid) : Prop :=
  Reaches (step (AtomicPaymentTree.build adds).shape)
    (fun _ l => OnTargets (AtomicPaymentTree.build adds).shape user S l)
    (start (AtomicPaymentTree.build adds)) s

/-- A schedule that ends in a state with the property `p` is a run on targets to such a
state. -/
theorem targetRun_of_exec [DecidableEq Tid] (adds : List NodeSpec) (user : Tid → ℤ) (S : Set ℕ)
    [DecidablePred (· ∈ S)] (ls : List (Label Tid)) (p : State Tid → Bool)
    (h : (exec (step (AtomicPaymentTree.build adds).shape)
      (fun _ l => OnTargets (AtomicPaymentTree.build adds).shape user S l)
      (start (AtomicPaymentTree.build adds)) ls).any p = true) :
    ∃ s, TargetRun adds user S s ∧ p s = true :=
  exists_reaches_of_exec ls h

/-- The calls of a history that have returned, with their intervals. -/
def operations : List (Event Tid) → List (Operation Tid Call Bool)
  | [] => []
  | .ret i c begun result :: H => ⟨i, c, begun, result, some H.length⟩ :: operations H
  | .invoke _ _ :: H => operations H
  | .acquire _ _ :: H => operations H
  | .release _ _ :: H => operations H

/-! ### Counters of unrelated targets -/

/-- No node of `S` is a proper ancestor of another. -/
def Unrelated (t : TreeShape) (S : Set ℕ) : Prop := ∀ a ∈ S, ∀ b ∈ S, ¬t.IsAncestor a b

/-- The leaves, which are all that the simulator and the stress test ever lock. -/
def leaves (t : TreeShape) : Set ℕ := {n | t.children n = []}

instance (t : TreeShape) : DecidablePred (· ∈ leaves t) := fun n =>
  inferInstanceAs (Decidable (t.children n = []))

theorem unrelated_leaves (t : TreeShape) : Unrelated t (leaves t) := by
  rintro a ha b - hab
  obtain ⟨c, hc, -⟩ := Forest.isAncestor_iff_child.1 hab
  rw [show t.children a = [] from ha] at hc
  cases hc

/-- The call in progress is on a node of `S` and does not roll back. -/
def Local.Confined (S : Set ℕ) : Local → Prop
  | .running c _ n pc => n ∈ S ∧ c.op ≠ .upgradeLock ∧ pc ≠ .lockRollback
  | _ => True

/-- Only nodes of `S` are locked, and all calls are on nodes of `S`. -/
structure Confined (S : Set ℕ) (s : State Tid) : Prop where
  calls : ∀ i, (s.thread i).Confined S
  locked : ∀ n, (s.mem.node n).lockState = 1 → n ∈ S

section Exec

variable {t : TreeShape} {m : Memory} {u : ℤ} {n x : ℕ} {sp : Bool} {pc : Pc} {op : Op}

/-- A `lock` or `unlock` owes nothing to a node that is no relative of its own. -/
theorem Pc.Fits.owed_eq_zero (h : pc.Fits t op n) (hop : op ≠ .upgradeLock)
    (hx : ¬t.Related n x) : pc.owedUp t n x = 0 ∧ pc.owedDown t n x = 0 := by
  have hup : (t.ancestors n).count x = 0 := by
    rw [Forest.count_ancestors, if_neg fun h => hx (.inr h)]
  have hdown : (t.descendants n).count x = 0 := by
    rw [Forest.count_descendants, if_neg fun h => hx (.inl h)]
  cases pc with
  | informUp node delta current after | informDown node delta current after =>
      obtain ⟨hafter, hcount⟩ := h
      have hwalk := hcount x
      cases after with
      | finish =>
          obtain ⟨rfl, -⟩ := hafter
          simp_all [Pc.owedUp, Pc.owedDown]
      | release ds => exact absurd hafter.2.1 hop
  | upgradeClearOwner d ds => exact absurd h.1 hop
  | _ => simp [Pc.owedUp, Pc.owedDown, hup, hdown]

/-- A `lock` rolls back only when a counter says that a relative is locked. -/
theorem exec_rollback (h : (pc.exec t m u n sp).2 = .goto .lockRollback) :
    (m.node n).ancestorLockedCount > 0 ∨ (m.node n).descendantLockedCount > 0 := by
  revert h
  fun_cases Pc.exec t m u n sp pc <;> simp_all

/-- How far a `lock` or an `unlock` has got: its result is open until its
`compare_exchange` wins. -/
def Pc.progress (c : Call) (k : ℕ) : Pc → Progress Call Bool
  | .lockLoadAncestors | .lockLoadDescendants | .lockCas | .lockCountRetry
  | .unlockLoadOwner | .unlockClearOwner | .unlockCas => .pending c k
  | _ => .decided c k true

def Local.progress : Local → Progress Call Bool
  | .idle => .idle
  | .running c k _ pc => pc.progress c k
  | .returning c k result => .decided c k result

/-- **Where a call takes effect.**  With both counters at 0 a step leaves the lock
states and the progress of the call alone, or it is one of four: the
`compare_exchange` of `lock`, failing or winning, the owner check of `unlock`,
failing, and its `compare_exchange`, winning. -/
theorem exec_takes_effect (t : TreeShape) (m : Memory) (u : ℤ) (sp : Bool) {c : Call} (k : ℕ)
    (hfits : pc.Fits t c.op n) (hop : c.op ≠ .upgradeLock) (hpc : pc ≠ .lockRollback)
    (hrest : ¬pc.Restoring) (hlocked : pc = .unlockCas → (m.node n).lockState = 1)
    (hanc : (m.node n).ancestorLockedCount = 0) (hdesc : (m.node n).descendantLockedCount = 0) :
    let r := pc.exec t m u n sp
    ((∀ y v, r.1 ≠ .setLockState y v) ∧ (r.2.toLocal c k n).progress = pc.progress c k) ∨
      (pc = .lockCas ∧ (m.node n).lockState ≠ 0 ∧ r = (.read, .finish false)) ∨
      (pc = .lockCas ∧ (m.node n).lockState = 0 ∧
        r = (.setLockState n 1, .goto .lockReloadAncestors)) ∨
      (pc = .unlockLoadOwner ∧ (m.node n).lockedBy ≠ u ∧ r = (.read, .finish false)) ∨
      (pc = .unlockCas ∧ (m.node n).lockState = 1 ∧
        r = (.setLockState n 0, .goto (.informUp n (-1) (t.parent n) .finish))) := by
  revert hfits hpc hrest hlocked
  fun_cases Pc.exec t m u n sp pc <;> intro hfits hpc hrest hlocked <;>
    simp_all [Pc.Fits, After.Fits, Pc.progress, Local.progress, Next.toLocal, Pc.Restoring]

end Exec

section Confined

variable {t : TreeShape} {user : Tid → ℤ} {S : Set ℕ} {s s' : State Tid} {l : Label Tid}

theorem confined_start (adds : List NodeSpec) :
    Confined S (start (AtomicPaymentTree.build adds) : State Tid) :=
  ⟨fun _ => trivial, fun n h => by
    rw [start, build_node] at h
    cases h⟩

/-- No relative of a node of `S` is locked. -/
theorem Confined.count_eq_zero (h : Confined S s) (hS : Unrelated t S) {n : ℕ} (hn : n ∈ S) :
    t.countAbove s.mem.flag n = 0 ∧ t.countBelow s.mem.flag n = 0 := by
  refine ⟨Finset.card_eq_zero.2 (Finset.filter_eq_empty_iff.2 ?_),
    Finset.card_eq_zero.2 (Finset.filter_eq_empty_iff.2 ?_)⟩
  · rintro x - ⟨hrel, hflag⟩
    exact hS x (h.locked x ((Memory.flag_eq_true_iff _ _).1 hflag)) n hn hrel
  · rintro x - ⟨hrel, hflag⟩
    exact hS n hn x (h.locked x ((Memory.flag_eq_true_iff _ _).1 hflag)) hrel

/-- **The counters of the targets stay at 0.** -/
theorem Confined.counters [Fintype Tid] (h : Confined S s) (hsound : Sound t s)
    (hS : Unrelated t S) {n : ℕ} (hn : n ∈ S) :
    (s.mem.node n).ancestorLockedCount = 0 ∧ (s.mem.node n).descendantLockedCount = 0 := by
  obtain ⟨habove, hbelow⟩ := h.count_eq_zero hS hn
  have howed (i : Tid) : (s.thread i).owedUp t n = 0 ∧ (s.thread i).owedDown t n = 0 := by
    have hfits := hsound.fits i
    have hcall := h.calls i
    cases hi : s.thread i with
    | running c k n' pc =>
        rw [hi] at hfits hcall
        refine Pc.Fits.owed_eq_zero hfits hcall.2.1 ?_
        rintro (hrel | hrel)
        · exact hS _ hcall.1 _ hn hrel
        · exact hS _ hn _ hcall.1 hrel
    | _ => exact ⟨rfl, rfl⟩
  refine ⟨?_, ?_⟩
  · rw [(hsound.down n).eq_of_zero fun i => (howed i).2, habove]
    rfl
  · rw [(hsound.up n).eq_of_zero fun i => (howed i).1, hbelow]
    rfl

/-- No step clears an owner for an `upgradeLock`. -/
theorem Confined.sparesOwners [Fintype Tid] (h : Confined S s) (hsound : Sound t s)
    (l : Label Tid) : SparesOwners user s l := by
  refine sparesOwners_of_lockUnlock hsound.fits (fun {i c k n pc} hi => ?_) l
  have hcall := h.calls i
  rw [hi] at hcall
  exact hcall.2.1

variable [DecidableEq Tid]

/-- Every step keeps to the targets. -/
theorem Confined.step [Fintype Tid] (h : Confined S s) (hsound : Sound t s) (hS : Unrelated t S)
    (hl : OnTargets t user S l) (hs : Atomic.step t s l = some s') : Confined S s' := by
  cases move_of_step hs with
  | invoke i c hi =>
      refine ⟨(Function.forall_update_iff _ fun _ => Local.Confined S).2
        ⟨?_, fun j _ => h.calls j⟩, h.locked⟩
      obtain ⟨-, hop, n, hn, hname⟩ := hl
      unfold Local.enter
      rw [hname]
      refine ⟨hn, hop, ?_⟩
      cases c.op <;> nofun
  | ret i sp c k r hi =>
      exact ⟨(Function.forall_update_iff _ fun _ => Local.Confined S).2
        ⟨trivial, fun j _ => h.calls j⟩, h.locked⟩
  | exec i sp c k n pc hi =>
      have hcall := h.calls i
      rw [hi] at hcall
      refine ⟨(Function.forall_update_iff _ fun _ => Local.Confined S).2
        ⟨?_, fun j _ => h.calls j⟩, fun y hy => ?_⟩
      · cases hnext : (pc.exec t s.mem c.userId n sp).2 with
        | finish r => trivial
        | goto pc' =>
            refine ⟨hcall.1, hcall.2.1, ?_⟩
            rintro rfl
            have hzero := h.counters hsound hS hcall.1
            have := exec_rollback hnext
            omega
      · rcases Memory.locked_of_apply _ _ _ hy with hy | hset
        · exact h.locked y hy
        · rcases exec_setLockState hset with ⟨rfl, -⟩ | ⟨h0, -⟩
          · exact hcall.1
          · cases h0

end Confined

/-- A run on targets is a run of threads with their own ids. -/
theorem TargetRun.ownRun [DecidableEq Tid] {adds : List NodeSpec} {user : Tid → ℤ} {S : Set ℕ}
    {s : State Tid} (h : TargetRun adds user S s) : OwnRun adds user s :=
  h.mono fun _ l hl => by
    cases l with
    | invoke i c => exact hl.1
    | tick i sp => trivial

/-- Along a run on unrelated targets, what is known so far. -/
theorem TargetRun.confined [Fintype Tid] [DecidableEq Tid] {adds : List NodeSpec} {user : Tid → ℤ}
    {S : Set ℕ} {s : State Tid} (h : TargetRun adds user S s) (hu : DistinctUsers user)
    (hS : Unrelated (AtomicPaymentTree.build adds).shape S) : Confined S s ∧ Recorded user s := by
  unfold TargetRun at h
  refine h.invariant ?_ ?_
  · exact ⟨confined_start adds, recorded_start _⟩
  · rintro s₁ l s₂ hr ⟨hconf, hrec⟩ hl hs
    obtain ⟨hsound, hcust⟩ := (TargetRun.ownRun hr).sound_custody hu
    exact ⟨hconf.step hsound hS hl hs, hrec.step hcust (hconf.sparesOwners hsound l) hs⟩

/-! ### The ledger of a run -/

/-- The ledger `g` explains the state `s`: it has every call at the same progress and
the same completed calls, and its tree agrees with memory on what is locked and with
the history on whose it is. -/
structure Explains (adds : List NodeSpec) (user : Tid → ℤ) [DecidableEq Tid]
    (g : Ledger Tid Call Bool PaymentTree) (s : State Tid) : Prop where
  valid : g.Valid PaymentTree.call (PaymentTree.build adds)
  progress : g.progress = Local.progress ∘ s.thread
  clock : g.clock ≤ s.hist.length
  completed : g.completed = operations s.hist
  shape : g.state.shape = (AtomicPaymentTree.build adds).shape
  exact : g.state.Exact
  flag : g.state.flag = s.mem.flag
  owner : ∀ i n, Holds i n s.hist → (g.state.node n).lockedBy = user i

section Explains

variable [DecidableEq Tid] {adds : List NodeSpec} {user : Tid → ℤ} {S : Set ℕ}
  {g : Ledger Tid Call Bool PaymentTree} {s s' : State Tid} {l : Label Tid}

theorem explains_start (adds : List NodeSpec) (user : Tid → ℤ) :
    Explains adds user ⟨PaymentTree.build adds, fun _ => .idle, 0, [], []⟩
      (start (AtomicPaymentTree.build adds) : State Tid) where
  valid := .start _ 0
  progress := rfl
  clock := le_rfl
  completed := rfl
  shape := (PaymentTree.build_shape_eq adds).trans (AtomicPaymentTree.build_shape_eq adds).symm
  exact := PaymentTree.exact_build adds
  flag := funext fun n => by
    rw [PaymentTree.flag, PaymentTree.build_node, Memory.flag, start, build_node]
    rfl
  owner i n h := h.elim

variable {i : Tid} {sp : Bool} {c : Call} {k n : ℕ} {pc : Pc}

/-- A call begins. -/
theorem Explains.invoke (h : Explains adds user g s) (hi : s.thread i = .idle)
    (hop : c.op ≠ .upgradeLock)
    (hn : (AtomicPaymentTree.build adds).shape.getNode c.nodeName = some n) :
    ∃ g', Explains adds user g' ⟨s.mem, Function.update s.thread i
      (.enter (AtomicPaymentTree.build adds).shape c s.hist.length), .invoke i c :: s.hist⟩ := by
  have hidle : g.progress i = .idle := by rw [h.progress, Function.comp_apply, hi]; rfl
  refine ⟨g.invoke i c s.hist.length, h.valid.invoke hidle h.clock, ?_, Nat.le_succ _,
    h.completed, h.shape, h.exact, h.flag, h.owner⟩
  unfold Local.enter
  rw [Function.comp_update, ← h.progress, hn]
  cases hc : c.op with
  | upgradeLock => exact absurd hc hop
  | _ => rfl

/-- A call returns. -/
theorem Explains.ret (h : Explains adds user g s) {r : Bool} (hi : s.thread i = .returning c k r) :
    ∃ g', Explains adds user g'
      ⟨s.mem, Function.update s.thread i .idle, .ret i c k r :: s.hist⟩ := by
  have hdecided : g.progress i = .decided c k r := by rw [h.progress, Function.comp_apply, hi]; rfl
  refine ⟨g.finish i c k r s.hist.length, h.valid.finish hdecided h.clock, ?_, Nat.le_succ _, ?_,
    h.shape, h.exact, h.flag, h.owner⟩
  · rw [Function.comp_update, ← h.progress]
    rfl
  · simp only [Ledger.finish, operations, h.completed]

/-- A step that leaves the lock states and the progress of its call alone. -/
theorem Explains.silent (h : Explains adds user g s) {t : TreeShape}
    (hi : s.thread i = .running c k n pc)
    (hset : ∀ y v, (pc.exec t s.mem c.userId n sp).1 ≠ .setLockState y v)
    (hsame : ((pc.exec t s.mem c.userId n sp).2.toLocal c k n).progress = pc.progress c k) :
    Explains adds user g ⟨s.mem.apply (pc.exec t s.mem c.userId n sp).1,
      Function.update s.thread i ((pc.exec t s.mem c.userId n sp).2.toLocal c k n),
      (pc.exec t s.mem c.userId n sp).1.events i ++ s.hist⟩ := by
  have hquiet : (pc.exec t s.mem c.userId n sp).1.events i = [] := by
    cases ha : (pc.exec t s.mem c.userId n sp).1 with
    | setLockState y v => exact absurd ha (hset y v)
    | _ => rfl
  rw [hquiet, List.nil_append]
  refine ⟨h.valid, ?_, h.clock, h.completed, h.shape, h.exact, ?_, h.owner⟩
  · have hpc : g.progress i = pc.progress c k := by rw [h.progress, Function.comp_apply, hi]; rfl
    rw [Function.comp_update, ← h.progress, hsame, ← hpc, Function.update_eq_self]
  · rw [h.flag, exec_flag_eq hset]

/-- A call takes effect without changing anything. -/
theorem Explains.refused (h : Explains adds user g s) (hi : g.progress i = .pending c k)
    (hcall : g.state.call c = (g.state, false)) :
    Explains adds user (g.commit PaymentTree.call i c k)
      ⟨s.mem, Function.update s.thread i (.returning c k false), s.hist⟩ := by
  refine ⟨h.valid.commit hi, ?_, h.clock, h.completed, ?_, ?_, ?_, ?_⟩
  · rw [Function.comp_update, ← h.progress]
    simp only [Ledger.commit, hcall]
    rfl
  all_goals simp only [Ledger.commit, hcall]
  · exact h.shape
  · exact h.exact
  · exact h.flag
  · exact h.owner

/-- A call takes effect by settling its node: the flag is `b` from now on. -/
theorem Explains.settled (h : Explains adds user g s) (hi : g.progress i = .pending c k)
    {b : Bool} {u δ : ℤ} {l : Local} {e : Event Tid}
    (hcall : g.state.call c = (g.state.settle n b u δ, true))
    (hl : l.progress = .decided c k true) (he : operations (e :: s.hist) = operations s.hist)
    (hδ : δ = (b.toNat : ℤ) - (g.state.flag n).toNat) (hu : b = false → u = -1)
    (hown : ∀ j y, Holds j y (e :: s.hist) →
      y = n ∧ u = user j ∨ y ≠ n ∧ Holds j y s.hist) :
    Explains adds user (g.commit PaymentTree.call i c k)
      ⟨s.mem.apply (.setLockState n (b.toNat : ℤ)), Function.update s.thread i l, e :: s.hist⟩ := by
  refine ⟨h.valid.commit hi, ?_, Nat.le_succ_of_le h.clock, ?_, ?_, ?_, ?_, ?_⟩
  · rw [Function.comp_update, ← h.progress, hl]
    simp only [Ledger.commit, hcall]
  · exact h.completed.trans he.symm
  all_goals simp only [Ledger.commit, hcall]
  · exact h.shape
  · exact h.exact.settle n b hδ hu
  · rw [PaymentTree.settle_flag, Memory.apply_flag, h.flag]
    cases b <;> rfl
  · intro j y hj
    rw [PaymentTree.settle_node]
    rcases hown j y hj with ⟨rfl, hu⟩ | ⟨hne, hj⟩
    · exact (if_pos rfl).trans hu
    · exact (if_neg hne).trans (h.owner j y hj)

/-- The sequential `lock` of a target succeeds exactly when the node is free. -/
theorem Explains.call_lock (h : Explains adds user g s) (hconf : Confined S s)
    (hS : Unrelated (AtomicPaymentTree.build adds).shape S) (hn : n ∈ S)
    (hname : (AtomicPaymentTree.build adds).shape.getNode c.nodeName = some n)
    (hc : c.op = .lock) : g.state.call c =
      if (s.mem.node n).lockState = 1 then (g.state, false)
      else (g.state.settle n true c.userId 1, true) := by
  obtain ⟨habove, hbelow⟩ := hconf.count_eq_zero hS hn
  rw [← h.flag, ← h.shape] at habove hbelow
  rw [← h.shape] at hname
  rw [PaymentTree.call, hc]
  refine (h.exact.lock_eq_of_counts c.userId hname habove hbelow).trans (if_congr ?_ rfl rfl)
  rw [h.flag, Memory.flag_eq_true_iff]

/-- The sequential `unlock` succeeds exactly for the owner of a locked node. -/
theorem Explains.call_unlock (h : Explains adds user g s)
    (hname : (AtomicPaymentTree.build adds).shape.getNode c.nodeName = some n)
    (hc : c.op = .unlock) : g.state.call c =
      if (s.mem.node n).lockState = 1 ∧ (g.state.node n).lockedBy = c.userId then
        (g.state.settle n false (-1) (-1), true)
      else (g.state, false) := by
  rw [← h.shape] at hname
  rw [PaymentTree.call, hc]
  refine (PaymentTree.unlock_eq c.userId hname).trans (if_congr (and_congr_left' ?_) rfl rfl)
  rw [h.flag, Memory.flag_eq_true_iff]

/-- Whoever owns the node in the sequential tree passes the owner check of `unlock`. -/
theorem Explains.passes (h : Explains adds user g s) (hcust : Custody user s)
    (hrec : Recorded user s) (hu : DistinctUsers user)
    (hi : s.thread i = .running c k n .unlockLoadOwner) (hlocked : (s.mem.node n).lockState = 1)
    (howner : (g.state.node n).lockedBy = c.userId) : (s.mem.node n).lockedBy = c.userId := by
  obtain ⟨j, hj⟩ := (hcust.locked_iff n).1 hlocked
  have huser := hcust.userId_eq hi
  obtain rfl : j = i := hu.injective (by rw [← h.owner j n hj, howner, huser])
  exact (hrec.stored j n hj (by rw [hi]; nofun)).trans huser.symm

/-- **Every access is explained**: the sequential tree makes the call where it takes
effect, with the result the call goes on to return. -/
theorem Explains.exec [Fintype Tid] (h : Explains adds user g s)
    (hsound : Sound (AtomicPaymentTree.build adds).shape s) (hcust : Custody user s)
    (hres : Resolved (AtomicPaymentTree.build adds).shape s) (hrec : Recorded user s)
    (hu : DistinctUsers user) (hconf : Confined S s)
    (hS : Unrelated (AtomicPaymentTree.build adds).shape S) (hi : s.thread i = .running c k n pc) :
    let r := pc.exec (AtomicPaymentTree.build adds).shape s.mem c.userId n sp
    ∃ g', Explains adds user g' ⟨s.mem.apply r.1,
      Function.update s.thread i (r.2.toLocal c k n), r.1.events i ++ s.hist⟩ := by
  intro r
  have hfits := hsound.fits i
  have hcall := hconf.calls i
  have hname := hres.calls i
  have huser : c.userId = user i := hcust.userId_eq hi
  have hprogress : g.progress i = pc.progress c k := by
    rw [h.progress, Function.comp_apply, hi]
    rfl
  rw [hi] at hfits hcall hname
  obtain ⟨hn, hop, hpc⟩ := hcall
  have hlock := h.call_lock hconf hS hn hname.1
  have hunlock := h.call_unlock hname.1
  have hflag : g.state.flag n = decide ((s.mem.node n).lockState = 1) := by rw [h.flag]; rfl
  have hlocked : pc = .unlockCas → (s.mem.node n).lockState = 1 := by
    rintro rfl
    exact hcust.locked (hcust.holds_of_claims hi (List.mem_singleton.2 rfl))
  obtain ⟨hanc, hdesc⟩ := hconf.counters hsound hS hn
  rcases exec_takes_effect _ s.mem c.userId sp k hfits hop hpc (hcust.running_not_restoring hi)
    hlocked hanc hdesc with
    ⟨hset, hsame⟩ | ⟨rfl, hbusy, hr⟩ | ⟨rfl, hfree, hr⟩ | ⟨rfl, hother, hr⟩ | ⟨rfl, hone, hr⟩
  · exact ⟨g, h.silent hi hset hsame⟩
  -- `lock` finds the node locked
  · simp only [r, hr]
    have hone := (hsound.lockState n).resolve_left hbusy
    exact ⟨_, h.refused hprogress ((hlock hfits).trans (if_pos hone))⟩
  -- `lock` wins the node
  · simp only [r, hr]
    refine ⟨_, h.settled (b := true) (n := n) (u := c.userId) (δ := 1) hprogress
      ((hlock hfits).trans (if_neg (by omega))) rfl rfl (by simp [hflag, hfree]) nofun ?_⟩
    rintro j y (⟨rfl, rfl⟩ | hj)
    · exact .inl ⟨rfl, huser⟩
    · refine .inr ⟨?_, hj⟩
      rintro rfl
      have := hcust.locked hj
      omega
  -- `unlock` is called by somebody else than the owner
  · simp only [r, hr]
    refine ⟨_, h.refused hprogress ((hunlock hfits).trans (if_neg ?_))⟩
    rintro ⟨hone, howner⟩
    exact hother (h.passes hcust hrec hu hi hone howner)
  -- `unlock` releases the node
  · simp only [r, hr]
    have hholds : Holds i n s.hist := hcust.holds_of_claims hi (List.mem_singleton.2 rfl)
    refine ⟨_, h.settled (b := false) (n := n) (u := -1) (δ := -1) hprogress
      ((hunlock hfits).trans (if_pos ⟨hone, (h.owner i n hholds).trans huser.symm⟩)) rfl rfl
      (by simp [hflag, hone]) (fun _ => rfl) ?_⟩
    rintro j y ⟨hnot, hj⟩
    refine .inr ⟨?_, hj⟩
    rintro rfl
    exact hnot ⟨hcust.unique i j y hholds hj, rfl⟩

variable [Fintype Tid]

/-- With no call in flight, the sequential tree has the locks, the owners and the counters
that are in memory. -/
theorem Explains.agrees (h : Explains adds user g s)
    (hsound : Sound (AtomicPaymentTree.build adds).shape s) (hcust : Custody user s)
    (hrec : Recorded user s) (hidle : ∀ i, s.thread i = .idle) (n : ℕ) :
    (s.mem.node n).lockState = (if (g.state.node n).isLocked then 1 else 0) ∧
      (s.mem.node n).lockedBy = (g.state.node n).lockedBy ∧
      (s.mem.node n).ancestorLockedCount = (g.state.node n).ancestorLockedCount ∧
      (s.mem.node n).descendantLockedCount = (g.state.node n).descendantLockedCount := by
  have hflag : (g.state.node n).isLocked = decide ((s.mem.node n).lockState = 1) :=
    congrFun h.flag n
  obtain ⟨habove, hbelow⟩ := hsound.exact_of_idle hidle n
  refine ⟨?_, ?_, ?_, ?_⟩
  · rcases hsound.lockState n with h0 | h1
    · simp [hflag, h0]
    · simp [hflag, h1]
  · by_cases hone : (s.mem.node n).lockState = 1
    -- the holder of a locked node has stored its id
    · obtain ⟨i, hi⟩ := (hcust.locked_iff n).1 hone
      rw [hrec.stored i n hi (by rw [hidle]; nofun), h.owner i n hi]
    -- nobody has left an id on a free node
    · rw [h.exact.owner n (by simp [hflag, hone])]
      exact hcust.lockedBy_of_idle hidle hone
  · rw [habove, h.exact.ancestors, h.shape, h.flag]
  · rw [hbelow, h.exact.descendants, h.shape, h.flag]

/-- With no call in flight, the order of the ledger is a linearization. -/
theorem Explains.exists_linearization (h : Explains adds user g s)
    (hsound : Sound (AtomicPaymentTree.build adds).shape s) (hcust : Custody user s)
    (hrec : Recorded user s) (hidle : ∀ i, s.thread i = .idle) :
    ∃ (l : List (Operation Tid Call Bool)) (T : PaymentTree),
      Linearization PaymentTree.call (PaymentTree.build adds) T (operations s.hist) l ∧
      ∀ n, (s.mem.node n).lockState = (if (T.node n).isLocked then 1 else 0) ∧
        (s.mem.node n).lockedBy = (T.node n).lockedBy ∧
        (s.mem.node n).ancestorLockedCount = (T.node n).ancestorLockedCount ∧
        (s.mem.node n).descendantLockedCount = (T.node n).descendantLockedCount := by
  have hlin := h.valid.linearization fun i => by
    rw [h.progress, Function.comp_apply, hidle]
    rfl
  rw [h.completed] at hlin
  exact ⟨g.order, g.state, hlin, h.agrees hsound hcust hrec hidle⟩

end Explains

section Run

variable [Fintype Tid] [DecidableEq Tid] {adds : List NodeSpec} {user : Tid → ℤ} {S : Set ℕ}
  {s : State Tid}

/-- Along every run on unrelated targets there is a ledger that explains the state. -/
theorem TargetRun.explained (h : TargetRun adds user S s) (hu : DistinctUsers user)
    (hS : Unrelated (AtomicPaymentTree.build adds).shape S) : ∃ g, Explains adds user g s := by
  unfold TargetRun at h
  refine h.invariant ?_ ?_
  · exact ⟨_, explains_start adds user⟩
  · rintro s₁ l s₂ hr ⟨g, hg⟩ hl hs
    obtain ⟨hsound, hcust⟩ := (TargetRun.ownRun hr).sound_custody hu
    obtain ⟨hconf, hrec⟩ := TargetRun.confined hr hu hS
    cases move_of_step hs with
    | invoke i c hi =>
        obtain ⟨-, hop, n, -, hn⟩ := hl
        exact hg.invoke hi hop hn
    | ret i sp c k r hi => exact hg.ret hi
    | exec i sp c k n pc hi =>
        exact hg.exec hsound hcust (TargetRun.ownRun hr).resolved hrec hu hconf hS hi

/-- **Linearizability on unrelated targets.**  In a complete history of `lock` and
`unlock` calls on nodes of `S` the calls can be ordered, consistently with real time,
such that a `PaymentTree` gives each of them the result it had, and ends with the
same lock state, owner and counters of every node. -/
theorem linearizes (hu : DistinctUsers user)
    (hS : Unrelated (AtomicPaymentTree.build adds).shape S) (h : TargetRun adds user S s)
    (hidle : ∀ i, s.thread i = .idle) :
    ∃ (l : List (Operation Tid Call Bool)) (T : PaymentTree),
      Linearization PaymentTree.call (PaymentTree.build adds) T (operations s.hist) l ∧
      ∀ n, (s.mem.node n).lockState = (if (T.node n).isLocked then 1 else 0) ∧
        (s.mem.node n).lockedBy = (T.node n).lockedBy ∧
        (s.mem.node n).ancestorLockedCount = (T.node n).ancestorLockedCount ∧
        (s.mem.node n).descendantLockedCount = (T.node n).descendantLockedCount := by
  obtain ⟨g, hg⟩ := h.explained hu hS
  obtain ⟨hsound, hcust⟩ := h.ownRun.sound_custody hu
  obtain ⟨hconf, hrec⟩ := h.confined hu hS
  exact hg.exists_linearization hsound hcust hrec hidle

/-- Two threads lock `Left`, and the one that fails tries to unlock it: in the
sequential order too the lock is the first thread's. -/
theorem linearizes_contended :
    ∃ (s : State (Fin 2)) (l : List (Operation (Fin 2) Call Bool)) (T : PaymentTree),
      TargetRun smallTree twoUsers (leaves (AtomicPaymentTree.build smallTree).shape) s ∧
      (operations s.hist).map (fun o => (o.thread, o.result)) =
        [(1, false), (0, true), (1, false)] ∧
      Linearization PaymentTree.call (PaymentTree.build smallTree) T (operations s.hist) l ∧
      (T.node 1).lockedBy = 0 := by
  obtain ⟨s, hs, hp⟩ := targetRun_of_exec smallTree twoUsers
    (leaves (AtomicPaymentTree.build smallTree).shape)
    ([.invoke 0 ⟨.lock, "Left", 0⟩, .invoke 1 ⟨.lock, "Left", 1⟩] ++ turns 0 3 ++ turns 1 4 ++
      turns 0 7 ++ .invoke 1 ⟨.unlock, "Left", 1⟩ :: turns 1 2)
    (fun s => decide ((∀ i, s.thread i = .idle) ∧ (s.mem.node 1).lockedBy = 0 ∧
      (operations s.hist).map (fun o => (o.thread, o.result)) =
        [(1, false), (0, true), (1, false)])) (by decide +kernel)
  obtain ⟨hidle, howner, hresults⟩ := of_decide_eq_true hp
  obtain ⟨l, T, hlin, hfinal⟩ := linearizes twoUsers_distinct (unrelated_leaves _) hs hidle
  exact ⟨s, l, T, hs, hresults, hlin, by rw [← (hfinal 1).2.1, howner]⟩

end Run

end Atomic
end PaymentGateway
