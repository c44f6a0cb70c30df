/-
# The shared counters, with what is still owed to them

`Sound` is the invariant of the shared memory: lock states are 0 or 1, a call
that has won a node finds it locked and shares it with nobody, and every counter
together with the debts of all calls gives the number of locked relatives.

It is kept by every step under one proviso, `CleanRelease`: a node is released
only when it is locked and no call is still acquiring it.  Which callers see to
that is a matter of the later files: distinct user ids, or the call discipline of
the simulator.

From the books follow the facts the checks of `lock` and `upgradeLock` rest on:
no counter is ever negative (`Sound.descendants_nonneg`), a counter is positive
as soon as one locked relative has been published to it, whatever other calls
have half finished (`Sound.descendants_pos`), and the counters are exact when no
call is in flight (`Sound.exact_of_idle`).
-/

import PaymentGateway.Atomic.Steps

namespace PaymentGateway
namespace Atomic

open Lib

variable {Tid : Type}

/-- The memory is consistent with what the calls in flight have still to do. -/
structure Sound [Fintype Tid] (t : TreeShape) (s : State Tid) : Prop where
  lockState : ∀ n, (s.mem.node n).lockState = 0 ∨ (s.mem.node n).lockState = 1
  fits : ∀ i, (s.thread i).Fits t
  acquired : ∀ i n, (s.thread i).acquires = some n → (s.mem.node n).lockState = 1
  sole : ∀ i j n, (s.thread i).acquires = some n → (s.thread j).acquires = some n → i = j
  up : ∀ x, Tallied (s.mem.node x).descendantLockedCount
    (Local.owedUp t x ∘ s.thread) (t.countBelow s.mem.flag x)
  down : ∀ x, Tallied (s.mem.node x).ancestorLockedCount
    (Local.owedDown t x ∘ s.thread) (t.countAbove s.mem.flag x)

/-- A step that is about to release a node finds it locked, and no call is still
acquiring it. -/
def CleanRelease (s : State Tid) : Label Tid → Prop
  | .invoke _ _ => True
  | .tick i _ =>
      match s.thread i with
      | .running _ _ n .unlockCas =>
          (s.mem.node n).lockState = 1 → ∀ j, (s.thread j).acquires ≠ some n
      | .running _ _ _ (.upgradeRelease (d :: _)) =>
          (s.mem.node d).lockState = 1 ∧ ∀ j, (s.thread j).acquires ≠ some d
      | _ => True

variable {t : TreeShape} {s s' : State Tid}

theorem CleanRelease.of_cas {i : Tid} {sp : Bool} {c : Call} {k n : ℕ}
    (h : CleanRelease s (.tick i sp)) (hi : s.thread i = .running c k n .unlockCas)
    (hn : (s.mem.node n).lockState = 1) : ∀ j, (s.thread j).acquires ≠ some n := by
  rw [CleanRelease, hi] at h
  exact h hn

theorem CleanRelease.of_release {i : Tid} {sp : Bool} {c : Call} {k n d : ℕ} {ds : List ℕ}
    (h : CleanRelease s (.tick i sp))
    (hi : s.thread i = .running c k n (.upgradeRelease (d :: ds))) :
    (s.mem.node d).lockState = 1 ∧ ∀ j, (s.thread j).acquires ≠ some d := by
  rw [CleanRelease, hi] at h
  exact h

/-! ### What the counters tell -/

section Counters

variable [Fintype Tid] (h : Sound t s)

include h

private theorem Sound.owedUp_item (x : ℕ) {i : Tid} (hpos : 0 < (s.thread i).owedUp t x) :
    (s.thread i).target ∈ (Finset.range t.size).filter
      fun d => t.IsAncestor x d ∧ s.mem.flag d = true := by
  obtain ⟨hn, hx⟩ := ((h.fits i).owedUp x).2 hpos
  exact Finset.mem_filter.2 ⟨Finset.mem_range.2 hx.lt_size, hx,
    (Memory.flag_eq_true_iff _ _).2 (h.acquired i _ hn)⟩

private theorem Sound.owedDown_item (x : ℕ) {i : Tid} (hpos : 0 < (s.thread i).owedDown t x) :
    (s.thread i).target ∈ (Finset.range t.size).filter
      fun a => t.IsAncestor a x ∧ s.mem.flag a = true := by
  obtain ⟨hn, hx⟩ := ((h.fits i).owedDown x).2 hpos
  exact Finset.mem_filter.2 ⟨Finset.mem_range.2 (hx.lt.trans hx.lt_size), hx,
    (Memory.flag_eq_true_iff _ _).2 (h.acquired i _ hn)⟩

private theorem Sound.owedUp_inj (x : ℕ) (i j : Tid) (hi : 0 < (s.thread i).owedUp t x)
    (hj : 0 < (s.thread j).owedUp t x) (hij : (s.thread i).target = (s.thread j).target) :
    i = j :=
  h.sole i j _ (((h.fits i).owedUp x).2 hi).1 (hij ▸ (((h.fits j).owedUp x).2 hj).1)

private theorem Sound.owedDown_inj (x : ℕ) (i j : Tid) (hi : 0 < (s.thread i).owedDown t x)
    (hj : 0 < (s.thread j).owedDown t x) (hij : (s.thread i).target = (s.thread j).target) :
    i = j :=
  h.sole i j _ (((h.fits i).owedDown x).2 hi).1 (hij ▸ (((h.fits j).owedDown x).2 hj).1)

/-- **No `descendantLockedCount` is ever negative.** -/
theorem Sound.descendants_nonneg (x : ℕ) : 0 ≤ (s.mem.node x).descendantLockedCount :=
  Tallied.nonneg (h.up x) (fun i => ((h.fits i).owedUp x).1) (fun _ => h.owedUp_item x)
    (h.owedUp_inj x)

/-- **No `ancestorLockedCount` is ever negative.** -/
theorem Sound.ancestors_nonneg (x : ℕ) : 0 ≤ (s.mem.node x).ancestorLockedCount :=
  Tallied.nonneg (h.down x) (fun i => ((h.fits i).owedDown x).1) (fun _ => h.owedDown_item x)
    (h.owedDown_inj x)

/-- **A published lock is seen above**: a locked node that no acquiring call has
still to announce to a proper ancestor `x` keeps the counter of `x` positive. -/
theorem Sound.descendants_pos {x y : ℕ} (hxy : t.IsAncestor x y)
    (hy : (s.mem.node y).lockState = 1)
    (hfree : ∀ i, (s.thread i).acquires = some y → (s.thread i).owedUp t x ≤ 0) :
    0 < (s.mem.node x).descendantLockedCount :=
  Tallied.pos (h.up x) (fun i => ((h.fits i).owedUp x).1) (fun _ => h.owedUp_item x)
    (h.owedUp_inj x)
    (Finset.mem_filter.2 ⟨Finset.mem_range.2 hxy.lt_size, hxy, (Memory.flag_eq_true_iff _ _).2 hy⟩)
    fun i hi hiy => absurd hi
      (hfree i (hiy ▸ (((h.fits i).owedUp x).2 hi).1)).not_gt

/-- **A published lock is seen below.** -/
theorem Sound.ancestors_pos {x y : ℕ} (hyx : t.IsAncestor y x)
    (hy : (s.mem.node y).lockState = 1)
    (hfree : ∀ i, (s.thread i).acquires = some y → (s.thread i).owedDown t x ≤ 0) :
    0 < (s.mem.node x).ancestorLockedCount :=
  Tallied.pos (h.down x) (fun i => ((h.fits i).owedDown x).1) (fun _ => h.owedDown_item x)
    (h.owedDown_inj x)
    (Finset.mem_filter.2 ⟨Finset.mem_range.2 (hyx.lt.trans hyx.lt_size), hyx,
      (Memory.flag_eq_true_iff _ _).2 hy⟩)
    fun i hi hiy => absurd hi
      (hfree i (hiy ▸ (((h.fits i).owedDown x).2 hi).1)).not_gt

/-- **Without calls in flight the counters are exact.** -/
theorem Sound.exact_of_idle (hidle : ∀ i, s.thread i = .idle) (x : ℕ) :
    (s.mem.node x).ancestorLockedCount = t.countAbove s.mem.flag x ∧
      (s.mem.node x).descendantLockedCount = t.countBelow s.mem.flag x :=
  ⟨(h.down x).eq_of_zero fun i => by simp [hidle, Local.owedDown],
    (h.up x).eq_of_zero fun i => by simp [hidle, Local.owedUp]⟩

end Counters

/-! ### The start -/

/-- A tree that has only been built has fresh nodes everywhere. -/
theorem build_node (adds : List NodeSpec) (n : ℕ) :
    (AtomicPaymentTree.build adds).mem.node n = .fresh := by
  unfold AtomicPaymentTree.build
  refine List.foldlRecOn adds _ (motive := fun t : AtomicPaymentTree => ∀ n, t.mem.node n = .fresh)
    (fun _ => rfl) (fun t h a _ n => ?_) n
  unfold AtomicPaymentTree.addNode
  dsimp only
  split
  · exact h n
  · by_cases hn : n = t.shape.size <;> simp [hn, h]

/-- A tree that has only been built has counted nothing. -/
theorem build_metrics (adds : List NodeSpec) : (AtomicPaymentTree.build adds).mem.metrics = {} := by
  unfold AtomicPaymentTree.build
  refine List.foldlRecOn adds _ (motive := fun t : AtomicPaymentTree => t.mem.metrics = {}) rfl
    fun t h a _ => ?_
  unfold AtomicPaymentTree.addNode
  dsimp only
  split <;> exact h

/-- The initial memory is sound. -/
theorem sound_start [Fintype Tid] (adds : List NodeSpec) :
    Sound (AtomicPaymentTree.build adds).shape
      (start (AtomicPaymentTree.build adds) : State Tid) := by
  have hflag : (AtomicPaymentTree.build adds).mem.flag = fun _ => false := funext fun n => by
    simp [Memory.flag, build_node, AtomicTreeNode.fresh]
  have hidle (i : Tid) (n : ℕ) : ((start (AtomicPaymentTree.build adds)).thread i).acquires ≠
      some n := (Option.some_ne_none n).symm
  refine ⟨fun n => .inl ?_, fun _ => trivial, fun i n h => absurd h (hidle i n),
    fun i _ n h => absurd h (hidle i n), fun x => ?_, fun x => ?_⟩
  · rw [start, build_node]
    rfl
  · simp [start, Tallied, build_node, hflag, Forest.countBelow, AtomicTreeNode.fresh,
      Local.owedUp]
  · simp [start, Tallied, build_node, hflag, Forest.countAbove, AtomicTreeNode.fresh,
      Local.owedDown]

/-! ### Steps -/

section Access

variable [Fintype Tid] {i : Tid} {sp : Bool} {c : Call} {k n : ℕ} {pc : Pc}

/-- The node of an acquiring call is locked, and nobody else acquires it. -/
theorem Sound.acquiring (h : Sound t s) (hi : s.thread i = .running c k n pc)
    (hpc : pc.Acquiring) :
    (s.mem.node n).lockState = 1 ∧ ∀ j, j ≠ i → (s.thread j).acquires ≠ some n := by
  have hacq : (s.thread i).acquires = some n := by
    rw [hi]
    exact Local.acquires_running.2 ⟨hpc, rfl⟩
  exact ⟨h.acquired i n hacq, fun j hj hn => hj (h.sole j i n hn hacq)⟩

/-- The stores of a clean step find their nodes locked. -/
theorem Sound.storesFindLocked (h : Sound t s) (hclean : CleanRelease s (.tick i sp))
    (hi : s.thread i = .running c k n pc) : pc.StoresFindLocked s.mem n := by
  cases pc with
  | lockRollback => exact (h.acquiring hi trivial).1
  | upgradeRelease ds =>
      cases ds with
      | nil => trivial
      | cons d ds => exact (hclean.of_release hi).1
  | _ => trivial

/-- What a call acquires after its step is locked, and nobody else acquires it. -/
theorem Sound.exec_acquires (h : Sound t s) (hi : s.thread i = .running c k n pc) {y : ℕ}
    (hy : ((pc.exec t s.mem c.userId n sp).2.toLocal c k n).acquires = some y) :
    ((s.mem.apply (pc.exec t s.mem c.userId n sp).1).node y).lockState = 1 ∧
      ∀ j, j ≠ i → (s.thread j).acquires ≠ some y := by
  cases hnext : (pc.exec t s.mem c.userId n sp).2 with
  | finish r =>
      rw [hnext] at hy
      cases hy
  | goto pc' =>
      rw [hnext] at hy
      obtain ⟨hpc', rfl⟩ := Local.acquires_running.1 hy
      rcases exec_acquiring hnext hpc' with ⟨hpc, hkeep⟩ | ⟨hset, hfree⟩
      · obtain ⟨hlocked, hsole⟩ := h.acquiring hi hpc
        refine ⟨?_, hsole⟩
        rw [← Memory.flag_eq_true_iff, exec_flag_eq hkeep, Memory.flag_eq_true_iff]
        exact hlocked
      · refine ⟨by simp [hset, Memory.apply_lockState], fun j _ hj => ?_⟩
        have := h.acquired j _ hj
        omega

/-- A clean step releases no node that another call is acquiring. -/
theorem Sound.exec_keeps_acquired (h : Sound t s) (hclean : CleanRelease s (.tick i sp))
    (hi : s.thread i = .running c k n pc) {j : Tid} {y : ℕ} (hj : j ≠ i)
    (hy : (s.thread j).acquires = some y) :
    ((s.mem.apply (pc.exec t s.mem c.userId n sp).1).node y).lockState = 1 := by
  rcases Memory.apply_lockState_cases s.mem _ y with hkeep | hset
  · rw [hkeep]
    exact h.acquired j y hy
  · rcases exec_setLockState hset with
      ⟨-, h1, -⟩ | ⟨-, ⟨rfl, rfl, -⟩ | ⟨rfl, rfl, hlocked, -⟩ | ⟨ds, rfl, -⟩⟩
    · exact h1
    · exact absurd hy ((h.acquiring hi trivial).2 j hj)
    · exact absurd hy (hclean.of_cas hi hlocked j)
    · exact absurd hy ((hclean.of_release hi).2 j)

end Access

section Steps

variable [Fintype Tid] [DecidableEq Tid]

/-- One thread moves, and its books balance. -/
theorem Sound.update (h : Sound t s) {i : Tid} {l : Local} {m : Memory} {H : List (Event Tid)}
    (hstate : ∀ n, (m.node n).lockState = 0 ∨ (m.node n).lockState = 1) (hfits : l.Fits t)
    (hnew : ∀ n, l.acquires = some n →
      (m.node n).lockState = 1 ∧ ∀ j, j ≠ i → (s.thread j).acquires ≠ some n)
    (hold : ∀ j n, j ≠ i → (s.thread j).acquires = some n → (m.node n).lockState = 1)
    (hup : ∀ x, (m.node x).descendantLockedCount - (s.mem.node x).descendantLockedCount +
      (l.owedUp t x - (s.thread i).owedUp t x) =
        (t.countBelow m.flag x : ℤ) - t.countBelow s.mem.flag x)
    (hdown : ∀ x, (m.node x).ancestorLockedCount - (s.mem.node x).ancestorLockedCount +
      (l.owedDown t x - (s.thread i).owedDown t x) =
        (t.countAbove m.flag x : ℤ) - t.countAbove s.mem.flag x) :
    Sound t ⟨m, Function.update s.thread i l, H⟩ where
  lockState := hstate
  fits := (Function.forall_update_iff _ fun _ (l : Local) => l.Fits t).2
    ⟨hfits, fun j _ => h.fits j⟩
  acquired := (Function.forall_update_iff _ fun _ (l : Local) =>
    ∀ n, l.acquires = some n → (m.node n).lockState = 1).2
    ⟨fun n hn => (hnew n hn).1, fun j hj n hn => hold j n hj hn⟩
  sole j j' n hn hn' := by
    by_cases hj : j = i <;> by_cases hj' : j' = i
    · rw [hj, hj']
    · exact absurd (by simpa [hj'] using hn') ((hnew n (by simpa [hj] using hn)).2 j' hj')
    · exact absurd (by simpa [hj] using hn) ((hnew n (by simpa [hj'] using hn')).2 j hj)
    · exact h.sole j j' n (by simpa [hj] using hn) (by simpa [hj'] using hn')
  up x := by
    rw [Function.comp_update]
    exact (h.up x).step i _ (hup x)
  down x := by
    rw [Function.comp_update]
    exact (h.down x).step i _ (hdown x)

/-- Beginning or returning from a call does not touch the books. -/
theorem Sound.outside (h : Sound t s) {i : Tid} {l : Local} {H : List (Event Tid)}
    (hfits : l.Fits t) (hacq : l.acquires = none) (hup : ∀ x, l.owedUp t x = 0)
    (hdown : ∀ x, l.owedDown t x = 0) (hup' : ∀ x, (s.thread i).owedUp t x = 0)
    (hdown' : ∀ x, (s.thread i).owedDown t x = 0) :
    Sound t ⟨s.mem, Function.update s.thread i l, H⟩ :=
  h.update h.lockState hfits (fun n hn => by rw [hacq] at hn; cases hn)
    (fun j n _ hn => h.acquired j n hn) (fun x => by rw [hup, hup']; ring)
    (fun x => by rw [hdown, hdown']; ring)

/-- **Every clean step keeps the memory sound.** -/
theorem Sound.step {l : Label Tid} (h : Sound t s) (hclean : CleanRelease s l)
    (hs : step t s l = some s') : Sound t s' := by
  cases move_of_step hs with
  | invoke i c hi =>
      obtain ⟨h₁, h₂, h₃, h₄⟩ := Local.enter_facts t c s.hist.length
      exact h.outside h₁ h₂ h₃ h₄ (fun x => by rw [hi]; rfl) fun x => by rw [hi]; rfl
  | ret i sp c k r hi =>
      exact h.outside trivial rfl (fun _ => rfl) (fun _ => rfl) (fun x => by rw [hi]; rfl)
        fun x => by rw [hi]; rfl
  | exec i sp c k n pc hi =>
      have hfits := fits_running h.fits hi
      have hstore := h.storesFindLocked hclean hi
      refine h.update (fun y => ?_) ?_ (fun y => h.exec_acquires hi)
        (fun j y => h.exec_keeps_acquired hclean hi) (fun x => ?_) (fun x => ?_)
      · rcases Memory.apply_lockState_cases s.mem _ y with hkeep | hset
        · rw [hkeep]
          exact h.lockState y
        · rcases exec_setLockState hset with ⟨-, h1, -⟩ | ⟨h0, -⟩
          · exact .inr h1
          · exact .inl h0
      · cases hnext : (pc.exec t s.mem c.userId n sp).2 with
        | goto pc' => exact exec_fits hfits hnext
        | finish r => trivial
      · rw [hi, Next.toLocal_owedUp]
        exact exec_up hstore x
      · rw [hi, Next.toLocal_owedDown]
        exact exec_down hstore x

end Steps

end Atomic
end PaymentGateway
