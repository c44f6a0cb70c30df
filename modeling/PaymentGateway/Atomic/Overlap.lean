/-
# Overlapping locks of an ancestor and a descendant

`lock` looks for locked relatives twice, before and after it wins its node, but it
adds itself to their counters only after the second look (lines 88-98).  Two calls
on an ancestor and a descendant can therefore both win, both re-validate against
counters that do not show the other yet, and both return true
(`overlapping_locks`).

This is where the exclusion of overlapping calls is lost.  Consider runs of `lock`
and `unlock` calls with any user ids in which
* no re-validation passes while a competitor on the other side has passed its own
  and still owes the counter that is read (`SeesCompetitors`), and
* no `unlock` releases a node whose `lock` call is still in progress, which another
  caller with the same id could do (`ReleasesReturned`).

In them a node that is settled (locked, its call finished) or past its
re-validation never has a relative in the same position (`Exclusive.apart`), so no
two overlapping `lock` calls on related nodes both return true (`locks_exclusive`).
-/

import PaymentGateway.Atomic.Calls
import PaymentGateway.Atomic.LockUnlock

namespace PaymentGateway
namespace Atomic

open Lib

variable {Tid : Type}

/-- A `lock` of `n` that began at the position `k` of the history has returned true
at the position `r`, and nobody has released `n` since. -/
def Outstanding (t : TreeShape) (n k r : ℕ) : List (Event Tid) → Prop
  | [] => False
  | .ret _ c begun result :: H =>
      (c.op = .lock ∧ t.getNode c.nodeName = some n ∧ result = true ∧ begun = k ∧ H.length = r) ∨
        Outstanding t n k r H
  | .release _ y :: H => y ≠ n ∧ Outstanding t n k r H
  | .invoke _ _ :: H => Outstanding t n k r H
  | .acquire _ _ :: H => Outstanding t n k r H

instance Outstanding.decidable (t : TreeShape) (n k r : ℕ) :
    ∀ H : List (Event Tid), Decidable (Outstanding t n k r H)
  | [] => inferInstanceAs (Decidable False)
  | .ret _ c begun result :: H =>
      have := Outstanding.decidable t n k r H
      inferInstanceAs (Decidable ((c.op = .lock ∧ t.getNode c.nodeName = some n ∧ result = true ∧
        begun = k ∧ H.length = r) ∨ Outstanding t n k r H))
  | .release _ y :: H =>
      have := Outstanding.decidable t n k r H
      inferInstanceAs (Decidable (y ≠ n ∧ Outstanding t n k r H))
  | .invoke _ _ :: H => Outstanding.decidable t n k r H
  | .acquire _ _ :: H => Outstanding.decidable t n k r H

/-- Two calls that overlapped in time do not both hold related nodes. -/
def NoOverlap (t : TreeShape) (H : List (Event Tid)) : Prop :=
  ∀ m n k r k' r', t.IsAncestor m n → Outstanding t m k r H → Outstanding t n k' r' H →
    ¬(k < r' ∧ k' < r)

/-! ### The conditions -/

/-- Past the first load of the re-validation, of `ancestorLockedCount`. -/
def Pc.PastAncestors (pc : Pc) : Prop := pc = .lockReloadDescendants ∨ pc.PastDescendants

instance : DecidablePred Pc.PastAncestors := fun pc => by
  unfold Pc.PastAncestors
  infer_instance

/-- A load of the re-validation that finds no locked relative does not overlook a
call that has passed the matching load of its own and still owes the counter. -/
def SeesCompetitors (t : TreeShape) (s : State Tid) : Label Tid → Prop
  | .invoke _ _ => True
  | .tick i _ =>
      match s.thread i with
      | .running _ _ n .lockReloadAncestors => (s.mem.node n).ancestorLockedCount ≤ 0 →
          ∀ j, (s.thread j).At Pc.PastDescendants (s.thread j).target →
            (s.thread j).owedDown t n ≤ 0
      | .running _ _ n .lockReloadDescendants => (s.mem.node n).descendantLockedCount ≤ 0 →
          ∀ j, (s.thread j).At Pc.PastAncestors (s.thread j).target → (s.thread j).owedUp t n ≤ 0
      | _ => True

/-- An `unlock` releases a node only when the `lock` call that won it has returned. -/
def ReleasesReturned (t : TreeShape) (s : State Tid) : Label Tid → Prop
  | .invoke _ _ => True
  | .tick i _ =>
      match s.thread i with
      | .running _ _ n .unlockCas =>
          (s.mem.node n).lockState = 1 →
            ∀ j, (s.thread j).acquires ≠ some n ∧ ¬(s.thread j).Granting t n
      | _ => True

section Decidable

variable [Fintype Tid] (t : TreeShape) (s : State Tid) (l : Label Tid)

instance : Decidable (SeesCompetitors t s l) := by
  unfold SeesCompetitors
  rcases l with _ | ⟨i, _⟩
  · infer_instance
  · dsimp only
    rcases s.thread i with _ | ⟨_, _, _, _ | _⟩ | _ <;> infer_instance

instance : Decidable (ReleasesReturned t s l) := by
  unfold ReleasesReturned
  rcases l with _ | ⟨i, _⟩
  · infer_instance
  · dsimp only
    rcases s.thread i with _ | ⟨_, _, _, _ | _⟩ | _ <;> infer_instance

end Decidable

/-! ### What a step can change -/

section Exec

variable {t : TreeShape} {m : Memory} {u : ℤ} {n : ℕ} {sp : Bool} {pc pc' : Pc}

/-- A call passes its re-validation by a load that finds no locked descendant. -/
theorem exec_pastDescendants (hnext : (pc.exec t m u n sp).2 = .goto pc')
    (h : pc'.PastDescendants) : pc.PastDescendants ∨
      (pc = .lockReloadDescendants ∧ (m.node n).descendantLockedCount ≤ 0) ∨ pc = .upgradeCas := by
  revert hnext h
  fun_cases Pc.exec t m u n sp pc <;> intro hnext h <;>
    simp only [Next.goto.injEq, reduceCtorEq] at hnext <;> subst hnext <;>
    simp_all [Pc.PastDescendants]

/-- A call passes the first load of its re-validation when it finds no locked ancestor. -/
theorem exec_pastAncestors (hnext : (pc.exec t m u n sp).2 = .goto pc')
    (h : pc'.PastAncestors) : pc.PastAncestors ∨
      (pc = .lockReloadAncestors ∧ (m.node n).ancestorLockedCount ≤ 0) ∨ pc = .upgradeCas := by
  revert hnext h
  fun_cases Pc.exec t m u n sp pc <;> intro hnext h <;>
    simp only [Next.goto.injEq, reduceCtorEq] at hnext <;> subst hnext <;>
    simp_all [Pc.PastAncestors, Pc.PastDescendants]

/-- An acquisition ends at the end of its publication, or with a rollback. -/
theorem exec_acquired (t : TreeShape) (m : Memory) (u : ℤ) (n : ℕ) (sp : Bool)
    (h : pc.Acquiring) : pc.PastDescendants ∨
    (pc.exec t m u n sp).1 = .setLockState n 0 ∨
      ∃ pc', (pc.exec t m u n sp).2 = .goto pc' ∧ pc'.Acquiring := by
  cases pc <;> simp_all [Pc.Acquiring, Pc.PastDescendants, Pc.exec] <;> split <;> simp

theorem Pc.PastAncestors.acquiring (h : pc.PastAncestors) : pc.Acquiring := by
  rcases h with rfl | h
  · trivial
  · cases pc <;> simp_all [Pc.PastDescendants, Pc.Acquiring]

end Exec

/-- An access changes which locks are outstanding only by a release. -/
theorem outstanding_events {t : TreeShape} {i : Tid} {n k r : ℕ} {a : Access}
    {H : List (Event Tid)} : Outstanding t n k r (a.events i ++ H) ↔
      match a with
      | .setLockState y v => (v ≠ 1 → y ≠ n) ∧ Outstanding t n k r H
      | _ => Outstanding t n k r H :=
  events_iff (fun _ => Iff.rfl) fun _ => Iff.rfl

/-- The node is locked and no call is still acquiring it. -/
def Settled (s : State Tid) (n : ℕ) : Prop :=
  (s.mem.node n).lockState = 1 ∧ ∀ i, (s.thread i).acquires ≠ some n

/-- `m` is settled, or its call has found no locked descendant. -/
def FirmAbove (s : State Tid) (m : ℕ) : Prop :=
  Settled s m ∨ ∃ i, (s.thread i).At Pc.PastDescendants m

/-- `n` is settled, or its call has found no locked ancestor. -/
def FirmBelow (s : State Tid) (n : ℕ) : Prop :=
  Settled s n ∨ ∃ i, (s.thread i).At Pc.PastAncestors n

/-- What holds in runs that meet the conditions. -/
structure Exclusive (t : TreeShape) (s : State Tid) : Prop where
  ops : ∀ i, (s.thread i).NoUpgrade
  granting : ∀ i n, (s.thread i).Granting t n → Settled s n
  outstanding : ∀ n k r, Outstanding t n k r s.hist → Settled s n
  apart : ∀ m n, t.IsAncestor m n → FirmAbove s m → ¬FirmBelow s n

section Steps

variable {t : TreeShape} {s s' : State Tid} {l : Label Tid}

/-- Releasing only what has been returned is clean. -/
theorem Exclusive.cleanRelease (h : Exclusive t s) (hfits : ∀ i, (s.thread i).Fits t)
    (hrel : ReleasesReturned t s l) : CleanRelease s l := by
  cases l with
  | invoke i c => trivial
  | tick i sp =>
      simp only [CleanRelease]
      split
      · rename_i c k n hi
        rw [ReleasesReturned, hi] at hrel
        exact fun hn j => (hrel hn j).1
      · rename_i c k n d ds hi
        exact absurd (fits_running hfits hi).1 (op_running h.ops hi)
      · trivial

variable [DecidableEq Tid]

/-- How a thread comes to a program counter: it was there, or its step led there. -/
theorem at_of_step (hs : step t s l = some s') {P : Pc → Prop}
    (hentry : ∀ op, ¬P (.entry op)) {j : Tid} {n : ℕ} (h : (s'.thread j).At P n) :
    (s.thread j).At P n ∨ ∃ sp c k pc pc', l = .tick j sp ∧ s.thread j = .running c k n pc ∧
      (pc.exec t s.mem c.userId n sp).2 = .goto pc' ∧ P pc' := by
  cases move_of_step hs with
  | invoke i c hi =>
      by_cases hji : j = i
      · subst hji
        simp only [Function.update_self, Local.enter] at h
        split at h
        · exact h.elim
        · exact absurd h.2 (hentry c.op)
      · exact .inl (by simpa [hji] using h)
  | ret i sp c k r hi =>
      by_cases hji : j = i
      · simp [hji, Local.At] at h
      · exact .inl (by simpa [hji] using h)
  | exec i sp c k y pc hi =>
      by_cases hji : j = i
      · subst hji
        simp only [Function.update_self] at h
        cases hnext : (pc.exec t s.mem c.userId y sp).2 with
        | finish r =>
            rw [hnext] at h
            exact h.elim
        | goto pc' =>
            rw [hnext] at h
            obtain ⟨rfl, hpc'⟩ := h
            exact .inr ⟨sp, c, k, pc, pc', rfl, hi, hnext, hpc'⟩
      · exact .inl (by simpa [hji] using h)

variable [Fintype Tid]

/-- **A settled node stays settled** until an `unlock` releases it. -/
theorem Settled.step {n : ℕ} (h : Settled s n) (hexcl : Exclusive t s) (hsound : Sound t s)
    (hs : Atomic.step t s l = some s') : Settled s' n ∨
      ∃ i sp c k, l = .tick i sp ∧ s.thread i = .running c k n .unlockCas ∧
        (s.mem.node n).lockState = 1 ∧ s'.hist = .release i n :: s.hist := by
  cases move_of_step hs with
  | invoke i c hi =>
      refine .inl ⟨h.1, (Function.forall_update_iff _ fun _ (l : Local) => l.acquires ≠ some n).2
        ⟨?_, fun j _ => h.2 j⟩⟩
      rw [(Local.enter_facts t c s.hist.length).2.1]
      nofun
  | ret i sp c k r hi =>
      exact .inl ⟨h.1, (Function.forall_update_iff _ fun _ (l : Local) => l.acquires ≠ some n).2
        ⟨nofun, fun j _ => h.2 j⟩⟩
  | exec i sp c k y pc hi =>
      have hfit := hsound.fits i
      have hacq := h.2 i
      have hop := hexcl.ops i
      rw [hi] at hfit hacq hop
      by_cases hun : pc = .unlockCas ∧ y = n
      · obtain ⟨rfl, rfl⟩ := hun
        exact .inr ⟨i, sp, c, k, rfl, hi, h.1, by simp [Pc.exec, h.1, Access.events]⟩
      · refine .inl ⟨?_, (Function.forall_update_iff _ fun _ (l : Local) => l.acquires ≠ some n).2
          ⟨fun hnew => ?_, fun j _ => h.2 j⟩⟩
        · rcases Memory.apply_lockState_cases s.mem _ n with hkeep | hset
          · exact hkeep.trans h.1
          · rcases exec_setLockState hset with
              ⟨-, h1, -⟩ | ⟨-, ⟨rfl, rfl, -⟩ | ⟨rfl, rfl, -⟩ | ⟨ds, rfl, -⟩⟩
            · exact h1
            · exact absurd (by simp [Local.acquires, Pc.Acquiring]) hacq
            · exact absurd ⟨rfl, rfl⟩ hun
            · exact absurd hfit.1 hop
        · cases hnext : (pc.exec t s.mem c.userId y sp).2 with
          | finish r =>
              rw [hnext] at hnew
              cases hnew
          | goto pc' =>
              rw [hnext] at hnew
              obtain ⟨hpc', rfl⟩ := Local.acquires_running.1 hnew
              rcases exec_acquiring hnext hpc' with ⟨hpc, -⟩ | ⟨-, hfree⟩
              · exact hacq (Local.acquires_running.2 ⟨hpc, rfl⟩)
              · exact absurd (h.1.symm.trans hfree) (by decide)

omit [Fintype Tid] in
/-- A thread outside its calls settles nothing by beginning or ending one. -/
theorem settled_of_update {i : Tid} {l : Local} {H : List (Event Tid)} {n : ℕ}
    (hi : (s.thread i).acquires = none) (h : Settled ⟨s.mem, Function.update s.thread i l, H⟩ n) :
    Settled s n := by
  refine ⟨h.1, fun j hj => ?_⟩
  by_cases hji : j = i
  · rw [hji, hi] at hj
    cases hj
  · exact h.2 j (by simpa [hji] using hj)

/-- A node that is settled after a step was settled before, or its call is past the
re-validation. -/
theorem settled_of_step {n : ℕ} (hs : Atomic.step t s l = some s')
    (h : Settled s' n) : Settled s n ∨ ∃ i, (s.thread i).At Pc.PastDescendants n := by
  cases move_of_step hs with
  | invoke i c hi => exact .inl (settled_of_update (by rw [hi]; rfl) h)
  | ret i sp c k r hi => exact .inl (settled_of_update (by rw [hi]; rfl) h)
  | exec i sp c k y pc hi =>
      have hnot := h.2 i
      simp only [Function.update_self] at hnot
      have hlocked := h.1
      by_cases hacq : ∃ j, (s.thread j).acquires = some n
      -- its call has just finished
      · obtain ⟨j, hj⟩ := hacq
        obtain rfl : j = i := by
          by_contra hji
          exact h.2 j (by simpa [hji] using hj)
        rw [hi] at hj
        obtain ⟨hpc, rfl⟩ := Local.acquires_running.1 hj
        rcases exec_acquired t s.mem c.userId y sp hpc with
          hpast | hrel | ⟨pc', hgo, hpc'⟩
        · exact .inr ⟨j, by rw [hi]; exact ⟨rfl, hpast⟩⟩
        · simp [hrel, Memory.apply_lockState] at hlocked
        · exact absurd (by rw [hgo]; exact Local.acquires_running.2 ⟨hpc', rfl⟩) hnot
      · refine .inl ⟨?_, fun j hj => hacq ⟨j, hj⟩⟩
        refine (Memory.locked_of_apply _ _ _ hlocked).resolve_right fun hset => ?_
        rcases exec_setLockState hset with ⟨rfl, -, -, ⟨-, hgo⟩ | ⟨-, hgo⟩⟩ | ⟨h0, -⟩
        · exact hnot (by rw [hgo]; exact Local.acquires_running.2 ⟨trivial, rfl⟩)
        · exact hnot (by rw [hgo]; exact Local.acquires_running.2 ⟨trivial, rfl⟩)
        · cases h0

/-! ### The windows -/

omit [DecidableEq Tid] in
/-- A locked ancestor shows in the counter of `n`, once its call has published to `n`. -/
theorem counted_below {m n : ℕ} (hsound : Sound t s) (hmn : t.IsAncestor m n)
    (hhigh : FirmAbove s m)
    (howed : ∀ j, (s.thread j).At Pc.PastDescendants m → (s.thread j).owedDown t n ≤ 0) :
    0 < (s.mem.node n).ancestorLockedCount := by
  rcases hhigh with ⟨hm, hfree⟩ | ⟨i, hi⟩
  · exact hsound.ancestors_pos hmn hm fun j hj => absurd hj (hfree j)
  · have hacq := hi.acquires fun _ hpc => Pc.PastAncestors.acquiring (.inr hpc)
    refine hsound.ancestors_pos hmn (hsound.acquired i m hacq) fun j hj => ?_
    obtain rfl : j = i := hsound.sole j i m hj hacq
    exact howed j hi

omit [DecidableEq Tid] in
/-- A locked descendant shows in the counter of `m`, once its call has published to `m`. -/
theorem counted_above {m n : ℕ} (hsound : Sound t s) (hmn : t.IsAncestor m n)
    (hlow : FirmBelow s n)
    (howed : ∀ j, (s.thread j).At Pc.PastAncestors n → (s.thread j).owedUp t m ≤ 0) :
    0 < (s.mem.node m).descendantLockedCount := by
  rcases hlow with ⟨hn, hfree⟩ | ⟨i, hi⟩
  · exact hsound.descendants_pos hmn hn fun j hj => absurd hj (hfree j)
  · have hacq := hi.acquires fun _ => Pc.PastAncestors.acquiring
    refine hsound.descendants_pos hmn (hsound.acquired i n hacq) fun j hj => ?_
    obtain rfl : j = i := hsound.sole j i n hj hacq
    exact howed j hi

/-- A node becomes firm above by a load that finds no locked descendant. -/
theorem firmAbove_of_step {m : ℕ} (hexcl : Exclusive t s) (hfits : ∀ i, (s.thread i).Fits t)
    (hs : Atomic.step t s l = some s') (hm : FirmAbove s' m) : FirmAbove s m ∨
      ∃ i sp c k, l = .tick i sp ∧ s.thread i = .running c k m .lockReloadDescendants ∧
        (s.mem.node m).descendantLockedCount ≤ 0 := by
  rcases hm with hm | ⟨i, hi⟩
  · exact .inl (settled_of_step hs hm)
  · rcases at_of_step hs (fun op => by cases op <;> nofun) hi with
      hi | ⟨sp, c, k, pc, pc', rfl, hi, hnext, hpc'⟩
    · exact .inl (.inr ⟨i, hi⟩)
    · rcases exec_pastDescendants hnext hpc' with hpc | ⟨rfl, hle⟩ | rfl
      · exact .inl (.inr ⟨i, by rw [hi]; exact ⟨rfl, hpc⟩⟩)
      · exact .inr ⟨i, sp, c, k, rfl, hi, hle⟩
      · exact absurd (fits_running hfits hi) (op_running hexcl.ops hi)

/-- A node becomes firm below by a load that finds no locked ancestor. -/
theorem firmBelow_of_step {n : ℕ} (hexcl : Exclusive t s) (hfits : ∀ i, (s.thread i).Fits t)
    (hs : Atomic.step t s l = some s') (hn : FirmBelow s' n) : FirmBelow s n ∨
      ∃ i sp c k, l = .tick i sp ∧ s.thread i = .running c k n .lockReloadAncestors ∧
        (s.mem.node n).ancestorLockedCount ≤ 0 := by
  rcases hn with hn | ⟨i, hi⟩
  · rcases settled_of_step hs hn with hn | ⟨i, hi⟩
    · exact .inl (.inl hn)
    · exact .inl (.inr ⟨i, hi.mono fun _ => .inr⟩)
  · rcases at_of_step hs (fun op => by cases op <;> rintro (h | h) <;> cases h) hi with
      hi | ⟨sp, c, k, pc, pc', rfl, hi, hnext, hpc'⟩
    · exact .inl (.inr ⟨i, hi⟩)
    · rcases exec_pastAncestors hnext hpc' with hpc | ⟨rfl, hle⟩ | rfl
      · exact .inl (.inr ⟨i, by rw [hi]; exact ⟨rfl, hpc⟩⟩)
      · exact .inr ⟨i, sp, c, k, rfl, hi, hle⟩
      · exact absurd (fits_running hfits hi) (op_running hexcl.ops hi)

omit [DecidableEq Tid] [Fintype Tid] in
theorem Local.At.target {P : Pc → Prop} {n : ℕ} {l : Local} (h : l.At P n) : l.At P l.target := by
  cases l with
  | running c k n' pc => exact ⟨rfl, h.2⟩
  | _ => exact h

/-- A `lock` call that is about to return true has settled its node. -/
theorem settled_of_granting {j : Tid} {n : ℕ} (h : Exclusive t s) (hsound : Sound t s)
    (hres : Resolved t s) (hrel : ReleasesReturned t s l) (hs : Atomic.step t s l = some s')
    (hj : (s'.thread j).Granting t n) : Settled s' n := by
  have hstay (hj : (s.thread j).Granting t n) : Settled s' n := by
    rcases (h.granting j n hj).step h hsound hs with hn | ⟨i, sp, c, k, rfl, hi, hn, -⟩
    · exact hn
    · rw [ReleasesReturned, hi] at hrel
      exact absurd hj (hrel hn j).2
  cases move_of_step hs with
  | invoke i c hi =>
      by_cases hji : j = i
      · subst hji
        simp only [Function.update_self, Local.enter] at hj
        split at hj
        · cases hj.2.2
        · exact hj.elim
      · exact hstay (by simpa [hji] using hj)
  | ret i sp c k r hi =>
      by_cases hji : j = i
      · subst hji
        simp only [Function.update_self] at hj
        exact hj.elim
      · exact hstay (by simpa [hji] using hj)
  | exec i sp c k y pc hi =>
      by_cases hji : j = i
      · subst hji
        simp only [Function.update_self] at hj
        cases hnext : (pc.exec t s.mem c.userId y sp).2 with
        | goto pc' =>
            rw [hnext] at hj
            exact hj.elim
        | finish r =>
            rw [hnext] at hj
            obtain ⟨hop, hn, rfl⟩ := hj
            obtain ⟨node, delta, rfl, hread⟩ := exec_finish_true hnext
            have hfit := hsound.fits j
            have hnode := hres.calls j
            rw [hi] at hfit hnode
            obtain rfl : y = n := Option.some.inj (hnode.1.symm.trans hn)
            obtain ⟨⟨rfl, ⟨rfl, -⟩ | ⟨-, hunlock⟩⟩, -⟩ := hfit
            · have hacq : (s.thread j).acquires = some node := by
                rw [hi]
                exact Local.acquires_running.2 ⟨rfl, rfl⟩
              refine ⟨?_, (Function.forall_update_iff _ fun _ (l : Local) =>
                l.acquires ≠ some node).2 ⟨nofun, fun j' hj' hacq' =>
                  hj' (hsound.sole j' j node hacq' hacq)⟩⟩
              rw [hread]
              exact hsound.acquired j node hacq
            · rw [hop] at hunlock
              cases hunlock
      · exact hstay (by simpa [hji] using hj)

/-- An outstanding lock has settled its node. -/
theorem settled_of_outstanding {n k r : ℕ} (h : Exclusive t s) (hsound : Sound t s)
    (hs : Atomic.step t s l = some s') (hout : Outstanding t n k r s'.hist) : Settled s' n := by
  have hstay (hn : Settled s n) : Settled s' n := by
    rcases hn.step h hsound hs with hn | ⟨i, sp, c, k', -, -, -, hhist⟩
    · exact hn
    · rw [hhist] at hout
      exact absurd rfl hout.1
  cases move_of_step hs with
  | invoke i c hi => exact hstay (h.outstanding n k r hout)
  | ret i sp c k' r' hi =>
      rcases hout with ⟨hop, hn, hr, -⟩ | hout
      · exact hstay (h.granting i n (by rw [hi]; exact ⟨hop, hn, hr⟩))
      · exact hstay (h.outstanding n k r hout)
  | exec i sp c k' y pc hi =>
      refine hstay (h.outstanding n k r ?_)
      rw [outstanding_events] at hout
      split at hout
      · exact hout.2
      · exact hout

/-- **Every step that meets the conditions keeps locks apart.** -/
theorem Exclusive.step (h : Exclusive t s) (hsound : Sound t s) (hres : Resolved t s)
    (hops : LockUnlock l) (hsees : SeesCompetitors t s l) (hrel : ReleasesReturned t s l)
    (hs : Atomic.step t s l = some s') : Exclusive t s' := by
  refine ⟨noUpgrade_step h.ops hops hs, fun j n => settled_of_granting h hsound hres hrel hs,
    fun n k r => settled_of_outstanding h hsound hs, fun m n hmn hm hn => ?_⟩
  rcases firmAbove_of_step h hsound.fits hs hm with hm | ⟨i, sp, c, k, rfl, hi, hle⟩
  · rcases firmBelow_of_step h hsound.fits hs hn with hn | ⟨i, sp, c, k, rfl, hi, hle⟩
    · exact h.apart m n hmn hm hn
    -- `n` re-validates against `m`
    · rw [SeesCompetitors, hi] at hsees
      have := counted_below hsound hmn hm fun j hj => hsees hle j hj.target
      omega
  · rcases firmBelow_of_step h hsound.fits hs hn with hn | ⟨i', sp', c', k', htick, hi', -⟩
    -- `m` re-validates against `n`
    · rw [SeesCompetitors, hi] at hsees
      have := counted_above hsound hmn hn fun j hj => hsees hle j hj.target
      omega
    · cases htick
      rw [hi] at hi'
      cases hi'

end Steps

/-! ### Runs -/

section Runs

variable [Fintype Tid] [DecidableEq Tid] {adds : List NodeSpec} {s : State Tid}

/-- **When overlapping locks exclude each other.**  In a run of `lock` and `unlock`
calls, by any users, in which re-validations see the competitors that are past their
own, and `unlock` releases only what has been returned, no two overlapping `lock`
calls on a node and a proper ancestor of it have both returned true with neither
lock released since. -/
theorem locks_exclusive (h : Reaches (step (AtomicPaymentTree.build adds).shape)
    (fun s l => LockUnlock l ∧ SeesCompetitors (AtomicPaymentTree.build adds).shape s l ∧
      ReleasesReturned (AtomicPaymentTree.build adds).shape s l)
    (start (AtomicPaymentTree.build adds)) s) :
    NoOverlap (AtomicPaymentTree.build adds).shape s.hist := by
  suffices hinv : Sound (AtomicPaymentTree.build adds).shape s ∧
      Resolved (AtomicPaymentTree.build adds).shape s ∧
      Exclusive (AtomicPaymentTree.build adds).shape s by
    intro m n k r k' r' hmn hm hn _
    exact hinv.2.2.apart m n hmn (.inl (hinv.2.2.outstanding m k r hm))
      (.inl (hinv.2.2.outstanding n k' r' hn))
  refine h.invariant ?_ ?_
  · refine ⟨sound_start adds, resolved_start, fun _ => trivial, nofun, nofun, ?_⟩
    rintro m n - (hm | ⟨i, hi⟩) -
    · have h0 := hm.1
      rw [start, build_node] at h0
      cases h0
    · exact hi
  · rintro s₁ l s₂ - ⟨hsound, hres, hexcl⟩ ⟨hops, hsees, hrel⟩ hs
    exact ⟨hsound.step (hexcl.cleanRelease hsound.fits hrel) hs, hres.step hs,
      hexcl.step hsound hres hops hsees hrel hs⟩

/-- A `lock` of `Root` that overlaps one of `Left` wins its node, sees `Left` in its
re-validation, and rolls back. -/
theorem locks_exclusive_rollback : ∃ s : State (Fin 2),
    Reaches (step (AtomicPaymentTree.build smallTree).shape)
      (fun s l => LockUnlock l ∧ SeesCompetitors (AtomicPaymentTree.build smallTree).shape s l ∧
        ReleasesReturned (AtomicPaymentTree.build smallTree).shape s l)
      (start (AtomicPaymentTree.build smallTree)) s ∧
    Outstanding (AtomicPaymentTree.build smallTree).shape 1 0 6 s.hist ∧
      .acquire 1 0 ∈ s.hist ∧ NoOverlap (AtomicPaymentTree.build smallTree).shape s.hist := by
  obtain ⟨s, hs, hp⟩ : ∃ s, Reaches (step (AtomicPaymentTree.build smallTree).shape)
      (fun s l => LockUnlock l ∧ SeesCompetitors (AtomicPaymentTree.build smallTree).shape s l ∧
        ReleasesReturned (AtomicPaymentTree.build smallTree).shape s l)
      (start (AtomicPaymentTree.build smallTree)) s ∧
      decide (Outstanding (AtomicPaymentTree.build smallTree).shape 1 0 6 s.hist ∧
        .acquire (1 : Fin 2) 0 ∈ s.hist) = true :=
    exists_reaches_of_exec (.invoke 0 ⟨.lock, "Left", 7⟩ :: turns 0 3 ++
      .invoke 1 ⟨.lock, "Root", 7⟩ :: turns 1 2 ++ turns 0 4 ++ turns 1 5 ++ turns 0 3)
      (by decide +kernel)
  obtain ⟨hout, hacq⟩ := of_decide_eq_true hp
  exact ⟨s, hs, hout, hacq, locks_exclusive hs⟩

/-- **Both calls pass.**  `lock` calls on `Root` and `Left` each win their node and
re-validate before the other has published; both return true. -/
theorem overlapping_locks : ∃ s : State (Fin 2),
    Reaches (step (AtomicPaymentTree.build smallTree).shape) (fun _ l => LockUnlock l)
      (start (AtomicPaymentTree.build smallTree)) s ∧
    ¬NoOverlap (AtomicPaymentTree.build smallTree).shape s.hist := by
  obtain ⟨s, hs, hp⟩ : ∃ s, Reaches (step (AtomicPaymentTree.build smallTree).shape)
      (fun _ l => LockUnlock l) (start (AtomicPaymentTree.build smallTree)) s ∧
      decide (Outstanding (AtomicPaymentTree.build smallTree).shape 0 0 4 s.hist ∧
        Outstanding (AtomicPaymentTree.build smallTree).shape 1 1 5 s.hist) = true :=
    exists_reaches_of_exec
      ([.invoke (0 : Fin 2) ⟨.lock, "Root", 0⟩, .invoke 1 ⟨.lock, "Left", 1⟩] ++ turns 0 3 ++
        turns 1 3 ++ turns 0 2 ++ turns 1 2 ++ turns 0 6 ++ turns 1 5)
      (by decide +kernel)
  obtain ⟨hroot, hleft⟩ := of_decide_eq_true hp
  exact ⟨s, hs, fun h => h 0 1 0 4 1 5 (by decide +kernel) hroot hleft (by decide)⟩

end Runs

end Atomic
end PaymentGateway
