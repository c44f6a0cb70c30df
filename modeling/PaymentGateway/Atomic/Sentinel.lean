/-
# A user with the id -1

`lockedBy` holds -1 where a node has no owner, and nothing keeps a caller from having
the id -1.  For that caller the owner check of `unlock` (line 107) passes wherever no
owner is recorded: on free nodes, and on a node that a `lock` has won and not signed
yet.  In the second case the `unlock` releases a node that somebody else has just
locked, and returns true (`unlock_for_none`).

It takes a node that another thread holds between the owner check and the
`compare_exchange`.  Consider runs of `lock` and `unlock` calls with distinct ids in
which an `unlock` for -1 does not pass its owner check on a node another thread holds,
and no other thread wins the node before its `compare_exchange` (`NoneWaits`).  In them
a node is free, or held by one thread that alone can release it (`Kept`), what a thread
holds its `lock` has returned true for, or is about to (`Answered`), and so an `unlock`
releases what its own thread has locked (`only_owner_releases`).
-/

import PaymentGateway.Atomic.Calls
import PaymentGateway.Atomic.LockUnlock

namespace PaymentGateway
namespace Atomic

open Lib

variable {Tid : Type}

/-- Since the history had the length `k`, the thread has released an acquisition of `n`
of its own that had returned true. -/
def ReleasedOwn (t : TreeShape) (i : Tid) (k n : ℕ) : List (Event Tid) → Prop
  | [] => False
  | .release j y :: H => (j = i ∧ y = n ∧ k < H.length ∧ Granted t i n H) ∨ ReleasedOwn t i k n H
  | .invoke _ _ :: H => ReleasedOwn t i k n H
  | .acquire _ _ :: H => ReleasedOwn t i k n H
  | .ret _ _ _ _ :: H => ReleasedOwn t i k n H

theorem ReleasedOwn.append {t : TreeShape} {i : Tid} {k n : ℕ} {H : List (Event Tid)}
    (h : ReleasedOwn t i k n H) (es : List (Event Tid)) : ReleasedOwn t i k n (es ++ H) := by
  induction es with
  | nil => exact h
  | cons e es ih =>
      cases e with
      | release j y => exact .inr ih
      | _ => exact ih

/-- Only the owner releases.  An `unlock` that returned true has released an acquisition
of its own thread that had returned true; and a step after which a node that a thread
holds is free is that thread's rollback, or the `compare_exchange` of its `unlock`. -/
structure OwnerReleases (t : TreeShape) (user : Tid → ℤ) [DecidableEq Tid] (s : State Tid) :
    Prop where
  returned : ∀ i c k n, .ret i c k true ∈ s.hist → c.op = .unlock →
    t.getNode c.nodeName = some n → ReleasedOwn t i k n s.hist
  lost : ∀ i n l s', Holds i n s.hist → step t s l = some s' → (s'.mem.node n).lockState = 0 →
    l.tid = i ∧ ∃ c k, c.userId = user i ∧ (s.thread i = .running c k n .lockRollback ∨
      s.thread i = .running c k n .unlockCas)

/-- An `unlock` for the id -1 passes its owner check only on a node that no other thread
holds, and until its `compare_exchange` no other thread wins the node. -/
def NoneWaits [DecidableEq Tid] (s : State Tid) : Label Tid → Prop
  | .invoke _ _ => True
  | .tick i spurious =>
      match s.thread i with
      | .running c _ n .unlockLoadOwner => c.userId = -1 → (s.mem.node n).lockedBy = -1 →
          ∀ j, Holds j n s.hist → j = i
      | .running _ _ n .lockCas => spurious = false → (s.mem.node n).lockState = 0 →
          ∀ j, (s.thread j).At Pc.Unlocking n → (s.thread j).user? ≠ some (-1)
      | _ => True

instance [Fintype Tid] [DecidableEq Tid] (s : State Tid) (l : Label Tid) :
    Decidable (NoneWaits s l) := by
  unfold NoneWaits
  rcases l with _ | ⟨i, _⟩
  · infer_instance
  · dsimp only
    rcases s.thread i with _ | ⟨_, _, _, _ | _⟩ | _ <;> infer_instance

/-! ### Who keeps a node -/

/-- A node is free, or one thread keeps it: nobody else acquires it or stands where
`unlock` releases it, and its owner field is empty or names the thread. -/
inductive Kept (user : Tid → ℤ) (s : State Tid) (n : ℕ) : Prop
  | free (hstate : (s.mem.node n).lockState = 0) (howner : (s.mem.node n).lockedBy = -1)
      (hnone : ∀ i, ¬Holds i n s.hist) (hacq : ∀ i, ¬(s.thread i).At Pc.Acquiring n)
      (hunlocking : ∀ i, (s.thread i).At Pc.Unlocking n → user i = -1)
  | held (i : Tid) (hstate : (s.mem.node n).lockState = 1)
      (howner : (s.mem.node n).lockedBy = -1 ∨ (s.mem.node n).lockedBy = user i ∧
        ¬(s.thread i).At Pc.Taking n ∧ ¬(s.thread i).At (· = .unlockCas) n)
      (hi : ∀ j, Holds j n s.hist ↔ j = i) (hacq : ∀ j, (s.thread j).At Pc.Acquiring n → j = i)
      (hunlocking : ∀ j, (s.thread j).At Pc.Unlocking n → j = i)

/-- Every node is kept, every call is made with the id of its thread, and only the id -1
gets to restoring an owner. -/
structure Guarded (t : TreeShape) (user : Tid → ℤ) (s : State Tid) : Prop where
  fits : ∀ i, (s.thread i).Fits t
  ops : ∀ i, (s.thread i).NoUpgrade
  user_eq : ∀ i u, (s.thread i).user? = some u → u = user i
  restoring : ∀ i, (s.thread i).Restoring → user i = -1
  kept : ∀ n, Kept user s n

section Steps

variable {t : TreeShape} {user : Tid → ℤ} {s s' : State Tid} {l : Label Tid} {i : Tid} {sp : Bool}
  {c : Call} {k n y : ℕ} {pc : Pc}

theorem guarded_start (adds : List NodeSpec) (t : TreeShape) :
    Guarded t user (start (AtomicPaymentTree.build adds) : State Tid) := by
  refine ⟨fun _ => trivial, fun _ => trivial, nofun, nofun, fun n =>
    .free ?_ ?_ (fun _ => id) (fun _ => id) nofun⟩
  all_goals
    rw [start, build_node]
    rfl

/-- Whoever releases a locked node holds it. -/
theorem Kept.holds_of_unlocking (h : Kept user s n) (hlocked : (s.mem.node n).lockState = 1)
    (hi : (s.thread i).At Pc.Unlocking n) : Holds i n s.hist := by
  cases h with
  | free hstate => exact absurd (hstate.symm.trans hlocked) (by decide)
  | held j _ _ hj _ hunlocking => exact (hj i).2 (hunlocking i hi)

/-- **Frame**: a node is kept as before when its fields, its holders and the threads
that clear it stay, and nobody comes to acquiring or releasing it. -/
theorem Kept.frame (h : Kept user s y)
    (hstate : (s'.mem.node y).lockState = (s.mem.node y).lockState)
    (howner : (s'.mem.node y).lockedBy = (s.mem.node y).lockedBy)
    (hholds : ∀ j, Holds j y s'.hist ↔ Holds j y s.hist)
    (hacq : ∀ j, (s'.thread j).At Pc.Acquiring y → (s.thread j).At Pc.Acquiring y)
    (hunlocking : ∀ j, (s'.thread j).At Pc.Unlocking y → (s.thread j).At Pc.Unlocking y)
    (hlags : ∀ j, (s'.thread j).At Pc.Taking y ∨ (s'.thread j).At (· = .unlockCas) y →
      (s.thread j).At Pc.Taking y ∨ (s.thread j).At (· = .unlockCas) y) : Kept user s' y := by
  cases h with
  | free h₁ h₂ h₃ h₄ h₅ =>
      exact .free (hstate.trans h₁) (howner.trans h₂) (fun j hj => h₃ j ((hholds j).1 hj))
        (fun j hj => h₄ j (hacq j hj)) fun j hj => h₅ j (hunlocking j hj)
  | held i h₁ h₂ h₃ h₄ h₅ =>
      refine .held i (hstate.trans h₁) ?_ (fun j => (hholds j).trans (h₃ j))
        (fun j hj => h₄ j (hacq j hj)) fun j hj => h₅ j (hunlocking j hj)
      rw [howner]
      refine h₂.imp id fun ⟨hi, h⟩ => ⟨hi, not_or.1 fun hlag => ?_⟩
      exact (hlags i hlag).elim h.1 h.2

variable [DecidableEq Tid]

/-- The nodes that a call is not about are kept as before. -/
theorem Kept.exec_of_ne (h : Kept user s y) (hy : y ≠ n) {r : Access × Next}
    (htouch : Touches t s.mem c.userId n pc r) :
    Kept user (s.after i c k n r) y := by
  obtain ⟨hstate, howner, hset⟩ := htouch.elsewhere hy
  have hat {P : Pc → Prop} (j : Tid)
      (hj : (Function.update s.thread i (r.2.toLocal c k n) j).At P y) : (s.thread j).At P y := by
    rw [at_update, Next.at_toLocal] at hj
    rcases hj with ⟨-, hny, -⟩ | ⟨-, hj⟩
    · exact absurd hny.symm hy
    · exact hj
  refine h.frame hstate howner (fun j => ?_) hat hat fun j => Or.imp (hat j) (hat j)
  rw [holds_events]
  split
  · rename_i z v hzv
    have hz : z ≠ y := by
      rintro rfl
      exact hset v hzv
    simp [hz]
  · exact Iff.rfl

/-! #### One step of the call on the node -/

theorem Kept.win (h : Kept user s n) (hfree : (s.mem.node n).lockState = 0)
    (hwaits : ∀ j, (s.thread j).At Pc.Unlocking n → user j ≠ -1) :
    Kept user (s.after i c k n (.setLockState n 1, .goto .lockReloadAncestors)) n := by
  cases h with
  | held _ hstate => exact absurd (hfree.symm.trans hstate) (by decide)
  | free _ howner hnone hacq hunlocking =>
      refine .held i (Memory.setLockState_lockState ..)
        (.inl ((Memory.setLockState_lockedBy ..).trans howner)) (fun j => ?_)
        (stays_after (fun j hj => absurd hj (hacq j)) fun _ => rfl)
        (stays_after (fun j hj => absurd (hunlocking j hj) (hwaits j hj)) fun h => absurd h id)
      rw [holds_events]
      simp [hnone, eq_comm]

theorem Kept.rollback (h : Kept user s n) (hi : s.thread i = .running c k n .lockRollback) :
    Kept user (s.after i c k n (.setLockState n 0, .finish false)) n := by
  cases h with
  | free _ _ _ hacq => exact absurd ((at_running hi).2 trivial) (hacq i)
  | held j _ howner hj hacq hunlocking =>
      obtain rfl := hacq i ((at_running hi).2 trivial)
      refine .free (Memory.setLockState_lockState ..) ?_ (fun j => ?_) (leaves_after hacq id)
        fun j hj => absurd hj (leaves_after hunlocking id j)
      · exact (Memory.setLockState_lockedBy ..).trans
          (howner.resolve_right fun h => h.2.1 ((at_running hi).2 trivial))
      · rw [holds_events]
        simp [hj, eq_comm]

theorem Kept.record (h : Kept user s n) (hi : s.thread i = .running c k n .storeOwner)
    (huser : c.userId = user i) : Kept user (s.after i c k n
      (.setLockedBy n c.userId, .goto (.informUp n 1 (t.parent n) .finish))) n := by
  cases h with
  | free _ _ _ hacq => exact absurd ((at_running hi).2 trivial) (hacq i)
  | held j hstate _ hj hacq hunlocking =>
      obtain rfl := hacq i ((at_running hi).2 trivial)
      refine .held i ((Memory.setLockedBy_lockState ..).trans hstate) (.inr ⟨?_, ?_, ?_⟩) hj
        (stays_after hacq fun _ => rfl) (stays_after hunlocking fun _ => rfl)
      · exact (Memory.setLockedBy_lockedBy ..).trans huser
      · rw [at_after]
        simp [Next.At, Pc.Taking]
      · rw [at_after]
        simp [Next.At]

/-- Whoever passes the owner check keeps the node, or has the id -1. -/
theorem Kept.check (h : Kept user s n) (hinj : Function.Injective user)
    (hcheck : (s.mem.node n).lockedBy = user i)
    (hwaits : user i = -1 → ∀ j, Holds j n s.hist → j = i) :
    Kept user (s.after i c k n (.read, .goto .unlockClearOwner)) n := by
  cases h with
  | free hstate howner hnone hacq hunlocking =>
      exact .free hstate howner hnone (leaves_after (fun j hj => absurd hj (hacq j)) id)
        (stays_after hunlocking fun _ => hcheck.symm.trans howner)
  | held j hstate howner hj hacq hunlocking =>
      have hji : i = j := by
        rcases howner with hnone | ⟨hname, -⟩
        · exact (hwaits (hcheck.symm.trans hnone) j ((hj j).2 rfl)).symm
        · exact hinj (hcheck.symm.trans hname)
      subst hji
      refine .held i hstate (howner.imp id fun h => ⟨h.1, ?_, ?_⟩) hj
        (stays_after hacq fun _ => rfl) (stays_after hunlocking fun _ => rfl)
      · rw [at_after]
        simp [Next.At, Pc.Taking]
      · rw [at_after]
        simp [Next.At]

theorem Kept.clear (h : Kept user s n) (hi : s.thread i = .running c k n .unlockClearOwner) :
    Kept user (s.after i c k n (.setLockedBy n (-1), .goto .unlockCas)) n := by
  cases h with
  | free hstate _ hnone hacq hunlocking =>
      exact .free ((Memory.setLockedBy_lockState ..).trans hstate) (Memory.setLockedBy_lockedBy ..)
        hnone (leaves_after (fun j hj => absurd hj (hacq j)) id)
        (stays_after hunlocking fun _ => hunlocking i ((at_running hi).2 trivial))
  | held j hstate _ hj hacq hunlocking =>
      obtain rfl := hunlocking i ((at_running hi).2 trivial)
      exact .held i ((Memory.setLockedBy_lockState ..).trans hstate)
        (.inl (Memory.setLockedBy_lockedBy ..)) hj (stays_after hacq fun _ => rfl)
        (stays_after hunlocking fun _ => rfl)

theorem Kept.release (h : Kept user s n) (hi : s.thread i = .running c k n .unlockCas)
    (hlocked : (s.mem.node n).lockState = 1) : Kept user (s.after i c k n
      (.setLockState n 0, .goto (.informUp n (-1) (t.parent n) .finish))) n := by
  cases h with
  | free hstate => exact absurd (hstate.symm.trans hlocked) (by decide)
  | held j _ howner hj hacq hunlocking =>
      obtain rfl := hunlocking i ((at_running hi).2 trivial)
      refine .free (Memory.setLockState_lockState ..) ?_ (fun j => ?_)
        (leaves_after hacq (by simp [Next.At, Pc.Acquiring]))
        fun j hj => absurd hj (leaves_after hunlocking id j)
      · exact (Memory.setLockState_lockedBy ..).trans
          (howner.resolve_right fun h => h.2.2 ((at_running hi).2 rfl))
      · rw [holds_events]
        simp [hj, eq_comm]

theorem Kept.miss (h : Kept user s n) (hfree : (s.mem.node n).lockState ≠ 1) :
    Kept user (s.after i c k n (.read, .goto .unlockRestoreOwner)) n := by
  cases h with
  | held _ hstate => exact absurd hstate hfree
  | free hstate howner hnone hacq hunlocking =>
      exact .free hstate howner hnone (leaves_after (fun j hj => absurd hj (hacq j)) id)
        (stays_after hunlocking fun h => absurd h id)

/-- What the id -1 restores is the empty owner field. -/
theorem Kept.restore (h : Kept user s n) (huser : c.userId = user i) (hnone : user i = -1) :
    Kept user (s.after i c k n (.setLockedBy n c.userId, .goto .unlockCountRetry)) n := by
  have hcleared : ((s.mem.apply (.setLockedBy n c.userId)).node n).lockedBy = -1 :=
    (Memory.setLockedBy_lockedBy ..).trans (huser.trans hnone)
  cases h with
  | free hstate _ hfree hacq hunlocking =>
      exact .free ((Memory.setLockedBy_lockState ..).trans hstate) hcleared hfree
        (leaves_after (fun j hj => absurd hj (hacq j)) id) (stays_after hunlocking fun _ => hnone)
  | held j hstate _ hj hacq hunlocking =>
      exact .held j ((Memory.setLockedBy_lockState ..).trans hstate) (.inl hcleared) hj
        (stays_after hacq fun h => absurd h id) (stays_after hunlocking fun h => absurd h id)

theorem Kept.quiet (h : Kept user s n) (hi : s.thread i = .running c k n pc) {r : Access × Next}
    (hread : ∀ y v, r.1 ≠ .setLockState y v ∧ r.1 ≠ .setLockedBy y v)
    (htaking : r.2.At Pc.Taking ↔ pc.Taking) (hacquiring : r.2.At Pc.Acquiring → pc.Acquiring)
    (hunlocking : ¬r.2.At Pc.Unlocking) : Kept user (s.after i c k n r) n := by
  obtain ⟨hstate, howner, hev⟩ := quiet_apply (m := s.mem) hread n i
  refine h.frame hstate howner (fun j => ?_) (stays_after (fun _ => id) fun hnext => ?_)
    (stays_after (fun _ => id) fun hnext => absurd hnext hunlocking) fun j hj => ?_
  · rw [State.after, hev]
    exact Iff.rfl
  · exact (at_running hi).2 (hacquiring hnext)
  · rcases hj with hj | hj
    · exact .inl ((at_after_iff hi htaking).1 hj)
    · rcases at_after.1 hj with ⟨-, hnext⟩ | ⟨-, hj⟩
      · refine absurd (hnext.mono fun pc' hpc' => ?_) hunlocking
        rw [hpc']
        trivial
      · exact .inr hj

/-- **Who keeps the node of a call after its step.** -/
theorem Guarded.exec_kept (h : Guarded t user s) (hinj : Function.Injective user)
    (hwaits : NoneWaits s (.tick i sp)) (hi : s.thread i = .running c k n pc)
    {r : Access × Next} (hr : pc.exec t s.mem c.userId n sp = r)
    (htouch : Touches t s.mem c.userId n pc r) : Kept user (s.after i c k n r) n := by
  have hkept := h.kept n
  have huser : c.userId = user i := h.user_eq i _ (by rw [hi]; rfl)
  rw [NoneWaits, hi] at hwaits
  cases htouch with
  | win hfree =>
      have hsp : sp = false := by
        cases sp with
        | false => rfl
        | true => simp [Pc.exec, hfree] at hr
      refine hkept.win hfree fun j hj hnone => ?_
      obtain ⟨u, hu⟩ := hj.exists_user
      exact hwaits hsp hfree j hj (hu.trans (congrArg some ((h.user_eq j u hu).trans hnone)))
  | rollback => exact hkept.rollback hi
  | record => exact hkept.record hi huser
  | check hcheck =>
      have hcheck := hcheck.trans huser
      exact hkept.check hinj hcheck fun hnone => hwaits (huser.trans hnone) (hcheck.trans hnone)
  | clear => exact hkept.clear hi
  | release hlocked => exact hkept.release hi hlocked
  | miss hfree => exact hkept.miss hfree
  | restore => exact hkept.restore huser (h.restoring i (by rw [hi]; trivial))
  | quiet hread htaking hpc hunlocking hrestoring =>
      refine hkept.quiet hi hread htaking (fun hnext => ?_) hunlocking
      subst hr
      cases hgo : (pc.exec t s.mem c.userId n sp).2 with
      | finish result =>
          rw [hgo] at hnext
          exact hnext.elim
      | goto pc' =>
          rw [hgo] at hnext
          rcases exec_acquiring hgo hnext with ⟨hpc, -⟩ | ⟨hset, -⟩
          · exact hpc
          · exact absurd hset (hread n 1).1

/-- Beginning or returning from a call changes nobody's custody. -/
theorem Kept.outside (h : Kept user s y) {H : List (Event Tid)} {l : Local}
    (hholds : ∀ j, Holds j y H ↔ Holds j y s.hist)
    (hat : ∀ P : Pc → Prop, (∀ op, ¬P (.entry op)) → ¬l.At P y) :
    Kept user ⟨s.mem, Function.update s.thread i l, H⟩ y := by
  have hback {P : Pc → Prop} (hP : ∀ op, ¬P (.entry op)) (j : Tid)
      (hj : (Function.update s.thread i l j).At P y) : (s.thread j).At P y := by
    rcases at_update.1 hj with ⟨-, hj⟩ | ⟨-, hj⟩
    · exact absurd hj (hat P hP)
    · exact hj
  refine h.frame rfl rfl hholds (hback fun op => ?_) (hback fun op => ?_) fun j =>
    Or.imp (hback (fun op => ?_) j) (hback (fun op => ?_) j)
  · cases op <;> exact id
  · cases op <;> exact id
  · cases op <;> exact id
  · cases op <;> nofun

/-- **Every step keeps nodes with their holders**, if it meets the condition. -/
theorem Guarded.step (h : Guarded t user s) (hinj : Function.Injective user)
    (huser : OwnUser user l) (hops : LockUnlock l) (hwaits : NoneWaits s l)
    (hs : Atomic.step t s l = some s') : Guarded t user s' := by
  have hfits := fits_step h.fits hs
  have hnoUpgrade := noUpgrade_step h.ops hops hs
  cases move_of_step hs with
  | invoke i c hi =>
      obtain ⟨-, -, -, hrest, hcall⟩ := Local.enter_custody t c s.hist.length
      refine ⟨hfits, hnoUpgrade,
        (Function.forall_update_iff _ fun j (l : Local) => ∀ u, l.user? = some u → u = user j).2
          ⟨fun u hu => ?_, fun j _ => h.user_eq j⟩,
        (Function.forall_update_iff _ fun j (l : Local) => l.Restoring → user j = -1).2
          ⟨fun hr => absurd hr hrest, fun j _ => h.restoring j⟩,
        fun n => (h.kept n).outside (fun _ => Iff.rfl)
          fun P hP => Local.not_at_enter hP t c _ n⟩
      rw [hcall, Option.some.injEq] at hu
      exact hu ▸ huser
  | ret i sp c k r hi =>
      exact ⟨hfits, hnoUpgrade,
        (Function.forall_update_iff _ fun j (l : Local) => ∀ u, l.user? = some u → u = user j).2
          ⟨nofun, fun j _ => h.user_eq j⟩,
        (Function.forall_update_iff _ fun j (l : Local) => l.Restoring → user j = -1).2
          ⟨False.elim, fun j _ => h.restoring j⟩,
        fun n => (h.kept n).outside (fun _ => Iff.rfl) fun _ _ => id⟩
  | exec i sp c k n pc hi =>
      have htouch := touches_running h.fits h.ops hi sp
      refine ⟨hfits, hnoUpgrade,
        (Function.forall_update_iff _ fun j (l : Local) => ∀ u, l.user? = some u → u = user j).2
          ⟨fun u hu => ?_, fun j _ => h.user_eq j⟩,
        (Function.forall_update_iff _ fun j (l : Local) => l.Restoring → user j = -1).2
          ⟨fun hrest => ?_, fun j _ => h.restoring j⟩, fun y => ?_⟩
      · refine h.user_eq i u ?_
        cases hnext : (pc.exec t s.mem c.userId n sp).2 <;>
          simpa [hi, hnext, Next.toLocal, Local.user?] using hu
      · cases hnext : (pc.exec t s.mem c.userId n sp).2 with
        | finish r =>
            rw [hnext] at hrest
            exact hrest.elim
        | goto pc' =>
            rw [hnext] at hrest
            rcases exec_restoring hnext hrest with hpc | ⟨rfl, hfree⟩
            · exact h.restoring i (by rw [hi]; exact hpc)
            -- only a caller that holds nothing finds its node free
            · cases h.kept n with
              | free _ _ _ _ hunlocking => exact hunlocking i (by rw [hi]; exact ⟨rfl, trivial⟩)
              | held _ hstate => exact absurd hstate hfree
      · by_cases hy : y = n
        · subst hy
          exact h.exec_kept hinj hwaits hi rfl htouch
        · exact (h.kept y).exec_of_ne hy htouch

end Steps

/-! ### What a release gives back -/

/-- The propagation of a release. -/
def Pc.Withdrawing : Pc → Prop
  | .informUp _ delta _ _ | .informDown _ delta _ _ => delta ≠ 1
  | _ => False

/-- An `unlock` past its `compare_exchange` has released what its thread had locked. -/
def Local.Released (t : TreeShape) (i : Tid) (H : List (Event Tid)) : Local → Prop
  | .running _ k n pc => pc.Withdrawing → ReleasedOwn t i k n H
  | .returning c k true => c.op = .unlock → ∀ n, t.getNode c.nodeName = some n →
      ReleasedOwn t i k n H
  | _ => True

/-- What a thread holds its `lock` has returned true for, or is about to; and what an
`unlock` has released was its own. -/
structure Answered (t : TreeShape) (s : State Tid) : Prop where
  granted : ∀ i n, Holds i n s.hist → Granted t i n s.hist ∨ (s.thread i).At Pc.Acquiring n ∨
    (s.thread i).Granting t n
  released : ∀ i, (s.thread i).Released t i s.hist
  returned : ∀ i c k n, .ret i c k true ∈ s.hist → c.op = .unlock →
    t.getNode c.nodeName = some n → ReleasedOwn t i k n s.hist

section Exec

variable {t : TreeShape} {m : Memory} {u : ℤ} {n : ℕ} {sp : Bool} {pc : Pc} {op : Op}

/-- A `lock` that has won its node goes on acquiring it, rolls back, or returns true. -/
theorem exec_acquires_next (hfits : pc.Fits t op n) (hop : op ≠ .upgradeLock)
    (h : pc.Acquiring) : op = .lock ∧ ((pc.exec t m u n sp).2.At Pc.Acquiring ∨
      (pc.exec t m u n sp).1 = .setLockState n 0 ∨ (pc.exec t m u n sp).2 = .finish true) := by
  have hlock : op = .lock := by
    have hne := h.op_ne_unlock hfits
    cases op with
    | lock => rfl
    | unlock => exact absurd rfl hne
    | upgradeLock => exact absurd rfl hop
  refine ⟨hlock, ?_⟩
  revert hfits h
  fun_cases Pc.exec t m u n sp pc <;> intro hfits h <;>
    simp_all [Pc.Fits, After.Fits, Pc.Acquiring, Next.At]

/-- An `unlock` comes to its propagation by its `compare_exchange`. -/
theorem exec_withdrawing (h : (pc.exec t m u n sp).2.At Pc.Withdrawing)
    (hfits : pc.Fits t op n) (hop : op ≠ .upgradeLock) :
    pc.Withdrawing ∨ pc = .unlockCas ∧ (m.node n).lockState = 1 ∧
      (pc.exec t m u n sp).1 = .setLockState n 0 := by
  revert h hfits
  fun_cases Pc.exec t m u n sp pc <;> intro h hfits <;>
    simp_all [Pc.Fits, After.Fits, Pc.Withdrawing, Next.At]

end Exec

theorem Local.Released.append {t : TreeShape} {i : Tid} {H : List (Event Tid)} {l : Local}
    (h : l.Released t i H) (es : List (Event Tid)) : l.Released t i (es ++ H) := by
  cases l with
  | idle => trivial
  | running c k n pc => exact fun hpc => (h hpc).append es
  | returning c k r =>
      cases r with
      | true => exact fun hop n hn => (h hop n hn).append es
      | false => trivial

section Steps

variable {t : TreeShape} {user : Tid → ℤ} {s s' : State Tid} {l : Label Tid} {i : Tid} {sp : Bool}
  {c : Call} {k n : ℕ} {pc : Pc}

/-- What a thread still holds after its own step has been granted, or is on its way. -/
theorem Answered.exec_granted (h : Answered t s) (hfits : ∀ i, (s.thread i).Fits t)
    (hops : ∀ i, (s.thread i).NoUpgrade) (hres : Resolved t s)
    (hi : s.thread i = .running c k n pc) {y : ℕ}
    (hy : Holds i y ((pc.exec t s.mem c.userId n sp).1.events i ++ s.hist)) :
    Granted t i y ((pc.exec t s.mem c.userId n sp).1.events i ++ s.hist) ∨
      ((pc.exec t s.mem c.userId n sp).2.toLocal c k n).At Pc.Acquiring y ∨
      ((pc.exec t s.mem c.userId n sp).2.toLocal c k n).Granting t y := by
  have hfit := hfits i
  have hop := hops i
  have hnode := hres.calls i
  rw [hi] at hfit hop hnode
  by_cases hwon : (pc.exec t s.mem c.userId n sp).1 = .setLockState y 1
  · rcases exec_setLockState hwon with ⟨rfl, -, -, ⟨-, hgo⟩ | ⟨rfl, -⟩⟩ | ⟨h0, -⟩
    · rw [hgo]
      exact .inr (.inl ⟨rfl, trivial⟩)
    · exact absurd hfit hop
    · cases h0
  have hnotReleased : (pc.exec t s.mem c.userId n sp).1 ≠ .setLockState y 0 := by
    intro ha
    rw [holds_events, ha] at hy
    exact hy.1 ⟨rfl, rfl⟩
  rcases h.granted i y (holds_of_events hy fun _ => hwon) with hg | hg | hg
  · refine .inl ?_
    rw [granted_events]
    split
    · rename_i z v ha
      refine ⟨fun hv => ?_, hg⟩
      rintro ⟨-, rfl⟩
      rcases exec_setLockState ha with ⟨-, h1, -⟩ | ⟨rfl, -⟩
      · exact hv h1
      · exact hnotReleased ha
    · exact hg
  · rw [hi] at hg
    obtain ⟨rfl, hacq⟩ := hg
    obtain ⟨hlock, hnext | hrel | hret⟩ := exec_acquires_next hfit hop hacq
    · exact .inr (.inl (Next.at_toLocal.2 ⟨rfl, hnext⟩))
    · exact absurd hrel hnotReleased
    · rw [hret]
      exact .inr (.inr ⟨hlock, hnode.1, rfl⟩)
  · rw [hi] at hg
    exact hg.elim

/-- What an `unlock` releases, its thread had been granted. -/
theorem Answered.exec_released (h : Answered t s) (hguard : Guarded t user s)
    (hres : Resolved t s) (hi : s.thread i = .running c k n pc) :
    ((pc.exec t s.mem c.userId n sp).2.toLocal c k n).Released t i
      ((pc.exec t s.mem c.userId n sp).1.events i ++ s.hist) := by
  have hfit := hguard.fits i
  have hop := hguard.ops i
  have hnode := hres.calls i
  have hreleased := h.released i
  rw [hi] at hfit hop hnode hreleased
  cases hnext : (pc.exec t s.mem c.userId n sp).2 with
  | goto pc' =>
      intro hpc'
      have hcomes : (pc.exec t s.mem c.userId n sp).2.At Pc.Withdrawing := by
        rw [hnext]
        exact hpc'
      rcases exec_withdrawing hcomes hfit hop with hpc | ⟨rfl, hlocked, ha⟩
      · exact (hreleased hpc).append _
      · have hheld : Holds i n s.hist :=
          (hguard.kept n).holds_of_unlocking hlocked (by rw [hi]; exact ⟨rfl, trivial⟩)
        rw [ha]
        refine .inl ⟨rfl, rfl, hnode.2, ?_⟩
        rcases h.granted i n hheld with hg | hg | hg
        · exact hg
        · rw [hi] at hg
          exact hg.2.elim
        · rw [hi] at hg
          exact hg.elim
  | finish r =>
      cases r with
      | false => trivial
      | true =>
          intro hunlock n' hn'
          obtain ⟨node, delta, rfl, -⟩ := exec_finish_true hnext
          obtain rfl : n = n' := Option.some.inj (hnode.1.symm.trans hn')
          obtain ⟨⟨-, ⟨-, hne⟩ | ⟨rfl, -⟩⟩, -⟩ := hfit
          · exact absurd hunlock hne
          · exact (hreleased (show (-1 : ℤ) ≠ 1 by decide)).append _

variable [DecidableEq Tid]

/-- **Every step keeps answers true.** -/
theorem Answered.step (h : Answered t s) (hguard : Guarded t user s) (hres : Resolved t s)
    (hs : Atomic.step t s l = some s') : Answered t s' := by
  cases move_of_step hs with
  | invoke i c hi =>
      refine ⟨(Function.forall_update_iff _ fun j (l : Local) => ∀ n, Holds j n _ →
          Granted t j n _ ∨ l.At Pc.Acquiring n ∨ l.Granting t n).2 ⟨fun n hn => ?_,
            fun j _ => h.granted j⟩,
        (Function.forall_update_iff _ fun j (l : Local) => l.Released t j _).2
          ⟨?_, fun j _ => (h.released j).append [.invoke i c]⟩, fun j c' k n hr hop hn => ?_⟩
      · rcases h.granted i n hn with hg | hg | hg
        · exact .inl hg
        · rw [hi] at hg
          exact hg.elim
        · rw [hi] at hg
          exact hg.elim
      · unfold Local.enter
        split
        · trivial
        · cases c.op <;> exact False.elim
      · exact h.returned j c' k n ((List.mem_cons.1 hr).resolve_left nofun) hop hn
  | ret i sp c k r hi =>
      refine ⟨(Function.forall_update_iff _ fun j (l : Local) => ∀ n, Holds j n _ →
          Granted t j n _ ∨ l.At Pc.Acquiring n ∨ l.Granting t n).2 ⟨fun n hn => ?_,
            fun j _ n hn => (h.granted j n hn).imp_left .inr⟩,
        (Function.forall_update_iff _ fun j (l : Local) => l.Released t j _).2
          ⟨trivial, fun j _ => (h.released j).append [.ret i c k r]⟩, fun j c' k' n hr hop hn => ?_⟩
      · rcases h.granted i n hn with hg | hg | hg
        · exact .inl (.inr hg)
        · rw [hi] at hg
          exact hg.elim
        · rw [hi] at hg
          obtain ⟨hop, hnode, rfl⟩ := hg
          exact .inl (.inl ⟨rfl, by rw [hop]; decide, hnode, rfl⟩)
      · rcases List.mem_cons.1 hr with heq | hr
        · cases heq
          have hnow := h.released i
          rw [hi] at hnow
          exact hnow hop n hn
        · exact h.returned j c' k' n hr hop hn
  | exec i sp c k n pc hi =>
      refine ⟨(Function.forall_update_iff _ fun j (l : Local) => ∀ y, Holds j y _ →
          Granted t j y _ ∨ l.At Pc.Acquiring y ∨ l.Granting t y).2
            ⟨fun y => h.exec_granted hguard.fits hguard.ops hres hi, fun j hj y hy => ?_⟩,
        (Function.forall_update_iff _ fun j (l : Local) => l.Released t j _).2
          ⟨h.exec_released hguard hres hi, fun j _ => (h.released j).append _⟩,
        fun j c' k' y hr hop hn => ?_⟩
      · refine (h.granted j y (holds_of_events hy fun hji => absurd hji hj)).imp_left fun hg => ?_
        rw [granted_events]
        split
        · exact ⟨fun _ hij => hj hij.1.symm, hg⟩
        · exact hg
      · have hr := (List.mem_append.1 hr).resolve_left ret_not_mem_events
        exact (h.returned j c' k' y hr hop hn).append _

/-- **Who can free a held node.** -/
theorem Guarded.lost (h : Guarded t user s) (hs : Atomic.step t s l = some s')
    (hheld : Holds i n s.hist) (hfree : (s'.mem.node n).lockState = 0) :
    l.tid = i ∧ ∃ c k, c.userId = user i ∧ (s.thread i = .running c k n .lockRollback ∨
      s.thread i = .running c k n .unlockCas) := by
  cases h.kept n with
  | free _ _ hnone => exact absurd hheld (hnone i)
  | held i' hlocked _ hi' hacq hunlocking =>
      obtain rfl := (hi' i).1 hheld
      have hchanged : ¬(s'.mem.node n).lockState = (s.mem.node n).lockState := fun heq =>
        absurd (hlocked.symm.trans (heq.symm.trans hfree)) (by decide)
      cases move_of_step hs with
      | invoke j c hj => exact absurd rfl hchanged
      | ret j sp c k r hj => exact absurd rfl hchanged
      | exec j sp c k y pc hj =>
          have hset := (Memory.apply_lockState_cases ..).resolve_left hchanged
          have huser : c.userId = user j := h.user_eq j _ (by rw [hj]; rfl)
          have hfit := h.fits j
          have hop := h.ops j
          rw [hj] at hfit hop
          rw [show ((s.mem.apply _).node n).lockState = 0 from hfree] at hset
          rcases exec_setLockState hset with
            ⟨-, h1, -⟩ | ⟨-, ⟨rfl, rfl, -⟩ | ⟨rfl, rfl, -⟩ | ⟨ds, rfl, -⟩⟩
          · cases h1
          · obtain rfl := hacq j (by rw [hj]; exact ⟨rfl, trivial⟩)
            exact ⟨rfl, c, k, huser, .inl hj⟩
          · obtain rfl := hunlocking j (by rw [hj]; exact ⟨rfl, trivial⟩)
            exact ⟨rfl, c, k, huser, .inr hj⟩
          · exact absurd hfit.1 hop

end Steps

/-! ### Runs -/

section Runs

variable [DecidableEq Tid] {adds : List NodeSpec} {user : Tid → ℤ} {s : State Tid}

/-- **When only the owner releases.**  In a run of `lock` and `unlock` calls by threads
with distinct ids, -1 not excluded, in which every `unlock` for -1 passes its owner check
only on a node that no other thread holds, and no other thread wins the node before its
`compare_exchange`, every `unlock` that returned true has released an acquisition of its
own thread that had returned true, and a node that a thread holds becomes free only by
that thread's rollback or `unlock`. -/
theorem only_owner_releases (hinj : Function.Injective user)
    (h : Reaches (step (AtomicPaymentTree.build adds).shape)
      (fun s l => OwnUser user l ∧ LockUnlock l ∧ NoneWaits s l)
      (start (AtomicPaymentTree.build adds)) s) :
    OwnerReleases (AtomicPaymentTree.build adds).shape user s := by
  have hinv : Guarded (AtomicPaymentTree.build adds).shape user s ∧
      Resolved (AtomicPaymentTree.build adds).shape s ∧
      Answered (AtomicPaymentTree.build adds).shape s := by
    refine h.invariant ?_ ?_
    · exact ⟨guarded_start adds _, resolved_start, fun _ _ => False.elim, fun _ => trivial, nofun⟩
    · rintro s₁ l s₂ - ⟨hguard, hres, hanswered⟩ ⟨huser, hops, hwaits⟩ hs
      exact ⟨hguard.step hinj huser hops hwaits hs, hres.step hs, hanswered.step hguard hres hs⟩
  obtain ⟨hguard, -, hanswered⟩ := hinv
  exact ⟨hanswered.returned, fun i n l s' hheld hs hfree => hguard.lost hs hheld hfree⟩

/-- The ids -1 and 0. -/
def withNone (i : Fin 2) : ℤ := (i : ℤ) - 1

/-- The user -1 locks and unlocks `Left`; its `unlock` has released its own lock. -/
theorem only_owner_releases_none : ∃ s : State (Fin 2),
    Reaches (step (AtomicPaymentTree.build smallTree).shape)
      (fun s l => OwnUser withNone l ∧ LockUnlock l ∧ NoneWaits s l)
      (start (AtomicPaymentTree.build smallTree)) s ∧
    .ret 0 ⟨.unlock, "Left", -1⟩ 3 true ∈ s.hist ∧
    ReleasedOwn (AtomicPaymentTree.build smallTree).shape 0 3 1 s.hist := by
  obtain ⟨s, hs, hp⟩ : ∃ s, Reaches (step (AtomicPaymentTree.build smallTree).shape)
      (fun s l => OwnUser withNone l ∧ LockUnlock l ∧ NoneWaits s l)
      (start (AtomicPaymentTree.build smallTree)) s ∧
      decide (.ret (0 : Fin 2) ⟨.unlock, "Left", -1⟩ 3 true ∈ s.hist) = true :=
    exists_reaches_of_exec (.invoke 0 ⟨.lock, "Left", -1⟩ :: turns 0 10 ++
      .invoke 0 ⟨.unlock, "Left", -1⟩ :: turns 0 7) (by decide +kernel)
  have hret := of_decide_eq_true hp
  exact ⟨s, hs, hret, (only_owner_releases (by decide) hs).returned 0 ⟨.unlock, "Left", -1⟩ 3 1
    hret rfl (by decide +kernel)⟩

/-- **An `unlock` for the id -1** finds no owner on a node that thread 1 has won and not
signed yet, releases it, and returns true. -/
theorem unlock_for_none : ∃ s : State (Fin 2),
    Reaches (step (AtomicPaymentTree.build smallTree).shape)
      (fun _ l => OwnUser withNone l ∧ LockUnlock l) (start (AtomicPaymentTree.build smallTree)) s ∧
    ¬OwnerReleases (AtomicPaymentTree.build smallTree).shape withNone s := by
  obtain ⟨s, hs, hp⟩ : ∃ s, Reaches (step (AtomicPaymentTree.build smallTree).shape)
      (fun _ l => OwnUser withNone l ∧ LockUnlock l)
      (start (AtomicPaymentTree.build smallTree)) s ∧
      decide (s.hist = [.ret 0 ⟨.unlock, "Left", -1⟩ 2 true, .release 0 1,
        .invoke 0 ⟨.unlock, "Left", -1⟩, .acquire 1 1, .invoke 1 ⟨.lock, "Left", 0⟩]) = true :=
    exists_reaches_of_exec (.invoke 1 ⟨.lock, "Left", 0⟩ :: turns 1 3 ++
      .invoke 0 ⟨.unlock, "Left", -1⟩ :: turns 0 7) (by decide +kernel)
  have hhist := of_decide_eq_true hp
  refine ⟨s, hs, fun h => ?_⟩
  have hown := h.returned 0 ⟨.unlock, "Left", -1⟩ 2 1 (by rw [hhist]; exact List.mem_cons_self ..)
    rfl (by decide +kernel)
  rw [hhist] at hown
  rcases hown with ⟨-, -, -, hgranted⟩ | hown
  · exact hgranted
  · exact hown

end Runs

end Atomic
end PaymentGateway
