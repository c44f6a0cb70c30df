/-
# Runs of `lock` and `unlock`

Several properties are about runs without `upgradeLock`.  There a call touches the
lock state and the owner of no node but its own, and only at seven places of the
program: it wins the node or gives it back, it records, clears or restores the owner,
it releases the node, or finds that there is nothing to release.  `Touches` lists the
seven together with the owner check, which touches nothing but leads to two of them;
every other step is `quiet` (`touches_exec`).
-/

import PaymentGateway.Atomic.Custody

namespace PaymentGateway
namespace Atomic

open Lib

variable {Tid : Type}

/-- The calls are `lock` and `unlock`. -/
def LockUnlock : Label Tid → Prop
  | .invoke _ c => c.op ≠ .upgradeLock
  | .tick _ _ => True

instance (l : Label Tid) : Decidable (LockUnlock l) := by
  rcases l with _ | _ <;> unfold LockUnlock <;> infer_instance

/-! ### Where a thread stands -/

/-- Between the `compare_exchange` that wins a node for `lock` and the store that records
the owner, or the rollback. -/
def Pc.Taking : Pc → Prop
  | .lockReloadAncestors | .lockReloadDescendants | .lockRollback | .storeOwner => True
  | _ => False

/-- Past the whole re-validation of `lock`: recording the owner or publishing. -/
def Pc.PastDescendants : Pc → Prop
  | .storeOwner => True
  | .informUp _ delta _ _ | .informDown _ delta _ _ => delta = 1
  | _ => False

/-- Between the owner check of `unlock` and its `compare_exchange`. -/
def Pc.Unlocking : Pc → Prop
  | .unlockClearOwner | .unlockCas => True
  | _ => False

instance : DecidablePred Pc.Taking := fun pc => by
  rcases pc with _ | _ <;> unfold Pc.Taking <;> infer_instance

instance : DecidablePred Pc.PastDescendants := fun pc => by
  rcases pc with _ | _ <;> unfold Pc.PastDescendants <;> infer_instance

instance : DecidablePred Pc.Unlocking := fun pc => by
  rcases pc with _ | _ <;> unfold Pc.Unlocking <;> infer_instance

/-- The call goes on at a program counter in `P`. -/
def Next.At (P : Pc → Prop) : Next → Prop
  | .goto pc => P pc
  | .finish _ => False

namespace Local

/-- The thread runs a call on `n` at a program counter in `P`. -/
def At (P : Pc → Prop) (n : ℕ) : Local → Prop
  | .running _ _ n' pc => n' = n ∧ P pc
  | _ => False

/-- The call of the thread is a `lock` or an `unlock`. -/
def NoUpgrade : Local → Prop
  | .running c _ _ _ => c.op ≠ .upgradeLock
  | _ => True

/-- The thread is about to return true from a `lock` of `n`. -/
def Granting (t : TreeShape) (n : ℕ) : Local → Prop
  | .returning c _ result => c.op = .lock ∧ t.getNode c.nodeName = some n ∧ result = true
  | _ => False

instance (P : Pc → Prop) [DecidablePred P] (n : ℕ) (l : Local) : Decidable (l.At P n) := by
  rcases l with _ | _ | _ <;> unfold At <;> infer_instance

instance (t : TreeShape) (n : ℕ) (l : Local) : Decidable (l.Granting t n) := by
  rcases l with _ | _ | _ <;> unfold Granting <;> infer_instance

variable {P Q : Pc → Prop} {n : ℕ} {l : Local}

theorem At.acquires (hP : ∀ pc, P pc → pc.Acquiring) (h : l.At P n) : l.acquires = some n := by
  cases l with
  | running c k n' pc => exact acquires_running.2 ⟨hP pc h.2, h.1⟩
  | _ => exact h.elim

theorem At.mono (hPQ : ∀ pc, P pc → Q pc) (h : l.At P n) : l.At Q n := by
  cases l with
  | running c k n' pc => exact ⟨h.1, hPQ pc h.2⟩
  | _ => exact h

theorem At.exists_user (h : l.At P n) : ∃ u, l.user? = some u := by
  cases l with
  | running c k n' pc => exact ⟨c.userId, rfl⟩
  | _ => exact h.elim

/-- A call that begins stands at none of the program counters that no operation
begins with. -/
theorem not_at_enter (hentry : ∀ op, ¬P (.entry op)) (t : TreeShape) (c : Call) (k n : ℕ) :
    ¬(enter t c k).At P n := by
  unfold enter
  split
  · exact id
  · exact fun h => hentry c.op h.2

end Local

theorem Next.At.mono {P Q : Pc → Prop} {r : Next} (h : r.At P) (hPQ : ∀ pc, P pc → Q pc) :
    r.At Q := by
  cases r with
  | goto pc => exact hPQ pc h
  | finish result => exact h

theorem Next.At.disjoint {P Q : Pc → Prop} {r : Next} (h : r.At P) (hPQ : ∀ pc, P pc → ¬Q pc) :
    ¬r.At Q := by
  cases r with
  | goto pc => exact hPQ pc h
  | finish result => exact h.elim

theorem Next.at_toLocal {P : Pc → Prop} {c : Call} {k n y : ℕ} {r : Next} :
    (r.toLocal c k n).At P y ↔ n = y ∧ r.At P := by
  cases r with
  | goto pc => exact Iff.rfl
  | finish result => exact ⟨False.elim, fun h => h.2⟩

/-- One thread moves. -/
theorem at_update [DecidableEq Tid] {thread : Tid → Local} {i j : Tid} {l : Local}
    {P : Pc → Prop} {n : ℕ} : (Function.update thread i l j).At P n ↔
      j = i ∧ l.At P n ∨ j ≠ i ∧ (thread j).At P n := by
  by_cases hj : j = i
  · subst hj
    simp
  · simp [hj]

theorem at_running {l : Local} {P : Pc → Prop} {c : Call} {k n : ℕ} {pc : Pc}
    (h : l = .running c k n pc) : l.At P n ↔ P pc := by
  rw [h]
  exact and_iff_right rfl

/-- The state after a step of the call `c` on `n`, which makes the access `r.1`. -/
abbrev State.after [DecidableEq Tid] (s : State Tid) (i : Tid) (c : Call) (k n : ℕ)
    (r : Access × Next) : State Tid :=
  ⟨s.mem.apply r.1, Function.update s.thread i (r.2.toLocal c k n), r.1.events i ++ s.hist⟩

section After

variable [DecidableEq Tid] {s : State Tid} {i j : Tid} {c : Call} {k n : ℕ} {r : Access × Next}
  {P : Pc → Prop}

theorem at_after : ((s.after i c k n r).thread j).At P n ↔
    j = i ∧ r.2.At P ∨ j ≠ i ∧ (s.thread j).At P n := by
  rw [at_update, Next.at_toLocal, and_iff_right rfl]

/-- What is known of all threads at some place of the program stays known. -/
theorem stays_after {Q : Tid → Prop} (hothers : ∀ j, (s.thread j).At P n → Q j)
    (hself : r.2.At P → Q i) (j : Tid) (hj : ((s.after i c k n r).thread j).At P n) : Q j := by
  rcases at_after.1 hj with ⟨rfl, hnext⟩ | ⟨-, hj⟩
  · exact hself hnext
  · exact hothers j hj

/-- Where no other thread stood, nobody does after the thread has left. -/
theorem leaves_after (honly : ∀ j, (s.thread j).At P n → j = i) (hself : ¬r.2.At P) (j : Tid) :
    ¬((s.after i c k n r).thread j).At P n := by
  rw [at_after]
  rintro (⟨-, hnext⟩ | ⟨hji, hj⟩)
  · exact hself hnext
  · exact hji (honly j hj)

/-- A step from a place to itself, or from elsewhere to elsewhere, changes nothing there. -/
theorem at_after_iff {pc : Pc} (hi : s.thread i = .running c k n pc) (hsame : r.2.At P ↔ P pc) :
    ((s.after i c k n r).thread j).At P n ↔ (s.thread j).At P n := by
  rw [at_after]
  by_cases hj : j = i
  · simp [hj, at_running hi, hsame]
  · simp [hj]

end After

/-! ### What a step does -/

/-- **What a step of `lock` or `unlock`** on `n` by `u` can do to the lock state and the
owner of `n`; the steps of other kinds touch neither, of any node. -/
inductive Touches (t : TreeShape) (m : Memory) (u : ℤ) (n : ℕ) : Pc → Access × Next → Prop
  | win (hfree : (m.node n).lockState = 0) :
      Touches t m u n .lockCas (.setLockState n 1, .goto .lockReloadAncestors)
  | rollback : Touches t m u n .lockRollback (.setLockState n 0, .finish false)
  | record : Touches t m u n .storeOwner
      (.setLockedBy n u, .goto (.informUp n 1 (t.parent n) .finish))
  | check (howner : (m.node n).lockedBy = u) :
      Touches t m u n .unlockLoadOwner (.read, .goto .unlockClearOwner)
  | clear : Touches t m u n .unlockClearOwner (.setLockedBy n (-1), .goto .unlockCas)
  | release (hlocked : (m.node n).lockState = 1) : Touches t m u n .unlockCas
      (.setLockState n 0, .goto (.informUp n (-1) (t.parent n) .finish))
  | miss (hfree : (m.node n).lockState ≠ 1) :
      Touches t m u n .unlockCas (.read, .goto .unlockRestoreOwner)
  | restore : Touches t m u n .unlockRestoreOwner
      (.setLockedBy n u, .goto .unlockCountRetry)
  | quiet {pc : Pc} {r : Access × Next}
      (hread : ∀ y v, r.1 ≠ .setLockState y v ∧ r.1 ≠ .setLockedBy y v)
      (htaking : r.2.At Pc.Taking ↔ pc.Taking) (hpc : ¬pc.Unlocking)
      (hunlocking : ¬r.2.At Pc.Unlocking) (hrestoring : ¬r.2.At Pc.Restoring) :
      Touches t m u n pc r

section Exec

variable {t : TreeShape} {m : Memory} {u : ℤ} {n y : ℕ} {sp : Bool} {pc : Pc} {op : Op}

theorem touches_exec (hfits : pc.Fits t op n) (hop : op ≠ .upgradeLock) :
    Touches t m u n pc (pc.exec t m u n sp) := by
  revert hfits
  fun_cases Pc.exec t m u n sp pc <;> intro hfits <;>
    first
    | exact .win (not_not.1 ‹_›)
    | exact .rollback
    | exact .record
    | exact .check (not_not.1 ‹_›)
    | exact .clear
    | exact .release ‹_›
    | exact .miss ‹_›
    | exact .restore
    | exact absurd hfits hop
    | exact absurd hfits.1 hop
    | exact .quiet (by simp) (by simp [Next.At, Pc.Taking]) (by simp [Pc.Unlocking])
        (by simp [Next.At, Pc.Unlocking]) (by simp [Next.At, Pc.Restoring])

/-- A quiet step changes no lock state, no owner, and nothing the history records. -/
theorem quiet_apply {a : Access}
    (hread : ∀ y v, a ≠ .setLockState y v ∧ a ≠ .setLockedBy y v) (x : ℕ) (i : Tid) :
    ((m.apply a).node x).lockState = (m.node x).lockState ∧
      ((m.apply a).node x).lockedBy = (m.node x).lockedBy ∧ a.events i = [] := by
  rw [Memory.apply_lockState, Memory.apply_lockedBy]
  cases a with
  | setLockState y v => exact absurd rfl (hread y v).1
  | setLockedBy y v => exact absurd rfl (hread y v).2
  | _ => exact ⟨rfl, rfl, rfl⟩

/-- A step of a call on `n` touches no other node. -/
theorem Touches.elsewhere {r : Access × Next} (h : Touches t m u n pc r) (hy : y ≠ n) :
    ((m.apply r.1).node y).lockState = (m.node y).lockState ∧
      ((m.apply r.1).node y).lockedBy = (m.node y).lockedBy ∧ ∀ v, r.1 ≠ .setLockState y v := by
  rw [Memory.apply_lockState, Memory.apply_lockedBy]
  cases h with
  | quiet hread =>
      have hquiet := quiet_apply (m := m) hread y ()
      rw [Memory.apply_lockState, Memory.apply_lockedBy] at hquiet
      exact ⟨hquiet.1, hquiet.2.1, fun v => (hread y v).1⟩
  | check | miss => exact ⟨rfl, rfl, nofun⟩
  | record | clear | restore => exact ⟨rfl, if_neg hy, nofun⟩
  | win | rollback | release =>
      refine ⟨if_neg hy, rfl, fun v hv => hy ?_⟩
      simp only [Access.setLockState.injEq] at hv
      exact hv.1.symm

end Exec

/-! ### Runs -/

section Steps

variable {t : TreeShape} {s s' : State Tid} {l : Label Tid}

theorem op_running {i : Tid} {c : Call} {k n : ℕ} {pc : Pc} (hops : ∀ i, (s.thread i).NoUpgrade)
    (hi : s.thread i = .running c k n pc) : c.op ≠ .upgradeLock := by
  have hop := hops i
  rwa [hi] at hop

/-- The next step of a thread. -/
theorem touches_running {i : Tid} {c : Call} {k n : ℕ} {pc : Pc}
    (hfits : ∀ i, (s.thread i).Fits t) (hops : ∀ i, (s.thread i).NoUpgrade)
    (hi : s.thread i = .running c k n pc) (sp : Bool) :
    Touches t s.mem c.userId n pc (pc.exec t s.mem c.userId n sp) :=
  touches_exec (fits_running hfits hi) (op_running hops hi)

variable [DecidableEq Tid]

/-- **Every step keeps calls within their programs.** -/
theorem fits_step (h : ∀ i, (s.thread i).Fits t) (hs : step t s l = some s') :
    ∀ i, (s'.thread i).Fits t := by
  cases move_of_step hs with
  | invoke i c hi =>
      exact (Function.forall_update_iff _ fun _ (l : Local) => l.Fits t).2
        ⟨(Local.enter_facts t c _).1, fun j _ => h j⟩
  | ret i sp c k r hi =>
      exact (Function.forall_update_iff _ fun _ (l : Local) => l.Fits t).2
        ⟨trivial, fun j _ => h j⟩
  | exec i sp c k n pc hi =>
      refine (Function.forall_update_iff _ fun _ (l : Local) => l.Fits t).2 ⟨?_, fun j _ => h j⟩
      have hfits := h i
      rw [hi] at hfits
      cases hnext : (pc.exec t s.mem c.userId n sp).2 with
      | goto pc' => exact exec_fits hfits hnext
      | finish r => trivial

/-- **No `upgradeLock` comes up.** -/
theorem noUpgrade_step (h : ∀ i, (s.thread i).NoUpgrade) (hops : LockUnlock l)
    (hs : step t s l = some s') : ∀ i, (s'.thread i).NoUpgrade := by
  cases move_of_step hs with
  | invoke i c hi =>
      refine (Function.forall_update_iff _ fun _ => Local.NoUpgrade).2 ⟨?_, fun j _ => h j⟩
      unfold Local.enter
      split
      · trivial
      · exact hops
  | ret i sp c k r hi =>
      exact (Function.forall_update_iff _ fun _ => Local.NoUpgrade).2 ⟨trivial, fun j _ => h j⟩
  | exec i sp c k n pc hi =>
      refine (Function.forall_update_iff _ fun _ => Local.NoUpgrade).2 ⟨?_, fun j _ => h j⟩
      have hop := h i
      rw [hi] at hop
      cases (pc.exec t s.mem c.userId n sp).2 with
      | goto pc' => exact hop
      | finish r => trivial

end Steps

end Atomic
end PaymentGateway
