/-
# Two `unlock` calls for one user

A request that is sent twice makes two threads act for one user.  `unlock` clears the
owner of its node before its `compare_exchange` (lines 112-115), and when that fails it
stores its own id back, "in the highly unlikely event of an actual CAS failure" (line
118).  Two calls for the holder both pass the owner check; one of them releases the
node, the other then finds it free and writes its id on it, although a free node has
the owner -1 (`late_rollback`).

Owners stay intact as long as every `unlock` makes its `compare_exchange` on a node that
is still locked and still without owner, and that no `lock` is just taking
(`ReleasesCleared`).  Then a node is always free, being taken, recorded under the id of
the call that locked it, or cleared by an `unlock` that has still to release it
(`Situation`), and without calls in flight the last cannot be (`owners_intact`).
-/

import PaymentGateway.Atomic.DistinctUsers
import PaymentGateway.Atomic.LockUnlock

namespace PaymentGateway
namespace Atomic

open Lib

variable {Tid : Type} [DecidableEq Tid]

/-! ### Who locked a node -/

/-- The user of the call that the thread began last. -/
def begunBy (i : Tid) : List (Event Tid) → Option ℤ
  | [] => none
  | .invoke j c :: H => if j = i then some c.userId else begunBy i H
  | .acquire _ _ :: H => begunBy i H
  | .release _ _ :: H => begunBy i H
  | .ret _ _ _ _ :: H => begunBy i H

/-- The user of the call that last set the `lockState` of the node to 1. -/
def winner (n : ℕ) : List (Event Tid) → Option ℤ
  | [] => none
  | .acquire i y :: H => if y = n then begunBy i H else winner n H
  | .invoke _ _ :: H => winner n H
  | .release _ _ :: H => winner n H
  | .ret _ _ _ _ :: H => winner n H

/-- A free node has no owner, and the owner of a locked node is the user of the call
that locked it. -/
def OwnersIntact (s : State Tid) : Prop :=
  ∀ n, ((s.mem.node n).lockState = 0 → (s.mem.node n).lockedBy = -1) ∧
    ((s.mem.node n).lockState = 1 → winner n s.hist = some (s.mem.node n).lockedBy)

/-- An `unlock` makes its `compare_exchange` on a node that is still locked and still
cleared, and that no `lock` is taking. -/
def ReleasesCleared (s : State Tid) : Label Tid → Prop
  | .invoke _ _ => True
  | .tick i _ =>
      match s.thread i with
      | .running _ _ n .unlockCas => (s.mem.node n).lockState = 1 ∧ (s.mem.node n).lockedBy = -1 ∧
          ∀ j, ¬(s.thread j).At Pc.Taking n
      | _ => True

instance [Fintype Tid] (s : State Tid) (l : Label Tid) : Decidable (ReleasesCleared s l) := by
  unfold ReleasesCleared
  rcases l with _ | ⟨i, _⟩
  · infer_instance
  · dsimp only
    rcases s.thread i with _ | ⟨_, _, _, _ | _⟩ | _ <;> infer_instance

theorem begunBy_events {i j : Tid} {a : Access} {H : List (Event Tid)} :
    begunBy j (a.events i ++ H) = begunBy j H := by
  cases a with
  | setLockState y v =>
      simp only [Access.events, List.singleton_append]
      split <;> rfl
  | _ => rfl

theorem winner_events {i : Tid} {a : Access} {n : ℕ} {H : List (Event Tid)}
    (h : a ≠ .setLockState n 1) : winner n (a.events i ++ H) = winner n H := by
  cases a with
  | setLockState y v =>
      simp only [Access.events, List.singleton_append]
      split
      · rename_i hv
        exact if_neg fun hy => h (by rw [hy, hv])
      · rfl
  | _ => rfl

/-! ### Where a node stands -/

/-- A node is free, or won by a `lock` that has not recorded its owner yet, or recorded
under the id of the call that won it, or cleared by an `unlock` that releases it next. -/
inductive Situation (s : State Tid) (n : ℕ) : Prop
  | free (hstate : (s.mem.node n).lockState = 0) (howner : (s.mem.node n).lockedBy = -1)
      (hnone : ∀ i, ¬(s.thread i).At Pc.Taking n)
  | taken (i : Tid) (hi : (s.thread i).At Pc.Taking n)
      (hsole : ∀ j, (s.thread j).At Pc.Taking n → j = i)
      (hstate : (s.mem.node n).lockState = 1) (howner : (s.mem.node n).lockedBy = -1)
      (hwinner : winner n s.hist = begunBy i s.hist)
  | recorded (hstate : (s.mem.node n).lockState = 1) (hnone : ∀ i, ¬(s.thread i).At Pc.Taking n)
      (hwinner : winner n s.hist = some (s.mem.node n).lockedBy)
  | cleared (i : Tid) (hi : (s.thread i).At (· = .unlockCas) n)
      (hstate : (s.mem.node n).lockState = 1) (howner : (s.mem.node n).lockedBy = -1)
      (hnone : ∀ i, ¬(s.thread i).At Pc.Taking n)

/-- What holds in runs that meet the condition. -/
structure Intact (t : TreeShape) (s : State Tid) : Prop where
  fits : ∀ i, (s.thread i).Fits t
  ops : ∀ i, (s.thread i).NoUpgrade
  begun : ∀ i u, (s.thread i).user? = some u → begunBy i s.hist = some u
  not_restoring : ∀ i, ¬(s.thread i).Restoring
  situation : ∀ n, Situation s n

theorem intact_start (adds : List NodeSpec) (t : TreeShape) :
    Intact t (start (AtomicPaymentTree.build adds) : State Tid) := by
  refine ⟨fun _ => trivial, fun _ => trivial, nofun, fun _ => id, fun n => .free ?_ ?_ fun _ => id⟩
  all_goals
    rw [start, build_node]
    rfl

section Steps

variable {t : TreeShape} {s s' : State Tid} {l : Label Tid} {i : Tid} {sp : Bool} {c : Call}
  {k n y : ℕ} {pc : Pc}

/-- **Frame**: a node stands where it stood when its fields, the threads that take or
clear it, and what the history says about them stay. -/
theorem Situation.frame (h : Situation s y)
    (hstate : (s'.mem.node y).lockState = (s.mem.node y).lockState)
    (howner : (s'.mem.node y).lockedBy = (s.mem.node y).lockedBy)
    (htaking : ∀ j, (s'.thread j).At Pc.Taking y ↔ (s.thread j).At Pc.Taking y)
    (hcas : ∀ j, (s.thread j).At (· = .unlockCas) y → (s'.thread j).At (· = .unlockCas) y)
    (hwinner : winner y s'.hist = winner y s.hist)
    (hbegun : ∀ j, (s.thread j).At Pc.Taking y → begunBy j s'.hist = begunBy j s.hist) :
    Situation s' y := by
  cases h with
  | free h₁ h₂ h₃ =>
      exact .free (hstate.trans h₁) (howner.trans h₂) fun j hj => h₃ j ((htaking j).1 hj)
  | taken j hj h₁ h₂ h₃ h₄ =>
      exact .taken j ((htaking j).2 hj) (fun j' hj' => h₁ j' ((htaking j').1 hj'))
        (hstate.trans h₂) (howner.trans h₃) (hwinner.trans (h₄.trans (hbegun j hj).symm))
  | recorded h₁ h₂ h₃ =>
      exact .recorded (hstate.trans h₁) (fun j hj => h₂ j ((htaking j).1 hj))
        (hwinner.trans (h₃.trans (by rw [howner])))
  | cleared j hj h₁ h₂ h₃ =>
      exact .cleared j (hcas j hj) (hstate.trans h₁) (howner.trans h₂)
        fun j' hj' => h₃ j' ((htaking j').1 hj')

/-- The nodes that a call is not about stand where they stood. -/
theorem Situation.exec_of_ne (h : Situation s y) (hi : s.thread i = .running c k n pc) (hy : y ≠ n)
    {r : Access × Next} (htouch : Touches t s.mem c.userId n pc r) :
    Situation (s.after i c k n r) y := by
  obtain ⟨hstate, howner, hset⟩ := htouch.elsewhere hy
  have hat {P : Pc → Prop} (j : Tid) :
      ((s.after i c k n r).thread j).At P y ↔ (s.thread j).At P y := by
    rw [at_update, Next.at_toLocal]
    by_cases hj : j = i
    · subst hj
      simp [hi, Local.At, Ne.symm hy]
    · simp [hj]
  exact h.frame hstate howner hat (fun j => (hat j).2) (winner_events (hset 1))
    fun j _ => begunBy_events

/-! #### One step of the call on the node -/

theorem Situation.win (h : Situation s n) (hfree : (s.mem.node n).lockState = 0) :
    Situation (s.after i c k n (.setLockState n 1, .goto .lockReloadAncestors)) n := by
  cases h with
  | free _ howner hnone =>
      refine .taken i (at_after.2 (.inl ⟨rfl, trivial⟩))
        (stays_after (fun j hj => absurd hj (hnone j)) fun _ => rfl) ?_ ?_ ?_
      · exact Memory.setLockState_lockState ..
      · exact (Memory.setLockState_lockedBy ..).trans howner
      · exact if_pos rfl
  | taken _ _ _ hstate | recorded hstate | cleared _ _ hstate =>
      rw [hfree] at hstate
      cases hstate

/-- A thread that takes a node is the only one. -/
theorem Situation.of_taking (h : Situation s n) (hi : (s.thread i).At Pc.Taking n) :
    (∀ j, (s.thread j).At Pc.Taking n → j = i) ∧ (s.mem.node n).lockState = 1 ∧
      (s.mem.node n).lockedBy = -1 ∧ winner n s.hist = begunBy i s.hist := by
  cases h with
  | free _ _ hnone | recorded _ hnone | cleared _ _ _ _ hnone => exact absurd hi (hnone i)
  | taken j _ hsole hstate howner hwinner =>
      obtain rfl := hsole i hi
      exact ⟨hsole, hstate, howner, hwinner⟩

theorem Situation.rollback (h : Situation s n) (hi : s.thread i = .running c k n .lockRollback) :
    Situation (s.after i c k n (.setLockState n 0, .finish false)) n := by
  obtain ⟨hsole, -, howner, -⟩ := h.of_taking ((at_running hi).2 trivial)
  exact .free (Memory.setLockState_lockState ..) ((Memory.setLockState_lockedBy ..).trans howner)
    (leaves_after hsole id)

theorem Situation.record (h : Situation s n) (hi : s.thread i = .running c k n .storeOwner)
    (hbegun : begunBy i s.hist = some c.userId) : Situation (s.after i c k n
      (.setLockedBy n c.userId, .goto (.informUp n 1 (t.parent n) .finish))) n := by
  obtain ⟨hsole, hstate, -, hwinner⟩ := h.of_taking ((at_running hi).2 trivial)
  refine .recorded ((Memory.setLockedBy_lockState ..).trans hstate) (leaves_after hsole id) ?_
  rw [Memory.setLockedBy_lockedBy]
  exact hwinner.trans hbegun

theorem Situation.clear (h : Situation s n) (hi : s.thread i = .running c k n .unlockClearOwner) :
    Situation (s.after i c k n (.setLockedBy n (-1), .goto .unlockCas)) n := by
  have hnow : ((s.mem.apply (.setLockedBy n (-1))).node n).lockedBy = -1 :=
    Memory.setLockedBy_lockedBy ..
  cases h with
  | free hstate _ hnone =>
      exact .free ((Memory.setLockedBy_lockState ..).trans hstate) hnow
        (leaves_after (fun j hj => absurd hj (hnone j)) id)
  | taken j hj hsole hstate _ hwinner =>
      refine .taken j (at_after.2 (.inr ⟨?_, hj⟩)) (stays_after hsole fun h => absurd h id)
        ((Memory.setLockedBy_lockState ..).trans hstate) hnow hwinner
      rintro rfl
      exact (at_running hi).1 hj
  | recorded hstate hnone | cleared _ _ hstate _ hnone =>
      exact .cleared i (at_after.2 (.inl ⟨rfl, rfl⟩))
        ((Memory.setLockedBy_lockState ..).trans hstate) hnow
        (leaves_after (fun j hj => absurd hj (hnone j)) id)

theorem Situation.quiet (h : Situation s n) (hi : s.thread i = .running c k n pc)
    {r : Access × Next} (hread : ∀ y v, r.1 ≠ .setLockState y v ∧ r.1 ≠ .setLockedBy y v)
    (htaking : r.2.At Pc.Taking ↔ pc.Taking) (hpc : pc ≠ .unlockCas) :
    Situation (s.after i c k n r) n := by
  obtain ⟨hstate, howner, -⟩ := quiet_apply (m := s.mem) hread n i
  refine h.frame hstate howner (fun j => at_after_iff hi htaking) (fun j hj => ?_)
    (winner_events (hread n 1).1) fun _ _ => begunBy_events
  refine at_after.2 (.inr ⟨?_, hj⟩)
  rintro rfl
  exact hpc ((at_running hi).1 hj)

/-- **Where the node of a call stands after its step.** -/
theorem Intact.exec_situation (h : Intact t s) (hclear : ReleasesCleared s (.tick i sp))
    (hi : s.thread i = .running c k n pc) {r : Access × Next}
    (htouch : Touches t s.mem c.userId n pc r) : Situation (s.after i c k n r) n := by
  have hsituation := h.situation n
  rw [ReleasesCleared, hi] at hclear
  cases htouch with
  | win hfree => exact hsituation.win hfree
  | rollback => exact hsituation.rollback hi
  | record => exact hsituation.record hi (h.begun i c.userId (by rw [hi]; rfl))
  | check howner =>
      exact hsituation.quiet hi (fun _ _ => ⟨nofun, nofun⟩) (by simp [Next.At, Pc.Taking]) nofun
  | clear => exact hsituation.clear hi
  | release hlocked =>
      exact .free (Memory.setLockState_lockState ..)
        ((Memory.setLockState_lockedBy ..).trans hclear.2.1)
        (leaves_after (fun j hj => absurd hj (hclear.2.2 j)) id)
  | miss hfree => exact absurd hclear.1 hfree
  | restore => exact absurd (by rw [hi]; trivial) (h.not_restoring i)
  | quiet hread htaking hpc hunlocking hrestoring =>
      refine hsituation.quiet hi hread htaking ?_
      rintro rfl
      exact hpc trivial

/-- Beginning or returning from a call moves no node. -/
theorem Situation.outside (h : Situation s y) {H : List (Event Tid)} {l : Local}
    (hbefore : ∀ P, ¬(s.thread i).At P y) (hafter : ∀ P, (∀ op, ¬P (.entry op)) → ¬l.At P y)
    (hwinner : winner y H = winner y s.hist)
    (hbegun : ∀ j, j ≠ i → begunBy j H = begunBy j s.hist) :
    Situation ⟨s.mem, Function.update s.thread i l, H⟩ y := by
  have hat {P : Pc → Prop} (hP : ∀ op, ¬P (.entry op)) (j : Tid) :
      (Function.update s.thread i l j).At P y ↔ (s.thread j).At P y := by
    rw [at_update]
    by_cases hj : j = i
    · subst hj
      simp [hbefore, hafter P hP]
    · simp [hj]
  refine h.frame rfl rfl (hat fun op => ?_) (fun j => (hat (fun op => ?_) j).2) hwinner
    fun j hj => hbegun j ?_
  · cases op <;> exact id
  · cases op <;> nofun
  · rintro rfl
    exact hbefore _ hj

/-- The user of the call in progress stays the one it began with. -/
theorem begun_update (h : ∀ j u, (s.thread j).user? = some u → begunBy j s.hist = some u)
    {l : Local} {H : List (Event Tid)} (hi : ∀ u, l.user? = some u → begunBy i H = some u)
    (hothers : ∀ j, j ≠ i → begunBy j H = begunBy j s.hist) (j : Tid) (u : ℤ)
    (hj : (Function.update s.thread i l j).user? = some u) : begunBy j H = some u := by
  by_cases hji : j = i
  · subst hji
    rw [Function.update_self] at hj
    exact hi u hj
  · rw [Function.update_of_ne hji] at hj
    rw [hothers j hji]
    exact h j u hj

/-- **Every step keeps owners intact**, if it meets the condition. -/
theorem Intact.step (h : Intact t s) (hops : LockUnlock l) (hclear : ReleasesCleared s l)
    (hs : Atomic.step t s l = some s') : Intact t s' := by
  have hfits := fits_step h.fits hs
  have hnoUpgrade := noUpgrade_step h.ops hops hs
  cases move_of_step hs with
  | invoke i c hi =>
      obtain ⟨-, -, -, hrest, huser⟩ := Local.enter_custody t c s.hist.length
      have hothers (j : Tid) (hj : j ≠ i) : begunBy j (.invoke i c :: s.hist) = begunBy j s.hist :=
        if_neg (Ne.symm hj)
      refine ⟨hfits, hnoUpgrade, begun_update h.begun (fun u hu => ?_) hothers,
        (Function.forall_update_iff _ fun _ (l : Local) => ¬l.Restoring).2
          ⟨hrest, fun j _ => h.not_restoring j⟩,
        fun n => (h.situation n).outside (fun P => by rw [hi]; exact id)
          (fun P hP => Local.not_at_enter hP t c _ n) rfl hothers⟩
      rw [huser, Option.some.injEq] at hu
      exact (if_pos rfl).trans (congrArg some hu)
  | ret i sp c k r hi =>
      exact ⟨hfits, hnoUpgrade, begun_update h.begun nofun fun _ _ => rfl,
        (Function.forall_update_iff _ fun _ (l : Local) => ¬l.Restoring).2
          ⟨id, fun j _ => h.not_restoring j⟩,
        fun n => (h.situation n).outside (fun P => by rw [hi]; exact id) (fun _ _ => id) rfl
          fun _ _ => rfl⟩
  | exec i sp c k n pc hi =>
      have htouch := touches_running h.fits h.ops hi sp
      refine ⟨hfits, hnoUpgrade, begun_update h.begun (fun u hu => ?_) fun _ _ => begunBy_events,
        (Function.forall_update_iff _ fun _ (l : Local) => ¬l.Restoring).2
          ⟨?_, fun j _ => h.not_restoring j⟩, fun y => ?_⟩
      · rw [begunBy_events]
        refine h.begun i u ?_
        cases hnext : (pc.exec t s.mem c.userId n sp).2 <;>
          simpa [hi, hnext, Next.toLocal, Local.user?] using hu
      · have hnot := h.not_restoring i
        rw [hi] at hnot
        cases hnext : (pc.exec t s.mem c.userId n sp).2 with
        | finish r => exact id
        | goto pc' =>
            intro hpc'
            rcases exec_restoring hnext hpc' with hpc | ⟨rfl, hfree⟩
            · exact hnot hpc
            · rw [ReleasesCleared, hi] at hclear
              exact hfree hclear.1
      · by_cases hy : y = n
        · subst hy
          exact h.exec_situation hclear hi htouch
        · exact (h.situation y).exec_of_ne hi hy htouch

end Steps

/-! ### Runs -/

section Runs

variable {adds : List NodeSpec} {s : State Tid}

/-- **When owners stay intact.**  In a run of `lock` and `unlock` calls, any number of
them for one user, in which every `unlock` makes its `compare_exchange` on a node that is
still locked and cleared and that no `lock` is taking, every state without calls in
flight has no owner on a free node, and on a locked node the user of the call that
locked it. -/
theorem owners_intact (h : Reaches (step (AtomicPaymentTree.build adds).shape)
    (fun s l => LockUnlock l ∧ ReleasesCleared s l) (start (AtomicPaymentTree.build adds)) s)
    (hidle : ∀ i, s.thread i = .idle) : OwnersIntact s := by
  have hintact : Intact (AtomicPaymentTree.build adds).shape s := by
    refine h.invariant (intact_start adds _) ?_
    exact fun s₁ l s₂ _ h ⟨hops, hclear⟩ hs => h.step hops hclear hs
  intro n
  cases hintact.situation n with
  | free hstate howner =>
      exact ⟨fun _ => howner, fun h => absurd (hstate.symm.trans h) (by decide)⟩
  | recorded hstate _ hwinner =>
      exact ⟨fun h => absurd (hstate.symm.trans h) (by decide), fun _ => hwinner⟩
  | taken i hi | cleared i hi =>
      rw [hidle i] at hi
      exact hi.elim

/-- Two threads act for one user.  The second `unlock` comes when the first has returned,
and a `lock` for the same user follows; the node is recorded under the user. -/
theorem owners_intact_retry : ∃ s : State (Fin 2),
    Reaches (step (AtomicPaymentTree.build smallTree).shape)
      (fun s l => LockUnlock l ∧ ReleasesCleared s l)
      (start (AtomicPaymentTree.build smallTree)) s ∧
    (∀ i, s.thread i = .idle) ∧ (s.mem.node 1).lockState = 1 ∧
    winner 1 s.hist = some (s.mem.node 1).lockedBy := by
  obtain ⟨s, hs, hp⟩ : ∃ s, Reaches (step (AtomicPaymentTree.build smallTree).shape)
      (fun s l => LockUnlock l ∧ ReleasesCleared s l)
      (start (AtomicPaymentTree.build smallTree)) s ∧
      decide ((∀ i : Fin 2, s.thread i = .idle) ∧ (s.mem.node 1).lockState = 1) = true :=
    exists_reaches_of_exec (.invoke 0 ⟨.lock, "Left", 7⟩ :: turns 0 10 ++
      .invoke 1 ⟨.unlock, "Left", 7⟩ :: turns 1 7 ++ .invoke 0 ⟨.unlock, "Left", 7⟩ :: turns 0 2 ++
      .invoke 1 ⟨.lock, "Left", 7⟩ :: turns 1 10) (by decide +kernel)
  obtain ⟨hidle, hlocked⟩ := of_decide_eq_true hp
  exact ⟨s, hs, hidle, hlocked, (owners_intact hs hidle 1).2 hlocked⟩

/-- **The late rollback.**  Both threads call `unlock` for the holder, user 7, and both
pass the owner check.  The first one releases `Left`; the second one finds it free and
writes the id back. -/
theorem late_rollback : ∃ s : State (Fin 2),
    Reaches (step (AtomicPaymentTree.build smallTree).shape)
      (fun _ l => LockUnlock l ∧ OwnUser (fun _ => 7) l)
      (start (AtomicPaymentTree.build smallTree)) s ∧
    (∀ i, s.thread i = .idle) ∧ ¬OwnersIntact s := by
  obtain ⟨s, hs, hp⟩ : ∃ s, Reaches (step (AtomicPaymentTree.build smallTree).shape)
      (fun _ l => LockUnlock l ∧ OwnUser (fun _ => 7) l)
      (start (AtomicPaymentTree.build smallTree)) s ∧
      decide ((∀ i : Fin 2, s.thread i = .idle) ∧
        (s.mem.node 1).lockState = 0 ∧ (s.mem.node 1).lockedBy = 7) = true :=
    exists_reaches_of_exec (.invoke 0 ⟨.lock, "Left", 7⟩ :: turns 0 10 ++
      [.invoke 0 ⟨.unlock, "Left", 7⟩, .invoke 1 ⟨.unlock, "Left", 7⟩, .tick 0, .tick 1] ++
      turns 0 6 ++ turns 1 5) (by decide +kernel)
  obtain ⟨hidle, hfree, howner⟩ := of_decide_eq_true hp
  exact ⟨s, hs, hidle, fun h => absurd (howner.symm.trans ((h 1).1 hfree)) (by decide)⟩

end Runs

end Atomic
end PaymentGateway
