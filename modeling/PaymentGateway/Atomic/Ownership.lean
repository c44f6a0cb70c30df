/-
# Whether a holder can always release

A caller whose `lock` or `upgradeLock` of a node has returned true relies on the
node being locked under its own id, and on its next `unlock` of the node returning
true (`HolderKeeps`).  The release loop of `upgradeLock` breaks this: it stores
`lockState` 0 before it stores `lockedBy` -1 (lines 170-171), where `unlock` clears
the owner first (line 112).  Another thread that locks the node between the two
stores and has recorded its id by then loses that id, and can never release the
node (`holder_loses_owner`).

The window is all that goes wrong.  In runs in which the second store never meets
the id of another user on a locked node (`ClearsOwn`), owner fields name the holders
(`Recorded`), an `unlock` by the holder passes its check (`Unlocking`), and the
property holds in every state (`holder_keeps`).
-/

import PaymentGateway.Atomic.Calls
import PaymentGateway.Atomic.Recorded

namespace PaymentGateway
namespace Atomic

open Lib

variable {Tid : Type}

/-- What a caller relies on after an acquisition that returned true: outside its
calls the node is locked under its id, and an `unlock` begun then returns true. -/
structure HolderKeeps (t : TreeShape) (user : Tid → ℤ) (s : State Tid) : Prop where
  state : ∀ i n, Granted t i n s.hist → s.thread i = .idle →
    (s.mem.node n).lockState = 1 ∧ (s.mem.node n).lockedBy = user i
  unlocks : ∀ i c k n r, .ret i c k r ∈ s.hist → c.op = .unlock →
    t.getNode c.nodeName = some n → Granted t i n (asOf k s.hist) → r = true

/-- When `upgradeLock` is about to clear the owner of a node it has released, the
field of a locked node does not hold the id of another user. -/
def ClearsOwn (s : State Tid) : Label Tid → Prop
  | .invoke _ _ => True
  | .tick i _ =>
      match s.thread i with
      | .running c _ _ (.upgradeClearOwner d _) => (s.mem.node d).lockState = 1 →
          (s.mem.node d).lockedBy = c.userId ∨ (s.mem.node d).lockedBy = -1
      | _ => True

instance (s : State Tid) (l : Label Tid) : Decidable (ClearsOwn s l) := by
  unfold ClearsOwn
  rcases l with _ | ⟨i, _⟩
  · infer_instance
  · dsimp only
    rcases s.thread i with _ | ⟨_, _, _, _ | _⟩ | _ <;> infer_instance

/-- With distinct ids the id of another holder is the id of another user. -/
theorem ClearsOwn.sparesOwners {user : Tid → ℤ} {s : State Tid} {l : Label Tid}
    (h : ClearsOwn s l) (hu : DistinctUsers user) (hcust : Custody user s) :
    SparesOwners user s l := by
  cases l with
  | invoke i c => trivial
  | tick i sp =>
      simp only [SparesOwners]
      split
      · rename_i c k n d ds hi
        intro j hj howner
        rw [ClearsOwn, hi] at h
        rcases h (hcust.locked hj) with h | h
        · exact hu.injective (howner.symm.trans (h.trans (hcust.userId_eq hi)))
        · exact absurd (howner.symm.trans h) (hu.ne_none j)
      · trivial

/-! ### Steps -/

section Exec

variable {t : TreeShape} {m : Memory} {u : ℤ} {n y : ℕ} {sp : Bool} {pc pc' : Pc}

theorem exec_ne_unlockLoadOwner : (pc.exec t m u n sp).2 ≠ .goto .unlockLoadOwner := by
  fun_cases Pc.exec t m u n sp pc <;> simp

end Exec

/-- An `unlock` begun while its node was granted has not met a failing check. -/
def Local.Unlocks (t : TreeShape) (i : Tid) (H : List (Event Tid)) : Local → Prop
  | .running _ k n .unlockLoadOwner => Granted t i n (asOf k H) → Holds i n H
  | .returning c k false => c.op = .unlock →
      ∀ n, t.getNode c.nodeName = some n → ¬Granted t i n (asOf k H)
  | _ => True

/-- Every `unlock` of a holder is on its way to returning true, or has returned true. -/
structure Unlocking (t : TreeShape) (s : State Tid) : Prop where
  unlocks : ∀ i, (s.thread i).Unlocks t i s.hist
  past : ∀ i c k n, .ret i c k false ∈ s.hist → c.op = .unlock →
    t.getNode c.nodeName = some n → ¬Granted t i n (asOf k s.hist)

section Steps

variable {t : TreeShape} {user : Tid → ℤ} {s s' : State Tid}

theorem unlocking_start (a : AtomicPaymentTree) : Unlocking t (start a : State Tid) :=
  ⟨fun _ => trivial, nofun⟩

/-- What other threads do does not disturb an `unlock`. -/
theorem Local.Unlocks.mono {i : Tid} {H : List (Event Tid)} {l : Local}
    (h : l.Unlocks t i H) (hres : l.Resolved t H.length) (es : List (Event Tid))
    (hkeep : ∀ n, Holds i n H → Holds i n (es ++ H)) : l.Unlocks t i (es ++ H) := by
  cases l with
  | idle => trivial
  | returning c k r =>
      cases r with
      | true => trivial
      | false =>
          have hk : k < H.length := hres
          simpa only [Unlocks, asOf_append hk.le] using h
  | running c k n pc =>
      cases pc with
      | unlockLoadOwner =>
          intro hg
          rw [asOf_append hres.2.le] at hg
          exact hkeep n (h hg)
      | _ => trivial

section Access

variable {i : Tid} {sp : Bool} {c : Call} {k n : ℕ} {pc : Pc}

/-- The call stays on the way on which its `unlock` returns true. -/
theorem Unlocking.exec (h : Unlocking t s) (hcust : Custody user s) (hrec : Recorded user s)
    (hres : Resolved t s) (hfits : ∀ i, (s.thread i).Fits t) (hi : s.thread i = .running c k n pc) :
    ((pc.exec t s.mem c.userId n sp).2.toLocal c k n).Unlocks t i
      ((pc.exec t s.mem c.userId n sp).1.events i ++ s.hist) := by
  have hfit := hfits i
  have hnode := hres.calls i
  have hunlocks := h.unlocks i
  rw [hi] at hfit hnode hunlocks
  cases hnext : (pc.exec t s.mem c.userId n sp).2 with
  | goto pc' =>
      cases pc' with
      | unlockLoadOwner => exact absurd hnext exec_ne_unlockLoadOwner
      | _ => trivial
  | finish r =>
      cases r with
      | true => trivial
      | false =>
          intro hop n' hn' hg
          obtain rfl : n = n' := Option.some.inj (hnode.1.symm.trans hn')
          rw [asOf_append hnode.2.le] at hg
          rcases exec_unlock_false (hop ▸ hfit) hnext with ⟨rfl, hown⟩ | hrest
          · refine hown ((hrec.stored i n (hunlocks hg) (by rw [hi]; nofun)).trans ?_)
            exact (hcust.userId_eq hi).symm
          · exact hcust.running_not_restoring hi hrest

end Access

variable [DecidableEq Tid] {l : Label Tid}

/-- **Every step keeps the `unlock` calls of holders on their way.** -/
theorem Unlocking.step (h : Unlocking t s) (hcust : Custody user s) (hrec : Recorded user s)
    (hres : Resolved t s) (hprom : Promised t s) (hfits : ∀ i, (s.thread i).Fits t)
    (hs : Atomic.step t s l = some s') : Unlocking t s' := by
  cases move_of_step hs with
  | invoke i c hi =>
      refine ⟨(Function.forall_update_iff _ fun j => Local.Unlocks t j _).2
        ⟨?_, fun j _ => (h.unlocks j).mono (hres.calls j) [.invoke i c] fun _ => id⟩,
        fun j c' k n hr hop hn => ?_⟩
      · unfold Local.enter
        split
        · rename_i hn
          intro _ n hn'
          rw [hn] at hn'
          cases hn'
        · cases c.op with
          | unlock =>
              intro hg
              rw [asOf_cons le_rfl, asOf_length] at hg
              exact hprom.granted i _ hg
          | _ => trivial
      · have hr : .ret j c' k false ∈ s.hist := by simpa using hr
        rw [asOf_cons (hres.returned j c' k false hr).le]
        exact h.past j c' k n hr hop hn
  | ret i sp c k r hi =>
      refine ⟨(Function.forall_update_iff _ fun j => Local.Unlocks t j _).2
        ⟨trivial, fun j _ => (h.unlocks j).mono (hres.calls j) [.ret i c k r] fun _ => id⟩,
        fun j c' k' n hr hop hn => ?_⟩
      rcases List.mem_cons.1 hr with heq | hr
      · cases heq
        have hnow := h.unlocks i
        have hbegun := hres.calls i
        rw [hi] at hnow hbegun
        rw [asOf_cons (Nat.le_of_lt hbegun)]
        exact hnow hop n hn
      · rw [asOf_cons (hres.returned j c' k' false hr).le]
        exact h.past j c' k' n hr hop hn
  | exec i sp c k n pc hi =>
      refine ⟨(Function.forall_update_iff _ fun j => Local.Unlocks t j _).2
        ⟨h.exec hcust hrec hres hfits hi, fun j hj => (h.unlocks j).mono (hres.calls j) _
          fun y hy => hcust.exec_keep hi hy fun hji => absurd hji hj⟩,
        fun j c' k' y hr hop hn => ?_⟩
      have hr := (List.mem_append.1 hr).resolve_left ret_not_mem_events
      rw [asOf_append (hres.returned j c' k' false hr).le]
      exact h.past j c' k' y hr hop hn

end Steps

/-! ### Runs -/

section Runs

variable [Fintype Tid] [DecidableEq Tid] {adds : List NodeSpec} {user : Tid → ℤ} {s : State Tid}

/-- The states of the runs in which no `upgradeLock` clears the owner of another user. -/
def ClearingRun (adds : List NodeSpec) (user : Tid → ℤ) (s : State Tid) : Prop :=
  Reaches (step (AtomicPaymentTree.build adds).shape) (fun s l => OwnUser user l ∧ ClearsOwn s l)
    (start (AtomicPaymentTree.build adds)) s

omit [Fintype Tid] in
theorem ClearingRun.ownRun (h : ClearingRun adds user s) : OwnRun adds user s :=
  Reaches.mono h fun _ _ h => h.1

theorem ClearingRun.recorded (h : ClearingRun adds user s) (hu : DistinctUsers user) :
    Recorded user s ∧ Unlocking (AtomicPaymentTree.build adds).shape s := by
  unfold ClearingRun at h
  refine h.invariant ?_ ?_
  · exact ⟨recorded_start _, unlocking_start _⟩
  · rintro s₁ l s₂ hr ⟨hrec, hunlock⟩ ⟨-, hclear⟩ hs
    have hrun : OwnRun adds user s₁ := ClearingRun.ownRun hr
    obtain ⟨hsound, hcust⟩ := hrun.sound_custody hu
    exact ⟨hrec.step hcust (hclear.sparesOwners hu hcust) hs,
      hunlock.step hcust hrec hrun.resolved (hrun.promised hu) hsound.fits hs⟩

/-- **When a holder can always release.**  In a run in which no `upgradeLock` clears
the id of another user on a locked node, every acquisition that returned true and
was not released since leaves the node locked under the caller's id whenever the
caller is outside its calls, and every `unlock` begun in this time returns true. -/
theorem holder_keeps (hu : DistinctUsers user) (h : ClearingRun adds user s) :
    HolderKeeps (AtomicPaymentTree.build adds).shape user s := by
  have hrun := h.ownRun
  obtain ⟨hrec, hunlock⟩ := h.recorded hu
  have hcust := (hrun.sound_custody hu).2
  have hprom := hrun.promised hu
  refine ⟨fun i n hg hidle => ?_, fun i c k n r hr hop hn hg => ?_⟩
  · have hheld := hprom.granted i n hg
    exact ⟨hcust.locked hheld, hrec.stored i n hheld (by rw [hidle]; nofun)⟩
  · cases r with
    | true => rfl
    | false => exact absurd hg (hunlock.past i c k n hr hop hn)

/-- Two threads lock and unlock `Left` in turn; the second `unlock` returns true. -/
theorem holder_keeps_twice :
    ∃ s : State (Fin 2), ClearingRun smallTree twoUsers s ∧
      Granted (AtomicPaymentTree.build smallTree).shape 1 1 (asOf 9 s.hist) ∧
      .ret 1 ⟨.unlock, "Left", 1⟩ 9 true ∈ s.hist := by
  obtain ⟨s, hs, hp⟩ : ∃ s, ClearingRun smallTree twoUsers s ∧
      decide ((∃ r, .ret 1 ⟨.unlock, "Left", 1⟩ 9 r ∈ s.hist) ∧
        Granted (AtomicPaymentTree.build smallTree).shape 1 1 (asOf 9 s.hist)) = true :=
    exists_reaches_of_exec (.invoke 0 ⟨.lock, "Left", 0⟩ :: turns 0 10 ++
      .invoke 0 ⟨.unlock, "Left", 0⟩ :: turns 0 7 ++ .invoke 1 ⟨.lock, "Left", 1⟩ :: turns 1 10 ++
      .invoke 1 ⟨.unlock, "Left", 1⟩ :: turns 1 7) (by decide +kernel)
  obtain ⟨⟨r, hr⟩, hg⟩ := of_decide_eq_true hp
  obtain rfl : r = true :=
    (holder_keeps twoUsers_distinct hs).unlocks 1 _ _ 1 r hr rfl (by decide +kernel) hg
  exact ⟨s, hs, hg, hr⟩

/-- **The window.**  Thread 0 has locked `Left` and upgrades to `Root`; thread 1 locks
`Left` between the two stores of the release loop.  Its `lock` has returned true and
nobody has released the node since, but the node has no owner. -/
theorem holder_loses_owner : ∃ s : State (Fin 2), OwnRun smallTree twoUsers s ∧
    ¬HolderKeeps (AtomicPaymentTree.build smallTree).shape twoUsers s := by
  obtain ⟨s, hs, hp⟩ := ownRun_of_play smallTree twoUsers
    (.invoke 0 ⟨.lock, "Left", 0⟩ :: turns 0 10 ++ .invoke 0 ⟨.upgradeLock, "Root", 0⟩ ::
      turns 0 7 ++ .invoke 1 ⟨.lock, "Left", 1⟩ :: turns 1 10 ++ turns 0 1)
    (fun s => decide (Granted (AtomicPaymentTree.build smallTree).shape 1 1 s.hist ∧
      s.thread 1 = .idle ∧ (s.mem.node 1).lockedBy = -1)) (by decide +kernel)
  obtain ⟨hg, hidle, howner⟩ := of_decide_eq_true hp
  refine ⟨s, hs, fun h => ?_⟩
  exact absurd (howner.symm.trans (h.state 1 1 hg hidle).2) (by decide)

end Runs

end Atomic
end PaymentGateway
