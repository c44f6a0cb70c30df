/-
# When a failed `upgradeLock` has changed nothing

`upgradeLock` has five exits that return false.  Four of them come before the
release loop, where the call has only read (`Pc.BeforeRelease`); the fifth comes
after it, when the final `compare_exchange` finds the target locked (lines
178-181).  By then the caller's locks below the target are gone, and nothing
restores them (`upgradeLock_loses_locks`).

In runs in which that `compare_exchange` always finds its target free
(`FindsTargetFree`), a call that returns false still holds everything it held when
it began (`upgradeLock_all_or_nothing`).
-/

import PaymentGateway.Atomic.Calls

namespace PaymentGateway
namespace Atomic

open Lib

variable {Tid : Type}

/-- What `i` was granted when the history had the length `k`, it still is. -/
def StillGranted (t : TreeShape) (i : Tid) (k : ℕ) (H : List (Event Tid)) : Prop :=
  ∀ n, Granted t i n (asOf k H) → Granted t i n H

/-- A failed `upgradeLock` leaves its caller everything it held when the call began. -/
def AllOrNothing (t : TreeShape) (s : State Tid) : Prop :=
  ∀ i c k H, s.hist = .ret i c k false :: H → c.op = .upgradeLock → StillGranted t i k s.hist

/-- The final `compare_exchange` of `upgradeLock` finds its target free. -/
def FindsTargetFree (s : State Tid) : Label Tid → Prop
  | .invoke _ _ => True
  | .tick i _ =>
      match s.thread i with
      | .running _ _ n .upgradeCas => (s.mem.node n).lockState = 0
      | _ => True

instance (s : State Tid) (l : Label Tid) : Decidable (FindsTargetFree s l) := by
  unfold FindsTargetFree
  rcases l with _ | ⟨i, _⟩
  · infer_instance
  · dsimp only
    rcases s.thread i with _ | ⟨_, _, _, _ | _⟩ | _ <;> infer_instance

/-- The checks and the scan of `upgradeLock`. -/
def Pc.BeforeRelease : Pc → Prop
  | .upgradeLoadState | .upgradeLoadAncestors | .upgradeScan _ _ | .upgradeLoadOwner _ _ _ => True
  | _ => False

section Exec

variable {t : TreeShape} {m : Memory} {u : ℤ} {n : ℕ} {sp : Bool} {pc : Pc}

/-- Before the release loop the call only reads, and nothing leads back there. -/
theorem exec_beforeRelease (h : pc.BeforeRelease) : (pc.exec t m u n sp).1 = .read := by
  revert h
  fun_cases Pc.exec t m u n sp pc <;> simp_all [Pc.BeforeRelease]

theorem beforeRelease_of_goto {pc' : Pc} (hnext : (pc.exec t m u n sp).2 = .goto pc')
    (h : pc'.BeforeRelease) : pc.BeforeRelease := by
  revert hnext h
  fun_cases Pc.exec t m u n sp pc <;> intro hnext h <;>
    simp only [Next.goto.injEq, reduceCtorEq] at hnext <;> subst hnext <;>
    simp_all [Pc.BeforeRelease]

/-- **The exits of `upgradeLock`**: it returns false before the release loop, or when
the final `compare_exchange` finds the target locked. -/
theorem exec_upgrade_false (hfit : pc.Fits t .upgradeLock n)
    (h : (pc.exec t m u n sp).2 = .finish false) :
    pc.BeforeRelease ∨ pc = .upgradeCas ∧ (m.node n).lockState ≠ 0 := by
  revert hfit h
  fun_cases Pc.exec t m u n sp pc <;> simp_all [Pc.Fits, Pc.BeforeRelease]

end Exec

/-- An `upgradeLock` that has not reached its release loop, or is about to return
false, has released nothing. -/
def Local.Intact (t : TreeShape) (i : Tid) (H : List (Event Tid)) : Local → Prop
  | .running _ k _ pc => pc.BeforeRelease → StillGranted t i k H
  | .returning c k false => c.op = .upgradeLock → StillGranted t i k H
  | _ => True

section Steps

variable {t : TreeShape} {s s' : State Tid}

/-- Events that release nothing of `i` keep what it was granted. -/
theorem StillGranted.append {i : Tid} {k : ℕ} {H : List (Event Tid)} (h : StillGranted t i k H)
    (hk : k ≤ H.length) (es : List (Event Tid))
    (hkeep : ∀ n, Granted t i n H → Granted t i n (es ++ H)) : StillGranted t i k (es ++ H) := by
  intro n hn
  rw [asOf_append hk] at hn
  exact hkeep n (h n hn)

theorem Local.Intact.append {i : Tid} {H : List (Event Tid)} {l : Local} (h : l.Intact t i H)
    (hres : l.Resolved t H.length) (es : List (Event Tid))
    (hkeep : ∀ n, Granted t i n H → Granted t i n (es ++ H)) : l.Intact t i (es ++ H) := by
  cases l with
  | idle => trivial
  | running c k n pc => exact fun hpc => (h hpc).append hres.2.le es hkeep
  | returning c k r =>
      cases r with
      | true => trivial
      | false => exact fun hop => (h hop).append (Nat.le_of_lt hres) es hkeep

/-- A thread loses what it was granted by its own releases only. -/
theorem granted_append {i j : Tid} {a : Access} {H : List (Event Tid)} {n : ℕ}
    (h : Granted t j n H) (hrel : j = i → a = .read) : Granted t j n (a.events i ++ H) := by
  rw [granted_events]
  split
  · refine ⟨fun _ ⟨hij, _⟩ => ?_, h⟩
    cases hrel hij.symm
  · exact h

variable [DecidableEq Tid] {l : Label Tid}

/-- **Every step keeps the calls in progress intact**, if final `compare_exchange`s
find their targets free. -/
theorem intact_step (h : ∀ i, (s.thread i).Intact t i s.hist) (hres : Resolved t s)
    (hfits : ∀ i, (s.thread i).Fits t) (hfree : FindsTargetFree s l)
    (hs : Atomic.step t s l = some s') : ∀ i, (s'.thread i).Intact t i s'.hist := by
  cases move_of_step hs with
  | invoke i c hi =>
      refine (Function.forall_update_iff _ fun j => Local.Intact t j _).2
        ⟨?_, fun j _ => (h j).append (hres.calls j) [.invoke i c] fun _ => id⟩
      have hnow : StillGranted t i s.hist.length (.invoke i c :: s.hist) := fun n hn => by
        rwa [asOf_cons le_rfl, asOf_length] at hn
      unfold Local.enter
      split
      · exact fun _ => hnow
      · exact fun _ => hnow
  | ret i sp c k r hi =>
      exact (Function.forall_update_iff _ fun j => Local.Intact t j _).2
        ⟨trivial, fun j _ => (h j).append (hres.calls j) [.ret i c k r] fun _ => .inr⟩
  | exec i sp c k n pc hi =>
      refine (Function.forall_update_iff _ fun j => Local.Intact t j _).2
        ⟨?_, fun j hj => (h j).append (hres.calls j) _ fun y hy =>
          granted_append hy fun hji => absurd hji hj⟩
      have hintact := h i
      have hbegun := hres.calls i
      have hfit := hfits i
      rw [hi] at hintact hbegun hfit
      have hread (hpc : pc.BeforeRelease) :
          StillGranted t i k ((pc.exec t s.mem c.userId n sp).1.events i ++ s.hist) :=
        (hintact hpc).append hbegun.2.le _ fun y hy =>
          granted_append hy fun _ => exec_beforeRelease hpc
      cases hnext : (pc.exec t s.mem c.userId n sp).2 with
      | goto pc' => exact fun hpc' => hread (beforeRelease_of_goto hnext hpc')
      | finish r =>
          cases r with
          | true => trivial
          | false =>
              intro hop
              rcases exec_upgrade_false (hop ▸ hfit) hnext with hpc | ⟨rfl, hlocked⟩
              · exact hread hpc
              · rw [FindsTargetFree, hi] at hfree
                exact absurd hfree hlocked

/-- What has just returned was intact. -/
theorem allOrNothing_step (hall : AllOrNothing t s) (h : ∀ i, (s.thread i).Intact t i s.hist)
    (hres : Resolved t s) (hs : Atomic.step t s l = some s') : AllOrNothing t s' := by
  intro j c' k' H hH hop
  cases move_of_step hs with
  | invoke i c hi => cases hH
  | ret i sp c k r hi =>
      cases hH
      have hintact := h j
      have hbegun := hres.calls j
      rw [hi] at hintact hbegun
      exact (hintact hop).append (Nat.le_of_lt hbegun) [.ret j c' k' false] fun _ => .inr
  | exec i sp c k n pc hi =>
      cases hev : (pc.exec t s.mem c.userId n sp).1.events i with
      | nil => exact hall j c' k' H (by simpa [hev] using hH) hop
      | cons e es =>
          simp only [hev, List.cons_append, List.cons.injEq] at hH
          have hmem : e ∈ (pc.exec t s.mem c.userId n sp).1.events i := by simp [hev]
          exact absurd (hH.1 ▸ hmem) ret_not_mem_events

end Steps

/-! ### Runs -/

section Runs

variable [Fintype Tid] [DecidableEq Tid] {adds : List NodeSpec} {user : Tid → ℤ} {s : State Tid}

/-- **When `upgradeLock` is all-or-nothing.**  In a run in which every final
`compare_exchange` of an `upgradeLock` finds its target free, an `upgradeLock` that
returns false leaves its caller everything it held when the call began. -/
theorem upgradeLock_all_or_nothing (hu : DistinctUsers user)
    (h : Reaches (step (AtomicPaymentTree.build adds).shape)
      (fun s l => OwnUser user l ∧ FindsTargetFree s l) (start (AtomicPaymentTree.build adds)) s) :
    AllOrNothing (AtomicPaymentTree.build adds).shape s := by
  suffices hinv : (∀ i, (s.thread i).Intact (AtomicPaymentTree.build adds).shape i s.hist) ∧
      AllOrNothing (AtomicPaymentTree.build adds).shape s from hinv.2
  refine h.invariant ?_ ?_
  · exact ⟨fun _ => trivial, nofun⟩
  · rintro s₁ l s₂ hr ⟨hintact, hall⟩ ⟨-, hfree⟩ hs
    have hrun : OwnRun adds user s₁ := hr.mono fun _ _ h => h.1
    exact ⟨intact_step hintact hrun.resolved (hrun.sound_custody hu).1.fits hfree hs,
      allOrNothing_step hall hintact hrun.resolved hs⟩

/-- Thread 0 holds `Left`; its `upgradeLock` of `Root` meets the lock of thread 1 on
`Right`, returns false, and leaves it `Left`. -/
theorem upgradeLock_all_or_nothing_conflict :
    ∃ s : State (Fin 2), ∃ H,
      Reaches (step (AtomicPaymentTree.build smallTree).shape)
        (fun s l => OwnUser twoUsers l ∧ FindsTargetFree s l)
        (start (AtomicPaymentTree.build smallTree)) s ∧
      s.hist = .ret 0 ⟨.upgradeLock, "Root", 0⟩ 6 false :: H ∧
      Granted (AtomicPaymentTree.build smallTree).shape 0 1 (asOf 6 s.hist) ∧
      Granted (AtomicPaymentTree.build smallTree).shape 0 1 s.hist := by
  obtain ⟨s, hs, hp⟩ : ∃ s, Reaches (step (AtomicPaymentTree.build smallTree).shape)
      (fun s l => OwnUser twoUsers l ∧ FindsTargetFree s l)
      (start (AtomicPaymentTree.build smallTree)) s ∧
      decide (s.hist.head? = some (.ret 0 ⟨.upgradeLock, "Root", 0⟩ 6 false) ∧
        Granted (AtomicPaymentTree.build smallTree).shape 0 1 (asOf 6 s.hist)) = true :=
    exists_reaches_of_exec (.invoke 0 ⟨.lock, "Left", 0⟩ :: turns 0 10 ++
      .invoke 1 ⟨.lock, "Right", 1⟩ :: turns 1 10 ++ .invoke 0 ⟨.upgradeLock, "Root", 0⟩ ::
      turns 0 7) (by decide +kernel)
  obtain ⟨hhead, hg⟩ := of_decide_eq_true hp
  obtain ⟨H, hH⟩ := List.head?_eq_some_iff.1 hhead
  exact ⟨s, H, hs, hH, hg, upgradeLock_all_or_nothing twoUsers_distinct hs 0 _ 6 H hH rfl 1 hg⟩

/-- **The last exit.**  Thread 0 holds `Left` and upgrades to `Root`; when its release
loop has brought the counters back to 0, thread 1 locks `Root`.  The `upgradeLock`
returns false, and `Left` is no longer held. -/
theorem upgradeLock_loses_locks : ∃ s : State (Fin 2), OwnRun smallTree twoUsers s ∧
    ¬AllOrNothing (AtomicPaymentTree.build smallTree).shape s := by
  obtain ⟨s, hs, hp⟩ := ownRun_of_play smallTree twoUsers
    (.invoke 0 ⟨.lock, "Left", 0⟩ :: turns 0 10 ++ .invoke 0 ⟨.upgradeLock, "Root", 0⟩ ::
      turns 0 12 ++ .invoke 1 ⟨.lock, "Root", 1⟩ :: turns 1 11 ++ turns 0 2)
    (fun s => decide (s.hist.head? = some (.ret 0 ⟨.upgradeLock, "Root", 0⟩ 3 false) ∧
      Granted (AtomicPaymentTree.build smallTree).shape 0 1 (asOf 3 s.hist) ∧
      ¬Granted (AtomicPaymentTree.build smallTree).shape 0 1 s.hist)) (by decide +kernel)
  obtain ⟨hhead, hg, hlost⟩ := of_decide_eq_true hp
  obtain ⟨H, hH⟩ := List.head?_eq_some_iff.1 hhead
  exact ⟨s, hs, fun h => hlost (h 0 _ 3 H hH rfl 1 hg)⟩

end Runs

end Atomic
end PaymentGateway
