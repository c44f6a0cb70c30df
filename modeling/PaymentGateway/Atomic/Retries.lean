/-
# What `casRetries` counts

The retry counter of the dashboard is fed in two places of `src/atomic_tree.cpp`: where
the `compare_exchange_weak` of `lock` has failed although the node was free (line 83), and
where the `compare_exchange_strong` of `unlock` has failed (line 120).  A `lock` that finds
the node taken returns without counting anything.

A step *shows* a failure of one of these two kinds (`State.casFailures`), and the counter,
with what the threads between a failure and its `fetch_add` have still to add, is the
number of failures shown, whatever calls the threads make (`Retried.step`).  In the server
and in the stress test a thread unlocks only what it holds, so the second place is never
reached.  There `casRetries` is the number of spurious failures and says nothing of
contention (`retries_counted`); it stays 0 where `compare_exchange_weak` never fails
spuriously.
-/

import PaymentGateway.Atomic.Transactions
import PaymentGateway.Lib.Schedule

namespace PaymentGateway
namespace Atomic

open Lib

variable {Tid : Type}

/-- The failures of a `compare_exchange` that are counted. -/
inductive CasFailure
  /-- of `lock`, on a free node -/
  | spurious
  /-- of `unlock`, on a node that is not locked -/
  | lost
  deriving DecidableEq, Repr

/-- The failure of the next step of a call on `n`. -/
def Pc.casFailure (m : Memory) (n : ℕ) (spurious : Bool) : Pc → Option CasFailure
  | .lockCas => if (m.node n).lockState = 0 ∧ spurious = true then some .spurious else none
  | .unlockCas => if (m.node n).lockState = 1 then none else some .lost
  | _ => none

/-- What a step shows: a failure, and whose it is. -/
def State.casFailures (s : State Tid) : Label Tid → List (Tid × CasFailure)
  | .invoke .. => []
  | .tick i spurious => match s.thread i with
      | .running _ _ n pc => ((pc.casFailure s.mem n spurious).map (i, ·)).toList
      | _ => []

/-- What a step of a simulation shows. -/
def Simulation.casFailures (S : Simulation Tid) (l : Tid × Bool) : List (Tid × CasFailure) :=
  S.machine.casFailures (.tick l.1 l.2)

/-! ### What the counter is behind by -/

/-- What a call has still to add to `casRetries` for a failure. -/
def Pc.owesRetry : Pc → ℤ
  | .lockCountRetry | .unlockRestoreOwner | .unlockCountRetry => 1
  | _ => 0

def Local.owesRetry : Local → ℤ
  | .running _ _ _ pc => pc.owesRetry
  | _ => 0

/-- `casRetries` and what is owed to it give `n`. -/
def Retried [Fintype Tid] (n : ℤ) (s : State Tid) : Prop :=
  Tallied s.mem.metrics.casRetries (Local.owesRetry ∘ s.thread) n

/-- **A step of a call** adds to the counter what it pays, and owes what it shows. -/
theorem exec_owesRetry (t : TreeShape) (m : Memory) (u : ℤ) (n : ℕ) (sp : Bool) (c : Call) (k : ℕ)
    (pc : Pc) :
    (m.apply (pc.exec t m u n sp).1).metrics.casRetries - m.metrics.casRetries +
        (((pc.exec t m u n sp).2.toLocal c k n).owesRetry - pc.owesRetry) =
      ((pc.casFailure m n sp).toList.length : ℤ) := by
  fun_cases Pc.exec t m u n sp pc <;>
    simp_all [Memory.apply, Memory.setNode, Next.toLocal, Local.owesRetry, Pc.owesRetry,
      Pc.casFailure]

/-- A call that begins owes nothing. -/
theorem enter_owesRetry (t : TreeShape) (c : Call) (k : ℕ) :
    (Local.enter t c k).owesRetry = 0 := by
  unfold Local.enter
  split
  · rfl
  · cases c.op <;> rfl

section Step

variable [Fintype Tid] [DecidableEq Tid] {t : TreeShape} {n : ℤ}

/-- **Every step of the machine keeps the count**, with what it shows. -/
theorem Retried.step {s s' : State Tid} {l : Label Tid} (h : Retried n s)
    (hs : Atomic.step t s l = some s') : Retried (n + (s.casFailures l).length) s' := by
  cases move_of_step hs with
  | invoke i c hi =>
      rw [Retried, Function.comp_update]
      refine Tallied.step h i _ ?_
      rw [Function.comp_apply, hi, enter_owesRetry]
      simp [State.casFailures, Local.owesRetry]
  | ret i sp c k r hi =>
      rw [Retried, Function.comp_update]
      refine Tallied.step h i _ ?_
      simp [State.casFailures, hi, Local.owesRetry]
  | exec i sp c k y pc hi =>
      rw [Retried, Function.comp_update]
      refine Tallied.step h i _ ?_
      have hstep := exec_owesRetry t s.mem c.userId y sp c k pc
      simpa [State.casFailures, hi, Local.owesRetry, Option.length_toList] using hstep

end Step

/-! ### Simulations -/

section Simulation

variable {t : TreeShape} {threadId : Tid → ℤ} {n : ℤ} {S S' : Simulation Tid}

/-- A thread that is in no call shows nothing. -/
theorem casFailures_idle {i : Tid} (hi : S.machine.thread i = .idle) (sp : Bool) :
    S.casFailures (i, sp) = [] := by
  simp only [Simulation.casFailures, State.casFailures, hi]

/-- The `compare_exchange` of `lock` fails on a free node where it is told to fail, and
nowhere else. -/
theorem countP_spurious_le (S : Simulation Tid) (l : Tid × Bool) :
    (S.casFailures l).countP (fun f => f.2 = .spurious) ≤ if l.2 = true then 1 else 0 := by
  obtain ⟨i, sp⟩ := l
  cases hi : S.machine.thread i with
  | running c k y pc =>
      simp only [Simulation.casFailures, State.casFailures, hi]
      cases pc with
      | lockCas =>
          rw [Pc.casFailure]
          split
          · rename_i hsp
            simp [hsp.2]
          · exact Nat.zero_le _
      | unlockCas =>
          rw [Pc.casFailure]
          split <;> exact Nat.zero_le _
      | _ => exact Nat.zero_le _
  | _ =>
      simp only [Simulation.casFailures, State.casFailures, hi]
      exact Nat.zero_le _

variable [Fintype Tid]

/-- **The `compare_exchange` of `unlock` does not fail**: the thread that comes to it holds
the node. -/
theorem Simulation.Disciplined.spurious (hd : S.Disciplined t threadId) (l : Tid × Bool) :
    ∀ f ∈ S.casFailures l, f.2 = .spurious := by
  obtain ⟨i, sp⟩ := l
  intro f hf
  cases hi : S.machine.thread i with
  | idle => simp [Simulation.casFailures, State.casFailures, hi] at hf
  | returning c k r => simp [Simulation.casFailures, State.casFailures, hi] at hf
  | running c k y pc =>
      simp only [Simulation.casFailures, State.casFailures, hi, Option.mem_toList,
        Option.map_eq_some_iff] at hf
      obtain ⟨v, hv, rfl⟩ := hf
      cases pc with
      | lockCas =>
          rw [Pc.casFailure] at hv
          split at hv
          · cases hv
            rfl
          · cases hv
      | unlockCas =>
          have hlocked := hd.custody.locked (((hd.running hi).2 y).2 rfl)
          rw [Pc.casFailure, if_pos hlocked] at hv
          cases hv
      | _ => cases hv

variable [DecidableEq Tid]

/-- **Every step of the simulation keeps the count.** -/
theorem Retried.simulate (h : Retried n S.machine) (hd : S.Disciplined t threadId)
    {l : Tid × Bool} (hs : Atomic.simulate t threadId S l = some S') :
    Retried (n + (S.casFailures l).length) S'.machine := by
  obtain ⟨i, sp⟩ := l
  have hphase := hd.phase i
  unfold Atomic.simulate simulateTransactions at hs
  cases hp : S.phase i with
  | count targets =>
      rw [hp] at hs hphase
      cases targets with
      | nil => cases hs
      | cons target rest =>
          cases hs
          rw [casFailures_idle hphase.1]
          simpa [Retried, Simulation.counted, State.withMetrics] using h
  | countSuccess target rest | countFailure rest =>
      rw [hp] at hs hphase
      cases hs
      rw [casFailures_idle hphase.1]
      simpa [Retried, Simulation.counted, State.withMetrics] using h
  | callLock target rest | callUnlock target rest =>
      rw [hp] at hs hphase
      obtain ⟨s', hs', rfl⟩ := Option.map_eq_some_iff.1 hs
      rw [casFailures_idle hphase.1]
      exact h.step hs'
  | inLock target rest | inUnlock target rest =>
      rw [hp] at hs
      obtain ⟨s', hs', rfl⟩ := Option.map_eq_some_iff.1 hs
      exact h.step hs'

end Simulation

section Run

variable [Fintype Tid] [DecidableEq Tid] {threadId : Tid → ℤ} {adds : List NodeSpec}
  {targets : Tid → List String} {S : Simulation Tid} {ls : List (Tid × Bool)}

/-- **The retries are the spurious failures.**  At every moment of a simulation, whatever
the ids, the targets and the interleaving, `casRetries` is the number of times that the
`compare_exchange_weak` of a `lock` has failed on a free node, less one for each thread that
has not counted its own yet.  A `lock` that fails over a taken node adds nothing, the
`compare_exchange_strong` of `unlock` never fails, and where no `compare_exchange_weak` fails
spuriously the counter stays 0. -/
theorem retries_counted
    (h : exec (simulate (AtomicPaymentTree.build adds).shape threadId) (fun _ _ => True)
      (.start adds targets) ls = some S) :
    let shown := outputs (simulate (AtomicPaymentTree.build adds).shape threadId)
      Simulation.casFailures (.start adds targets) ls
    S.machine.mem.metrics.casRetries + ∑ i, (S.machine.thread i).owesRetry = shown.length ∧
      (∀ f ∈ shown, f.2 = .spurious) ∧ shown.length ≤ ls.countP (·.2) := by
  intro shown
  have hrun : S.Disciplined (AtomicPaymentTree.build adds).shape threadId ∧
      Retried shown.length S.machine ∧ ∀ f ∈ shown, f.2 = .spurious := by
    refine outputs_invariant (P := fun (bs : List (Tid × CasFailure)) S =>
      S.Disciplined (AtomicPaymentTree.build adds).shape threadId ∧
        Retried bs.length S.machine ∧ ∀ f ∈ bs, f.2 = .spurious) h ?_ ?_
    · refine ⟨disciplined_start adds targets threadId, ?_, by simp⟩
      simp [Retried, Tallied, Simulation.start, Atomic.start, build_metrics, Local.owesRetry]
    · rintro bs S₁ l S₂ ⟨hd, hcount, hall⟩ - hs
      refine ⟨hd.step hs, ?_, ?_⟩
      · simpa using hcount.simulate hd hs
      · intro f hf
        exact (List.mem_append.1 hf).elim (hall f) (hd.spurious l f)
  obtain ⟨-, hcount, hall⟩ := hrun
  refine ⟨hcount, hall, ?_⟩
  rw [← List.countP_eq_length.2 fun f hf => decide_eq_true (hall f hf)]
  exact countP_outputs_le countP_spurious_le _ _

/-- Two threads at one leaf: the `lock` of the first fails once spuriously, that of the
second fails over the node of the first. -/
theorem retries_counted_contended :
    ∃ (S : Simulation (Fin 2)) (ls : List (Fin 2 × Bool)),
      exec (simulate (AtomicPaymentTree.build smallTree).shape fun _ => 0) (fun _ _ => True)
        (.start smallTree fun _ => ["Left"]) ls = some S ∧
      S.machine.mem.metrics = ⟨2, 1, 1, 1⟩ ∧
        (outputs (simulate (AtomicPaymentTree.build smallTree).shape fun _ => 0)
          Simulation.casFailures (.start smallTree fun _ => ["Left"]) ls).length = 1 := by
  have hany : (exec (simulate (AtomicPaymentTree.build smallTree).shape fun _ : Fin 2 => 0)
      (fun _ _ => True) (.start smallTree fun _ => ["Left"])
      (List.replicate 4 (0, false) ++ (0, true) :: List.replicate 2 (0, false) ++
        List.replicate 7 (1, false) ++ List.replicate 8 (0, false))).any
      (fun S => decide (S.machine.mem.metrics = ⟨2, 1, 1, 1⟩ ∧
        S.machine.thread 0 = .idle ∧ S.machine.thread 1 = .idle)) = true := by
    decide +kernel
  obtain ⟨S, hS, hp⟩ := (Option.any_eq_true _ _).1 hany
  obtain ⟨hm, h0, h1⟩ := of_decide_eq_true hp
  obtain ⟨hcount, -, -⟩ := retries_counted hS
  rw [Fin.sum_univ_two, h0, h1, hm] at hcount
  exact ⟨S, _, hS, hm, by simpa [Local.owesRetry] using hcount.symm⟩

end Run

end Atomic
end PaymentGateway
