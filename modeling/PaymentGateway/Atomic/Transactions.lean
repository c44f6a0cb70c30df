/-
# What the metrics count

`AtomicPaymentTree::Metrics` (`include/atomic_tree_node.h`) is filled in by
`simulateTransactions`: one `fetch_add` on `totalTransactions` when a transaction
begins, one on `successfulLocks` or `failedLocks` after its `lock` has returned.
Readers come at any time, so what matters is what the counters say in the middle of a
simulation, while threads stand between the return and the `fetch_add`.

`Counted` ties each counter to what it counts, with what every thread has still to add:
transactions to the targets not yet taken up, successes and failures to the returns of
`lock` in the history.  Nothing is lost and nothing counted twice
(`transactions_counted`).  No step takes anything away from a counter
(`metrics_le_of_step`).
-/

import Mathlib.Algebra.BigOperators.Fin
import PaymentGateway.Atomic.Simulator

namespace PaymentGateway
namespace Atomic

open Lib

variable {Tid : Type}

/-! ### No counter goes down -/

/-- No counter of `m` is above the same counter of `m'`. -/
structure Metrics.Le (m m' : Metrics) : Prop where
  totalTransactions : m.totalTransactions ≤ m'.totalTransactions
  successfulLocks : m.successfulLocks ≤ m'.successfulLocks
  failedLocks : m.failedLocks ≤ m'.failedLocks
  casRetries : m.casRetries ≤ m'.casRetries

theorem Metrics.Le.refl (m : Metrics) : m.Le m := ⟨le_rfl, le_rfl, le_rfl, le_rfl⟩

theorem Metrics.Le.trans {m₁ m₂ m₃ : Metrics} (h : m₁.Le m₂) (h' : m₂.Le m₃) : m₁.Le m₃ :=
  ⟨h.1.trans h'.1, h.2.trans h'.2, h.3.trans h'.3, h.4.trans h'.4⟩

theorem Memory.metrics_le_apply (m : Memory) (a : Access) : m.metrics.Le (m.apply a).metrics := by
  cases a with
  | addCasRetries => exact ⟨le_rfl, le_rfl, le_rfl, by simp [Memory.apply]⟩
  | _ => exact .refl _

section Step

variable [DecidableEq Tid] {t : TreeShape} {threadId : Tid → ℤ} {i : Tid} {sp : Bool}
  {S S' : Simulation Tid}

theorem State.metrics_le_of_step {s s' : State Tid} {l : Label Tid} (h : step t s l = some s') :
    s.mem.metrics.Le s'.mem.metrics := by
  cases move_of_step h with
  | invoke i c hi => exact .refl _
  | ret i sp c k r hi => exact .refl _
  | exec i sp c k n pc hi => exact s.mem.metrics_le_apply _

/-- **No step of a simulation takes anything away from a counter.** -/
theorem metrics_le_of_step (h : simulateTransactions t threadId S i sp = some S') :
    S.machine.mem.metrics.Le S'.machine.mem.metrics := by
  have hadvance {l : Label Tid} {next : Phase} (h : S.advance t i l next = some S') :
      S.machine.mem.metrics.Le S'.machine.mem.metrics := by
    obtain ⟨s', hs', rfl⟩ := Option.map_eq_some_iff.1 h
    exact State.metrics_le_of_step hs'
  unfold simulateTransactions at h
  cases hp : S.phase i with
  | count targets =>
      rw [hp] at h
      cases targets with
      | nil => cases h
      | cons target rest =>
          cases h
          exact ⟨by simp [Simulation.counted, State.withMetrics], le_rfl, le_rfl, le_rfl⟩
  | countSuccess target rest =>
      rw [hp] at h
      cases h
      exact ⟨le_rfl, by simp [Simulation.counted, State.withMetrics], le_rfl, le_rfl⟩
  | countFailure rest =>
      rw [hp] at h
      cases h
      exact ⟨le_rfl, le_rfl, by simp [Simulation.counted, State.withMetrics], le_rfl⟩
  | callLock target rest | callUnlock target rest | inLock target rest | inUnlock target rest =>
      rw [hp] at h
      exact hadvance h

end Step

/-! ### What each counter is behind by -/

/-- The transactions a thread has still to begin. -/
def Phase.left : Phase → ℤ
  | .count targets => targets.length
  | .callLock _ rest | .inLock _ rest | .countSuccess _ rest | .callUnlock _ rest
  | .inUnlock _ rest | .countFailure rest => rest.length

/-- What a thread has still to add to `successfulLocks`. -/
def Phase.owedSuccess : Phase → ℤ
  | .countSuccess _ _ => 1
  | _ => 0

/-- What a thread has still to add to `failedLocks`. -/
def Phase.owedFailure : Phase → ℤ
  | .countFailure _ => 1
  | _ => 0

/-- The return of a `lock` with the given result. -/
def Event.isLockReturn (result : Bool) : Event Tid → Bool
  | .ret _ c _ r => c.op = .lock && r = result
  | _ => false

/-- Every counter, with what the threads have still to add to it, says what it is to count;
`n` is the number of all transactions. -/
structure Simulation.Counted [Fintype Tid] (n : ℤ) (S : Simulation Tid) : Prop where
  total : Tallied S.machine.mem.metrics.totalTransactions (Phase.left ∘ S.phase) n
  success : Tallied S.machine.mem.metrics.successfulLocks (Phase.owedSuccess ∘ S.phase)
    (S.machine.hist.countP (Event.isLockReturn true))
  failure : Tallied S.machine.mem.metrics.failedLocks (Phase.owedFailure ∘ S.phase)
    (S.machine.hist.countP (Event.isLockReturn false))

/-- An access is no return. -/
theorem countP_events (result : Bool) (a : Access) (i : Tid) (H : List (Event Tid)) :
    (a.events i ++ H).countP (Event.isLockReturn result) =
      H.countP (Event.isLockReturn result) := by
  rw [List.countP_append, List.countP_eq_zero.2, Nat.zero_add]
  intro e he
  obtain ⟨n, rfl | rfl⟩ := mem_events he <;> simp [Event.isLockReturn]

section Counted

variable [Fintype Tid] [DecidableEq Tid] {t : TreeShape} {threadId : Tid → ℤ} {i : Tid}
  {n : ℤ} {S S' : Simulation Tid}

namespace Simulation.Counted

/-- One thread moves on, and the counters and what it owes them move by amounts that
cancel. -/
theorem update (h : S.Counted n) {s' : State Tid} {p : Phase}
    (htotal : s'.mem.metrics.totalTransactions - S.machine.mem.metrics.totalTransactions +
      (p.left - (S.phase i).left) = 0)
    (hsuccess : s'.mem.metrics.successfulLocks - S.machine.mem.metrics.successfulLocks +
        (p.owedSuccess - (S.phase i).owedSuccess) =
      (s'.hist.countP (Event.isLockReturn true) : ℤ) -
        S.machine.hist.countP (Event.isLockReturn true))
    (hfailure : s'.mem.metrics.failedLocks - S.machine.mem.metrics.failedLocks +
        (p.owedFailure - (S.phase i).owedFailure) =
      (s'.hist.countP (Event.isLockReturn false) : ℤ) -
        S.machine.hist.countP (Event.isLockReturn false)) :
    Simulation.Counted n ⟨s', Function.update S.phase i p⟩ where
  total := by
    rw [Function.comp_update]
    exact h.total.step i _ (by rw [Function.comp_apply, htotal, sub_self])
  success := by
    rw [Function.comp_update]
    exact h.success.step i _ hsuccess
  failure := by
    rw [Function.comp_update]
    exact h.failure.step i _ hfailure

/-- A step of the machine that leaves the counters alone. -/
theorem advance (h : S.Counted n) {l : Label Tid} {s' : State Tid} {p : Phase}
    (hs : Atomic.step t S.machine l = some s') (hleft : p.left = (S.phase i).left)
    (hsuccess : p.owedSuccess - (S.phase i).owedSuccess =
      (s'.hist.countP (Event.isLockReturn true) : ℤ) -
        S.machine.hist.countP (Event.isLockReturn true))
    (hfailure : p.owedFailure - (S.phase i).owedFailure =
      (s'.hist.countP (Event.isLockReturn false) : ℤ) -
        S.machine.hist.countP (Event.isLockReturn false)) :
    Simulation.Counted n ⟨s', Function.update S.phase i p⟩ := by
  obtain ⟨h₁, h₂, h₃⟩ := metrics_of_step hs
  exact h.update (by rw [h₁, hleft]; ring) (by rw [h₂, sub_self, zero_add, hsuccess])
    (by rw [h₃, sub_self, zero_add, hfailure])

/-- **Every step of the simulation keeps the counts.** -/
theorem step {sp : Bool} (h : S.Counted n) (hd : S.Disciplined t threadId)
    (hs : simulateTransactions t threadId S i sp = some S') : S'.Counted n := by
  have hphase := hd.phase i
  unfold simulateTransactions at hs
  cases hp : S.phase i with
  | count targets =>
      rw [hp] at hs
      cases targets with
      | nil => cases hs
      | cons target rest =>
          cases hs
          exact h.update (by simp [hp, State.withMetrics, Phase.left])
            (by simp [hp, State.withMetrics, Phase.owedSuccess])
            (by simp [hp, State.withMetrics, Phase.owedFailure])
  | countSuccess target rest | countFailure rest =>
      rw [hp] at hs
      cases hs
      exact h.update (by simp [hp, State.withMetrics, Phase.left])
        (by simp [hp, State.withMetrics, Phase.owedSuccess])
        (by simp [hp, State.withMetrics, Phase.owedFailure])
  | callLock target rest | callUnlock target rest =>
      rw [hp] at hs
      obtain ⟨s', hs', rfl⟩ := Option.map_eq_some_iff.1 hs
      refine h.advance hs' (by simp [hp, Phase.left]) ?_ ?_ <;>
      cases move_of_step hs' with
      | invoke => simp [hp, Phase.owedSuccess, Phase.owedFailure, Event.isLockReturn]
  | inLock target rest =>
      rw [hp] at hs hphase
      obtain ⟨s', hs', rfl⟩ := Option.map_eq_some_iff.1 hs
      cases move_of_step hs' with
      | exec _ _ c k m pc hi =>
          rw [hi]
          exact h.advance hs' (by simp [hp, Phase.left])
            (by simp only [hp, Phase.owedSuccess, countP_events, sub_self])
            (by simp only [hp, Phase.owedFailure, countP_events, sub_self])
      | ret _ _ c k r hi =>
          rw [hi] at hphase ⊢
          obtain ⟨rfl, -⟩ := hphase
          cases r with
          | true =>
              exact h.advance hs' (by simp [hp, Phase.left])
                (by simp [hp, Phase.owedSuccess, Event.isLockReturn])
                (by simp [hp, Phase.owedFailure, Event.isLockReturn])
          | false =>
              exact h.advance hs' (by simp [hp, Phase.left])
                (by simp [hp, Phase.owedSuccess, Event.isLockReturn])
                (by simp [hp, Phase.owedFailure, Event.isLockReturn])
  | inUnlock target rest =>
      rw [hp] at hs hphase
      obtain ⟨s', hs', rfl⟩ := Option.map_eq_some_iff.1 hs
      cases move_of_step hs' with
      | exec _ _ c k m pc hi =>
          rw [hi]
          exact h.advance hs' (by simp [hp, Phase.left])
            (by simp only [hp, Phase.owedSuccess, countP_events, sub_self])
            (by simp only [hp, Phase.owedFailure, countP_events, sub_self])
      | ret _ _ c k r hi =>
          rw [hi] at hphase ⊢
          obtain ⟨rfl, -⟩ := hphase
          exact h.advance hs' (by simp [hp, Phase.left])
            (by simp [hp, Phase.owedSuccess, Event.isLockReturn])
            (by simp [hp, Phase.owedFailure, Event.isLockReturn])

end Simulation.Counted

end Counted

/-! ### Whole simulations -/

section Run

variable [DecidableEq Tid] {threadId : Tid → ℤ} {adds : List NodeSpec}
  {targets : Tid → List String} {S : Simulation Tid}

/-- No counter is ever negative. -/
theorem SimulationRun.metrics_nonneg (h : SimulationRun threadId S adds targets) :
    Metrics.Le {} S.machine.mem.metrics := by
  unfold SimulationRun at h
  refine h.invariant ?_ fun s₁ l s₂ _ h _ hs => h.trans (metrics_le_of_step hs)
  rw [Simulation.start, Atomic.start, build_metrics]
  exact .refl _

variable [Fintype Tid]

theorem SimulationRun.counted (h : SimulationRun threadId S adds targets) :
    S.Counted (∑ i, ((targets i).length : ℤ)) := by
  have hboth : S.Disciplined (AtomicPaymentTree.build adds).shape threadId ∧
      S.Counted (∑ i, ((targets i).length : ℤ)) := by
    unfold SimulationRun at h
    refine h.invariant ⟨disciplined_start adds targets threadId, ?_⟩ ?_
    · constructor <;>
        simp [Tallied, Simulation.start, Atomic.start, build_metrics, Phase.left,
          Phase.owedSuccess, Phase.owedFailure]
    · exact fun s₁ l s₂ _ h _ hs => ⟨h.1.step hs, h.2.step h.1 hs⟩
  exact hboth.2

/-- **No transaction is lost and none counted twice.**  At every moment of a simulation,
whatever the ids, the targets and the interleaving: `totalTransactions` is the number of
targets that have been taken up, `successfulLocks` and `failedLocks` are the numbers of
`lock` calls that have returned true and false, less one for each thread that has not
counted its own yet; and the total is ahead of both by the threads in between. -/
theorem transactions_counted (h : SimulationRun threadId S adds targets) :
    let m := S.machine.mem.metrics
    m.totalTransactions + ∑ i, (S.phase i).left = ∑ i, ((targets i).length : ℤ) ∧
    m.successfulLocks + ∑ i, (S.phase i).owedSuccess =
      S.machine.hist.countP (Event.isLockReturn true) ∧
    m.failedLocks + ∑ i, (S.phase i).owedFailure =
      S.machine.hist.countP (Event.isLockReturn false) ∧
    m.successfulLocks + m.failedLocks + ∑ i, (S.phase i).owed = m.totalTransactions := by
  obtain ⟨h₁, h₂, h₃⟩ := h.counted
  exact ⟨h₁, h₂, h₃, h.disciplined.metrics⟩

/-- Two threads that have just come back from `lock`, one with true and one with false, and
have counted nothing but the beginning of their transactions. -/
theorem transactions_counted_between :
    ∃ S : Simulation (Fin 2),
      SimulationRun (fun _ => 0) S smallTree
        (fun i => if i = 0 then ["Left"] else ["Left", "Right"]) ∧
      S.phase 0 = .countSuccess "Left" [] ∧ S.phase 1 = .countFailure ["Right"] ∧
      S.machine.mem.metrics = ⟨2, 0, 0, 0⟩ ∧
      S.machine.hist.countP (Event.isLockReturn true) = 1 ∧
      S.machine.hist.countP (Event.isLockReturn false) = 1 := by
  obtain ⟨S, hS, hp⟩ := simulationRun_of_exec (fun _ => 0) smallTree
    (fun i : Fin 2 => if i = 0 then ["Left"] else ["Left", "Right"])
    (List.replicate 12 (0, false) ++ List.replicate 6 (1, false))
    (fun S => decide (S.phase 0 = .countSuccess "Left" [] ∧ S.phase 1 = .countFailure ["Right"] ∧
      S.machine.mem.metrics = ⟨2, 0, 0, 0⟩)) (by decide +kernel)
  obtain ⟨h0, h1, hm⟩ := of_decide_eq_true hp
  obtain ⟨-, hsuccess, hfailure, -⟩ := transactions_counted hS
  rw [Fin.sum_univ_two, h0, h1, hm] at hsuccess hfailure
  refine ⟨S, hS, h0, h1, hm, ?_, ?_⟩
  · simpa [Phase.owedSuccess] using hsuccess.symm
  · simpa [Phase.owedFailure] using hfailure.symm

end Run

end Atomic
end PaymentGateway
