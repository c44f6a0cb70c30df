/-
# A simulation ends

`/api/simulate` and the stress test join their threads (`src/main.cpp`, lines 101-103,
`src/simulator.cpp`, lines 112-114), so they come to an end only if every thread does.
A thread makes at most `iterationSteps` steps for each target, and two for each spurious
failure of a `compare_exchange_weak`, whatever the other threads do; and a thread that
has not finished its loop can always make its next step.  Hence every schedule that
keeps running unfinished threads finishes all of them (`simulation_completes`).
-/

import PaymentGateway.Atomic.Progress
import PaymentGateway.Atomic.Simulator

namespace PaymentGateway
namespace Atomic

open Lib

variable {Tid : Type} {t : TreeShape}

/-- The most steps of an iteration, without spurious failures: both calls with their
returns, and the steps that count the transaction and its outcome and begin the calls. -/
def iterationSteps (t : TreeShape) (target : String) : ℕ :=
  callRank t .lock target + callRank t .unlock target + 4

/-- The steps left in the loop for these targets. -/
def loopSteps (t : TreeShape) (targets : List String) : ℕ :=
  (targets.map (iterationSteps t)).sum

/-- The steps left to a thread that stands here, with its call `l`. -/
def Phase.rank (t : TreeShape) (l : Local) : Phase → ℕ
  | .count targets => loopSteps t targets
  | .callLock target rest =>
      callRank t .lock target + callRank t .unlock target + 3 + loopSteps t rest
  | .inLock target rest => l.rank t + callRank t .unlock target + 2 + loopSteps t rest
  | .countSuccess target rest => callRank t .unlock target + 2 + loopSteps t rest
  | .callUnlock target rest => callRank t .unlock target + 1 + loopSteps t rest
  | .inUnlock _ rest => l.rank t + loopSteps t rest
  | .countFailure rest => 1 + loopSteps t rest

/-- The steps left to a thread of the simulation. -/
def Simulation.rank (t : TreeShape) (i : Tid) (S : Simulation Tid) : ℕ :=
  (S.phase i).rank t (S.machine.thread i)

section Steps

variable [DecidableEq Tid] {threadId : Tid → ℤ} {i j : Tid} {S S' : Simulation Tid} {sp : Bool}

/-- The other threads leave a rank alone. -/
theorem rank_of_ne (hij : j ≠ i) (hs : simulateTransactions t threadId S j sp = some S') :
    S'.rank t i = S.rank t i := by
  have hframe {l : Label Tid} {next : Phase} (hl : l.tid = j)
      (h : S.advance t j l next = some S') : S'.rank t i = S.rank t i := by
    obtain ⟨s', hs', rfl⟩ := Option.map_eq_some_iff.1 h
    simp only [Simulation.rank, Function.update_of_ne (Ne.symm hij)]
    rw [(frame_of_step hs' (by rw [hl]; exact Ne.symm hij)).1]
  have hcount {metrics : Metrics} {next : Phase}
      (h : some (S.counted j metrics next) = some S') : S'.rank t i = S.rank t i := by
    obtain rfl := Option.some.inj h
    simp [Simulation.rank, Simulation.counted, State.withMetrics,
      Function.update_of_ne (Ne.symm hij)]
  unfold simulateTransactions at hs
  cases hp : S.phase j with
  | count targets =>
      rw [hp] at hs
      cases targets with
      | nil => cases hs
      | cons target rest => exact hcount hs
  | callLock target rest | callUnlock target rest | inLock target rest | inUnlock target rest =>
      rw [hp] at hs
      exact hframe rfl hs
  | countSuccess target rest | countFailure rest =>
      rw [hp] at hs
      exact hcount hs

/-- **Every step of a thread is one step less to make**, up to a spurious failure. -/
theorem rank_step_self (hs : simulateTransactions t threadId S i sp = some S') :
    1 + S'.rank t i ≤ S.rank t i + if sp then 2 else 0 := by
  have hinvoke {c : Call} {next : Phase} (h : S.advance t i (.invoke i c) next = some S') :
      S'.rank t i = next.rank t (.enter t c S.machine.hist.length) := by
    obtain ⟨s', hs', rfl⟩ := Option.map_eq_some_iff.1 h
    cases move_of_step hs' with
    | invoke => simp [Simulation.rank]
  have htick {next : Phase} (h : S.advance t i (.tick i sp) next = some S') :
      ∃ l : Local, S'.rank t i = next.rank t l ∧
        1 + l.rank t ≤ (S.machine.thread i).rank t + if sp then 2 else 0 := by
    obtain ⟨s', hs', rfl⟩ := Option.map_eq_some_iff.1 h
    have hrank := rank_step (i := i) rfl hs'
    simp only [Label.ticks, Label.fails, decide_true, Bool.toNat_true, Bool.true_and] at hrank
    exact ⟨s'.thread i, by simp [Simulation.rank], hrank⟩
  unfold simulateTransactions at hs
  rw [show S.rank t i = (S.phase i).rank t (S.machine.thread i) from rfl]
  cases hp : S.phase i with
  | count targets =>
      rw [hp] at hs
      cases targets with
      | nil => cases hs
      | cons target rest =>
          obtain rfl := Option.some.inj hs
          simp only [Simulation.rank, Simulation.counted, Function.update_self, Phase.rank,
            loopSteps, List.map_cons, List.sum_cons, iterationSteps]
          omega
  | callLock target rest | callUnlock target rest =>
      rw [hp] at hs
      rw [hinvoke hs]
      simp only [Phase.rank, rank_enter]
      omega
  | countSuccess target rest | countFailure rest =>
      rw [hp] at hs
      obtain rfl := Option.some.inj hs
      simp only [Simulation.rank, Simulation.counted, Function.update_self, Phase.rank]
      omega
  | inLock target rest | inUnlock target rest =>
      rw [hp] at hs
      obtain ⟨l, hl, hrank⟩ := htick hs
      rw [hl]
      split <;> simp only [Phase.rank] <;> omega

/-- The thread can make a step of the machine. -/
theorem exists_advance {l : Label Tid}
    (h : ∃ s', step t S.machine l = some s') (next : Phase) :
    ∃ S', S.advance t i l next = some S' := by
  obtain ⟨s', hs'⟩ := h
  exact ⟨_, Option.map_eq_some_iff.2 ⟨s', hs', rfl⟩⟩

end Steps

/-! ### Whole simulations -/

section Run

variable [Fintype Tid] {threadId : Tid → ℤ} {adds : List NodeSpec} {targets : Tid → List String}
  {S : Simulation Tid}

variable [DecidableEq Tid]

/-- A thread that has not finished its loop can make its next step. -/
theorem Simulation.Disciplined.exists_step (h : S.Disciplined t threadId) {i : Tid}
    (hi : S.phase i ≠ .count []) (sp : Bool) :
    ∃ S', simulateTransactions t threadId S i sp = some S' := by
  have hphase := h.phase i
  unfold simulateTransactions
  cases hp : S.phase i with
  | count ts =>
      cases ts with
      | nil => exact absurd hp hi
      | cons target rest => exact ⟨_, rfl⟩
  | countSuccess target rest | countFailure rest => exact ⟨_, rfl⟩
  | callLock target rest | callUnlock target rest =>
      rw [hp] at hphase
      exact exists_advance ⟨_, by rw [Atomic.step, hphase.1]⟩ _
  | inLock target rest | inUnlock target rest =>
      rw [hp] at hphase
      have hne : S.machine.thread i ≠ .idle := fun h => by
        rw [h] at hphase
        exact hphase
      exact exists_advance (exists_step_of_ne_idle hne sp) _

/-- **A simulation completes.**  Whatever the ids, the targets and the schedule: a thread
makes at most `iterationSteps` steps for each of its targets and two for each spurious
failure, and as long as it has not finished its loop it can make the next one. -/
theorem simulation_completes {ls : List (Tid × Bool)}
    (h : exec (simulate (AtomicPaymentTree.build adds).shape threadId) (fun _ _ => True)
      (.start adds targets) ls = some S) (i : Tid) :
    ls.countP (fun l => l.1 = i) ≤
        loopSteps (AtomicPaymentTree.build adds).shape (targets i) +
          2 * ls.countP (fun l => l.1 = i ∧ l.2 = true) ∧
      (S.phase i ≠ .count [] → ∀ sp,
        ∃ S', simulate (AtomicPaymentTree.build adds).shape threadId S (i, sp) = some S') := by
  have hrun : SimulationRun threadId S adds targets := reaches_of_exec h
  refine ⟨?_, fun hi sp => hrun.disciplined.exists_step hi sp⟩
  have hrank := countP_add_rank_le (fun l : Tid × Bool => decide (l.1 = i))
    (fun l => if decide (l.1 = i ∧ l.2 = true) then 2 else 0)
    (Simulation.rank (AtomicPaymentTree.build adds).shape i) (fun S l S' _ hs => ?_) h
  · rw [sum_slack] at hrank
    exact (Nat.le_add_right _ _).trans hrank
  · obtain ⟨j, sp⟩ := l
    by_cases hj : j = i
    · subst hj
      simpa using rank_step_self hs
    · simpa [hj] using (rank_of_ne hj hs).le

/-- Two threads with the same id, of which the second finds `Left` taken and is in the
middle of its next transaction: it has made 10 of at most 42 steps, and can go on. -/
theorem simulation_completes_shared :
    ∃ ls : List (Fin 2 × Bool), ∃ S : Simulation (Fin 2),
      exec (simulate (AtomicPaymentTree.build smallTree).shape fun _ : Fin 2 => 0)
        (fun _ _ => True)
        (.start smallTree fun i => if i = 0 then ["Left"] else ["Left", "Right"]) ls = some S ∧
      S.phase 1 = .inLock "Right" [] ∧ S.machine.mem.metrics.failedLocks = 1 ∧
      ls.countP (fun l => l.1 = 1) = 10 ∧
      ls.countP (fun l => l.1 = 1) ≤
        loopSteps (AtomicPaymentTree.build smallTree).shape ["Left", "Right"] +
          2 * ls.countP (fun l => l.1 = 1 ∧ l.2 = true) ∧
      ∃ S', simulate (AtomicPaymentTree.build smallTree).shape (fun _ : Fin 2 => 0) S (1, true) =
        some S' := by
  have hany : (exec (simulate (AtomicPaymentTree.build smallTree).shape fun _ : Fin 2 => 0)
      (fun _ _ => True) (.start smallTree fun i => if i = 0 then ["Left"] else ["Left", "Right"])
      (List.replicate 12 (0, false) ++ List.replicate 10 (1, false))).any (fun S => decide
        (S.phase 1 = .inLock "Right" [] ∧ S.machine.mem.metrics.failedLocks = 1)) = true := by
    decide +kernel
  obtain ⟨S, hS, hp⟩ := (Option.any_eq_true _ _).1 hany
  obtain ⟨hphase, hfailed⟩ := of_decide_eq_true hp
  obtain ⟨hbound, hnext⟩ := simulation_completes hS 1
  exact ⟨_, S, hS, hphase, hfailed, by decide, hbound, hnext (by rw [hphase]; nofun) true⟩

end Run

end Atomic
end PaymentGateway
