/-
# The worker threads of the concurrency test

`src/test_atomic.cpp`.  Each `workerThread` (lines 18-37) locks one target again and again;
when it has it, it asserts that the node names it as the owner and is locked, unlocks it
and asserts that this worked.  After all threads have been joined, `main` asserts that
counters are back at 0 (lines 84-89).  An assertion that fails ends the test, so what is
there to show is that none does, in any interleaving (`worker_assertions_hold`).  Before
that `main` locks and unlocks on the tree (lines 46-70); that the workers find every node as
it was built is assumed here.

A worker makes the calls that a thread of a simulation makes, and does not count
transactions: every run of workers is matched by a simulation (`WorkerRun.simulated`), in
which a worker at an assertion is a thread that is about to unlock its target.
-/

import PaymentGateway.Atomic.Completion
import PaymentGateway.Atomic.Transactions

namespace PaymentGateway
namespace Atomic

open Lib

variable {Tid : Type}

/-! ### The program -/

/-- The `addNode` calls of `buildTestTree`. -/
def buildTestTree : List NodeSpec :=
  [⟨"Root", ""⟩, ⟨"A", "Root"⟩, ⟨"B", "Root"⟩, ⟨"C", "A"⟩, ⟨"D", "A"⟩, ⟨"E", "B"⟩]

/-- The target of the thread with this id. -/
def workerTarget (threadId : ℕ) : String :=
  ["C", "D", "E"].get ⟨threadId % 3, Nat.mod_lt _ (by decide)⟩

/-- Where a thread stands in `workerThread`, with the number of iterations to come. -/
inductive Worker
  | loop (iterations : ℕ)
  | inLock (iterations : ℕ)
  | assertOwner (iterations : ℕ)
  | assertLocked (iterations : ℕ)
  | callUnlock (iterations : ℕ)
  | inUnlock (iterations : ℕ)
  /-- an assertion has failed -/
  | aborted
  deriving DecidableEq, Repr

/-- The machine, and where each worker stands. -/
structure Workers (Tid : Type) where
  machine : State Tid
  worker : Tid → Worker

section Program

variable [DecidableEq Tid] (t : TreeShape) (threadId : Tid → ℤ) (target : Tid → String)
  (W : Workers Tid)

/-- A step of the machine, made by the thread `i`. -/
def Workers.advance (i : Tid) (l : Label Tid) (next : Worker) : Option (Workers Tid) :=
  (step t W.machine l).map fun machine => ⟨machine, Function.update W.worker i next⟩

/-- The thread `i` goes on if the node of its target passes the test.  Without such a node
the test dereferences a null pointer. -/
def Workers.check (i : Tid) (test : AtomicTreeNode → Bool) (next : Worker) :
    Option (Workers Tid) :=
  let passed := (t.getNode (target i)).any fun n => test (W.machine.mem.node n)
  some { W with worker := Function.update W.worker i (if passed then next else .aborted) }

/-- **One step of the thread `i` in `workerThread`.** -/
def workerThread (i : Tid) (spurious : Bool) : Option (Workers Tid) :=
  match W.worker i with
  | .loop 0 => none
  | .loop (k + 1) => W.advance t i (.invoke i ⟨.lock, target i, threadId i⟩) (.inLock k)
  | .inLock k =>
      W.advance t i (.tick i spurious) <| match W.machine.thread i with
        | .returning _ _ true => .assertOwner k
        | .returning _ _ false => .loop k
        | _ => .inLock k
  | .assertOwner k => W.check t target i (fun node => node.lockedBy = threadId i) (.assertLocked k)
  | .assertLocked k => W.check t target i (fun node => node.lockState = 1) (.callUnlock k)
  | .callUnlock k => W.advance t i (.invoke i ⟨.unlock, target i, threadId i⟩) (.inUnlock k)
  | .inUnlock k =>
      W.advance t i (.tick i spurious) <| match W.machine.thread i with
        | .returning _ _ true => .loop k
        | .returning _ _ false => .aborted
        | _ => .inUnlock k
  | .aborted => none

/-- The workers are about to begin, on the tree built by `adds`. -/
def Workers.start (adds : List NodeSpec) (iterations : Tid → ℕ) : Workers Tid :=
  ⟨Atomic.start (AtomicPaymentTree.build adds), fun i => .loop (iterations i)⟩

/-- A step of the workers: the thread that makes it, and whether a `compare_exchange_weak`
fails spuriously. -/
def work (l : Tid × Bool) : Option (Workers Tid) := workerThread t threadId target W l.1 l.2

/-- The states of the workers on the tree built by `adds`. -/
def WorkerRun (adds : List NodeSpec) (iterations : Tid → ℕ) : Prop :=
  Reaches (work (AtomicPaymentTree.build adds).shape threadId target) (fun _ _ => True)
    (.start adds iterations) W

end Program

/-! ### Workers as a simulation -/

/-- Where a thread of a simulation stands that has made the same calls. -/
def Worker.phase (target : String) : Worker → Option Phase
  | .loop k => some (.count (.replicate k target))
  | .inLock k => some (.inLock target (.replicate k target))
  | .assertOwner k | .assertLocked k | .callUnlock k =>
      some (.callUnlock target (.replicate k target))
  | .inUnlock k => some (.inUnlock target (.replicate k target))
  | .aborted => none

/-- The simulation has made the calls of the workers, and no assertion has failed. -/
structure Workers.Tracks (target : Tid → String) (W : Workers Tid) (S : Simulation Tid) : Prop where
  machine : ∃ metrics, S.machine = W.machine.withMetrics metrics
  phase : ∀ i, (W.worker i).phase (target i) = some (S.phase i)

section Tracks

variable {t : TreeShape} {threadId : Tid → ℤ} {target : Tid → String} {W W' : Workers Tid}
  {S : Simulation Tid} {i : Tid} {sp : Bool}

/-- No access depends on the metrics. -/
theorem exec_withMetrics (s : State Tid) (metrics : Metrics) (u : ℤ) (n : ℕ) (pc : Pc) :
    pc.exec t (s.withMetrics metrics).mem u n sp = pc.exec t s.mem u n sp :=
  rfl

namespace Workers.Tracks

theorem thread_eq (h : W.Tracks target S) : S.machine.thread = W.machine.thread := by
  obtain ⟨metrics, hm⟩ := h.machine
  rw [hm]
  rfl

theorem node_eq (h : W.Tracks target S) : S.machine.mem.node = W.machine.mem.node := by
  obtain ⟨metrics, hm⟩ := h.machine
  rw [hm]
  rfl

end Workers.Tracks

variable [DecidableEq Tid]

/-- **The machine does not look at the metrics.** -/
theorem step_withMetrics {s s' : State Tid} {l : Label Tid} (metrics : Metrics)
    (hs : step t s l = some s') :
    ∃ metrics', step t (s.withMetrics metrics) l = some (s'.withMetrics metrics') := by
  cases move_of_step hs with
  | invoke i c hi => exact ⟨metrics, by simp only [step, State.withMetrics, hi]⟩
  | ret i sp c k r hi => exact ⟨metrics, by simp only [step, State.withMetrics, hi]⟩
  | exec i sp c k n pc hi =>
      have hi' : (s.withMetrics metrics).thread i = .running c k n pc := hi
      simp only [step, hi', exec_withMetrics]
      cases (pc.exec t s.mem c.userId n sp).1 with
      | addCasRetries =>
          exact ⟨{ metrics with casRetries := metrics.casRetries + 1 }, rfl⟩
      | _ => exact ⟨metrics, rfl⟩

namespace Workers.Tracks

/-- One thread goes on in both systems. -/
theorem update (h : W.Tracks target S) {s s' : State Tid} {next : Worker} {p : Phase}
    (hs : ∃ metrics, s' = s.withMetrics metrics) (hp : next.phase (target i) = some p) :
    Workers.Tracks target ⟨s, Function.update W.worker i next⟩ ⟨s', Function.update S.phase i p⟩
    where
  machine := hs
  phase j := by
    by_cases hj : j = i
    · subst hj
      simpa using hp
    · simpa [Function.update_of_ne hj] using h.phase j

/-- The same step of the machine in both systems. -/
theorem advance (h : W.Tracks target S) {l : Label Tid} {s' : State Tid}
    (hs : Atomic.step t W.machine l = some s') :
    ∃ metrics, Atomic.step t S.machine l = some (s'.withMetrics metrics) := by
  obtain ⟨metrics, hm⟩ := h.machine
  rw [hm]
  exact step_withMetrics metrics hs

/-- **An assertion about the locked node holds.** -/
theorem check [Fintype Tid] (h : W.Tracks target S) (hd : S.Disciplined t threadId)
    {rest : List String} (hi : S.phase i = .callUnlock (target i) rest)
    {test : AtomicTreeNode → Bool} {next : Worker}
    (hnext : next.phase (target i) = some (S.phase i))
    (htest : ∀ n, Holds i n S.machine.hist → test (S.machine.mem.node n) = true)
    (hs : W.check t target i test next = some W') : W'.Tracks target S := by
  have hphase := hd.phase i
  rw [hi] at hphase
  obtain ⟨-, n, hn, hholds⟩ := hphase
  have hpassed : test (W.machine.mem.node n) = true := by
    rw [← h.node_eq]
    exact htest n ((hholds n).2 rfl)
  simp only [Workers.check, hn, Option.any_some, hpassed, if_true] at hs
  obtain rfl := Option.some.inj hs
  have hsame : (⟨S.machine, Function.update S.phase i (S.phase i)⟩ : Simulation Tid) = S := by
    rw [Function.update_eq_self]
  rw [← hsame]
  exact h.update h.machine hnext

/-- The simulation makes the step of the machine, and has nothing to count. -/
theorem matched (h : W.Tracks target S) {l : Label Tid} {s' : State Tid} {next : Worker}
    {p : Phase} (hs : Atomic.step t W.machine l = some s') (hp : next.phase (target i) = some p)
    (hsim : simulateTransactions t threadId S i sp = S.advance t i l p) :
    ∃ S', Reaches (simulate t threadId) (fun _ _ => True) S S' ∧
      Workers.Tracks target ⟨s', Function.update W.worker i next⟩ S' := by
  obtain ⟨metrics, hm⟩ := h.advance hs
  refine ⟨_, .single (a := (i, sp)) trivial (hsim.trans ?_), h.update ⟨metrics, rfl⟩ hp⟩
  rw [Simulation.advance, hm]
  rfl

/-- The simulation makes the step of the machine, and counts the outcome afterwards. -/
theorem matched_counted (h : W.Tracks target S) {l : Label Tid} {s' : State Tid} {next : Worker}
    {p p' : Phase} (hs : Atomic.step t W.machine l = some s')
    (hp : next.phase (target i) = some p') (hcount : ∀ S₁ : Simulation Tid, S₁.phase i = p →
      ∃ metrics, simulateTransactions t threadId S₁ i false = some (S₁.counted i metrics p'))
    (hsim : simulateTransactions t threadId S i sp = S.advance t i l p) :
    ∃ S', Reaches (simulate t threadId) (fun _ _ => True) S S' ∧
      Workers.Tracks target ⟨s', Function.update W.worker i next⟩ S' := by
  obtain ⟨metrics, hm⟩ := h.advance hs
  let S₁ : Simulation Tid := ⟨s'.withMetrics metrics, Function.update S.phase i p⟩
  have h₁ : simulate t threadId S (i, sp) = some S₁ := by
    refine hsim.trans ?_
    rw [Simulation.advance, hm]
    rfl
  obtain ⟨metrics', h₂⟩ := hcount S₁ (Function.update_self ..)
  refine ⟨_, (Reaches.single trivial h₁).tail (a := (i, false)) trivial h₂, ?_⟩
  rw [Simulation.counted, Function.update_idem]
  exact h.update ⟨metrics', rfl⟩ hp

/-- **Every step of a worker is matched**: by the same step of the machine, with the
counting of a transaction before or after it, or by nothing at all. -/
theorem step [Fintype Tid] (h : W.Tracks target S) (hd : S.Disciplined t threadId)
    (hs : workerThread t threadId target W i sp = some W') :
    ∃ S', Reaches (simulate t threadId) (fun _ _ => True) S S' ∧ W'.Tracks target S' := by
  have hphase := h.phase i
  unfold workerThread at hs
  cases hw : W.worker i with
  | loop k =>
      rw [hw] at hs hphase
      cases k with
      | zero => cases hs
      | succ k =>
          -- the transaction is counted before the call begins
          have hp := Option.some.inj hphase.symm
          obtain ⟨s', hs', rfl⟩ := Option.map_eq_some_iff.1 hs
          let m := S.machine.mem.metrics
          let S₁ := S.counted i { m with totalTransactions := m.totalTransactions + 1 }
            (.callLock (target i) (.replicate k (target i)))
          have h₁ : simulate t threadId S (i, sp) = some S₁ := by
            rw [simulate, simulateTransactions, hp]
            rfl
          obtain ⟨_, hm⟩ := h.advance hs'
          obtain ⟨metrics, hm₁⟩ := step_withMetrics S₁.machine.mem.metrics hm
          refine ⟨⟨s'.withMetrics metrics, Function.update S₁.phase i
            (.inLock (target i) (.replicate k (target i)))⟩,
            (Reaches.single trivial h₁).tail (a := (i, sp)) trivial ?_, ?_⟩
          · rw [simulate, simulateTransactions, show S₁.phase i = _ from Function.update_self ..]
            exact Option.map_eq_some_iff.2 ⟨_, hm₁, rfl⟩
          · simp only [S₁, Simulation.counted, Function.update_idem]
            exact h.update ⟨metrics, rfl⟩ rfl
  | inLock k =>
      rw [hw] at hs hphase
      have hp := Option.some.inj hphase.symm
      obtain ⟨s', hs', rfl⟩ := Option.map_eq_some_iff.1 hs
      have hthread := congrFun h.thread_eq i
      cases move_of_step hs' with
      | exec _ _ c b n pc hi =>
          rw [hi]
          exact h.matched hs' rfl (show simulateTransactions t threadId S i sp = _ by
            simp only [simulateTransactions, hp, hthread, hi])
      | ret _ _ c b r hi =>
          rw [hi]
          cases r with
          | true =>
              exact h.matched_counted (p := .countSuccess _ (.replicate k (target i))) hs' rfl
                (fun S₁ hS₁ => ⟨_, by rw [simulateTransactions, hS₁]⟩)
                (show simulateTransactions t threadId S i sp = _ by
                  simp only [simulateTransactions, hp, hthread, hi])
          | false =>
              exact h.matched_counted (p := .countFailure (.replicate k (target i))) hs' rfl
                (fun S₁ hS₁ => ⟨_, by rw [simulateTransactions, hS₁]⟩)
                (show simulateTransactions t threadId S i sp = _ by
                  simp only [simulateTransactions, hp, hthread, hi])
  | assertOwner k =>
      rw [hw] at hs hphase
      have hp := Option.some.inj hphase.symm
      have hfits := hd.phase i
      rw [hp] at hfits
      refine ⟨S, .refl, h.check hd hp (by rw [hp]; rfl) (fun n hn => decide_eq_true ?_) hs⟩
      exact hd.recorded.stored i n hn (by rw [hfits.1]; exact (Option.some_ne_none n).symm)
  | assertLocked k =>
      rw [hw] at hs hphase
      have hp := Option.some.inj hphase.symm
      refine ⟨S, .refl, h.check hd hp (by rw [hp]; rfl) (fun n hn => decide_eq_true ?_) hs⟩
      exact hd.custody.locked hn
  | callUnlock k =>
      rw [hw] at hs hphase
      have hp := Option.some.inj hphase.symm
      obtain ⟨s', hs', rfl⟩ := Option.map_eq_some_iff.1 hs
      exact h.matched hs' rfl (show simulateTransactions t threadId S i sp = _ by
        rw [simulateTransactions, hp])
  | inUnlock k =>
      rw [hw] at hs hphase
      have hp := Option.some.inj hphase.symm
      obtain ⟨s', hs', rfl⟩ := Option.map_eq_some_iff.1 hs
      have hthread := congrFun h.thread_eq i
      cases move_of_step hs' with
      | exec _ _ c b n pc hi =>
          rw [hi]
          exact h.matched hs' rfl (show simulateTransactions t threadId S i sp = _ by
            simp only [simulateTransactions, hp, hthread, hi])
      | ret _ _ c b r hi =>
          have hfits := hd.phase i
          rw [hp, hthread, hi] at hfits
          have hc : c.op = .unlock := by rw [hfits.1]
          obtain rfl := hd.returning (hthread.trans hi) hc
          rw [hi]
          exact h.matched hs' rfl (show simulateTransactions t threadId S i sp = _ by
            simp only [simulateTransactions, hp, hthread, hi])
  | aborted =>
      rw [hw] at hs
      cases hs

/-- A worker that has not finished its loop can make its next step. -/
theorem exists_step [Fintype Tid] (h : W.Tracks target S) (hd : S.Disciplined t threadId)
    (hi : W.worker i ≠ .loop 0) (sp : Bool) :
    ∃ W', workerThread t threadId target W i sp = some W' := by
  have hadvance {l : Label Tid} (hl : ∃ s', Atomic.step t W.machine l = some s') (next : Worker) :
      ∃ W', W.advance t i l next = some W' := by
    obtain ⟨s', hs'⟩ := hl
    exact ⟨_, Option.map_eq_some_iff.2 ⟨s', hs', rfl⟩⟩
  have hphase := h.phase i
  have hfits := hd.phase i
  rw [h.thread_eq] at hfits
  unfold workerThread
  cases hw : W.worker i with
  | loop k =>
      rw [hw] at hphase
      rw [Option.some.inj hphase.symm] at hfits
      cases k with
      | zero => exact absurd hw hi
      | succ k => exact hadvance ⟨_, by rw [Atomic.step, hfits.1]⟩ _
  | callUnlock k =>
      rw [hw] at hphase
      rw [Option.some.inj hphase.symm] at hfits
      exact hadvance ⟨_, by rw [Atomic.step, hfits.1]⟩ _
  | inLock k | inUnlock k =>
      rw [hw] at hphase
      rw [Option.some.inj hphase.symm] at hfits
      refine hadvance (exists_step_of_ne_idle (fun hidle => ?_) sp) _
      rw [hidle] at hfits
      exact hfits
  | assertOwner k | assertLocked k => exact ⟨_, rfl⟩
  | aborted =>
      rw [hw] at hphase
      cases hphase

end Workers.Tracks

end Tracks

/-! ### The end of a worker -/

/-- The steps left to a worker that stands here, with its call `l`: an iteration of a worker
has as many as one of a simulation, two assertions instead of two counters. -/
def Worker.rank (t : TreeShape) (target : String) (l : Local) : Worker → ℕ
  | .loop k => k * iterationSteps t target
  | .inLock k => l.rank t + callRank t .unlock target + 3 + k * iterationSteps t target
  | .assertOwner k => callRank t .unlock target + 3 + k * iterationSteps t target
  | .assertLocked k => callRank t .unlock target + 2 + k * iterationSteps t target
  | .callUnlock k => callRank t .unlock target + 1 + k * iterationSteps t target
  | .inUnlock k => l.rank t + k * iterationSteps t target
  | .aborted => 0

/-- The steps left to a worker. -/
def Workers.rank (t : TreeShape) (target : Tid → String) (i : Tid) (W : Workers Tid) : ℕ :=
  (W.worker i).rank t (target i) (W.machine.thread i)

section Rank

variable [DecidableEq Tid] {t : TreeShape} {threadId : Tid → ℤ} {target : Tid → String}
  {W W' : Workers Tid} {i j : Tid} {sp : Bool}

/-- The other workers leave a rank alone. -/
theorem worker_rank_of_ne (hij : j ≠ i) (hs : workerThread t threadId target W j sp = some W') :
    W'.rank t target i = W.rank t target i := by
  have hadvance {l : Label Tid} {next : Worker} (hl : l.tid = j)
      (h : W.advance t j l next = some W') : W'.rank t target i = W.rank t target i := by
    obtain ⟨s', hs', rfl⟩ := Option.map_eq_some_iff.1 h
    simp only [Workers.rank, Function.update_of_ne (Ne.symm hij)]
    rw [(frame_of_step hs' (by rw [hl]; exact Ne.symm hij)).1]
  have hcheck {test : AtomicTreeNode → Bool} {next : Worker}
      (h : W.check t target j test next = some W') : W'.rank t target i = W.rank t target i := by
    obtain rfl := Option.some.inj h
    simp only [Workers.rank, Function.update_of_ne (Ne.symm hij)]
  unfold workerThread at hs
  cases hw : W.worker j with
  | loop k =>
      rw [hw] at hs
      cases k with
      | zero => cases hs
      | succ k => exact hadvance rfl hs
  | inLock k | callUnlock k | inUnlock k =>
      rw [hw] at hs
      exact hadvance rfl hs
  | assertOwner k | assertLocked k =>
      rw [hw] at hs
      exact hcheck hs
  | aborted =>
      rw [hw] at hs
      cases hs

/-- **Every step of a worker is one step less to make**, up to a spurious failure. -/
theorem worker_rank_step (hs : workerThread t threadId target W i sp = some W') :
    1 + W'.rank t target i ≤ W.rank t target i + if sp then 2 else 0 := by
  have hinvoke {c : Call} {next : Worker} (h : W.advance t i (.invoke i c) next = some W') :
      W'.rank t target i =
        next.rank t (target i) (.enter t c W.machine.hist.length) := by
    obtain ⟨s', hs', rfl⟩ := Option.map_eq_some_iff.1 h
    cases move_of_step hs' with
    | invoke => simp [Workers.rank]
  have htick {next : Worker} (h : W.advance t i (.tick i sp) next = some W') :
      ∃ l : Local, W'.rank t target i = next.rank t (target i) l ∧
        1 + l.rank t ≤ (W.machine.thread i).rank t + if sp then 2 else 0 := by
    obtain ⟨s', hs', rfl⟩ := Option.map_eq_some_iff.1 h
    have hrank := rank_step (i := i) rfl hs'
    simp only [Label.ticks, Label.fails, decide_true, Bool.toNat_true, Bool.true_and] at hrank
    exact ⟨s'.thread i, by simp [Workers.rank], hrank⟩
  have hcheck {test : AtomicTreeNode → Bool} {next : Worker}
      (h : W.check t target i test next = some W') :
      W'.rank t target i ≤ next.rank t (target i) (W.machine.thread i) := by
    obtain rfl := Option.some.inj h
    simp only [Workers.rank, Function.update_self]
    split
    · exact le_rfl
    · exact Nat.zero_le _
  unfold workerThread at hs
  rw [show W.rank t target i = (W.worker i).rank t (target i) (W.machine.thread i) from rfl]
  cases hw : W.worker i with
  | loop k =>
      rw [hw] at hs
      cases k with
      | zero => cases hs
      | succ k =>
          rw [hinvoke hs]
          simp only [Worker.rank, rank_enter, iterationSteps, Nat.succ_mul]
          omega
  | callUnlock k =>
      rw [hw] at hs
      rw [hinvoke hs]
      simp only [Worker.rank, rank_enter]
      omega
  | inLock k | inUnlock k =>
      rw [hw] at hs
      obtain ⟨l, hl, hrank⟩ := htick hs
      rw [hl]
      split <;> simp only [Worker.rank] <;> omega
  | assertOwner k | assertLocked k =>
      rw [hw] at hs
      have hle := hcheck hs
      simp only [Worker.rank] at hle ⊢
      omega
  | aborted =>
      rw [hw] at hs
      cases hs

end Rank

/-! ### Whole tests -/

section Run

variable [Fintype Tid] [DecidableEq Tid] {threadId : Tid → ℤ} {target : Tid → String}
  {adds : List NodeSpec} {iterations : Tid → ℕ} {W : Workers Tid}

/-- **The workers are a simulation** with the same calls, in which no `unlock` fails. -/
theorem WorkerRun.simulated (h : WorkerRun threadId target W adds iterations) :
    ∃ S, SimulationRun threadId S adds (fun i => .replicate (iterations i) (target i)) ∧
      W.Tracks target S := by
  unfold WorkerRun at h
  refine h.forward (R := Workers.Tracks target) ⟨⟨_, rfl⟩, fun i => rfl⟩ ?_
  rintro W₁ ⟨i, sp⟩ W₂ S₁ hS hR - hs
  have hrun : SimulationRun threadId S₁ adds fun i => .replicate (iterations i) (target i) := hS
  exact hR.step hrun.disciplined hs

/-- **The concurrency test passes.**  Whatever the tree, the targets, the ids and the
interleaving, no assertion of a worker fails; each worker makes at most `iterationSteps`
steps for an iteration and two for each spurious failure, and can go on until it has
finished; and when all have, every node is as the constructor left it, so the counters that
`main` asserts to be 0 are. -/
theorem worker_assertions_hold {ls : List (Tid × Bool)}
    (h : exec (work (AtomicPaymentTree.build adds).shape threadId target) (fun _ _ => True)
      (.start adds iterations) ls = some W) :
    (∀ i, W.worker i ≠ .aborted) ∧
    (∀ i, ls.countP (fun l => l.1 = i) ≤
        iterations i * iterationSteps (AtomicPaymentTree.build adds).shape (target i) +
          2 * ls.countP (fun l => l.1 = i ∧ l.2 = true) ∧
      (W.worker i ≠ .loop 0 → ∀ sp, ∃ W',
        work (AtomicPaymentTree.build adds).shape threadId target W (i, sp) = some W')) ∧
    ((∀ i, W.worker i = .loop 0) → ∀ n, W.machine.mem.node n = .fresh) := by
  have hrun : WorkerRun threadId target W adds iterations := reaches_of_exec h
  obtain ⟨S, hS, hR⟩ := hrun.simulated
  refine ⟨fun i hi => ?_, fun i => ⟨?_, fun hi sp => hR.exists_step hS.disciplined hi sp⟩,
    fun hend n => ?_⟩
  · have hphase := hR.phase i
    rw [hi] at hphase
    cases hphase
  · have hrank := countP_add_rank_le (fun l : Tid × Bool => decide (l.1 = i))
      (fun l => if decide (l.1 = i ∧ l.2 = true) then 2 else 0)
      (Workers.rank (AtomicPaymentTree.build adds).shape target i) (fun W l W' _ hs => ?_) h
    · rw [sum_slack] at hrank
      exact (Nat.le_add_right _ _).trans hrank
    · obtain ⟨j, sp⟩ := l
      by_cases hj : j = i
      · subst hj
        simpa using worker_rank_step hs
      · simpa [hj] using (worker_rank_of_ne hj hs).le
  · rw [← hR.node_eq]
    refine hS.disciplined.fresh (fun i => ⟨[], ?_⟩) n
    have hphase := hR.phase i
    rw [hend i] at hphase
    exact Option.some.inj hphase.symm

/-- Four threads on the tree of the test, one iteration each: thread 3 comes to `C` while
thread 0 checks its assertions there, and all finish. -/
theorem worker_assertions_hold_test :
    ∃ (W : Workers (Fin 4)) (ls : List (Fin 4 × Bool)),
      exec (work (AtomicPaymentTree.build buildTestTree).shape (fun i : Fin 4 => ((i : ℕ) : ℤ))
        fun i => workerTarget i) (fun _ _ => True) (.start buildTestTree fun _ => 1) ls = some W ∧
      W.machine.hist.countP (Event.isLockReturn false) = 1 ∧
      (∀ i, W.worker i = .loop 0) ∧ (W.machine.mem.node 0).descendantLockedCount = 0 ∧
      (W.machine.mem.node 1).descendantLockedCount = 0 ∧
      (W.machine.mem.node 1).ancestorLockedCount = 0 := by
  let ls : List (Fin 4 × Bool) := List.replicate 13 (0, false) ++ List.replicate 5 (3, false) ++
    List.replicate 10 (0, false) ++ List.replicate 23 (1, false) ++ List.replicate 23 (2, false)
  have hany : (exec (work (AtomicPaymentTree.build buildTestTree).shape
      (fun i : Fin 4 => ((i : ℕ) : ℤ)) fun i => workerTarget i) (fun _ _ => True)
      (.start buildTestTree fun _ => 1) ls).any (fun W => decide
        ((∀ i, W.worker i = .loop 0) ∧
          W.machine.hist.countP (Event.isLockReturn false) = 1)) = true := by
    decide +kernel
  obtain ⟨W, hW, hp⟩ := (Option.any_eq_true _ _).1 hany
  obtain ⟨hend, hfailed⟩ := of_decide_eq_true hp
  have hfresh := (worker_assertions_hold hW).2.2 hend
  exact ⟨W, ls, hW, hfailed, hend, by rw [hfresh]; rfl, by rw [hfresh]; rfl, by rw [hfresh]; rfl⟩

end Run

end Atomic
end PaymentGateway
