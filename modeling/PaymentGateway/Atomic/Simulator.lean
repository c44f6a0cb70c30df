/-
# `simulateTransactions`

`src/main.cpp` (lines 32-53) and `src/simulator.cpp` (lines 31-52).  Each thread
works through its list of targets: count a transaction, lock the target with the
thread's id, and either count a success and unlock the target or count a failure.
The machine runs the calls; a `Simulation` adds where each thread stands in its
loop (`Phase`).  The random choice of targets is an arbitrary list for each thread,
and the ids are arbitrary too: two overlapping requests to `/api/simulate` use the
same ids.

The owner check of `unlock` is therefore of no help.  What makes the simulation
clean is its call discipline: a thread unlocks exactly the one node it holds
(`HoldsOnly`, `Local.Carries`), so whoever comes to an owner check holds the node,
and the owner field names the id of its holder (`Recorded`).  Every `unlock` then
returns true, and nothing is left behind (`simulation_leaves_no_trace`).
-/

import PaymentGateway.Atomic.Calls
import PaymentGateway.Atomic.Recorded

namespace PaymentGateway
namespace Atomic

open Lib

variable {Tid : Type}

/-! ### The program -/

/-- Where a thread stands in the loop of `simulateTransactions`; `rest` are the
targets of the iterations to come. -/
inductive Phase
  /-- the head of the loop -/
  | count (targets : List String)
  | callLock (target : String) (rest : List String)
  | inLock (target : String) (rest : List String)
  | countSuccess (target : String) (rest : List String)
  | callUnlock (target : String) (rest : List String)
  | inUnlock (target : String) (rest : List String)
  | countFailure (rest : List String)
  deriving DecidableEq, Repr

/-- The machine, and where each thread stands. -/
structure Simulation (Tid : Type) where
  machine : State Tid
  phase : Tid → Phase

/-- The state with other metrics. -/
def State.withMetrics (s : State Tid) (metrics : Metrics) : State Tid :=
  { s with mem := { s.mem with metrics := metrics } }

section Program

variable [DecidableEq Tid] (t : TreeShape) (threadId : Tid → ℤ) (s : Simulation Tid)

/-- A `fetch_add` of the thread `i` on the metrics. -/
def Simulation.counted (i : Tid) (metrics : Metrics) (next : Phase) : Simulation Tid :=
  ⟨s.machine.withMetrics metrics, Function.update s.phase i next⟩

/-- A step of the machine, made by the thread `i`. -/
def Simulation.advance (i : Tid) (l : Label Tid) (next : Phase) : Option (Simulation Tid) :=
  (step t s.machine l).map fun machine => ⟨machine, Function.update s.phase i next⟩

/-- **One step of the thread `i` in `simulateTransactions`.** -/
def simulateTransactions (i : Tid) (spurious : Bool) : Option (Simulation Tid) :=
  let m := s.machine.mem.metrics
  match s.phase i with
  | .count [] => none
  | .count (target :: rest) => some <|
      s.counted i { m with totalTransactions := m.totalTransactions + 1 } (.callLock target rest)
  | .callLock target rest =>
      s.advance t i (.invoke i ⟨.lock, target, threadId i⟩) (.inLock target rest)
  | .inLock target rest =>
      s.advance t i (.tick i spurious) <| match s.machine.thread i with
        | .returning _ _ true => .countSuccess target rest
        | .returning _ _ false => .countFailure rest
        | _ => .inLock target rest
  | .countSuccess target rest => some <|
      s.counted i { m with successfulLocks := m.successfulLocks + 1 } (.callUnlock target rest)
  | .callUnlock target rest =>
      s.advance t i (.invoke i ⟨.unlock, target, threadId i⟩) (.inUnlock target rest)
  | .inUnlock target rest =>
      s.advance t i (.tick i spurious) <| match s.machine.thread i with
        | .returning .. => .count rest
        | _ => .inUnlock target rest
  | .countFailure rest => some <|
      s.counted i { m with failedLocks := m.failedLocks + 1 } (.count rest)

/-- The threads are about to begin, on the tree built by `adds`. -/
def Simulation.start (adds : List NodeSpec) (targets : Tid → List String) : Simulation Tid :=
  ⟨Atomic.start (AtomicPaymentTree.build adds), fun i => .count (targets i)⟩

/-- A step of the simulation: the thread that makes it, and whether a
`compare_exchange_weak` fails spuriously. -/
def simulate (l : Tid × Bool) : Option (Simulation Tid) :=
  simulateTransactions t threadId s l.1 l.2

/-- The states of a simulation on the tree built by `adds`, in which the thread `i`
works through `targets i` with the id `threadId i`. -/
def SimulationRun (adds : List NodeSpec) (targets : Tid → List String) : Prop :=
  Reaches (simulate (AtomicPaymentTree.build adds).shape threadId) (fun _ _ => True)
    (.start adds targets) s

/-- A schedule that ends in a state with the property `p` is a simulation to such a
state. -/
theorem simulationRun_of_exec (adds : List NodeSpec) (targets : Tid → List String)
    (ls : List (Tid × Bool)) (p : Simulation Tid → Bool)
    (h : (exec (simulate (AtomicPaymentTree.build adds).shape threadId) (fun _ _ => True)
      (.start adds targets) ls).any p = true) :
    ∃ s, SimulationRun threadId s adds targets ∧ p s = true :=
  exists_reaches_of_exec ls h

end Program

/-! ### What a thread has in hand -/

/-- The thread `i` holds the node of `o`, and no other node. -/
def HoldsOnly (i : Tid) (o : Option ℕ) (H : List (Event Tid)) : Prop :=
  ∀ y, Holds i y H ↔ o = some y

/-- The node a thread holds inside a `lock` or an `unlock` of `n`. -/
def Pc.carries (n : ℕ) : Pc → Option ℕ
  | .lockReloadAncestors | .lockReloadDescendants | .lockRollback | .storeOwner
  | .unlockLoadOwner | .unlockClearOwner | .unlockCas | .unlockRestoreOwner
  | .unlockCountRetry => some n
  | .informUp _ delta _ _ | .informDown _ delta _ _ => if delta = 1 then some n else none
  | _ => none

/-- The node a thread holds after a step of its `lock` or `unlock`. -/
def Next.carries (op : Op) (n : ℕ) : Next → Option ℕ
  | .goto pc => pc.carries n
  | .finish result => if op = .lock ∧ result = true then some n else none

/-- **A step keeps account of the node in hand**, if an `unlock` does not fail. -/
theorem exec_carries {t : TreeShape} {m : Memory} {u : ℤ} {n : ℕ} (sp : Bool) {pc : Pc} {op : Op}
    (hfits : pc.Fits t op n) (hop : op ≠ .upgradeLock)
    (hpass : pc = .unlockLoadOwner → (m.node n).lockedBy = u) (hrest : ¬pc.Restoring) :
    match (pc.exec t m u n sp).1 with
    | .setLockState y v => y = n ∧
        (v = 1 ∧ pc.carries n = none ∧ (pc.exec t m u n sp).2.carries op n = some n ∨
          v ≠ 1 ∧ pc.carries n = some n ∧ (pc.exec t m u n sp).2.carries op n = none)
    | _ => (pc.exec t m u n sp).2.carries op n = pc.carries n := by
  revert hfits hpass hrest
  fun_cases Pc.exec t m u n sp pc <;> intro hfits hpass hrest <;>
    simp_all [Pc.Fits, After.Fits, Pc.carries, Next.carries, Pc.Restoring]
  obtain ⟨-, ⟨rfl, hlock⟩ | ⟨rfl, rfl⟩⟩ := hfits
  · cases op <;> simp_all
  · simp

/-- What a thread holds does not depend on the accesses of others. -/
theorem HoldsOnly.events_of_ne {i j : Tid} {o : Option ℕ} {H : List (Event Tid)}
    (h : HoldsOnly j o H) (hij : i ≠ j) (a : Access) : HoldsOnly j o (a.events i ++ H) := by
  intro y
  rw [holds_events]
  split
  · split <;> simp [hij, h y]
  · exact h y

/-- A thread keeps to the one node its call has in hand. -/
theorem HoldsOnly.exec {t : TreeShape} {m : Memory} {u : ℤ} {n : ℕ} (sp : Bool) {pc : Pc} {op : Op}
    {i : Tid} {H : List (Event Tid)} (h : HoldsOnly i (pc.carries n) H) (hfits : pc.Fits t op n)
    (hop : op ≠ .upgradeLock) (hpass : pc = .unlockLoadOwner → (m.node n).lockedBy = u)
    (hrest : ¬pc.Restoring) :
    HoldsOnly i ((pc.exec t m u n sp).2.carries op n) ((pc.exec t m u n sp).1.events i ++ H) := by
  have hstep := exec_carries sp hfits hop hpass hrest
  intro y
  rw [holds_events]
  split
  · rename_i z v ha
    rw [ha] at hstep
    obtain ⟨rfl, ⟨rfl, hhad, hnext⟩ | ⟨hv, hhad, hnext⟩⟩ := hstep
    · rw [if_pos rfl, hnext, h y, hhad]
      simp
    · rw [if_neg hv, hnext, h y, hhad]
      simp
  · rename_i hne
    split at hstep
    · rename_i z v ha
      exact absurd ha (hne z v)
    · rw [hstep]
      exact h y

/-- The thread `i` is inside the call `c`, a `lock` or an `unlock`, with the node
this call has in hand and no other. -/
def Local.Carries (t : TreeShape) (i : Tid) (H : List (Event Tid)) (c : Call) : Local → Prop
  | .idle => False
  | .running c' _ n pc => c' = c ∧ HoldsOnly i (pc.carries n) H
  | .returning c' _ result => c' = c ∧ match c.op, result with
      | .lock, true => ∃ n, t.getNode c.nodeName = some n ∧ HoldsOnly i (some n) H
      | .unlock, false => False
      | _, _ => HoldsOnly i none H

/-- What a thread holds in each phase: the target of its transaction from the
successful `lock` to the `unlock`, and nothing otherwise. -/
def Phase.Fits (t : TreeShape) (threadId : ℤ) (i : Tid) (H : List (Event Tid)) (l : Local) :
    Phase → Prop
  | .count _ | .callLock _ _ | .countFailure _ => l = .idle ∧ HoldsOnly i none H
  | .countSuccess target _ | .callUnlock target _ =>
      l = .idle ∧ ∃ n, t.getNode target = some n ∧ HoldsOnly i (some n) H
  | .inLock target _ => l.Carries t i H ⟨.lock, target, threadId⟩
  | .inUnlock target _ => l.Carries t i H ⟨.unlock, target, threadId⟩

/-- A transaction that is counted in `totalTransactions` only. -/
def Phase.owed : Phase → ℤ
  | .callLock _ _ | .inLock _ _ | .countSuccess _ _ | .countFailure _ => 1
  | _ => 0

/-- The invariant of the simulation. -/
structure Simulation.Disciplined [Fintype Tid] (t : TreeShape) (threadId : Tid → ℤ)
    (s : Simulation Tid) : Prop where
  sound : Sound t s.machine
  custody : Custody threadId s.machine
  recorded : Recorded threadId s.machine
  resolved : Resolved t s.machine
  phase : ∀ i, (s.phase i).Fits t (threadId i) i s.machine.hist (s.machine.thread i)
  unlocked : ∀ i c k r, .ret i c k r ∈ s.machine.hist → c.op = .unlock → r = true
  metrics : Tallied (s.machine.mem.metrics.successfulLocks + s.machine.mem.metrics.failedLocks)
    (Phase.owed ∘ s.phase) s.machine.mem.metrics.totalTransactions

/-! ### The call discipline -/

section Discipline

variable [Fintype Tid] {t : TreeShape} {threadId : Tid → ℤ} {s : Simulation Tid}

/-- A call in progress is a `lock` or an `unlock`, and its thread holds what the
call has in hand. -/
theorem Simulation.Disciplined.running (h : s.Disciplined t threadId) {i : Tid} {c : Call}
    {k n : ℕ} {pc : Pc} (hi : s.machine.thread i = .running c k n pc) :
    c.op ≠ .upgradeLock ∧ HoldsOnly i (pc.carries n) s.machine.hist := by
  have hphase := h.phase i
  rw [hi] at hphase
  cases hp : s.phase i <;> rw [hp] at hphase
  case inLock => exact ⟨by rw [hphase.1]; nofun, hphase.2⟩
  case inUnlock => exact ⟨by rw [hphase.1]; nofun, hphase.2⟩
  all_goals cases hphase.1

/-- A call in progress stands where its operation can stand. -/
theorem Simulation.Disciplined.fits (h : s.Disciplined t threadId) {i : Tid} {c : Call}
    {k n : ℕ} {pc : Pc} (hi : s.machine.thread i = .running c k n pc) : pc.Fits t c.op n := by
  exact fits_running h.sound.fits hi

/-- **Whoever comes to an owner check holds the node.** -/
theorem Simulation.Disciplined.byHolder (h : s.Disciplined t threadId) (l : Label Tid) :
    ByHolder s.machine l := by
  cases l with
  | invoke i c => trivial
  | tick i sp =>
      simp only [ByHolder]
      split
      · rename_i hi
        exact fun _ => ((h.running hi).2 _).2 rfl
      · rename_i hi
        exact absurd (h.fits hi).1 (h.running hi).1
      · trivial

theorem Simulation.Disciplined.sparesOwners (h : s.Disciplined t threadId) (l : Label Tid) :
    SparesOwners threadId s.machine l :=
  sparesOwners_of_lockUnlock h.sound.fits (fun hi => (h.running hi).1) l

/-- The owner check of an `unlock` passes: the field names the id of the holder. -/
theorem Simulation.Disciplined.passes (h : s.Disciplined t threadId) {i : Tid} {c : Call}
    {k n : ℕ} {pc : Pc} (hi : s.machine.thread i = .running c k n pc)
    (hpc : pc = .unlockLoadOwner) : (s.machine.mem.node n).lockedBy = c.userId := by
  subst hpc
  rw [h.custody.userId_eq hi]
  exact h.recorded.stored i n (((h.running hi).2 n).2 rfl) (by rw [hi]; nofun)

/-- An `unlock` that returns, returns true. -/
theorem Simulation.Disciplined.returning (h : s.Disciplined t threadId) {i : Tid} {c : Call}
    {k : ℕ} {r : Bool} (hi : s.machine.thread i = .returning c k r)
    (hop : c.op = .unlock) : r = true := by
  have hphase := h.phase i
  rw [hi] at hphase
  cases hp : s.phase i <;> rw [hp] at hphase
  case inLock =>
    obtain ⟨rfl, -⟩ := hphase
    cases hop
  case inUnlock =>
    obtain ⟨rfl, hr⟩ := hphase
    cases r with
    | true => rfl
    | false => exact hr.elim
  all_goals cases hphase.1

/-- A call that goes on, or ends, still has in hand what it should. -/
theorem Simulation.Disciplined.exec (h : s.Disciplined t threadId) {i : Tid} {c : Call}
    {k n : ℕ} {pc : Pc} (sp : Bool) (hi : s.machine.thread i = .running c k n pc) :
    ((pc.exec t s.machine.mem c.userId n sp).2.toLocal c k n).Carries t i
      ((pc.exec t s.machine.mem c.userId n sp).1.events i ++ s.machine.hist) c := by
  obtain ⟨hop, hholds⟩ := h.running hi
  have hrest : ¬pc.Restoring := h.custody.running_not_restoring hi
  have hnode := h.resolved.calls i
  rw [hi] at hnode
  have hafter := hholds.exec sp (h.fits hi) hop (h.passes hi) hrest
  cases hnext : (pc.exec t s.machine.mem c.userId n sp).2 with
  | goto pc' =>
      rw [hnext] at hafter
      exact ⟨rfl, hafter⟩
  | finish r =>
      rw [hnext] at hafter
      refine ⟨rfl, ?_⟩
      cases hc : c.op with
      | lock =>
          cases r with
          | true => exact ⟨n, hnode.1, by simpa [Next.carries, hc] using hafter⟩
          | false => simpa [Next.carries, hc] using hafter
      | unlock =>
          cases r with
          | true => simpa [Next.carries, hc] using hafter
          | false =>
              rcases exec_unlock_false (hc ▸ h.fits hi) hnext with ⟨hpc, hother⟩ | hpc
              · exact hother (h.passes hi hpc)
              · exact hrest hpc
      | upgradeLock => exact absurd hc hop

end Discipline

/-! ### Steps -/

section Steps

variable {t : TreeShape} {i : Tid} {H H' : List (Event Tid)}

theorem Local.Carries.mono {c : Call} {l : Local} (h : l.Carries t i H c)
    (hH : ∀ o, HoldsOnly i o H → HoldsOnly i o H') : l.Carries t i H' c := by
  cases l with
  | idle => exact h
  | running c' k n pc => exact ⟨h.1, hH _ h.2⟩
  | returning c' k r =>
      obtain ⟨rfl, h⟩ := h
      refine ⟨rfl, ?_⟩
      split at h
      · obtain ⟨n, hn, h⟩ := h
        exact ⟨n, hn, hH _ h⟩
      · exact h
      · exact hH _ h

theorem Phase.Fits.mono {u : ℤ} {l : Local} {p : Phase} (h : p.Fits t u i H l)
    (hH : ∀ o, HoldsOnly i o H → HoldsOnly i o H') : p.Fits t u i H' l := by
  cases p with
  | count | callLock | countFailure => exact ⟨h.1, hH _ h.2⟩
  | countSuccess | callUnlock =>
      obtain ⟨hl, n, hn, h⟩ := h
      exact ⟨hl, n, hn, hH _ h⟩
  | inLock | inUnlock => exact Local.Carries.mono h hH

/-- A `lock` begins with empty hands. -/
theorem carries_enter_lock {u : ℤ} {target : String} (h : HoldsOnly i none H) (k : ℕ) :
    (Local.enter t ⟨.lock, target, u⟩ k).Carries t i H ⟨.lock, target, u⟩ := by
  unfold Local.enter
  split
  · exact ⟨rfl, h⟩
  · exact ⟨rfl, h⟩

/-- An `unlock` begins with its node in hand. -/
theorem carries_enter_unlock {u : ℤ} {target : String} {n : ℕ} (hn : t.getNode target = some n)
    (h : HoldsOnly i (some n) H) (k : ℕ) :
    (Local.enter t ⟨.unlock, target, u⟩ k).Carries t i H ⟨.unlock, target, u⟩ := by
  unfold Local.enter
  rw [hn]
  exact ⟨rfl, h⟩

variable [DecidableEq Tid] {s s' : State Tid}

/-- **Frame**: a step of one thread leaves the others where they are, with what
they hold. -/
theorem frame_of_step {l : Label Tid} (hs : step t s l = some s') {j : Tid} (hj : j ≠ l.tid) :
    s'.thread j = s.thread j ∧ ∀ o, HoldsOnly j o s.hist → HoldsOnly j o s'.hist := by
  cases move_of_step hs with
  | invoke i c hi => exact ⟨Function.update_of_ne hj .., fun _ h => h⟩
  | ret i sp c k r hi => exact ⟨Function.update_of_ne hj .., fun _ h => h⟩
  | exec i sp c k n pc hi =>
      exact ⟨Function.update_of_ne hj .., fun _ h => h.events_of_ne (Ne.symm hj) _⟩

/-- The counters of the simulator are not touched by the machine. -/
theorem metrics_of_step {l : Label Tid} (hs : step t s l = some s') :
    s'.mem.metrics.totalTransactions = s.mem.metrics.totalTransactions ∧
      s'.mem.metrics.successfulLocks = s.mem.metrics.successfulLocks ∧
      s'.mem.metrics.failedLocks = s.mem.metrics.failedLocks := by
  cases move_of_step hs with
  | invoke i c hi => exact ⟨rfl, rfl, rfl⟩
  | ret i sp c k r hi => exact ⟨rfl, rfl, rfl⟩
  | exec i sp c k n pc hi => cases (pc.exec t s.mem c.userId n sp).1 <;> exact ⟨rfl, rfl, rfl⟩

variable [Fintype Tid] {threadId : Tid → ℤ} {S : Simulation Tid}

namespace Simulation.Disciplined

/-- A `fetch_add` on the metrics keeps the discipline. -/
theorem counted (h : S.Disciplined t threadId) {metrics : Metrics} {next : Phase}
    (hnext : next.Fits t (threadId i) i S.machine.hist (S.machine.thread i))
    (htally : metrics.successfulLocks + metrics.failedLocks -
        (S.machine.mem.metrics.successfulLocks + S.machine.mem.metrics.failedLocks) +
        (next.owed - (S.phase i).owed) =
      metrics.totalTransactions - S.machine.mem.metrics.totalTransactions) :
    (S.counted i metrics next).Disciplined t threadId where
  sound := ⟨h.sound.lockState, h.sound.fits, h.sound.acquired, h.sound.sole, h.sound.up,
    h.sound.down⟩
  custody := ⟨h.custody.user_eq, h.custody.locked_iff, h.custody.unique, h.custody.claims,
    h.custody.not_restoring, h.custody.owner⟩
  recorded := ⟨h.recorded.stored, h.recorded.cleared⟩
  resolved := ⟨h.resolved.calls, h.resolved.returned, h.resolved.idle⟩
  phase := (Function.forall_update_iff _ fun j p =>
    Phase.Fits t (threadId j) j S.machine.hist (S.machine.thread j) p).2
    ⟨hnext, fun j _ => h.phase j⟩
  unlocked := h.unlocked
  metrics := by
    simp only [Simulation.counted, Function.comp_update]
    exact h.metrics.step i _ htally

/-- A step of the machine keeps the discipline. -/
theorem advance (h : S.Disciplined t threadId) (l : Label Tid) (hown : OwnUser threadId l)
    (hs : step t S.machine l = some s') {next : Phase}
    (hnext : next.Fits t (threadId l.tid) l.tid s'.hist (s'.thread l.tid))
    (howed : next.owed = (S.phase l.tid).owed) :
    Simulation.Disciplined t threadId ⟨s', Function.update S.phase l.tid next⟩ where
  sound := (sound_custody_step ⟨h.sound, h.custody⟩ hown (h.byHolder l) hs).1
  custody := (sound_custody_step ⟨h.sound, h.custody⟩ hown (h.byHolder l) hs).2
  recorded := h.recorded.step h.custody (h.sparesOwners l) hs
  resolved := h.resolved.step hs
  phase := by
    refine (Function.forall_update_iff _ fun j p =>
      Phase.Fits t (threadId j) j s'.hist (s'.thread j) p).2 ⟨hnext, fun j hj => ?_⟩
    obtain ⟨hthread, hholds⟩ := frame_of_step hs hj
    rw [hthread]
    exact (h.phase j).mono hholds
  unlocked i c k r hr hop := by
    cases move_of_step hs with
    | invoke j c' hj =>
        exact h.unlocked i c k r ((List.mem_cons.1 hr).resolve_left nofun) hop
    | ret j sp c' k' r' hj =>
        rcases List.mem_cons.1 hr with heq | hr
        · cases heq
          exact h.returning hj hop
        · exact h.unlocked i c k r hr hop
    | exec j sp c' k' n pc hj =>
        exact h.unlocked i c k r ((List.mem_append.1 hr).resolve_left ret_not_mem_events) hop
  metrics := by
    obtain ⟨h₁, h₂, h₃⟩ := metrics_of_step hs
    simp only [h₁, h₂, h₃, Function.comp_update]
    exact h.metrics.step _ _ (by simp [howed])

/-- A tick of a thread inside a call goes on with the call, or returns from it. -/
theorem tick (h : S.Disciplined t threadId) {c : Call} {sp : Bool}
    (hcall : (S.machine.thread i).Carries t i S.machine.hist c)
    (hs : step t S.machine (.tick i sp) = some s') :
    ((∃ k n pc, S.machine.thread i = .running c k n pc) ∧ (s'.thread i).Carries t i s'.hist c) ∨
      ∃ k r, S.machine.thread i = .returning c k r ∧ s'.thread i = .idle ∧
        s'.hist = .ret i c k r :: S.machine.hist := by
  cases move_of_step hs with
  | ret _ _ c' k r hi =>
      rw [hi] at hcall
      obtain ⟨rfl, -⟩ := hcall
      exact .inr ⟨k, r, hi, Function.update_self .., rfl⟩
  | exec _ _ c' k n pc hi =>
      rw [hi] at hcall
      obtain ⟨rfl, -⟩ := hcall
      refine .inl ⟨⟨k, n, pc, hi⟩, ?_⟩
      simp only [Function.update_self]
      exact h.exec sp hi

/-- **Every step of the simulation keeps the discipline.** -/
theorem step {sp : Bool} {S' : Simulation Tid} (h : S.Disciplined t threadId)
    (hs : simulateTransactions t threadId S i sp = some S') : S'.Disciplined t threadId := by
  have hphase := h.phase i
  unfold simulateTransactions at hs
  cases hp : S.phase i with
  | count targets =>
      rw [hp] at hs hphase
      cases targets with
      | nil => cases hs
      | cons target rest =>
          cases hs
          exact h.counted hphase (by simp [hp, Phase.owed])
  | countSuccess target rest =>
      rw [hp] at hs hphase
      cases hs
      exact h.counted hphase (by simp [hp, Phase.owed])
  | countFailure rest =>
      rw [hp] at hs hphase
      cases hs
      exact h.counted hphase (by simp [hp, Phase.owed])
  | callLock target rest =>
      rw [hp] at hs hphase
      obtain ⟨s', hs', rfl⟩ := Option.map_eq_some_iff.1 hs
      refine h.advance (.invoke i ⟨.lock, target, threadId i⟩) rfl hs' ?_
        (by simp [Label.tid, hp, Phase.owed])
      cases move_of_step hs' with
      | invoke _ _ hi =>
          simp only [Label.tid, Function.update_self]
          exact carries_enter_lock hphase.2 _
  | callUnlock target rest =>
      rw [hp] at hs hphase
      obtain ⟨s', hs', rfl⟩ := Option.map_eq_some_iff.1 hs
      refine h.advance (.invoke i ⟨.unlock, target, threadId i⟩) rfl hs' ?_
        (by simp [Label.tid, hp, Phase.owed])
      obtain ⟨-, n, hn, hholds⟩ := hphase
      cases move_of_step hs' with
      | invoke _ _ hi =>
          simp only [Label.tid, Function.update_self]
          exact carries_enter_unlock hn hholds _
  | inLock target rest =>
      rw [hp] at hs hphase
      obtain ⟨s', hs', rfl⟩ := Option.map_eq_some_iff.1 hs
      rcases h.tick hphase hs' with ⟨⟨k, n, pc, hi⟩, hcall⟩ | ⟨k, r, hi, hidle, hhist⟩
      · rw [hi]
        exact h.advance (.tick i sp) trivial hs' hcall (by simp [Label.tid, hp, Phase.owed])
      · rw [hi] at hphase ⊢
        refine h.advance (.tick i sp) trivial hs' ?_ ?_
        · cases r <;> exact ⟨hidle, by rw [hhist]; exact hphase.2⟩
        · cases r <;> simp [Label.tid, hp, Phase.owed]
  | inUnlock target rest =>
      rw [hp] at hs hphase
      obtain ⟨s', hs', rfl⟩ := Option.map_eq_some_iff.1 hs
      rcases h.tick hphase hs' with ⟨⟨k, n, pc, hi⟩, hcall⟩ | ⟨k, r, hi, hidle, hhist⟩
      · rw [hi]
        exact h.advance (.tick i sp) trivial hs' hcall (by simp [Label.tid, hp, Phase.owed])
      · obtain rfl := h.returning hi rfl
        rw [hi] at hphase ⊢
        refine h.advance (.tick i sp) trivial hs' ⟨hidle, ?_⟩ (by simp [Label.tid, hp, Phase.owed])
        rw [hhist]
        exact hphase.2

end Simulation.Disciplined

end Steps

/-! ### The end of a simulation -/

section Run

variable [Fintype Tid] {adds : List NodeSpec} {targets : Tid → List String} {threadId : Tid → ℤ}
  {s : Simulation Tid}

/-- The simulation begins with empty hands and all metrics zero. -/
theorem disciplined_start (adds : List NodeSpec) (targets : Tid → List String)
    (threadId : Tid → ℤ) :
    (Simulation.start adds targets).Disciplined (AtomicPaymentTree.build adds).shape threadId where
  sound := sound_start adds
  custody := custody_start adds
  recorded := recorded_start _
  resolved := resolved_start
  phase i := ⟨rfl, fun y => ⟨fun h => h.elim, nofun⟩⟩
  unlocked i c k r hr := by cases hr
  metrics := by
    simp [Tallied, Simulation.start, Atomic.start, build_metrics, Phase.owed]

/-- **Between transactions nothing is left behind**: when every thread stands at the head of
its loop, every node is as the constructor left it. -/
theorem Simulation.Disciplined.fresh {t : TreeShape} (h : s.Disciplined t threadId)
    (hhead : ∀ i, ∃ targets, s.phase i = .count targets) (n : ℕ) :
    s.machine.mem.node n = .fresh := by
  have hphase (i : Tid) : s.machine.thread i = .idle ∧ HoldsOnly i none s.machine.hist := by
    obtain ⟨targets, hi⟩ := hhead i
    have hfits := h.phase i
    rwa [hi] at hfits
  have hfree (x : ℕ) : (s.machine.mem.node x).lockState ≠ 1 := fun hlocked => by
    obtain ⟨i, hi⟩ := (h.custody.locked_iff x).1 hlocked
    cases ((hphase i).2 x).1 hi
  have hflag : s.machine.mem.flag = fun _ => false := funext fun x => by
    simp [Memory.flag, hfree x]
  obtain ⟨hanc, hdesc⟩ := h.sound.exact_of_idle (fun i => (hphase i).1) n
  have hstate := (h.sound.lockState n).resolve_right (hfree n)
  have howner := h.custody.lockedBy_of_idle (fun i => (hphase i).1) (hfree n)
  rw [hflag] at hanc hdesc
  cases hn : s.machine.mem.node n with
  | mk lockState lockedBy ancestorLockedCount descendantLockedCount =>
      rw [hn] at hanc hdesc hstate howner
      simp_all [AtomicTreeNode.fresh, Forest.countAbove, Forest.countBelow]

variable [DecidableEq Tid]

theorem SimulationRun.disciplined (h : SimulationRun threadId s adds targets) :
    s.Disciplined (AtomicPaymentTree.build adds).shape threadId := by
  unfold SimulationRun at h
  refine h.invariant ?_ ?_
  · exact disciplined_start adds targets threadId
  · exact fun s₁ l s₂ _ hd _ hs => hd.step hs

/-- **A simulation leaves no trace.**  Whatever the ids, the targets and the
interleaving: every `unlock` returns true, and when all threads have finished every
node is as the constructor left it and every transaction has been counted as a
success or as a failure. -/
theorem simulation_leaves_no_trace (h : SimulationRun threadId s adds targets) :
    (∀ i c k r, .ret i c k r ∈ s.machine.hist → c.op = .unlock → r = true) ∧
      ((∀ i, s.phase i = .count []) →
        (∀ n, (s.machine.mem.node n).lockState = 0 ∧ (s.machine.mem.node n).lockedBy = -1 ∧
          (s.machine.mem.node n).ancestorLockedCount = 0 ∧
          (s.machine.mem.node n).descendantLockedCount = 0) ∧
        s.machine.mem.metrics.totalTransactions =
          s.machine.mem.metrics.successfulLocks + s.machine.mem.metrics.failedLocks) := by
  have hd := h.disciplined
  refine ⟨hd.unlocked, fun hend => ⟨fun n => ?_, ?_⟩⟩
  · rw [hd.fresh (fun i => ⟨[], hend i⟩) n]
    exact ⟨rfl, rfl, rfl, rfl⟩
  · exact (hd.metrics.eq_of_zero fun i => by simp [hend i, Phase.owed]).symm

/-- Two threads with the same id: while the first has `Left` locked, the second fails
on `Root` and on `Left`. -/
theorem simulation_leaves_no_trace_shared :
    ∃ s : Simulation (Fin 2),
      SimulationRun (fun _ => 0) s smallTree
        (fun i => if i = 0 then ["Left"] else ["Root", "Left"]) ∧
      (∀ i, s.phase i = .count []) ∧ s.machine.mem.metrics.failedLocks = 2 ∧
      s.machine.mem.metrics.successfulLocks = 1 ∧
      s.machine.mem.metrics.totalTransactions = 3 ∧ ∀ n, (s.machine.mem.node n).lockState = 0 := by
  obtain ⟨s, hs, hp⟩ := simulationRun_of_exec (fun _ => 0) smallTree
    (fun i : Fin 2 => if i = 0 then ["Left"] else ["Root", "Left"])
    (List.replicate 12 (0, false) ++ List.replicate 13 (1, false) ++ List.replicate 9 (0, false))
    (fun s => decide ((∀ i, s.phase i = .count []) ∧ s.machine.mem.metrics.failedLocks = 2 ∧
      s.machine.mem.metrics.successfulLocks = 1)) (by decide +kernel)
  obtain ⟨hend, hfailed, hsuccess⟩ := of_decide_eq_true hp
  obtain ⟨hclean, htotal⟩ := (simulation_leaves_no_trace hs).2 hend
  exact ⟨s, hs, hend, hfailed, hsuccess, by omega, fun n => (hclean n).1⟩

end Run

end Atomic
end PaymentGateway
