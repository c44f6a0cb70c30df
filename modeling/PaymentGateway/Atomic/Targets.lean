/-
# What a simulation can lock

`simulateTransactions` locks nothing but its targets.  A thread works through its list
from the front, so what it has still to do is always an end of the list it began with
(`SimulationRun.pending_suffix`); and the node it holds is that of the transaction it is
in.  Every locked node therefore is the current target of a thread, and this thread alone
holds it (`SimulationRun.locked`).
-/

import PaymentGateway.Atomic.Simulator

namespace PaymentGateway
namespace Atomic

open Lib

variable {Tid : Type} {t : TreeShape}

/-- The targets that are not done with, from the one of the current transaction on. -/
def Phase.pending : Phase → List String
  | .count targets => targets
  | .callLock target rest | .inLock target rest | .countSuccess target rest
  | .callUnlock target rest | .inUnlock target rest => target :: rest
  | .countFailure rest => rest

/-! ### Steps -/

section Steps

variable [DecidableEq Tid] {threadId : Tid → ℤ} {i j : Tid} {S S' : Simulation Tid} {sp : Bool}

/-- A thread that has finished its loop is at its end. -/
theorem simulateTransactions_finished (hi : S.phase i = .count []) :
    simulateTransactions t threadId S i sp = none := by
  rw [simulateTransactions, hi]

/-- **A step moves one thread**, which either goes on with its transaction or has done with
it. -/
theorem phase_of_step (hs : simulateTransactions t threadId S i sp = some S') :
    ∃ p : Phase, S'.phase = Function.update S.phase i p ∧ p.pending <:+ (S.phase i).pending := by
  have hadvance {l : Label Tid} {next : Phase} (h : S.advance t i l next = some S') :
      S'.phase = Function.update S.phase i next := by
    obtain ⟨s', -, rfl⟩ := Option.map_eq_some_iff.1 h
    rfl
  unfold simulateTransactions at hs
  cases hp : S.phase i with
  | count targets =>
      rw [hp] at hs
      cases targets with
      | nil => cases hs
      | cons target rest =>
          cases hs
          exact ⟨_, rfl, List.suffix_rfl⟩
  | countSuccess target rest | countFailure rest =>
      rw [hp] at hs
      cases hs
      exact ⟨_, rfl, List.suffix_rfl⟩
  | callLock target rest | callUnlock target rest =>
      rw [hp] at hs
      exact ⟨_, hadvance hs, List.suffix_rfl⟩
  | inLock target rest | inUnlock target rest =>
      rw [hp] at hs
      refine ⟨_, hadvance hs, ?_⟩
      split
      all_goals first
        | exact List.suffix_rfl
        | exact List.suffix_cons ..

theorem phase_of_ne (hs : simulateTransactions t threadId S i sp = some S') (hij : j ≠ i) :
    S'.phase j = S.phase j := by
  obtain ⟨p, hp, -⟩ := phase_of_step hs
  rw [hp, Function.update_of_ne hij]

/-- The list of what a thread has to do gets shorter from the front. -/
theorem pending_suffix_of_step (hs : simulateTransactions t threadId S i sp = some S') (j : Tid) :
    (S'.phase j).pending <:+ (S.phase j).pending := by
  obtain ⟨p, hp, hsuffix⟩ := phase_of_step hs
  rw [hp]
  by_cases hij : j = i
  · subst hij
    rwa [Function.update_self]
  · rw [Function.update_of_ne hij]

/-- **What a step does to the machine**: it touches the metrics alone, or is a step of the
machine, in which a thread that begins a call begins a `lock` or an `unlock` of its own
target with its own id. -/
theorem machine_of_step (hs : simulateTransactions t threadId S i sp = some S') :
    (∃ metrics, S'.machine = S.machine.withMetrics metrics) ∨
      ∃ l, step t S.machine l = some S'.machine ∧ l.tid = i ∧
        ∀ j c, l = .invoke j c → c.userId = threadId j ∧ c.op ≠ .upgradeLock ∧
          c.nodeName ∈ (S.phase j).pending := by
  have hadvance {l : Label Tid} {next : Phase} (h : S.advance t i l next = some S') :
      step t S.machine l = some S'.machine := by
    obtain ⟨s', hs', rfl⟩ := Option.map_eq_some_iff.1 h
    exact hs'
  unfold simulateTransactions at hs
  cases hp : S.phase i with
  | count targets =>
      rw [hp] at hs
      cases targets with
      | nil => cases hs
      | cons target rest =>
          cases hs
          exact .inl ⟨_, rfl⟩
  | countSuccess target rest | countFailure rest =>
      rw [hp] at hs
      cases hs
      exact .inl ⟨_, rfl⟩
  | callLock target rest | callUnlock target rest =>
      rw [hp] at hs
      refine .inr ⟨_, hadvance hs, rfl, ?_⟩
      rintro j c ⟨⟩
      exact ⟨rfl, nofun, by rw [hp]; exact List.mem_cons_self ..⟩
  | inLock target rest | inUnlock target rest =>
      rw [hp] at hs
      exact .inr ⟨_, hadvance hs, rfl, nofun⟩

/-- **What is left to do is an end of the list** a thread began with. -/
theorem SimulationRun.pending_suffix {adds : List NodeSpec}
    {targets : Tid → List String} (h : SimulationRun threadId S adds targets) (i : Tid) :
    (S.phase i).pending <:+ targets i := by
  unfold SimulationRun at h
  refine h.invariant (P := fun S => (S.phase i).pending <:+ targets i) List.suffix_rfl ?_
  exact fun s₁ l s₂ _ h _ hs => (pending_suffix_of_step hs i).trans h

end Steps

/-! ### Whole simulations -/

section Run

variable [Fintype Tid] {threadId : Tid → ℤ} {adds : List NodeSpec} {targets : Tid → List String}
  {S : Simulation Tid}

/-- **The node a thread holds is that of its transaction.** -/
theorem Simulation.Disciplined.target_of_holds (h : S.Disciplined t threadId) {i : Tid} {n : ℕ}
    (hi : Holds i n S.machine.hist) :
    ∃ target rest, (S.phase i).pending = target :: rest ∧ t.getNode target = some n := by
  have hphase := h.phase i
  have hcall {target : String} {op : Op}
      (hin : (S.machine.thread i).Carries t i S.machine.hist ⟨op, target, threadId i⟩) :
      t.getNode target = some n := by
    have hnode := h.resolved.calls i
    cases hl : S.machine.thread i with
    | idle =>
        rw [hl] at hin
        exact hin.elim
    | running c k m pc =>
        rw [hl] at hin hnode
        obtain ⟨rfl, hholds⟩ := hin
        have hcarries : pc.carries m = some n := (hholds n).1 hi
        have hm : pc.carries m = none ∨ pc.carries m = some m := by
          cases pc <;> simp [Pc.carries] <;> exact (Decidable.em _).symm
        obtain rfl : m = n := by
          rcases hm with hm | hm <;> rw [hm] at hcarries
          · cases hcarries
          · exact Option.some.inj hcarries
        exact hnode.1
    | returning c k r =>
        rw [hl] at hin
        obtain ⟨rfl, hin⟩ := hin
        split at hin
        · obtain ⟨m, hm, hholds⟩ := hin
          cases (hholds n).1 hi
          exact hm
        · exact hin.elim
        · cases (hin n).1 hi
  cases hp : S.phase i with
  | count | callLock | countFailure =>
      rw [hp] at hphase
      cases (hphase.2 n).1 hi
  | countSuccess target rest | callUnlock target rest =>
      rw [hp] at hphase
      obtain ⟨-, m, hm, hholds⟩ := hphase
      cases (hholds n).1 hi
      exact ⟨target, rest, rfl, hm⟩
  | inLock target rest | inUnlock target rest =>
      rw [hp] at hphase
      exact ⟨target, rest, rfl, hcall hphase⟩

variable [DecidableEq Tid]

/-- **Only targets are locked**: a locked node is the target of the transaction of the one
thread that holds it. -/
theorem SimulationRun.locked (h : SimulationRun threadId S adds targets) {n : ℕ}
    (hn : (S.machine.mem.node n).lockState = 1) :
    ∃ i target rest, Holds i n S.machine.hist ∧ (S.phase i).pending = target :: rest ∧
      target ∈ targets i ∧ (AtomicPaymentTree.build adds).shape.getNode target = some n := by
  obtain ⟨i, hi⟩ := (h.disciplined.custody.locked_iff n).1 hn
  obtain ⟨target, rest, hpending, hget⟩ := h.disciplined.target_of_holds hi
  refine ⟨i, target, rest, hi, hpending, (h.pending_suffix i).subset ?_, hget⟩
  rw [hpending]
  exact List.mem_cons_self ..

end Run

end Atomic
end PaymentGateway
