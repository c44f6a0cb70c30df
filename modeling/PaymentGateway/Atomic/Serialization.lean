/-
# Simulations linearize, whatever the ids

For threads with ids of their own, `lock` and `unlock` of unrelated targets linearize
(`PaymentGateway.Atomic.Linearizable`).  The server gives the same ids to the threads of
every request, and the owner check of `unlock` no longer tells them apart.  A simulation
linearizes all the same (`simulation_linearizes`): its call discipline does what the ids
do not.  A thread unlocks the node it holds and no other, so whoever comes to the owner
check holds the node, and the owner of the sequential tree is then its id, too.
-/

import PaymentGateway.Atomic.Conflicts

namespace PaymentGateway
namespace Atomic

open Lib

variable {Tid : Type}

section Explains

variable [DecidableEq Tid] {adds : List NodeSpec} {threadId : Tid → ℤ} {A : Set ℕ}
  {g : Ledger Tid Call Bool PaymentTree} {s : State Tid} {S : Simulation Tid} {i : Tid}
  {sp : Bool} {c : Call} {k n : ℕ} {pc : Pc}

/-- The metrics play no part in what has happened. -/
theorem Explains.withMetrics (h : Explains adds threadId g s) (metrics : Metrics) :
    Explains adds threadId g (s.withMetrics metrics) :=
  ⟨h.valid, h.progress, h.clock, h.completed, h.shape, h.exact, h.flag, h.owner⟩

variable [Fintype Tid]

/-- **Every access of a simulation is explained**: the sequential tree makes the call where
it takes effect.  No owner check fails, so the only call that returns false is a `lock` that
finds its node taken. -/
theorem Explains.simulated (h : Explains adds threadId g S.machine)
    (hd : S.Disciplined (AtomicPaymentTree.build adds).shape threadId)
    (hconf : Confined A S.machine) (hA : Unrelated (AtomicPaymentTree.build adds).shape A)
    (hi : S.machine.thread i = .running c k n pc) :
    let r := pc.exec (AtomicPaymentTree.build adds).shape S.machine.mem c.userId n sp
    ∃ g', Explains adds threadId g' ⟨S.machine.mem.apply r.1,
      Function.update S.machine.thread i (r.2.toLocal c k n), r.1.events i ++ S.machine.hist⟩ := by
  intro r
  obtain ⟨hop, hholds⟩ := hd.running hi
  have hfits := hd.fits hi
  have hcall := hconf.calls i
  have hname := hd.resolved.calls i
  have huser : c.userId = threadId i := hd.custody.userId_eq hi
  have hprogress : g.progress i = pc.progress c k := by
    rw [h.progress, Function.comp_apply, hi]
    rfl
  rw [hi] at hcall hname
  obtain ⟨hn, -, hpc⟩ := hcall
  have hlock := h.call_lock hconf hA hn hname.1
  have hunlock := h.call_unlock hname.1
  have hflag : g.state.flag n = decide ((S.machine.mem.node n).lockState = 1) := by
    rw [h.flag]
    rfl
  have hlocked : pc = .unlockCas → (S.machine.mem.node n).lockState = 1 := by
    rintro rfl
    exact hd.custody.locked ((hholds n).2 rfl)
  obtain ⟨hanc, hdesc⟩ := hconf.counters hd.sound hA hn
  rcases exec_takes_effect _ S.machine.mem c.userId sp k hfits hop hpc
    (hd.custody.running_not_restoring hi) hlocked hanc hdesc with
    ⟨hset, hsame⟩ | ⟨rfl, hbusy, hr⟩ | ⟨rfl, hfree, hr⟩ | ⟨hcheck, hother, -⟩ | ⟨rfl, hone, hr⟩
  · exact ⟨g, h.silent hi hset hsame⟩
  -- `lock` finds the node locked
  · simp only [r, hr]
    have hone := (hd.sound.lockState n).resolve_left hbusy
    exact ⟨_, h.refused hprogress ((hlock hfits).trans (if_pos hone))⟩
  -- `lock` wins the node
  · simp only [r, hr]
    refine ⟨_, h.settled (b := true) (n := n) (u := c.userId) (δ := 1) hprogress
      ((hlock hfits).trans (if_neg (by omega))) rfl rfl (by simp [hflag, hfree])
      (fun hb => Bool.noConfusion hb) ?_⟩
    rintro j y (⟨rfl, rfl⟩ | hj)
    · exact .inl ⟨rfl, huser⟩
    · refine .inr ⟨?_, hj⟩
      rintro rfl
      have := hd.custody.locked hj
      omega
  -- the owner check names the id of the holder, which is the thread itself
  · exact absurd (hd.passes hi hcheck) hother
  -- `unlock` releases the node
  · simp only [r, hr]
    have hheld : Holds i n S.machine.hist := (hholds n).2 rfl
    refine ⟨_, h.settled (b := false) (n := n) (u := -1) (δ := -1) hprogress
      ((hunlock hfits).trans (if_pos ⟨hone, (h.owner i n hheld).trans huser.symm⟩)) rfl rfl
      (by simp [hflag, hone]) (fun _ => rfl) ?_⟩
    rintro j y ⟨hnot, hj⟩
    refine .inr ⟨?_, hj⟩
    rintro rfl
    exact hnot ⟨hd.custody.unique i j y hheld hj, rfl⟩

end Explains

section Run

variable [Fintype Tid] [DecidableEq Tid] {threadId : Tid → ℤ} {adds : List NodeSpec}
  {targets : Tid → List String} {S : Simulation Tid}

/-- At every moment of a simulation there is a ledger that explains what has happened. -/
theorem SimulationRun.explained (h : SimulationRun threadId S adds targets)
    (hsep : Separate (AtomicPaymentTree.build adds).shape targets) :
    ∃ g, Explains adds threadId g S.machine := by
  unfold SimulationRun at h
  refine h.invariant (P := fun S => ∃ g, Explains adds threadId g S.machine)
    ⟨_, explains_start adds threadId⟩ ?_
  rintro S₁ ⟨i, sp⟩ S₂ hr ⟨g, hg⟩ - hs
  have hrun : SimulationRun threadId S₁ adds targets := hr
  rcases machine_of_step hs with ⟨metrics, heq⟩ | ⟨l, hstep, -, hl⟩
  · rw [heq]
    exact ⟨g, hg.withMetrics metrics⟩
  generalize S₂.machine = s' at hstep ⊢
  cases move_of_step hstep with
  | invoke j c hj =>
      obtain ⟨-, hop, n, -, hn⟩ := hrun.onTargets hsep hl
      exact hg.invoke hj hop hn
  | ret j sp' c k r hj => exact hg.ret hj
  | exec j sp' c k n pc hj =>
      exact hg.simulated hrun.disciplined (hrun.confined hsep) hsep.unrelated hj

/-- **Simulations linearize.**  Whenever no call is in flight in a simulation whose targets
are not above one another, the calls so far can be ordered, consistently with real time,
such that a `PaymentTree` gives each of them the result it had, and ends with the same lock
state, owner and counters of every node.  The ids may be any, and may be shared. -/
theorem simulation_linearizes (h : SimulationRun threadId S adds targets)
    (hsep : Separate (AtomicPaymentTree.build adds).shape targets)
    (hidle : ∀ i, S.machine.thread i = .idle) :
    ∃ (l : List (Operation Tid Call Bool)) (T : PaymentTree),
      Linearization PaymentTree.call (PaymentTree.build adds) T (operations S.machine.hist) l ∧
      ∀ n, (S.machine.mem.node n).lockState = (if (T.node n).isLocked then 1 else 0) ∧
        (S.machine.mem.node n).lockedBy = (T.node n).lockedBy ∧
        (S.machine.mem.node n).ancestorLockedCount = (T.node n).ancestorLockedCount ∧
        (S.machine.mem.node n).descendantLockedCount = (T.node n).descendantLockedCount := by
  obtain ⟨g, hg⟩ := h.explained hsep
  have hd := h.disciplined
  exact hg.exists_linearization hd.sound hd.custody hd.recorded hidle

/-- Two threads with the same id on the same target: the first has it when the second
comes, and both are back before the first unlocks it. -/
theorem simulation_linearizes_shared :
    ∃ (S : Simulation (Fin 2)) (l : List (Operation (Fin 2) Call Bool)) (T : PaymentTree),
      SimulationRun (fun _ => 0) S smallTree (fun _ => ["Left"]) ∧
      (∀ i, S.machine.thread i = .idle) ∧
      (operations S.machine.hist).map (fun o => (o.thread, o.result)) = [(1, false), (0, true)] ∧
      Linearization PaymentTree.call (PaymentTree.build smallTree) T
        (operations S.machine.hist) l ∧
      (T.node 1).isLocked = true := by
  obtain ⟨S, hS, hp⟩ := simulationRun_of_exec (fun _ => 0) smallTree (fun _ : Fin 2 => ["Left"])
    (List.replicate 12 (0, false) ++ List.replicate 6 (1, false))
    (fun S => decide ((∀ i, S.machine.thread i = .idle) ∧
      (S.machine.mem.node 1).lockState = 1 ∧
      (operations S.machine.hist).map (fun o => (o.thread, o.result)) =
        [(1, false), (0, true)])) (by decide +kernel)
  obtain ⟨hidle, hone, hresults⟩ := of_decide_eq_true hp
  obtain ⟨l, T, hlin, hfinal⟩ := simulation_linearizes hS (separate_of_leaves fun _ target ht =>
    ⟨1, by rw [List.mem_singleton.1 ht]; decide, by decide⟩) hidle
  refine ⟨S, l, T, hS, hidle, hresults, hlin, ?_⟩
  by_contra hfree
  rw [(hfinal 1).1, if_neg hfree] at hone
  cases hone

end Run

end Atomic
end PaymentGateway
