/-
# When a transaction fails

The counter checks of `lock` are conservative, and in general a `lock` may be refused, or
rolled back, over a relative of its node that is being locked or unlocked.  The server and
the stress test lock leaves only.  When no target is above another (`Separate`), the
counters of the targets stay at 0 in every interleaving, so the only way to fail is the
`compare_exchange` on the node itself: another thread holds this very node, in the middle
of its own transaction (`failures_are_conflicts`).  Threads with different targets never
fail.  The ids play no part in this.
-/

import PaymentGateway.Atomic.Linearizable
import PaymentGateway.Atomic.Targets
import PaymentGateway.Atomic.Transactions

namespace PaymentGateway
namespace Atomic

open Lib

variable {Tid : Type}

/-- The nodes of all targets. -/
def targetNodes (t : TreeShape) (targets : Tid → List String) : Set ℕ :=
  {n | ∃ i, ∃ target ∈ targets i, t.getNode target = some n}

/-- The targets exist, and none is above another. -/
structure Separate (t : TreeShape) (targets : Tid → List String) : Prop where
  exist : ∀ i, ∀ target ∈ targets i, ∃ n, t.getNode target = some n
  unrelated : Unrelated t (targetNodes t targets)

/-- Leaves are not above one another. -/
theorem separate_of_leaves {t : TreeShape} {targets : Tid → List String}
    (h : ∀ i, ∀ target ∈ targets i, ∃ n, t.getNode target = some n ∧ t.children n = []) :
    Separate t targets where
  exist i target ht := (h i target ht).imp fun _ hn => hn.1
  unrelated := by
    have hleaf {n : ℕ} (hn : n ∈ targetNodes t targets) : n ∈ leaves t := by
      obtain ⟨i, target, ht, hget⟩ := hn
      obtain ⟨m, hm, hm'⟩ := h i target ht
      cases hget.symm.trans hm
      exact hm'
    exact fun a ha b hb => unrelated_leaves t a (hleaf ha) b (hleaf hb)

/-- Different threads have different targets. -/
def Private (t : TreeShape) (targets : Tid → List String) : Prop :=
  ∀ i j, i ≠ j → ∀ a ∈ targets i, ∀ b ∈ targets j, t.getNode a ≠ t.getNode b

section Run

variable [DecidableEq Tid] {threadId : Tid → ℤ} {adds : List NodeSpec}
  {targets : Tid → List String} {S S' : Simulation Tid} {i : Tid} {sp : Bool} {c : Call}
  {k n : ℕ} {pc : Pc}

/-- A call that begins is about one of the targets. -/
theorem SimulationRun.onTargets (h : SimulationRun threadId S adds targets)
    (hsep : Separate (AtomicPaymentTree.build adds).shape targets) {l : Label Tid}
    (hl : ∀ j c, l = .invoke j c → c.userId = threadId j ∧ c.op ≠ .upgradeLock ∧
      c.nodeName ∈ (S.phase j).pending) :
    OnTargets (AtomicPaymentTree.build adds).shape threadId
      (targetNodes (AtomicPaymentTree.build adds).shape targets) l := by
  cases l with
  | invoke j c =>
      obtain ⟨huser, hop, hmem⟩ := hl j c rfl
      have htarget := (h.pending_suffix j).subset hmem
      obtain ⟨n, hn⟩ := hsep.exist j _ htarget
      exact ⟨huser, hop, n, ⟨j, _, htarget, hn⟩, hn⟩
  | tick j sp => trivial

variable [Fintype Tid]

/-- **A simulation keeps to its targets.** -/
theorem SimulationRun.confined (h : SimulationRun threadId S adds targets)
    (hsep : Separate (AtomicPaymentTree.build adds).shape targets) :
    Confined (targetNodes (AtomicPaymentTree.build adds).shape targets) S.machine := by
  unfold SimulationRun at h
  refine h.invariant (P := fun S => Confined (targetNodes (AtomicPaymentTree.build adds).shape
    targets) S.machine) (confined_start adds) ?_
  rintro S₁ ⟨i, sp⟩ S₂ hr hconf - hs
  have hrun : SimulationRun threadId S₁ adds targets := hr
  rcases machine_of_step hs with ⟨metrics, heq⟩ | ⟨l, hstep, -, hl⟩
  · rw [heq]
    exact ⟨hconf.calls, hconf.locked⟩
  · exact hconf.step hrun.disciplined.sound hsep.unrelated (hrun.onTargets hsep hl) hstep

/-- **A call fails at the `compare_exchange` of `lock`, over a node held by another
thread.** -/
theorem SimulationRun.refused (h : SimulationRun threadId S adds targets)
    (hsep : Separate (AtomicPaymentTree.build adds).shape targets)
    (hs : simulateTransactions (AtomicPaymentTree.build adds).shape threadId S i sp = some S')
    (hi : S.machine.thread i = .running c k n pc)
    (hret : S'.machine.thread i = .returning c k false) :
    ∃ j, j ≠ i ∧ Holds j n S.machine.hist := by
  have hd := h.disciplined
  rcases machine_of_step hs with ⟨metrics, heq⟩ | ⟨l, hstep, rfl, -⟩
  · rw [heq] at hret
    cases hi.symm.trans hret
  generalize S'.machine = s' at hret hstep
  cases move_of_step hstep with
  | invoke j c' hj => cases hj.symm.trans hi
  | ret j sp' c' k' r hj => cases hj.symm.trans hi
  | exec j sp' c' k' n' pc' hj =>
      cases hj.symm.trans hi
      simp only [Label.tid, Function.update_self] at hret
      obtain ⟨hop, hholds⟩ := hd.running hj
      have hconf := h.confined hsep
      have hcall := hconf.calls j
      rw [hj] at hcall
      obtain ⟨hanc, hdesc⟩ := hconf.counters hd.sound hsep.unrelated hcall.1
      have hlocked : pc = .unlockCas → (S.machine.mem.node n).lockState = 1 := by
        rintro rfl
        exact hd.custody.locked ((hholds n).2 rfl)
      rcases exec_takes_effect _ S.machine.mem c.userId sp' k (hd.fits hj) hop hcall.2.2
        (hd.custody.running_not_restoring hj) hlocked hanc hdesc with
        ⟨-, hsame⟩ | ⟨rfl, hbusy, -⟩ | ⟨-, -, hr⟩ | ⟨hpc, hother, -⟩ | ⟨-, -, hr⟩
      · rw [hret] at hsame
        cases pc <;> cases hsame
      · obtain ⟨j', hj'⟩ := (hd.custody.locked_iff n).1 ((hd.sound.lockState n).resolve_left hbusy)
        refine ⟨j', ?_, hj'⟩
        rintro rfl
        cases (hholds n).1 hj'
      · rw [hr] at hret
        cases hret
      · exact absurd (hd.passes hj hpc) hother
      · rw [hr] at hret
        cases hret

/-- A call in progress is about a target of its thread. -/
theorem SimulationRun.target_of_running (h : SimulationRun threadId S adds targets)
    (hi : S.machine.thread i = .running c k n pc) :
    ∃ target ∈ targets i, (AtomicPaymentTree.build adds).shape.getNode target = some n := by
  have hd := h.disciplined
  have hphase := hd.phase i
  have hnode := hd.resolved.calls i
  rw [hi] at hphase hnode
  have hmem : c.nodeName ∈ (S.phase i).pending := by
    cases hp : S.phase i with
    | inLock target rest | inUnlock target rest =>
        rw [hp] at hphase
        rw [hphase.1]
        exact List.mem_cons_self ..
    | _ =>
        rw [hp] at hphase
        cases hphase.1
  exact ⟨c.nodeName, (h.pending_suffix i).subset hmem, hnode.1⟩

/-- No call has failed. -/
structure Unfailing (s : State Tid) : Prop where
  returning : ∀ i c k, s.thread i ≠ .returning c k false
  returned : ∀ i c k r, .ret i c k r ∈ s.hist → r = true

/-- Threads with different targets never fail. -/
theorem SimulationRun.unfailing (h : SimulationRun threadId S adds targets)
    (hsep : Separate (AtomicPaymentTree.build adds).shape targets)
    (hpriv : Private (AtomicPaymentTree.build adds).shape targets) : Unfailing S.machine := by
  unfold SimulationRun at h
  refine h.invariant (P := fun S => Unfailing S.machine) ⟨nofun, nofun⟩ ?_
  rintro S₁ ⟨i, sp⟩ S₂ hr hok - hs
  have hrun : SimulationRun threadId S₁ adds targets := hr
  rcases machine_of_step hs with ⟨metrics, heq⟩ | ⟨l, hstep, htid, hl⟩
  · rw [heq]
    exact ⟨hok.returning, hok.returned⟩
  -- a refusal would be over the node of another thread, which is one of its targets
  have hrefused {c : Call} {k n : ℕ} {pc : Pc} (hi : S₁.machine.thread i = .running c k n pc) :
      S₂.machine.thread i ≠ .returning c k false := fun hret => by
    obtain ⟨j, hj, hholds⟩ := hrun.refused hsep hs hi hret
    obtain ⟨a, ha, hget⟩ := hrun.target_of_running hi
    obtain ⟨b, rest, hpending, hget'⟩ := hrun.disciplined.target_of_holds hholds
    have hb : b ∈ targets j :=
      (hrun.pending_suffix j).subset (by rw [hpending]; exact List.mem_cons_self ..)
    exact hpriv i j hj.symm a ha b hb (hget.trans hget'.symm)
  generalize S₂.machine = s' at hstep hrefused ⊢
  cases move_of_step hstep with
  | invoke j c hj =>
      obtain ⟨-, hop, n, -, hn⟩ := hrun.onTargets hsep hl
      refine ⟨(Function.forall_update_iff _ fun _ (l : Local) => ∀ c k, l ≠ .returning c k false).2
        ⟨fun c' k => ?_, fun j' _ => hok.returning j'⟩, fun j' c' k r hret => ?_⟩
      · rw [Local.enter, hn]
        nofun
      · exact hok.returned j' c' k r ((List.mem_cons.1 hret).resolve_left nofun)
  | ret j sp' c k r hj =>
      refine ⟨(Function.forall_update_iff _ fun _ (l : Local) => ∀ c k, l ≠ .returning c k false).2
        ⟨nofun, fun j' _ => hok.returning j'⟩, fun j' c' k' r' hret => ?_⟩
      rcases List.mem_cons.1 hret with heq | hret
      · cases heq
        cases r with
        | true => rfl
        | false => exact absurd hj (hok.returning j c k)
      · exact hok.returned j' c' k' r' hret
  | exec j sp' c k n pc hj =>
      obtain rfl : j = i := htid
      refine ⟨(Function.forall_update_iff _ fun _ (l : Local) => ∀ c k, l ≠ .returning c k false).2
        ⟨fun c' k' hret => ?_, fun j' _ => hok.returning j'⟩, fun j' c' k' r hret => ?_⟩
      · obtain ⟨rfl, rfl⟩ : c = c' ∧ k = k' := by
          cases hnext : (pc.exec (AtomicPaymentTree.build adds).shape S₁.machine.mem c.userId n
            sp').2 <;> rw [hnext] at hret <;> cases hret
          exact ⟨rfl, rfl⟩
        exact hrefused hj ((Function.update_self ..).trans hret)
      · exact hok.returned j' c' k' r ((List.mem_append.1 hret).resolve_left ret_not_mem_events)

/-- **Failures are conflicts.**  In a simulation whose targets are not above one another,
whatever the ids and the interleaving: both counters of every target are 0 at all times; a
call that fails has found its node held by another thread, in the middle of a transaction on
this very node; and when no two threads have a target in common, no transaction fails. -/
theorem failures_are_conflicts (h : SimulationRun threadId S adds targets)
    (hsep : Separate (AtomicPaymentTree.build adds).shape targets) :
    (∀ n ∈ targetNodes (AtomicPaymentTree.build adds).shape targets,
      (S.machine.mem.node n).ancestorLockedCount = 0 ∧
        (S.machine.mem.node n).descendantLockedCount = 0) ∧
    (∀ i sp S' c k n pc,
      simulateTransactions (AtomicPaymentTree.build adds).shape threadId S i sp = some S' →
      S.machine.thread i = .running c k n pc → S'.machine.thread i = .returning c k false →
      ∃ j target rest, j ≠ i ∧ Holds j n S.machine.hist ∧ (S.phase j).pending = target :: rest ∧
        (AtomicPaymentTree.build adds).shape.getNode target = some n) ∧
    (Private (AtomicPaymentTree.build adds).shape targets →
      S.machine.mem.metrics.failedLocks = 0 ∧
        ∀ i c k r, .ret i c k r ∈ S.machine.hist → r = true) := by
  refine ⟨fun n hn => ?_, fun i sp S' c k n pc hs hi hret => ?_, fun hpriv => ?_⟩
  · exact (h.confined hsep).counters h.disciplined.sound hsep.unrelated hn
  · obtain ⟨j, hj, hholds⟩ := h.refused hsep hs hi hret
    obtain ⟨target, rest, hpending, hget⟩ := h.disciplined.target_of_holds hholds
    exact ⟨j, target, rest, hj, hholds, hpending, hget⟩
  · have hok := h.unfailing hsep hpriv
    refine ⟨?_, hok.returned⟩
    have hnone : S.machine.hist.countP (Event.isLockReturn false) = 0 := by
      refine List.countP_eq_zero.2 fun e he => ?_
      cases e with
      | ret i c k r => simp [Event.isLockReturn, hok.returned i c k r he]
      | _ => simp [Event.isLockReturn]
    have hcount := h.counted.failure
    have howed : 0 ≤ ∑ i, (Phase.owedFailure ∘ S.phase) i := Finset.sum_nonneg fun i _ => by
      cases hp : S.phase i <;> simp [Phase.owedFailure, hp]
    have hge := h.metrics_nonneg.failedLocks
    rw [Tallied, hnone] at hcount
    simp only at hge
    omega

/-- Two threads with the same id: on the same target, the second is about to fail over the
node of the first; on targets of their own, both succeed. -/
theorem failures_are_conflicts_left :
    (∃ (S S' : Simulation (Fin 2)) (j : Fin 2) (target : String) (rest : List String),
      SimulationRun (fun _ => 0) S smallTree (fun _ => ["Left"]) ∧
      simulateTransactions (AtomicPaymentTree.build smallTree).shape (fun _ => 0) S 1 false =
        some S' ∧
      S'.machine.thread 1 = .returning ⟨.lock, "Left", 0⟩ 3 false ∧ j ≠ 1 ∧
      Holds j 1 S.machine.hist ∧ (S.phase j).pending = target :: rest) ∧
    ∃ S : Simulation (Fin 2), SimulationRun (fun _ => 0) S smallTree
        (fun i => [if i = 0 then "Left" else "Right"]) ∧ S.machine.mem.metrics.successfulLocks = 2 ∧
      S.machine.mem.metrics.failedLocks = 0 := by
  let own : Fin 2 → String := fun i => if i = 0 then "Left" else "Right"
  have hshared : Separate (AtomicPaymentTree.build smallTree).shape fun _ : Fin 2 => ["Left"] :=
    separate_of_leaves fun _ target ht => ⟨1, by rw [List.mem_singleton.1 ht]; decide, by decide⟩
  have hown : Separate (AtomicPaymentTree.build smallTree).shape fun i => [own i] :=
    separate_of_leaves fun i target ht => by
      rw [List.mem_singleton.1 ht]
      exact ⟨(i : ℕ) + 1, (by decide : ∀ i : Fin 2,
        (AtomicPaymentTree.build smallTree).shape.getNode (own i) = some ((i : ℕ) + 1) ∧
          (AtomicPaymentTree.build smallTree).shape.children ((i : ℕ) + 1) = []) i⟩
  refine ⟨?_, ?_⟩
  · obtain ⟨S, hS, hp⟩ := simulationRun_of_exec (fun _ => 0) smallTree (fun _ : Fin 2 => ["Left"])
      (List.replicate 12 (0, false) ++ List.replicate 4 (1, false))
      (fun S => decide (S.machine.thread 1 = .running ⟨.lock, "Left", 0⟩ 3 1 .lockCas ∧
        (simulateTransactions (AtomicPaymentTree.build smallTree).shape (fun _ => 0) S 1 false).any
          (fun S' => decide (S'.machine.thread 1 = .returning ⟨.lock, "Left", 0⟩ 3 false)) = true))
      (by decide +kernel)
    obtain ⟨hi, hnext⟩ := of_decide_eq_true hp
    obtain ⟨S', hs, hret⟩ := (Option.any_eq_true _ _).1 hnext
    obtain ⟨j, target, rest, hj, hholds, hpending, -⟩ :=
      (failures_are_conflicts hS hshared).2.1 1 false S' _ 3 1 _ hs hi (of_decide_eq_true hret)
    exact ⟨S, S', j, target, rest, hS, hs, of_decide_eq_true hret, hj, hholds, hpending⟩
  · obtain ⟨S, hS, hp⟩ := simulationRun_of_exec (fun _ => 0) smallTree
      (fun i => [own i]) (List.replicate 14 [((0 : Fin 2), false), (1, false)]).flatten
      (fun S => decide (S.machine.mem.metrics.successfulLocks = 2)) (by decide +kernel)
    refine ⟨S, hS, of_decide_eq_true hp, ((failures_are_conflicts hS hown).2.2 ?_).1⟩
    intro i j hij a ha b hb
    rw [List.mem_singleton.1 ha, List.mem_singleton.1 hb]
    exact (by decide : ∀ i j : Fin 2, i ≠ j → (AtomicPaymentTree.build smallTree).shape.getNode
      (own i) ≠ (AtomicPaymentTree.build smallTree).shape.getNode (own j)) i j hij

end Run

end Atomic
end PaymentGateway
