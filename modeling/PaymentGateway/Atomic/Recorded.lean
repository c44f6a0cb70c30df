/-
# When the owner field names the holder

A thread that holds a node lags behind on its owner field from winning the node to
storing its id, and again from clearing the field in `unlock` to the
`compare_exchange` (`Pc.unstored`).  `Recorded` says that otherwise the field names
the holder, and that an `upgradeLock` about to clear a field has released the node.

Only one store can break this: the one by which `upgradeLock` clears the owner of a
node it has released, when the node has been taken by another thread meanwhile.
`SparesOwners` excludes it.  Runs without `upgradeLock` meet the condition by
themselves.
-/

import PaymentGateway.Atomic.Custody

namespace PaymentGateway
namespace Atomic

open Lib

variable {Tid : Type}

/-- An `upgradeLock` that is about to clear the owner of a node does not clear the id
of another thread that holds the node. -/
def SparesOwners (user : Tid → ℤ) (s : State Tid) : Label Tid → Prop
  | .invoke _ _ => True
  | .tick i _ =>
      match s.thread i with
      | .running _ _ _ (.upgradeClearOwner d _) =>
          ∀ j, Holds j d s.hist → (s.mem.node d).lockedBy = user j → j = i
      | _ => True

/-- Only an `upgradeLock` clears owners of nodes it has released. -/
theorem sparesOwners_of_lockUnlock {user : Tid → ℤ} {t : TreeShape} {s : State Tid}
    (hfits : ∀ i, (s.thread i).Fits t)
    (hops : ∀ {i c k n pc}, s.thread i = .running c k n pc → c.op ≠ .upgradeLock) (l : Label Tid) :
    SparesOwners user s l := by
  cases l with
  | invoke i c => trivial
  | tick i sp =>
      simp only [SparesOwners]
      split
      · rename_i hi
        exact absurd (fits_running hfits hi).1 (hops hi)
      · trivial

/-- Owner fields name the holders, apart from calls that lag behind. -/
structure Recorded (user : Tid → ℤ) (s : State Tid) : Prop where
  stored : ∀ i n, Holds i n s.hist → (s.thread i).unstored ≠ some n →
    (s.mem.node n).lockedBy = user i
  cleared : ∀ i n, (s.thread i).clears = some n → ¬Holds i n s.hist

section Exec

variable {t : TreeShape} {m : Memory} {u : ℤ} {n y : ℕ} {sp : Bool} {pc pc' : Pc}

/-- A call stops lagging behind on an owner by releasing the node, by storing the
owner, or in an `unlock` that finds the node free. -/
theorem exec_stored (t : TreeShape) (m : Memory) (u : ℤ) (sp : Bool) (h : pc.unstored n = some y) :
    (pc.exec t m u n sp).1 = .setLockState y 0 ∨ (pc.exec t m u n sp).1 = .setLockedBy y u ∨
      (pc = .unlockCas ∧ (m.node n).lockState ≠ 1) ∨
      ∃ pc', (pc.exec t m u n sp).2 = .goto pc' ∧ pc'.unstored n = some y := by
  revert h
  fun_cases Pc.exec t m u n sp pc <;> simp_all [Pc.unstored]
  rintro rfl
  assumption

/-- `upgradeLock` comes to clearing an owner by releasing the node. -/
theorem exec_clears_next (hnext : (pc.exec t m u n sp).2 = .goto pc') (h : pc'.clears = some y) :
    (pc.exec t m u n sp).1 = .setLockState y 0 := by
  revert hnext h
  fun_cases Pc.exec t m u n sp pc <;> intro hnext h <;>
    simp only [Next.goto.injEq, reduceCtorEq] at hnext <;> subst hnext <;>
    simp_all [Pc.clears]

end Exec

section Steps

variable {t : TreeShape} {user : Tid → ℤ} {s s' : State Tid}

theorem recorded_start (a : AtomicPaymentTree) : Recorded user (start a) :=
  ⟨fun _ _ h => h.elim, nofun⟩

section Access

variable {i : Tid} {sp : Bool} {c : Call} {k n : ℕ} {pc : Pc}

/-- The store that takes a recorded owner away from the holder `j` is made by `j`. -/
theorem Custody.exec_write (hcust : Custody user s) (hi : s.thread i = .running c k n pc)
    (hspare : SparesOwners user s (.tick i sp)) {j : Tid} {y : ℕ} {v : ℤ}
    (hj : Holds j y s.hist) (howner : (s.mem.node y).lockedBy = user j)
    (ha : (pc.exec t s.mem c.userId n sp).1 = .setLockedBy y v) : j = i := by
  rcases exec_setLockedBy ha with ⟨rfl, rfl, -⟩ | ⟨rfl, rfl, -⟩ | ⟨-, rfl, -⟩ | ⟨ds, rfl, -⟩
  · exact hcust.unique _ _ _ hj (hcust.holds_of_claims hi (List.mem_singleton.2 rfl))
  · exact hcust.unique _ _ _ hj (hcust.holds_of_claims hi (List.mem_singleton.2 rfl))
  · exact absurd trivial (hcust.running_not_restoring hi)
  · rw [SparesOwners, hi] at hspare
    exact hspare j hj howner

variable [DecidableEq Tid]

/-- The owner fields after a step: a holder that does not lag behind is recorded. -/
theorem Recorded.exec_stored (h : Recorded user s) (hcust : Custody user s)
    (hi : s.thread i = .running c k n pc) (hspare : SparesOwners user s (.tick i sp)) (j : Tid)
    (y : ℕ) (hj : Holds j y ((pc.exec t s.mem c.userId n sp).1.events i ++ s.hist))
    (hlag : (Function.update s.thread i ((pc.exec t s.mem c.userId n sp).2.toLocal c k n)
      j).unstored ≠ some y) :
    ((s.mem.apply (pc.exec t s.mem c.userId n sp).1).node y).lockedBy = user j := by
  have huser : c.userId = user i := hcust.userId_eq hi
  -- whoever has just won a node still lags behind
  have hwon : j = i → (pc.exec t s.mem c.userId n sp).1 ≠ .setLockState y 1 := by
    rintro rfl ha
    rw [Function.update_self] at hlag
    rcases exec_setLockState ha with ⟨rfl, -, -, ⟨-, hgo⟩ | ⟨-, hgo⟩⟩ | ⟨h0, -⟩
    · exact hlag (by rw [hgo]; rfl)
    · exact hlag (by rw [hgo]; rfl)
    · cases h0
  have hheld : Holds j y s.hist := holds_of_events hj hwon
  by_cases hold : (s.thread j).unstored = some y
  -- the thread stops lagging behind
  · by_cases hji : j = i
    · subst hji
      rw [Function.update_self] at hlag
      rw [hi] at hold
      rcases Atomic.exec_stored t s.mem c.userId sp hold with
        ha | ha | ⟨rfl, hfree⟩ | ⟨pc', hgo, hpc'⟩
      · rw [holds_events, ha] at hj
        exact absurd ⟨rfl, rfl⟩ hj.1
      · rw [ha, Memory.apply_lockedBy]
        exact (if_pos rfl).trans huser
      · exact absurd (hcust.locked (hcust.holds_of_claims hi (List.mem_singleton.2 rfl))) hfree
      · exact absurd (by rw [hgo]; exact hpc') hlag
    · exact absurd hold (by rwa [Function.update_of_ne hji] at hlag)
  · have howner := h.stored j y hheld hold
    by_cases hw : ∃ v, (pc.exec t s.mem c.userId n sp).1 = .setLockedBy y v
    · obtain ⟨v, ha⟩ := hw
      obtain rfl : j = i := hcust.exec_write hi hspare hheld howner ha
      rw [ha, Memory.apply_lockedBy]
      refine (if_pos rfl).trans ?_
      rw [Function.update_self] at hlag
      rcases exec_setLockedBy ha with
        ⟨rfl, -, -, hgo⟩ | ⟨-, -, rfl, -⟩ | ⟨-, -, rfl⟩ | ⟨ds, rfl, -⟩
      · exact absurd (by rw [hgo]; rfl) hlag
      · exact huser
      · exact huser
      · exact absurd hheld (h.cleared j y (by rw [hi]; rfl))
    · rw [Memory.apply_lockedBy_of_ne _ _ _ fun v ha => hw ⟨v, ha⟩]
      exact howner

end Access

variable [DecidableEq Tid] {l : Label Tid}

/-- Beginning or returning from a call stores no owner. -/
theorem Recorded.outside (h : Recorded user s) {i : Tid} {l : Local} {H : List (Event Tid)}
    (hH : ∀ j n, Holds j n H ↔ Holds j n s.hist) (hclears : l.clears = none)
    (hlag : (s.thread i).unstored = none) :
    Recorded user ⟨s.mem, Function.update s.thread i l, H⟩ := by
  refine ⟨(Function.forall_update_iff _ fun j (l : Local) => ∀ n, Holds j n H →
      l.unstored ≠ some n → (s.mem.node n).lockedBy = user j).2
        ⟨fun n hj _ => h.stored i n ((hH i n).1 hj) (by rw [hlag]; nofun),
          fun j _ n hj => h.stored j n ((hH j n).1 hj)⟩,
    (Function.forall_update_iff _ fun j (l : Local) => ∀ n, l.clears = some n → ¬Holds j n H).2
      ⟨fun n hn => ?_, fun j _ n hn hj => h.cleared j n hn ((hH j n).1 hj)⟩⟩
  rw [hclears] at hn
  cases hn

/-- **Every step keeps owners recorded**, if no `upgradeLock` clears the id of another
holder. -/
theorem Recorded.step (h : Recorded user s) (hcust : Custody user s)
    (hspare : SparesOwners user s l) (hs : Atomic.step t s l = some s') : Recorded user s' := by
  cases move_of_step hs with
  | invoke i c hi =>
      exact h.outside (fun _ _ => Iff.rfl) (Local.enter_custody t c _).2.2.1 (by rw [hi]; rfl)
  | ret i sp c k r hi => exact h.outside (fun _ _ => Iff.rfl) rfl (by rw [hi]; rfl)
  | exec i sp c k n pc hi =>
      refine ⟨h.exec_stored hcust hi hspare,
        (Function.forall_update_iff _ fun j (l : Local) => ∀ y, l.clears = some y →
          ¬Holds j y ((pc.exec t s.mem c.userId n sp).1.events i ++ s.hist)).2
            ⟨fun y hy => ?_, fun j hji y hy hH =>
              h.cleared j y hy (holds_of_events hH fun h => absurd h hji)⟩⟩
      cases hnext : (pc.exec t s.mem c.userId n sp).2 with
      | finish r =>
          rw [hnext] at hy
          cases hy
      | goto pc' =>
          rw [hnext] at hy
          rw [holds_events, exec_clears_next hnext hy]
          exact fun hH => hH.1 ⟨rfl, rfl⟩

end Steps

end Atomic
end PaymentGateway
