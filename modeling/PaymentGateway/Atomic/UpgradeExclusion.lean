/-
# When `upgradeLock` keeps ancestors and descendants apart

`lock` re-validates after it has won its node; `upgradeLock` does not (lines
176-186).  Even if all `lock` and `unlock` calls are indivisible (`Indivisible`),
another thread can lock a descendant that the scan has passed, or an ancestor that
was checked, before the final `compare_exchange` on the target; afterwards a node
and its proper ancestor are both locked (`upgradeLock_misses_lock`).

The window is all that goes wrong.  What was locked before the call began, the call
deals with: the scan collects every locked descendant, or refuses; the release loop
releases what was collected; and an ancestor cannot be locked while the call has
something to release (`Pc.Swept`).  So two conditions are enough for no node to be
ever locked together with a proper ancestor (`upgradeLock_exclusive`):
* a final `compare_exchange` that wins meets no relative that somebody has won since
  the call began (`FindsNoNewcomer`), and
* no `lock` wins a node to whose counters an earlier acquisition has still to be
  added (`FindsCountersRaised`).
-/

import PaymentGateway.Atomic.Calls

namespace PaymentGateway
namespace Atomic

open Lib

variable {Tid : Type}

/-- The thread is inside a `lock` or an `unlock`. -/
def Local.InLockUnlock : Local → Prop
  | .running c _ _ _ => c.op ≠ .upgradeLock
  | .returning c _ _ => c.op ≠ .upgradeLock
  | .idle => False

/-- While a thread is inside a `lock` or an `unlock`, no other thread steps. -/
def Indivisible (s : State Tid) (l : Label Tid) : Prop :=
  ∀ j, j ≠ l.tid → ¬(s.thread j).InLockUnlock

/-- A final `compare_exchange` of `upgradeLock` that wins finds no relative of its
target locked that was won since the call began. -/
def FindsNoNewcomer (t : TreeShape) (s : State Tid) : Label Tid → Prop
  | .invoke _ _ => True
  | .tick i _ =>
      match s.thread i with
      | .running _ k n .upgradeCas => (s.mem.node n).lockState = 0 →
          ∀ y ∈ t.ancestors n ++ t.descendants n, WonSince k y s.hist →
            (s.mem.node y).lockState ≠ 1
      | _ => True

/-- A `compare_exchange` of `lock` that wins finds both counters of its node raised by
every acquisition so far. -/
def FindsCountersRaised (t : TreeShape) (s : State Tid) : Label Tid → Prop
  | .invoke _ _ => True
  | .tick i spurious =>
      match s.thread i with
      | .running _ _ n .lockCas => (s.mem.node n).lockState = 0 → spurious = false →
          ∀ j, (s.thread j).owedUp t n ≤ 0 ∧ (s.thread j).owedDown t n ≤ 0
      | _ => True

section Decidable

variable [Fintype Tid] [DecidableEq Tid] (t : TreeShape) (s : State Tid) (l : Label Tid)

instance (l : Local) : Decidable l.InLockUnlock := by
  rcases l with _ | _ | _ <;> unfold Local.InLockUnlock <;> infer_instance

instance : Decidable (Indivisible s l) := by
  unfold Indivisible
  infer_instance

instance : Decidable (FindsNoNewcomer t s l) := by
  unfold FindsNoNewcomer
  rcases l with _ | ⟨i, _⟩
  · infer_instance
  · dsimp only
    rcases s.thread i with _ | ⟨_, _, _, _ | _⟩ | _ <;> infer_instance

instance : Decidable (FindsCountersRaised t s l) := by
  unfold FindsCountersRaised
  rcases l with _ | ⟨i, _⟩
  · infer_instance
  · dsimp only
    rcases s.thread i with _ | ⟨_, _, _, _ | _⟩ | _ <;> infer_instance

end Decidable

/-- No node is locked together with a proper ancestor. -/
def Apart (t : TreeShape) (m : Memory) : Prop :=
  ∀ a n, t.IsAncestor a n → (m.node a).lockState = 1 → (m.node n).lockState ≠ 1

/-! ### What the checks of `lock` have seen -/

def Pc.Checked (m : Memory) (n : ℕ) : Pc → Prop
  | .lockLoadDescendants => (m.node n).ancestorLockedCount ≤ 0
  | .lockCas | .lockCountRetry =>
      (m.node n).ancestorLockedCount ≤ 0 ∧ (m.node n).descendantLockedCount ≤ 0
  | _ => True

def Local.Checked (m : Memory) : Local → Prop
  | .running _ _ n pc => pc.Checked m n
  | _ => True

/-- The step of a call that is alone keeps what its checks have seen. -/
theorem exec_checked {t : TreeShape} {m : Memory} {u : ℤ} {n : ℕ} {sp : Bool} {pc pc' : Pc}
    (h : pc.Checked m n) (hnext : (pc.exec t m u n sp).2 = .goto pc') :
    pc'.Checked (m.apply (pc.exec t m u n sp).1) n := by
  revert h hnext
  fun_cases Pc.exec t m u n sp pc <;> intro h hnext <;>
    simp only [Next.goto.injEq, reduceCtorEq] at hnext <;> subst hnext <;>
    simp_all [Pc.Checked, Memory.apply]

/-- Only a `lock` is past a check of `lock`. -/
theorem Pc.checked_of_ne {t : TreeShape} {m : Memory} {n : ℕ} {op : Op} {pc : Pc}
    (hfit : pc.Fits t op n) (hop : op ≠ .lock) : pc.Checked m n := by
  cases pc <;> simp_all [Pc.Fits, Pc.Checked]

/-! ### What the scan and the release loop of `upgradeLock` have dealt with -/

/-- The descendants that `upgradeLock` has still to release after a propagation. -/
def After.pending : After → List ℕ
  | .finish => []
  | .release ds => ds

/-- The propagation belongs to the release loop. -/
def After.Releasing : After → Prop
  | .finish => False
  | .release _ => True

/-- The descendants of its target that `upgradeLock` has still to look at or to release. -/
def Pc.pending (t : TreeShape) : Pc → List ℕ
  | .upgradeScan bfs ds => t.below bfs ++ ds
  | .upgradeLoadOwner current bfs ds => t.below (current :: bfs) ++ ds
  | .upgradeRelease ds | .upgradeClearOwner _ ds => ds
  | .informUp _ _ _ after | .informDown _ _ _ after => after.pending
  | _ => []

/-- From the beginning of the release loop to the final `compare_exchange`. -/
def Pc.Releasing : Pc → Prop
  | .upgradeRelease _ | .upgradeClearOwner _ _ | .upgradeCas => True
  | .informUp _ _ _ after | .informDown _ _ _ after => after.Releasing
  | _ => False

/-- From the beginning of the scan to the final `compare_exchange`. -/
def Pc.Scanning : Pc → Prop
  | .upgradeScan _ _ | .upgradeLoadOwner _ _ _ => True
  | pc => pc.Releasing

/-- Apart from the nodes in `won`, the locked descendants of the target are pending,
and once the release loop has begun no ancestor is locked. -/
def Pc.Swept (t : TreeShape) (m : Memory) (won : ℕ → Prop) (n : ℕ) (pc : Pc) : Prop :=
  (pc.Scanning → ∀ y, t.IsAncestor n y → (m.node y).lockState = 1 → won y ∨ y ∈ pc.pending t) ∧
    (pc.Releasing → ∀ y, t.IsAncestor y n → (m.node y).lockState = 1 → won y)

def Local.Swept (t : TreeShape) (m : Memory) (H : List (Event Tid)) : Local → Prop
  | .running _ k n pc => pc.Swept t m (fun y => WonSince k y H) n
  | _ => True

section Exec

variable {t : TreeShape} {m : Memory} {u : ℤ} {n : ℕ} {sp : Bool} {pc pc' : Pc}

/-- The scan and the release loop lose no locked descendant. -/
theorem exec_swept_below {won : ℕ → Prop}
    (h : pc.Scanning → ∀ y, t.IsAncestor n y → (m.node y).lockState = 1 → won y ∨ y ∈ pc.pending t)
    (hnext : (pc.exec t m u n sp).2 = .goto pc') (hpc' : pc'.Scanning) (y : ℕ)
    (hy : t.IsAncestor n y)
    (hlocked : ((m.apply (pc.exec t m u n sp).1).node y).lockState = 1) :
    won y ∨ y ∈ pc'.pending t := by
  rw [Memory.apply_lockState] at hlocked
  revert h hnext hpc' hlocked
  fun_cases Pc.exec t m u n sp pc <;> intro h hnext hpc' hlocked <;>
    simp only [Next.goto.injEq, reduceCtorEq] at hnext <;> subst hnext <;>
    simp_all [Pc.Scanning, Pc.Releasing, Pc.pending, After.Releasing, After.pending]
  · rw [← Forest.descendants_eq]
    exact .inr (Forest.mem_descendants.2 hy)
  · rename_i current bfs ds hfree
    have hne : y ≠ current := fun hyc => hfree (hyc ▸ hlocked)
    exact (h y hy hlocked).imp id (Or.imp (fun h => Forest.mem_below_next h hne) id)
  · rename_i current bfs ds hmine
    by_cases hyc : y = current
    · exact .inr (.inr (.inr hyc))
    · exact (h y hy hlocked).imp id (Or.imp (fun h => Forest.mem_below_next h hyc) .inl)
  · split at hlocked
    · cases hlocked
    · rename_i hne
      exact (h y hy hlocked).imp id fun h => h.resolve_left hne

/-- The release loop begins with something to release, and then nothing but the final
`compare_exchange` wins a node. -/
theorem exec_releasing (hnext : (pc.exec t m u n sp).2 = .goto pc') (h : pc'.Releasing) :
    (pc.Releasing ∨ ∃ d ds, pc = .upgradeScan [] (d :: ds)) ∧
      ∀ y, (pc.exec t m u n sp).1 ≠ .setLockState y 1 := by
  revert hnext h
  fun_cases Pc.exec t m u n sp pc <;> intro hnext h <;>
    simp only [Next.goto.injEq, reduceCtorEq] at hnext <;> subst hnext <;>
    simp_all [Pc.Releasing, After.Releasing]
  exact List.exists_cons_of_ne_nil ‹_›

/-- What has been swept stays swept when the nodes locked since count as won. -/
theorem Pc.Swept.mono {m' : Memory} {won won' : ℕ → Prop} (h : pc.Swept t m won n)
    (hwon : ∀ y, won y → won' y)
    (hlocked : ∀ y, (m'.node y).lockState = 1 → (m.node y).lockState = 1 ∨ won' y) :
    pc.Swept t m' won' n := by
  refine ⟨fun hpc y hy hl => ?_, fun hpc y hy hl => ?_⟩
  · rcases hlocked y hl with hl | hw
    · exact (h.1 hpc y hy hl).imp (hwon y) id
    · exact .inl hw
  · rcases hlocked y hl with hl | hw
    · exact hwon y (h.2 hpc y hy hl)
    · exact hw

end Exec

/-! ### Steps -/

section Steps

variable {t : TreeShape} {user : Tid → ℤ} {s s' : State Tid} {l : Label Tid}

/-- A node that is locked after a step was locked before, or counts as won. -/
theorem locked_or_wonSince {i : Tid} {a : Access} {H : List (Event Tid)} {m : Memory} {k y : ℕ}
    (hk : k ≤ H.length) (h : ((m.apply a).node y).lockState = 1) :
    (m.node y).lockState = 1 ∨ WonSince k y (a.events i ++ H) := by
  refine (Memory.locked_of_apply _ _ _ h).imp id ?_
  rintro rfl
  exact (wonSince_append hk).2 (.inl ⟨i, by simp [Access.events]⟩)

/-- The step of a call keeps its target swept: when the release loop begins, a locked
ancestor would stand above a descendant the caller holds. -/
theorem exec_swept (hapart : Apart t s.mem) (hcust : Custody user s)
    (hfits : ∀ i, (s.thread i).Fits t) {i : Tid} {sp : Bool} {c : Call} {k n : ℕ} {pc pc' : Pc}
    (hi : s.thread i = .running c k n pc) (hk : k ≤ s.hist.length)
    (h : pc.Swept t s.mem (fun y => WonSince k y s.hist) n)
    (hnext : (pc.exec t s.mem c.userId n sp).2 = .goto pc') :
    pc'.Swept t (s.mem.apply (pc.exec t s.mem c.userId n sp).1)
      (fun y => WonSince k y ((pc.exec t s.mem c.userId n sp).1.events i ++ s.hist)) n := by
  have hwon (y : ℕ) (hy : WonSince k y s.hist) :
      WonSince k y ((pc.exec t s.mem c.userId n sp).1.events i ++ s.hist) :=
    (wonSince_append hk).2 (.inr hy)
  refine ⟨fun hpc' y hy hl => ?_, fun hpc' y hy hl => ?_⟩
  · exact exec_swept_below (fun hpc y hy hl => (h.1 hpc y hy hl).imp (hwon y) id) hnext hpc' y hy hl
  · obtain ⟨hpc, hno⟩ := exec_releasing hnext hpc'
    have hl := (Memory.locked_of_apply _ _ _ hl).resolve_right (hno y)
    rcases hpc with hpc | ⟨d, ds, rfl⟩
    · exact hwon y (h.2 hpc y hy hl)
    · have hcount := (fits_running hfits hi).2 d
      have hd : d ∈ t.descendants n := List.count_pos_iff.1 (by
        rw [List.count_cons_self] at hcount
        omega)
      have hheld := hcust.holds_of_claims hi (List.mem_cons_self ..)
      exact absurd (hcust.locked hheld)
        (hapart y d (hy.trans (Forest.mem_descendants.1 hd)) hl)

variable [DecidableEq Tid]

/-- What every `upgradeLock` has dealt with stays dealt with. -/
theorem swept_step (h : ∀ i, (s.thread i).Swept t s.mem s.hist) (hapart : Apart t s.mem)
    (hcust : Custody user s) (hres : Resolved t s) (hfits : ∀ i, (s.thread i).Fits t)
    (hs : step t s l = some s') : ∀ i, (s'.thread i).Swept t s'.mem s'.hist := by
  have hmono {j : Tid} {m' : Memory} (es : List (Event Tid))
      (hlocked : ∀ k y, k ≤ s.hist.length → (m'.node y).lockState = 1 →
        (s.mem.node y).lockState = 1 ∨ WonSince k y (es ++ s.hist)) :
      (s.thread j).Swept t m' (es ++ s.hist) := by
    have hj := h j
    have hbegun := hres.calls j
    cases hl : s.thread j with
    | running c k n pc =>
        rw [hl] at hj hbegun
        exact Pc.Swept.mono hj (fun y hy => (wonSince_append hbegun.2.le).2 (.inr hy))
          fun y => hlocked k y hbegun.2.le
    | _ => trivial
  cases move_of_step hs with
  | invoke i c hi =>
      refine (Function.forall_update_iff _ fun _ => Local.Swept t _ _).2
        ⟨?_, fun j _ => hmono [.invoke i c] fun _ _ _ => .inl⟩
      unfold Local.enter
      split
      · trivial
      · cases c.op <;> exact ⟨fun h => h.elim, fun h => h.elim⟩
  | ret i sp c k r hi =>
      exact (Function.forall_update_iff _ fun _ => Local.Swept t _ _).2
        ⟨trivial, fun j _ => hmono [.ret i c k r] fun _ _ _ => .inl⟩
  | exec i sp c k n pc hi =>
      refine (Function.forall_update_iff _ fun _ => Local.Swept t _ _).2
        ⟨?_, fun j _ => hmono _ fun k' y hk => locked_or_wonSince hk⟩
      have hpc := h i
      have hbegun := hres.calls i
      rw [hi] at hpc hbegun
      cases hnext : (pc.exec t s.mem c.userId n sp).2 with
      | goto pc' => exact exec_swept hapart hcust hfits hi hbegun.2.le hpc hnext
      | finish r => trivial

/-- While one call steps, no other call depends on what its checks have seen. -/
theorem checked_step (h : ∀ i, (s.thread i).Checked s.mem) (hfits : ∀ i, (s.thread i).Fits t)
    (hind : Indivisible s l) (hs : step t s l = some s') : ∀ i, (s'.thread i).Checked s'.mem := by
  cases move_of_step hs with
  | invoke i c hi =>
      refine (Function.forall_update_iff _ fun _ => Local.Checked _).2 ⟨?_, fun j _ => h j⟩
      unfold Local.enter
      split
      · trivial
      · cases c.op <;> trivial
  | ret i sp c k r hi =>
      exact (Function.forall_update_iff _ fun _ => Local.Checked _).2 ⟨trivial, fun j _ => h j⟩
  | exec i sp c k n pc hi =>
      refine (Function.forall_update_iff _ fun _ => Local.Checked _).2 ⟨?_, fun j hj => ?_⟩
      · have hpc := h i
        rw [hi] at hpc
        cases hnext : (pc.exec t s.mem c.userId n sp).2 with
        | goto pc' => exact exec_checked hpc hnext
        | finish r => trivial
      · have halone := hind j hj
        have hfit := hfits j
        cases hl : s.thread j with
        | running c' k' n' pc' =>
            rw [hl] at halone hfit
            refine Pc.checked_of_ne hfit fun hop => halone ?_
            rw [Local.InLockUnlock, hop]
            nofun
        | _ => trivial

variable [Fintype Tid]

omit [DecidableEq Tid] in
/-- **A node that is being won has no locked relative.** -/
theorem relatives_free (hchecked : ∀ i, (s.thread i).Checked s.mem)
    (hswept : ∀ i, (s.thread i).Swept t s.mem s.hist) (hsound : Sound t s) {i : Tid} {sp : Bool}
    {c : Call} {k n y : ℕ} {pc : Pc} (hnew : FindsNoNewcomer t s (.tick i sp))
    (hraised : FindsCountersRaised t s (.tick i sp)) (hi : s.thread i = .running c k n pc)
    (ha : (pc.exec t s.mem c.userId n sp).1 = .setLockState y 1) {x : ℕ} (hx : t.Related x y) :
    (s.mem.node x).lockState ≠ 1 := by
  intro hlocked
  rcases exec_setLockState ha with ⟨rfl, -, h0, ⟨rfl, -⟩ | ⟨rfl, -⟩⟩ | ⟨h1, -⟩
  -- `lock` has seen both counters at 0, and they count every locked relative
  · have hpc := hchecked i
    rw [hi] at hpc
    obtain ⟨habove, hbelow⟩ := hpc
    have hsp : sp = false := by
      cases sp with
      | false => rfl
      | true => simp [Pc.exec, h0] at ha
    rw [FindsCountersRaised, hi] at hraised
    have howed := hraised h0 hsp
    rcases hx with hx | hx
    · have := hsound.ancestors_pos hx hlocked fun j _ => (howed j).2
      omega
    · have := hsound.descendants_pos hx hlocked fun j _ => (howed j).1
      omega
  -- `upgradeLock` has dealt with whatever was locked when it began
  · have hpc := hswept i
    rw [hi] at hpc
    rw [FindsNoNewcomer, hi] at hnew
    have hwon : WonSince k x s.hist := by
      rcases hx with hx | hx
      · exact hpc.2 trivial x hx hlocked
      · exact (hpc.1 trivial x hx hlocked).resolve_right List.not_mem_nil
    refine hnew h0 x (List.mem_append.2 ?_) hwon hlocked
    exact hx.imp Forest.mem_ancestors.2 Forest.mem_descendants.2
  · cases h1

/-- **Every step that meets the conditions keeps locked nodes apart.** -/
theorem apart_step (h : Apart t s.mem) (hchecked : ∀ i, (s.thread i).Checked s.mem)
    (hswept : ∀ i, (s.thread i).Swept t s.mem s.hist) (hsound : Sound t s)
    (hnew : FindsNoNewcomer t s l) (hraised : FindsCountersRaised t s l)
    (hs : step t s l = some s') : Apart t s'.mem := by
  cases move_of_step hs with
  | invoke i c hi => exact h
  | ret i sp c k r hi => exact h
  | exec i sp c k n pc hi =>
      intro a y hay hla hly
      rcases Memory.locked_of_apply _ _ _ hla with hla | hla <;>
        rcases Memory.locked_of_apply _ _ _ hly with hly | hly
      · exact h a y hay hla hly
      · exact relatives_free hchecked hswept hsound hnew hraised hi hly (.inl hay) hla
      · exact relatives_free hchecked hswept hsound hnew hraised hi hla (.inr hay) hly
      · rw [hla] at hly
        cases hly
        exact hay.ne rfl

end Steps

/-! ### Runs -/

section Runs

variable [Fintype Tid] [DecidableEq Tid] {adds : List NodeSpec} {user : Tid → ℤ} {s : State Tid}

/-- **When `upgradeLock` keeps locks apart.**  In a run in which `lock` and `unlock`
are indivisible, no final `compare_exchange` of `upgradeLock` that wins meets a
relative locked since the call began, and no `lock` wins a node to whose counters an
acquisition has still to be added, no node is ever locked together with a proper
ancestor, whether or not an `upgradeLock` is in flight. -/
theorem upgradeLock_exclusive (hu : DistinctUsers user)
    (h : Reaches (step (AtomicPaymentTree.build adds).shape)
      (fun s l => OwnUser user l ∧ Indivisible s l ∧
        FindsNoNewcomer (AtomicPaymentTree.build adds).shape s l ∧
        FindsCountersRaised (AtomicPaymentTree.build adds).shape s l)
      (start (AtomicPaymentTree.build adds)) s) :
    Apart (AtomicPaymentTree.build adds).shape s.mem := by
  suffices hinv : (∀ i, (s.thread i).Checked s.mem) ∧
      (∀ i, (s.thread i).Swept (AtomicPaymentTree.build adds).shape s.mem s.hist) ∧
      Apart (AtomicPaymentTree.build adds).shape s.mem from hinv.2.2
  refine h.invariant ?_ ?_
  · refine ⟨fun _ => trivial, fun _ => trivial, fun a n _ ha => ?_⟩
    rw [start, build_node] at ha
    cases ha
  · rintro s₁ l s₂ hr ⟨hchecked, hswept, hapart⟩ ⟨-, hind, hnew, hraised⟩ hs
    have hrun : OwnRun adds user s₁ := hr.mono fun _ _ h => h.1
    obtain ⟨hsound, hcust⟩ := hrun.sound_custody hu
    exact ⟨checked_step hchecked hsound.fits hind hs,
      swept_step hswept hapart hcust hrun.resolved hsound.fits hs,
      apart_step hapart hchecked hswept hsound hnew hraised hs⟩

/-- An `upgradeLock` from `Left` to `Root` leaves `Left` free. -/
theorem upgradeLock_exclusive_alone : ∃ s : State (Fin 2),
    Reaches (step (AtomicPaymentTree.build smallTree).shape)
      (fun s l => OwnUser twoUsers l ∧ Indivisible s l ∧
        FindsNoNewcomer (AtomicPaymentTree.build smallTree).shape s l ∧
        FindsCountersRaised (AtomicPaymentTree.build smallTree).shape s l)
      (start (AtomicPaymentTree.build smallTree)) s ∧
    (s.mem.node 0).lockState = 1 ∧ (s.mem.node 1).lockState ≠ 1 := by
  obtain ⟨s, hs, hp⟩ : ∃ s, Reaches (step (AtomicPaymentTree.build smallTree).shape)
      (fun s l => OwnUser twoUsers l ∧ Indivisible s l ∧
        FindsNoNewcomer (AtomicPaymentTree.build smallTree).shape s l ∧
        FindsCountersRaised (AtomicPaymentTree.build smallTree).shape s l)
      (start (AtomicPaymentTree.build smallTree)) s ∧
      decide ((s.mem.node 0).lockState = 1) = true :=
    exists_reaches_of_exec (.invoke 0 ⟨.lock, "Left", 0⟩ :: turns 0 10 ++
      .invoke 0 ⟨.upgradeLock, "Root", 0⟩ :: turns 0 5 ++ .invoke 1 ⟨.lock, "Left", 1⟩ ::
      turns 1 4 ++ turns 0 14) (by decide +kernel)
  have hroot := of_decide_eq_true hp
  exact ⟨s, hs, hroot, upgradeLock_exclusive twoUsers_distinct hs 0 1 (by decide +kernel) hroot⟩

/-- **The window.**  Thread 0 holds `Left` and upgrades to `Root`; when its scan has
passed `Right`, thread 1 locks `Right` in one go.  When both calls have returned,
`Root` and `Right` are locked. -/
theorem upgradeLock_misses_lock : ∃ s : State (Fin 2),
    Reaches (step (AtomicPaymentTree.build smallTree).shape)
      (fun s l => OwnUser twoUsers l ∧ Indivisible s l)
      (start (AtomicPaymentTree.build smallTree)) s ∧
    (∀ i, s.thread i = .idle) ∧ ¬Apart (AtomicPaymentTree.build smallTree).shape s.mem := by
  obtain ⟨s, hs, hp⟩ : ∃ s, Reaches (step (AtomicPaymentTree.build smallTree).shape)
      (fun s l => OwnUser twoUsers l ∧ Indivisible s l)
      (start (AtomicPaymentTree.build smallTree)) s ∧
      decide ((∀ i, s.thread i = .idle) ∧ (s.mem.node 0).lockState = 1 ∧
        (s.mem.node 2).lockState = 1) = true :=
    exists_reaches_of_exec (.invoke 0 ⟨.lock, "Left", 0⟩ :: turns 0 10 ++
      .invoke 0 ⟨.upgradeLock, "Root", 0⟩ :: turns 0 5 ++ .invoke 1 ⟨.lock, "Right", 1⟩ ::
      turns 1 10 ++ turns 0 14) (by decide +kernel)
  obtain ⟨hidle, hroot, hright⟩ := of_decide_eq_true hp
  exact ⟨s, hs, hidle, fun h => h 0 2 (by decide +kernel) hroot hright⟩

end Runs

end Atomic
end PaymentGateway
