/-
# What a call writes

The writes of a call depend on the memory it meets, and other threads change that
memory between any two of its steps.  All the same a call has only a few ways to go:
`Writes` lists them for each operation and result, as the exact sequence of its writes.

`Pc.upcoming` is what a call will write from a program counter on, until its next check;
`Pc.Made` says what it has written when it stands there.  Every step turns upcoming
writes into writes made (`exec_made`), so a call that returns has written what `Writes`
says, in whatever interleaving (`call_writes`).  In particular the two propagations of
an operation are never torn by a failure, a refused call leaves the counters alone, and
only `upgradeLock` can return false with the counters and the owners changed.

The same account gives the price of a successful `lock` or `unlock` exactly: it has no
short way out, so it makes all its `mostSteps` steps, and two for each retry.
-/

import PaymentGateway.Atomic.Progress

namespace PaymentGateway
namespace Atomic

open Lib

variable {Tid : Type}

/-! ### The writes of an operation -/

section Writes

variable (t : TreeShape)

/-- The writes of `informAncestorsAtomic` and `informDescendantsAtomic`. -/
def informWrites (n : ℕ) (delta : ℤ) : List Access :=
  (t.ancestors n).map (.addDescendantLocked · delta) ++
    (t.descendants n).map (.addAncestorLocked · delta)

/-- The writes of an acquisition, from the winning `compare_exchange` on. -/
def acquireWrites (n : ℕ) (userId : ℤ) : List Access :=
  .setLockState n 1 :: .setLockedBy n userId :: informWrites t n 1

/-- The writes of one round of the release loop of `upgradeLock`. -/
def releaseWrites (d : ℕ) : List Access :=
  .setLockState d 0 :: .setLockedBy d (-1) :: informWrites t d (-1)

/-- **The writes of a call** on the node `n`, in order, by its operation and its result. -/
def Writes (n : ℕ) (userId : ℤ) (ws : List Access) : Op → Bool → Prop
  | .lock, true => ∃ retries, ws = List.replicate retries .addCasRetries ++ acquireWrites t n userId
  | .lock, false => ∃ retries, ws = List.replicate retries .addCasRetries ∨
      ws = List.replicate retries .addCasRetries ++ [.setLockState n 1, .setLockState n 0]
  | .unlock, true => ws = .setLockedBy n (-1) :: .setLockState n 0 :: informWrites t n (-1)
  | .unlock, false => ws = [] ∨ ws = [.setLockedBy n (-1), .setLockedBy n userId, .addCasRetries]
  | .upgradeLock, result => ∃ ds : List ℕ, ds.Nodup ∧ (∀ d ∈ ds, t.IsAncestor n d) ∧
      match result with
      | true => ds ≠ [] ∧ ws = ds.flatMap (releaseWrites t) ++ acquireWrites t n userId
      | false => ws = ds.flatMap (releaseWrites t)

end Writes

/-! ### The writes so far -/

section Made

variable (t : TreeShape) (n : ℕ) (u : ℤ)

/-- What follows a propagation writes until its next check. -/
def After.upcoming : After → List Access
  | .finish => []
  | .release ds => ds.flatMap (releaseWrites t)

/-- What a call writes from here until its next check. -/
def Pc.upcoming : Pc → List Access
  | .upgradeRelease ds => ds.flatMap (releaseWrites t)
  | .upgradeClearOwner d ds =>
      .setLockedBy d (-1) :: informWrites t d (-1) ++ ds.flatMap (releaseWrites t)
  | .storeOwner => .setLockedBy n u :: informWrites t n 1
  | .informUp node delta current after =>
      (t.chain current).map (.addDescendantLocked · delta) ++
        (t.descendants node).map (.addAncestorLocked · delta) ++ after.upcoming t
  | .informDown _ delta children after =>
      (t.below children).map (.addAncestorLocked · delta) ++ after.upcoming t
  | _ => []

/-- The release loop of `upgradeLock` goes through a list of proper descendants. -/
def Releases (ws : List Access) : Prop :=
  ∃ ds : List ℕ, ds.Nodup ∧ (∀ d ∈ ds, t.IsAncestor n d) ∧ ds ≠ [] ∧
    ws = ds.flatMap (releaseWrites t)

/-- What a call has written, with the rest of the propagation it stands in. -/
def After.Made (op : Op) (ws : List Access) : After → Prop
  | .finish => Writes t n u ws op true
  | .release _ => Releases t n ws

/-- A call that stands at this program counter has made the writes `ws`. -/
def Pc.Made (op : Op) (ws : List Access) : Pc → Prop
  | .lockCas | .lockCountRetry => ∃ retries, ws = List.replicate retries .addCasRetries
  | .lockReloadAncestors | .lockReloadDescendants | .lockRollback =>
      ∃ retries, ws = List.replicate retries .addCasRetries ++ [.setLockState n 1]
  | .unlockCas | .unlockRestoreOwner => ws = [.setLockedBy n (-1)]
  | .unlockCountRetry => ws = [.setLockedBy n (-1), .setLockedBy n u]
  | .storeOwner => Writes t n u (ws ++ Pc.storeOwner.upcoming t n u) op true
  | .upgradeRelease ds => Releases t n (ws ++ (Pc.upgradeRelease ds).upcoming t n u)
  | .upgradeClearOwner d ds => Releases t n (ws ++ (Pc.upgradeClearOwner d ds).upcoming t n u)
  | .upgradeCas => Releases t n ws
  | .informUp node delta current after =>
      after.Made t n u op (ws ++ (Pc.informUp node delta current after).upcoming t n u)
  | .informDown node delta children after =>
      after.Made t n u op (ws ++ (Pc.informDown node delta children after).upcoming t n u)
  | _ => ws = []

variable {t n u}

/-- A nonempty list of locked nodes that the scan has found is released as a whole. -/
theorem releases_of_scan {ds : List ℕ} (hne : ds ≠ [])
    (hcount : ∀ x, ds.count x ≤ (t.descendants n).count x) :
    Releases t n (ds.flatMap (releaseWrites t)) := by
  refine ⟨ds, ?_, fun d hd => ?_, hne, rfl⟩
  · exact List.nodup_iff_count_le_one.2 fun x =>
      (hcount x).trans (List.nodup_iff_count_le_one.1 (t.nodup_descendants n) x)
  · exact Forest.mem_descendants.1
      (List.count_pos_iff.1 ((List.count_pos_iff.2 hd).trans_le (hcount d)))

/-- An access that writes. -/
def Access.isWrite : Access → Bool
  | .read => false
  | _ => true

/-- What has been written when a step has ended as `next` says. -/
def Next.Made (op : Op) (ws : List Access) : Next → Prop
  | .goto pc => pc.Made t n u op ws
  | .finish result => Writes t n u ws op result

/-- **Every step makes the write that is due.** -/
theorem exec_made (m : Memory) (sp : Bool) {pc : Pc} {op : Op} {ws : List Access}
    (hfits : pc.Fits t op n) (h : pc.Made t n u op ws) :
    (pc.exec t m u n sp).2.Made (t := t) (n := n) (u := u) op
      (ws ++ [(pc.exec t m u n sp).1].filter Access.isWrite) := by
  revert hfits h
  fun_cases Pc.exec t m u n sp pc <;> intro hfits h <;>
    simp_all [Pc.Made, Next.Made, Pc.Fits, Pc.upcoming, After.upcoming, After.Made,
      List.filter_cons, Access.isWrite, Writes, acquireWrites, releaseWrites, informWrites,
      Forest.chain_parent, Forest.chain_some, Forest.below_cons, Forest.below_append,
      Forest.descendants_eq, -List.append_eq_nil_iff]
  -- `lock`: refused by the `compare_exchange`, retried, successful and rolled back
  case case5 =>
    obtain ⟨k, rfl⟩ := h
    exact ⟨k, .inl rfl⟩
  case case8 =>
    obtain ⟨k, rfl⟩ := h
    exact ⟨k + 1, List.replicate_succ'.symm⟩
  case case12 =>
    obtain ⟨k, rfl⟩ := h
    exact ⟨k, by simp⟩
  case case13 =>
    obtain ⟨k, rfl⟩ := h
    exact ⟨k, .inr (by simp)⟩
  -- `upgradeLock`: the ends of the scan and of the release loop
  case case26 hne =>
    exact releases_of_scan hne fun x => by
      rw [Forest.descendants_eq]
      exact hfits.2 x
  case case34 =>
    obtain ⟨ds, hnodup, hbelow, hne, rfl⟩ := h
    exact ⟨ds, hnodup, hbelow, hne, rfl⟩
  case case35 =>
    obtain ⟨ds, hnodup, hbelow, -, rfl⟩ := h
    exact ⟨ds, hnodup, hbelow, rfl⟩
  all_goals exact ⟨[], by simp⟩

/-- How many steps a call on `n` that can still succeed has made: all that are not left, and
two for each retry. -/
def Pc.Paid (op : Op) (as : List Access) : Pc → Prop
  | .lockRollback | .unlockRestoreOwner | .unlockCountRetry => True
  | .lockCountRetry => as.length + Pc.lockCountRetry.remaining t n =
      t.mostSteps n op + 2 * as.count .addCasRetries + 2
  | pc => op ≠ .upgradeLock →
      as.length + pc.remaining t n = t.mostSteps n op + 2 * as.count .addCasRetries

/-- What a call has paid when a step has ended as `next` says. -/
def Next.Paid (op : Op) (as : List Access) : Next → Prop
  | .goto pc => pc.Paid (t := t) (n := n) op as
  | .finish result => op ≠ .upgradeLock → result = true →
      as.length = t.mostSteps n op + 2 * as.count .addCasRetries

/-- **A step that does not lead to a failure is on the full path.** -/
theorem exec_paid (m : Memory) (sp : Bool) {pc : Pc} {op : Op} {as : List Access}
    (hfits : pc.Fits t op n) (h : pc.Paid (t := t) (n := n) op as) :
    (pc.exec t m u n sp).2.Paid (t := t) (n := n) op (as ++ [(pc.exec t m u n sp).1]) := by
  revert hfits h
  fun_cases Pc.exec t m u n sp pc <;> intro hfits h <;>
    simp_all [Pc.Paid, Next.Paid, Pc.Fits, Pc.remaining, After.remaining, TreeShape.mostSteps,
      TreeShape.informSteps, Forest.below_cons, Forest.below_append, Forest.chain_parent,
      List.count_cons, ← Forest.descendants_eq]
  all_goals first
    | omega
    | exact fun hop => by have := h hop; omega

end Made

/-! ### The writes of a thread -/

section Machine

variable [DecidableEq Tid] {t : TreeShape} {i : Tid} {s s' s₁ : State Tid} {c : Call} {n : ℕ}

/-- The access of the thread `i` in a step. -/
def State.accesses (t : TreeShape) (i : Tid) (s : State Tid) : Label Tid → List Access
  | .invoke _ _ => []
  | .tick j spurious =>
      if j = i then
        match s.thread i with
        | .running c _ n pc => [(pc.exec t s.mem c.userId n spurious).1]
        | _ => []
      else []

/-- The accesses of the thread `i` while the threads are scheduled by `labels`. -/
def accessesOf (t : TreeShape) (i : Tid) (s : State Tid) (labels : List (Label Tid)) :
    List Access :=
  outputs (step t) (State.accesses t i) s labels

/-- The thread is in the call `c` on `n`, or back from it, and its accesses so far are what
they should be. -/
def Local.Accounts (t : TreeShape) (c : Call) (n : ℕ) (as : List Access) : Local → Prop
  | .idle => True
  | .running c' _ n' pc => c' = c ∧ n' = n ∧ pc.Fits t c.op n ∧
      pc.Made t n c.userId c.op (as.filter Access.isWrite) ∧ pc.Paid (t := t) (n := n) c.op as
  | .returning c' _ result => c' = c ∧
      Writes t n c.userId (as.filter Access.isWrite) c.op result ∧
      (c.op ≠ .upgradeLock → result = true →
        as.length = t.mostSteps n c.op + 2 * as.count .addCasRetries)

theorem accounts_enter (hn : t.getNode c.nodeName = some n) (k : ℕ) :
    (Local.enter t c k).Accounts t c n [] := by
  unfold Local.enter
  rw [hn]
  refine ⟨rfl, rfl, ?_⟩
  cases c.op <;> simp [Pc.entry, Pc.Fits, Pc.Made, Pc.Paid, Pc.remaining, TreeShape.mostSteps]

/-- Every step of the machine keeps the account of a thread that begins no new call. -/
theorem accounts_step {as : List Access} {l : Label Tid} (hbegins : l.begins i = false)
    (h : (s.thread i).Accounts t c n as) (hs : step t s l = some s') :
    (s'.thread i).Accounts t c n (as ++ s.accesses t i l) := by
  cases move_of_step hs with
  | invoke j d hj =>
      have hne : i ≠ j := by simpa [Label.begins, eq_comm] using hbegins
      simpa [State.accesses, Function.update_of_ne hne] using h
  | ret j sp d k r hj =>
      by_cases hij : j = i
      · subst hij
        simp [Local.Accounts]
      · simpa [State.accesses, hij, Function.update_of_ne (Ne.symm hij)] using h
  | exec j sp d k y pc hj =>
      by_cases hij : j = i
      · subst hij
        rw [hj] at h
        obtain ⟨rfl, rfl, hfits, hmade, hpaid⟩ := h
        have hwrote := exec_made s.mem sp hfits hmade
        have hcost := exec_paid (u := d.userId) s.mem sp hfits hpaid
        rw [← List.filter_append] at hwrote
        simp only [State.accesses, if_true, hj, Function.update_self]
        cases hnext : (pc.exec t s.mem d.userId y sp).2 with
        | goto pc' =>
            rw [hnext] at hwrote hcost
            exact ⟨rfl, rfl, exec_fits hfits hnext, hwrote, hcost⟩
        | finish r =>
            rw [hnext] at hwrote hcost
            exact ⟨rfl, hwrote, hcost⟩
      · simpa [State.accesses, hij, Function.update_of_ne (Ne.symm hij)] using h

/-- **What a call writes**, whatever the other threads do meanwhile.  When a call on the
node `n` comes back, its writes are, in order, one of the sequences of `Writes` for its
operation and its result; and a `lock` or an `unlock` that returns true has made `mostSteps`
steps, and two for each retry it has counted in `casRetries`. -/
theorem call_writes {labels : List (Label Tid)} {c' : Call} {k : ℕ} {result : Bool}
    (hn : t.getNode c.nodeName = some n) (hbegin : step t s (.invoke i c) = some s₁)
    (hrun : exec (step t) (fun _ l => l.begins i = false) s₁ labels = some s')
    (hret : s'.thread i = .returning c' k result) :
    let as := accessesOf t i s₁ labels
    c' = c ∧ Writes t n c.userId (as.filter Access.isWrite) c.op result ∧
      (c.op ≠ .upgradeLock → result = true →
        as.length = t.mostSteps n c.op + 2 * as.count .addCasRetries) := by
  intro as
  have hthread : s₁.thread i = .enter t c s.hist.length := by
    cases move_of_step hbegin with
    | invoke => exact Function.update_self ..
  have hinv : (s'.thread i).Accounts t c n (accessesOf t i s₁ labels) :=
    outputs_invariant (P := fun as s => (s.thread i).Accounts t c n as) hrun
      (by rw [hthread]; exact accounts_enter hn _) fun as s l s' h hb hs => accounts_step hb h hs
  rwa [hret] at hinv

/-- Thread 1 locks `Root` between the checks of thread 0 on `Left` and its exchange, which
fails spuriously once: thread 0 wins `Left` and rolls back. -/
theorem call_writes_rollback :
    ∃ s s' : State (Fin 2), ∃ labels : List (Label (Fin 2)),
      step (TreeShape.build smallTree)
        (after smallTree twoUsers [.invoke 1 ⟨.lock, "Root", 1⟩])
        (.invoke 0 ⟨.lock, "Left", 0⟩) = some s ∧
      exec (step (TreeShape.build smallTree)) (fun _ l => l.begins 0 = false) s labels = some s' ∧
      s'.thread 0 = .returning ⟨.lock, "Left", 0⟩ 1 false ∧ (s'.mem.node 0).lockState = 1 ∧
      Writes (TreeShape.build smallTree) 1 0 ((accessesOf (TreeShape.build smallTree) 0 s
        labels).filter Access.isWrite) .lock false ∧
      (accessesOf (TreeShape.build smallTree) 0 s labels).filter Access.isWrite =
        [.addCasRetries, .setLockState 1 1, .setLockState 1 0] := by
  have hany : ((step (TreeShape.build smallTree)
      (after smallTree twoUsers [.invoke 1 ⟨.lock, "Root", 1⟩])
      (.invoke 0 ⟨.lock, "Left", 0⟩)).bind fun s₁ : State (Fin 2) =>
        (exec (step (TreeShape.build smallTree)) (fun _ l => l.begins 0 = false) s₁
          (turns 0 2 ++ turns 1 10 ++ [.tick 0 true] ++ turns 0 4)).map fun s' => (s₁, s')).any
        (fun p => decide (p.2.thread 0 = .returning ⟨.lock, "Left", 0⟩ 1 false ∧
          (p.2.mem.node 0).lockState = 1 ∧
          (accessesOf (TreeShape.build smallTree) 0 p.1
            (turns 0 2 ++ turns 1 10 ++ [.tick 0 true] ++ turns 0 4)).filter Access.isWrite =
              [.addCasRetries, .setLockState 1 1, .setLockState 1 0])) = true := by
    decide +kernel
  obtain ⟨⟨s₁, s'⟩, hs', hp⟩ := (Option.any_eq_true _ _).1 hany
  obtain ⟨_, hbegin, hmap⟩ := Option.bind_eq_some_iff.1 hs'
  obtain ⟨_, hrun, heq⟩ := Option.map_eq_some_iff.1 hmap
  obtain ⟨rfl, rfl⟩ := Prod.mk.inj heq
  obtain ⟨hret, hroot, hwrites⟩ := of_decide_eq_true hp
  exact ⟨_, _, _, hbegin, hrun, hret, hroot,
    (call_writes (by decide +kernel) hbegin hrun hret).2.1, hwrites⟩

end Machine

end Atomic
end PaymentGateway
