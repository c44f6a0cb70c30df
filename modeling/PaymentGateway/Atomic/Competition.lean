/-
# Competing `lock` calls do not all abort one another

A `lock` can be refused at five places: two counters before its `compare_exchange`, the
`compare_exchange` itself, and the two counters again afterwards.  Calls that compete
for related nodes can refuse one another, and a call that rolls back can have made
another one fail; yet when one of the targets has no locked relative at the outset, some
call returns true (`some_lock_succeeds`).

The reason is the order of the source: a call adds itself to counters only after its
re-validation has passed, and from there on it cannot fail.  Until the first call has
come so far (`Decided`) all counters are as at the outset.  So a call on the free target
passes every counter check, and what its `compare_exchange` can lose to is another call
on the target that has just won it and passes its re-validation too (`Undecided`): as
soon as one call has begun on the target, one is under way there.
-/

import PaymentGateway.Atomic.DistinctUsers
import PaymentGateway.Atomic.LockUnlock

namespace PaymentGateway
namespace Atomic

open Lib

variable {Tid : Type}

/-- The calls are `lock` calls. -/
def LockOnly : Label Tid → Prop
  | .invoke _ c => c.op = .lock
  | .tick _ _ => True

instance (l : Label Tid) : Decidable (LockOnly l) := by
  rcases l with _ | _ <;> unfold LockOnly <;> infer_instance

/-- Between the `compare_exchange` of `lock` and the end of a re-validation that passes. -/
def Pc.Reloading (pc : Pc) : Prop := pc = .lockReloadAncestors ∨ pc = .lockReloadDescendants

namespace Local

/-- The call in progress is a `lock`. -/
def InLock (t : TreeShape) : Local → Prop
  | .running _ _ n pc => pc.Fits t .lock n
  | _ => True

/-- The call in progress cannot fail any more. -/
def Succeeds : Local → Prop
  | .running _ _ _ pc => pc.PastDescendants
  | .returning _ _ result => result = true
  | .idle => False

end Local

/-- Some call has returned true or cannot fail any more. -/
def Decided (s : State Tid) : Prop :=
  (∃ i, (s.thread i).Succeeds) ∨ ∃ i c k, .ret i c k true ∈ s.hist

/-- The counters of `n` show no locked relative, a call that has locked `n` re-validates,
none rolls back there, and if a call on `n` has begun, one is under way. -/
structure Undecided (t : TreeShape) (n : ℕ) (s : State Tid) : Prop where
  ancestors : (s.mem.node n).ancestorLockedCount = 0
  descendants : (s.mem.node n).descendantLockedCount = 0
  lockState : (s.mem.node n).lockState ≠ 0 → ∃ i, (s.thread i).At Pc.Reloading n
  not_rollback : ∀ i, ¬(s.thread i).At (· = .lockRollback) n
  running : ∀ i c, .invoke i c ∈ s.hist → t.getNode c.nodeName = some n →
    ∃ j, (s.thread j).At (fun _ => True) n

section Exec

variable {t : TreeShape} {m : Memory} {u : ℤ} {n y : ℕ} {sp : Bool} {pc : Pc}

/-- The propagation of a `lock` adds 1. -/
theorem After.Fits.delta_eq_one {node : ℕ} {delta : ℤ} {after : After}
    (h : after.Fits t .lock n node delta) : delta = 1 := by
  cases after with
  | finish =>
      obtain ⟨-, ⟨hdelta, -⟩ | ⟨-, hop⟩⟩ := h
      · exact hdelta
      · cases hop
  | release ds =>
      obtain ⟨-, hop, -⟩ := h
      cases hop

/-- Until its re-validation has passed, a `lock` changes no node but its own, and of that
only the lock state. -/
theorem exec_lock_access (m : Memory) (u : ℤ) (sp : Bool) (hfits : pc.Fits t .lock n)
    (hpc : ¬pc.PastDescendants) : (pc.exec t m u n sp).1 = .read ∨
      (pc.exec t m u n sp).1 = .addCasRetries ∨
      ∃ v, (pc.exec t m u n sp).1 = .setLockState n v := by
  revert hfits hpc
  fun_cases Pc.exec t m u n sp pc <;> intro hfits hpc <;>
    first
    | exact absurd hfits.1.delta_eq_one hpc
    | simp_all [Pc.Fits, Pc.PastDescendants]

/-- **A `lock` that sees no locked relative** passes its re-validation, wins its node,
loses the `compare_exchange` to whoever has locked the node, or goes on. -/
theorem exec_lock_free (u : ℤ) (sp : Bool) (hfits : pc.Fits t .lock n)
    (hpc : ¬pc.PastDescendants) (hrollback : pc ≠ .lockRollback)
    (hanc : (m.node n).ancestorLockedCount = 0) (hdesc : (m.node n).descendantLockedCount = 0) :
    (pc.exec t m u n sp).2.At Pc.PastDescendants ∨
      (pc.exec t m u n sp).2.At Pc.Reloading ∨
      ((m.node n).lockState ≠ 0 ∧ ¬pc.Reloading ∧ (pc.exec t m u n sp).2 = .finish false) ∨
      ¬pc.Reloading ∧ (pc.exec t m u n sp).2.At (· ≠ .lockRollback) ∧
        ∀ v, (pc.exec t m u n sp).1 ≠ .setLockState n v := by
  revert hfits hpc hrollback
  fun_cases Pc.exec t m u n sp pc <;> intro hfits hpc hrollback <;>
    simp_all [Pc.Fits, After.Fits, Pc.PastDescendants, Pc.Reloading, Next.At]

/-- A `lock` whose re-validation has passed returns true. -/
theorem exec_succeeds (hfits : pc.Fits t .lock n) (hpc : pc.PastDescendants) :
    (pc.exec t m u n sp).2.At Pc.PastDescendants ∨ (pc.exec t m u n sp).2 = .finish true := by
  revert hfits hpc
  fun_cases Pc.exec t m u n sp pc <;> intro hfits hpc <;>
    simp_all [Pc.Fits, After.Fits, Pc.PastDescendants, Next.At]

end Exec

/-- No access is the beginning of a call. -/
theorem invoke_not_mem_events {i j : Tid} {c : Call} {a : Access} :
    .invoke j c ∉ a.events i := by
  intro h
  obtain ⟨n, h | h⟩ := mem_events h <;> cases h

section Steps

variable [DecidableEq Tid] {t : TreeShape} {s s' : State Tid} {l : Label Tid} {n : ℕ}

theorem inLock_step (h : ∀ i, (s.thread i).InLock t) (hops : LockOnly l)
    (hs : step t s l = some s') : ∀ i, (s'.thread i).InLock t := by
  cases move_of_step hs with
  | invoke i c hi =>
      refine (Function.forall_update_iff _ fun _ (l : Local) => l.InLock t).2 ⟨?_, fun j _ => h j⟩
      unfold Local.enter
      split
      · trivial
      · rw [hops]
        rfl
  | ret i sp c k r hi =>
      exact (Function.forall_update_iff _ fun _ (l : Local) => l.InLock t).2
        ⟨trivial, fun j _ => h j⟩
  | exec i sp c k y pc hi =>
      refine (Function.forall_update_iff _ fun _ (l : Local) => l.InLock t).2 ⟨?_, fun j _ => h j⟩
      have hfits := h i
      rw [hi] at hfits
      cases hnext : (pc.exec t s.mem c.userId y sp).2 with
      | goto pc' => exact exec_fits hfits hnext
      | finish r => trivial

/-- **What is decided stays decided.** -/
theorem Decided.step (h : Decided s) (hlock : ∀ i, (s.thread i).InLock t)
    (hs : Atomic.step t s l = some s') : Decided s' := by
  -- the other threads stay where they are
  have hother {i : Tid} {l : Local} {m : Memory} {H : List (Event Tid)} {j : Tid} (hj : j ≠ i)
      (hsucc : (s.thread j).Succeeds) : Decided ⟨m, Function.update s.thread i l, H⟩ :=
    .inl ⟨j, by simpa [hj] using hsucc⟩
  cases move_of_step hs with
  | invoke i c hi =>
      rcases h with ⟨j, hj⟩ | ⟨j, c', k, hret⟩
      · refine hother ?_ hj
        rintro rfl
        rw [hi] at hj
        exact hj
      · exact .inr ⟨j, c', k, List.mem_cons_of_mem _ hret⟩
  | ret i sp c k r hi =>
      rcases h with ⟨j, hj⟩ | ⟨j, c', k', hret⟩
      · by_cases hji : j = i
        · subst hji
          rw [hi] at hj
          obtain rfl : r = true := hj
          exact .inr ⟨j, c, k, List.mem_cons_self ..⟩
        · exact hother hji hj
      · exact .inr ⟨j, c', k', List.mem_cons_of_mem _ hret⟩
  | exec i sp c k y pc hi =>
      rcases h with ⟨j, hj⟩ | ⟨j, c', k', hret⟩
      · by_cases hji : j = i
        · subst hji
          have hfits := hlock j
          rw [hi] at hfits hj
          refine .inl ⟨j, ?_⟩
          simp only [Function.update_self]
          rcases exec_succeeds hfits hj with hnext | hnext
          · cases hgo : (pc.exec t s.mem c.userId y sp).2 with
            | goto pc' =>
                rw [hgo] at hnext
                exact hnext
            | finish r =>
                rw [hgo] at hnext
                exact hnext.elim
          · rw [hnext]
            rfl
        · exact hother hji hj
      · exact .inr ⟨j, c', k', List.mem_append_right _ hret⟩

/-- Beginning or returning from a call leaves the calls on `n` that are under way. -/
theorem Undecided.outside (h : Undecided t n s) {i : Tid} {l : Local} {H : List (Event Tid)}
    (hbefore : ∀ P, ¬(s.thread i).At P n) (hafter : ¬l.At (· = .lockRollback) n)
    (hcalled : ∀ j c, .invoke j c ∈ H → .invoke j c ∈ s.hist ∨
      (t.getNode c.nodeName = some n → l.At (fun _ => True) n)) :
    Undecided t n ⟨s.mem, Function.update s.thread i l, H⟩ := by
  have hstay {P : Pc → Prop} (hj : ∃ j, (s.thread j).At P n) :
      ∃ j, (Function.update s.thread i l j).At P n := by
    obtain ⟨j, hj⟩ := hj
    refine ⟨j, at_update.2 (.inr ⟨?_, hj⟩)⟩
    rintro rfl
    exact hbefore P hj
  refine ⟨h.ancestors, h.descendants, fun hstate => hstay (h.lockState hstate), fun j hj => ?_,
    fun j c hinv hn => ?_⟩
  · rcases at_update.1 hj with ⟨-, hj⟩ | ⟨-, hj⟩
    · exact hafter hj
    · exact h.not_rollback j hj
  · rcases hcalled j c hinv with hold | hnew
    · exact hstay (h.running j c hold hn)
    · exact ⟨i, at_update.2 (.inl ⟨rfl, hnew hn⟩)⟩

section Access

variable {i : Tid} {sp : Bool} {c : Call} {k y : ℕ} {pc : Pc}

/-- A call on another node leaves everything on `n`. -/
theorem Undecided.exec_of_ne (h : Undecided t n s) (hfits : pc.Fits t .lock y)
    (hi : s.thread i = .running c k y pc) (hpc : ¬pc.PastDescendants) (hy : y ≠ n) :
    Undecided t n ⟨s.mem.apply (pc.exec t s.mem c.userId y sp).1,
      Function.update s.thread i ((pc.exec t s.mem c.userId y sp).2.toLocal c k y),
      (pc.exec t s.mem c.userId y sp).1.events i ++ s.hist⟩ := by
  have hnode : (s.mem.apply (pc.exec t s.mem c.userId y sp).1).node n = s.mem.node n := by
    rcases exec_lock_access s.mem c.userId sp hfits hpc with ha | ha | ⟨v, ha⟩
    · rw [ha]
      rfl
    · rw [ha]
      rfl
    · rw [ha]
      exact Function.update_of_ne hy.symm ..
  have hat {P : Pc → Prop} (j : Tid) : (Function.update s.thread i
      ((pc.exec t s.mem c.userId y sp).2.toLocal c k y) j).At P n ↔ (s.thread j).At P n := by
    rw [at_update, Next.at_toLocal]
    by_cases hj : j = i
    · subst hj
      simp [hi, Local.At, hy]
    · simp [hj]
  refine ⟨hnode ▸ h.ancestors, hnode ▸ h.descendants, fun hstate => ?_, fun j hj => ?_,
    fun j c' hinv hn => ?_⟩
  · obtain ⟨j, hj⟩ := h.lockState (hnode ▸ hstate)
    exact ⟨j, (hat j).2 hj⟩
  · exact h.not_rollback j ((hat j).1 hj)
  · have hinv := (List.mem_append.1 hinv).resolve_left invoke_not_mem_events
    obtain ⟨j', hj'⟩ := h.running j c' hinv hn
    exact ⟨j', (hat j').2 hj'⟩

/-- **A call on `n`** passes its re-validation, or leaves a call on `n` under way: itself,
or the one that has won `n` from it. -/
theorem Undecided.exec_self (h : Undecided t n s) (hfits : pc.Fits t .lock n)
    (hi : s.thread i = .running c k n pc) (hpc : ¬pc.PastDescendants) :
    let s' : State Tid := ⟨s.mem.apply (pc.exec t s.mem c.userId n sp).1,
      Function.update s.thread i ((pc.exec t s.mem c.userId n sp).2.toLocal c k n),
      (pc.exec t s.mem c.userId n sp).1.events i ++ s.hist⟩
    Decided s' ∨ Undecided t n s' := by
  intro s'
  have hrollback : pc ≠ .lockRollback := fun hpc =>
    h.not_rollback i (by rw [hi]; exact ⟨rfl, hpc⟩)
  have hat {P : Pc → Prop} (hnext : (pc.exec t s.mem c.userId n sp).2.At P) :
      (s'.thread i).At P n :=
    at_update.2 (.inl ⟨rfl, Next.at_toLocal.2 ⟨rfl, hnext⟩⟩)
  have hother {P : Pc → Prop} {j : Tid} (hj : (s.thread j).At P n) (hP : ¬P pc) :
      (s'.thread j).At P n := by
    refine at_update.2 (.inr ⟨?_, hj⟩)
    rintro rfl
    rw [hi] at hj
    exact hP hj.2
  have hcounts : (s'.mem.node n).ancestorLockedCount = 0 ∧
      (s'.mem.node n).descendantLockedCount = 0 := by
    rw [show s'.mem = s.mem.apply _ from rfl, Memory.apply_ancestorLockedCount,
      Memory.apply_descendantLockedCount, h.ancestors, h.descendants]
    rcases exec_lock_access s.mem c.userId sp hfits hpc with ha | ha | ⟨v, ha⟩ <;> rw [ha] <;>
      exact ⟨rfl, rfl⟩
  have hsafe (hnext : ¬(pc.exec t s.mem c.userId n sp).2.At (· = .lockRollback)) (j : Tid) :
      ¬(s'.thread j).At (· = .lockRollback) n := by
    intro hj
    rcases at_update.1 hj with ⟨-, hj⟩ | ⟨-, hj⟩
    · exact hnext (Next.at_toLocal.1 hj).2
    · exact h.not_rollback j hj
  rcases exec_lock_free c.userId sp hfits hpc hrollback h.ancestors h.descendants with
    hpass | hwon | ⟨hlocked, hnot, hlost⟩ | ⟨hnot, hgo, hkeep⟩
  · refine .inl (.inl ⟨i, ?_⟩)
    rw [show s'.thread i = _ from Function.update_self ..]
    cases hnext : (pc.exec t s.mem c.userId n sp).2 with
    | goto pc' =>
        rw [hnext] at hpass
        exact hpass
    | finish r =>
        rw [hnext] at hpass
        exact hpass.elim
  · refine .inr ⟨hcounts.1, hcounts.2, fun _ => ⟨i, hat hwon⟩,
      hsafe (hwon.disjoint fun pc' hpc' => ?_),
      fun _ _ _ _ => ⟨i, hat (hwon.mono fun _ _ => trivial)⟩⟩
    rintro rfl
    rcases hpc' with h | h <;> cases h
  · obtain ⟨j, hj⟩ := h.lockState hlocked
    have hj' := hother hj hnot
    refine .inr ⟨hcounts.1, hcounts.2, fun _ => ⟨j, hj'⟩, hsafe (by rw [hlost]; exact id),
      fun _ _ _ _ => ⟨j, hj'.mono fun _ _ => trivial⟩⟩
  · refine .inr ⟨hcounts.1, hcounts.2, fun hstate => ?_, hsafe (hgo.disjoint fun _ => id),
      fun _ _ _ _ => ⟨i, hat (hgo.mono fun _ _ => trivial)⟩⟩
    rcases Memory.apply_lockState_cases s.mem _ n with hsame | hset
    · obtain ⟨j, hj⟩ := h.lockState (hsame ▸ hstate)
      exact ⟨j, hother hj hnot⟩
    · exact absurd hset (hkeep _)

end Access

/-- **One step before the decision** either brings it, or leaves it open. -/
theorem Undecided.step (h : Undecided t n s) (hlock : ∀ i, (s.thread i).InLock t)
    (hopen : ¬Decided s) (hs : Atomic.step t s l = some s') : Decided s' ∨ Undecided t n s' := by
  cases move_of_step hs with
  | invoke i c hi =>
      refine .inr (h.outside (fun P => by rw [hi]; exact id)
        (Local.not_at_enter (by rintro ⟨⟩ <;> nofun) t c _ n) fun j c' hinv => ?_)
      rcases List.mem_cons.1 hinv with heq | hinv
      · cases heq
        refine .inr fun hn => ?_
        rw [Local.enter, hn]
        exact ⟨rfl, trivial⟩
      · exact .inl hinv
  | ret i sp c k r hi =>
      exact .inr (h.outside (fun P => by rw [hi]; exact id) id fun j c' hinv =>
        .inl ((List.mem_cons.1 hinv).resolve_left nofun))
  | exec i sp c k y pc hi =>
      have hfits := hlock i
      rw [hi] at hfits
      have hpc : ¬pc.PastDescendants := fun hpc => hopen (.inl ⟨i, by rw [hi]; exact hpc⟩)
      by_cases hy : y = n
      · subst hy
        exact h.exec_self hfits hi hpc
      · exact .inr (h.exec_of_ne hfits hi hpc hy)

end Steps

/-! ### Runs -/

/-- Every counter is the number of locked proper relatives it stands for. -/
def CountersExact (t : TreeShape) (m : Memory) : Prop :=
  ∀ n < t.size, (m.node n).ancestorLockedCount = t.countAbove m.flag n ∧
    (m.node n).descendantLockedCount = t.countBelow m.flag n

instance (t : TreeShape) (m : Memory) : Decidable (CountersExact t m) := by
  unfold CountersExact
  infer_instance

/-- **Competing `lock` calls never all abort one another.**  Threads make `lock` calls and
nothing else, from a state without calls in flight and with exact counters; one of the
calls is on an unlocked node with no locked proper ancestor or descendant.  When all the
calls have completed, however their steps were interleaved and whichever of them failed
spuriously, one has returned true. -/
theorem some_lock_succeeds [DecidableEq Tid] {t : TreeShape} {m : Memory}
    (hexact : CountersExact t m) {n : ℕ} (hfree : (m.node n).lockState = 0)
    (habove : ∀ a, t.IsAncestor a n → m.flag a = false)
    (hbelow : ∀ d, t.IsAncestor n d → m.flag d = false) {s : State Tid}
    (h : Reaches (step t) (fun _ l => LockOnly l) (start ⟨t, m⟩) s)
    (hcalled : ∃ i c, .invoke i c ∈ s.hist ∧ t.getNode c.nodeName = some n)
    (hidle : ∀ i, s.thread i = .idle) : ∃ i c k, .ret i c k true ∈ s.hist := by
  obtain ⟨i, c, hinv, hn⟩ := hcalled
  have hstart : Undecided t n (start ⟨t, m⟩ : State Tid) := by
    obtain ⟨hanc, hdesc⟩ := hexact n (TreeShape.getNode_lt hn)
    rw [Forest.countAbove_eq_zero.2 habove] at hanc
    rw [Forest.countBelow_eq_zero.2 hbelow] at hdesc
    exact ⟨hanc, hdesc, fun hstate => absurd hfree hstate, fun _ => id, nofun⟩
  have hrun : (∀ i, (s.thread i).InLock t) ∧ (Decided s ∨ Undecided t n s) := by
    refine h.invariant ⟨fun _ => trivial, .inr hstart⟩ ?_
    rintro s₁ l s₂ - ⟨hlock, hstate⟩ hops hs
    refine ⟨inLock_step hlock hops hs, ?_⟩
    by_cases hdecided : Decided s₁
    · exact .inl (hdecided.step hlock hs)
    · exact (hstate.resolve_left hdecided).step hlock hdecided hs
  rcases hrun.2 with (⟨j, hj⟩ | hret) | hopen
  · rw [hidle j] at hj
    exact hj.elim
  · exact hret
  · obtain ⟨j, hj⟩ := hopen.running i c hinv hn
    rw [hidle j] at hj
    exact hj.elim

/-- The memory of `smallTree` with `Left` locked by the user 7. -/
def leftLocked : Memory where
  node n := if n = 0 then ⟨0, -1, 0, 1⟩ else if n = 1 then ⟨1, 7, 0, 0⟩ else .fresh
  metrics := {}

/-- `Left` is locked.  Of two calls on `Right` and on `Root` the second is refused. -/
theorem some_lock_succeeds_beside : ∃ s : State (Fin 2),
    Reaches (step (AtomicPaymentTree.build smallTree).shape) (fun _ l => LockOnly l)
      (start ⟨(AtomicPaymentTree.build smallTree).shape, leftLocked⟩) s ∧
    (∀ i, s.thread i = .idle) ∧ .invoke 0 ⟨.lock, "Right", 0⟩ ∈ s.hist ∧
    .ret 1 ⟨.lock, "Root", 1⟩ 1 false ∈ s.hist ∧ ∃ i c k, .ret i c k true ∈ s.hist := by
  obtain ⟨s, hs, hp⟩ : ∃ s, Reaches (step (AtomicPaymentTree.build smallTree).shape)
      (fun _ l => LockOnly l) (start ⟨(AtomicPaymentTree.build smallTree).shape, leftLocked⟩) s ∧
      decide ((∀ i : Fin 2, s.thread i = .idle) ∧ .invoke 0 ⟨.lock, "Right", 0⟩ ∈ s.hist ∧
        .ret 1 ⟨.lock, "Root", 1⟩ 1 false ∈ s.hist) = true :=
    exists_reaches_of_exec ([.invoke 0 ⟨.lock, "Right", 0⟩, .invoke 1 ⟨.lock, "Root", 1⟩] ++
      turns 0 2 ++ [.tick 0 true] ++ turns 1 3 ++ turns 0 9) (by decide +kernel)
  obtain ⟨hidle, hinv, hret⟩ := of_decide_eq_true hp
  have habove : ∀ a < 2, (AtomicPaymentTree.build smallTree).shape.IsAncestor a 2 →
      leftLocked.flag a = false := by decide +kernel
  have hsize : (AtomicPaymentTree.build smallTree).shape.size = 3 := by decide +kernel
  refine ⟨s, hs, hidle, hinv, hret, some_lock_succeeds (n := 2) (by decide +kernel) rfl
    (fun a ha => habove a ha.lt ha) (fun d hd => ?_) hs ⟨0, _, hinv, by decide +kernel⟩ hidle⟩
  have hlt := hd.lt
  have hle := hd.lt_size
  omega

end Atomic
end PaymentGateway
