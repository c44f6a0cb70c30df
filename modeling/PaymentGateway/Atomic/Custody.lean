/-
# Who holds which node

A thread holds a node from the successful `compare_exchange` of its `lock` or
`upgradeLock` on it until its rollback, the successful `compare_exchange` of its
`unlock`, or the store of its `upgradeLock` releases the node (`Holds`, read off
the history).  `Custody` ties this to memory and to the program counters: a node
is locked exactly when some thread holds it, one thread at most does, a call
holds every node it is about to release or publish (`Local.claims`), and an id in
a `lockedBy` field is that of the holder, or of an `upgradeLock` that has released
the node and not cleared the field yet.

The owner check is the only place where a call relies on an id.  `ByHolder` says
that whoever passes it holds the node; under it custody is kept by every step
(`Custody.step`), every release is clean, and so the books of
`PaymentGateway.Atomic.Accounting` balance (`sound_custody_step`).  Threads with
distinct user ids other than -1 satisfy it (`Custody.byHolder`).
-/

import PaymentGateway.Atomic.Accounting

namespace PaymentGateway
namespace Atomic

open Lib

variable {Tid : Type}

/-- The thread `i` holds the node `n` after the history `H`. -/
def Holds (i : Tid) (n : ℕ) : List (Event Tid) → Prop
  | [] => False
  | .acquire j y :: H => j = i ∧ y = n ∨ Holds i n H
  | .release j y :: H => ¬(j = i ∧ y = n) ∧ Holds i n H
  | .invoke _ _ :: H => Holds i n H
  | .ret _ _ _ _ :: H => Holds i n H

instance Holds.decidable [DecidableEq Tid] (i : Tid) (n : ℕ) :
    ∀ H : List (Event Tid), Decidable (Holds i n H)
  | [] => inferInstanceAs (Decidable False)
  | .acquire j y :: H =>
      have := Holds.decidable i n H
      inferInstanceAs (Decidable (j = i ∧ y = n ∨ Holds i n H))
  | .release j y :: H =>
      have := Holds.decidable i n H
      inferInstanceAs (Decidable (¬(j = i ∧ y = n) ∧ Holds i n H))
  | .invoke _ _ :: H => Holds.decidable i n H
  | .ret _ _ _ _ :: H => Holds.decidable i n H

/-- How one access changes who holds what. -/
theorem holds_events {i j : Tid} {a : Access} {y : ℕ} {H : List (Event Tid)} :
    Holds j y (a.events i ++ H) ↔
      match a with
      | .setLockState z v =>
          if v = 1 then i = j ∧ z = y ∨ Holds j y H else ¬(i = j ∧ z = y) ∧ Holds j y H
      | _ => Holds j y H := by
  cases a with
  | setLockState z v =>
      simp only [Access.events, List.singleton_append]
      split <;> rfl
  | _ => rfl

/-- What a thread holds after an access, it held before, unless it has just won it. -/
theorem holds_of_events {i j : Tid} {a : Access} {y : ℕ} {H : List (Event Tid)}
    (h : Holds j y (a.events i ++ H)) (hwon : j = i → a ≠ .setLockState y 1) : Holds j y H := by
  rw [holds_events] at h
  split at h
  · split at h
    · rename_i z v hv
      rcases h with ⟨hij, rfl⟩ | h
      · exact absurd (by rw [hv]) (hwon hij.symm)
      · exact h
    · exact h.2
  · exact h

/-! ### What a call claims -/

/-- The nodes a call on `n` takes for granted that its thread holds. -/
def Pc.claims (n : ℕ) : Pc → List ℕ
  | .lockReloadAncestors | .lockReloadDescendants | .lockRollback | .storeOwner
  | .unlockClearOwner | .unlockCas => [n]
  | .upgradeScan _ ds | .upgradeLoadOwner _ _ ds | .upgradeRelease ds
  | .upgradeClearOwner _ ds => ds
  | .informUp _ delta _ after | .informDown _ delta _ after =>
      if delta = 1 then [n] else match after with
        | .finish => []
        | .release ds => ds
  | _ => []

/-- The node whose owner field the call has not written yet, or has already
cleared, while its thread holds the node. -/
def Pc.unstored (n : ℕ) : Pc → Option ℕ
  | .lockReloadAncestors | .lockReloadDescendants | .lockRollback | .storeOwner
  | .unlockCas => some n
  | _ => none

/-- The node that `upgradeLock` has released and whose owner field it clears next. -/
def Pc.clears : Pc → Option ℕ
  | .upgradeClearOwner d _ => some d
  | _ => none

/-- `unlock` stands where it would undo its own clearing of the owner. -/
def Pc.Restoring : Pc → Prop
  | .unlockRestoreOwner | .unlockCountRetry => True
  | _ => False

namespace Local

def claims : Local → List ℕ
  | .running _ _ n pc => pc.claims n
  | _ => []

def unstored : Local → Option ℕ
  | .running _ _ n pc => pc.unstored n
  | _ => none

def clears : Local → Option ℕ
  | .running _ _ _ pc => pc.clears
  | _ => none

def Restoring : Local → Prop
  | .running _ _ _ pc => pc.Restoring
  | _ => False

/-- The user of the call in progress. -/
def user? : Local → Option ℤ
  | .running c _ _ _ => some c.userId
  | .returning c _ _ => some c.userId
  | .idle => none

theorem mem_claims_of_acquires {l : Local} {n : ℕ} (h : l.acquires = some n) : n ∈ l.claims := by
  obtain ⟨c, k, pc, rfl, hpc⟩ := exists_of_acquires h
  cases pc <;> simp_all [claims, Pc.claims, Pc.Acquiring]

theorem enter_custody (t : TreeShape) (c : Call) (k : ℕ) :
    (enter t c k).claims = [] ∧ (enter t c k).unstored = none ∧ (enter t c k).clears = none ∧
      ¬(enter t c k).Restoring ∧ (enter t c k).user? = some c.userId := by
  unfold enter
  cases t.getNode c.nodeName with
  | none => simp [claims, unstored, clears, Restoring, user?]
  | some n => cases c.op <;> simp [claims, Pc.claims, unstored, Pc.unstored, clears, Pc.clears,
      Restoring, Pc.Restoring, Pc.entry, user?]

end Local

section Exec

variable {t : TreeShape} {m : Memory} {u : ℤ} {n y : ℕ} {sp : Bool} {pc pc' : Pc}

/-- A released node was claimed. -/
theorem exec_release (h : (pc.exec t m u n sp).1 = .setLockState y 0) : y ∈ pc.claims n := by
  rcases exec_setLockState h with ⟨-, h, -⟩ | ⟨-, ⟨rfl, rfl, -⟩ | ⟨rfl, rfl, -⟩ | ⟨ds, rfl, -⟩⟩
  · cases h
  all_goals simp [Pc.claims]

/-- **Where claims come from**: they were there and are not released by this step,
or the node has just been won, or the owner check has just been passed. -/
theorem exec_claims {op : Op} (hfits : pc.Fits t op n)
    (hnext : (pc.exec t m u n sp).2 = .goto pc') (hy : y ∈ pc'.claims n) :
    (y ∈ pc.claims n ∧ (pc.exec t m u n sp).1 ≠ .setLockState y 0) ∨
      (y = n ∧ (pc.exec t m u n sp).1 = .setLockState n 1) ∨
      (y = n ∧ pc = .unlockLoadOwner ∧ (m.node n).lockedBy = u) ∨
      ∃ bfs ds, pc = .upgradeLoadOwner y bfs ds ∧ (m.node y).lockedBy = u := by
  revert hfits hnext hy
  fun_cases Pc.exec t m u n sp pc <;> intro hfits hnext hy <;>
    simp only [Next.goto.injEq, reduceCtorEq] at hnext <;> subst hnext <;>
    simp_all [Pc.claims, Pc.Fits, After.Fits]
  -- left: the scan adds the node it has just checked, and the release loop drops
  -- its first node
  · rcases hy with hy | rfl
    · exact .inl hy
    · exact .inr ⟨rfl, ‹_›⟩
  · have h₁ := hfits.2 y
    have h₂ := List.count_pos_iff.2 hy
    rintro rfl
    rw [List.count_cons_self, Forest.count_descendants] at h₁
    split at h₁ <;> omega

/-- The owner field lags behind custody from the moment a node is won, or from
the moment `unlock` has cleared it. -/
theorem exec_unstored (hnext : (pc.exec t m u n sp).2 = .goto pc')
    (hy : pc'.unstored n = some y) :
    pc.unstored n = some y ∨ (pc.exec t m u n sp).1 = .setLockState y 1 ∨
      (pc.exec t m u n sp).1 = .setLockedBy y (-1) := by
  revert hnext hy
  fun_cases Pc.exec t m u n sp pc <;> intro hnext hy <;>
    simp only [Next.goto.injEq, reduceCtorEq] at hnext <;> subst hnext <;>
    simp_all [Pc.unstored]

/-- A release leaves the owner field to a node the call still lags behind on, or
is about to clear it. -/
theorem exec_release_owner (h : (pc.exec t m u n sp).1 = .setLockState y 0) :
    pc.unstored n = some y ∨
      ∃ pc', (pc.exec t m u n sp).2 = .goto pc' ∧ pc'.clears = some y := by
  rcases exec_setLockState h with
    ⟨-, h, -⟩ | ⟨-, ⟨rfl, rfl, -⟩ | ⟨rfl, rfl, -⟩ | ⟨ds, rfl, hnext⟩⟩
  · cases h
  · exact .inl rfl
  · exact .inl rfl
  · exact .inr ⟨_, hnext, rfl⟩

/-- The owner field `upgradeLock` is about to clear is cleared by its next step. -/
theorem exec_clears (h : pc.clears = some y) : (pc.exec t m u n sp).1 = .setLockedBy y (-1) := by
  cases pc <;> simp_all [Pc.clears, Pc.exec]

/-- `unlock` gets to undoing its clearing only when it finds its node free. -/
theorem exec_restoring (hnext : (pc.exec t m u n sp).2 = .goto pc') (h : pc'.Restoring) :
    pc.Restoring ∨ pc = .unlockCas ∧ (m.node n).lockState ≠ 1 := by
  revert hnext h
  fun_cases Pc.exec t m u n sp pc <;> intro hnext h <;>
    simp only [Next.goto.injEq, reduceCtorEq] at hnext <;> subst hnext <;>
    simp_all [Pc.Restoring]

/-- An `unlock` returns false at the owner check, or after restoring the owner. -/
theorem exec_unlock_false (hfit : pc.Fits t .unlock n)
    (h : (pc.exec t m u n sp).2 = .finish false) :
    (pc = .unlockLoadOwner ∧ (m.node n).lockedBy ≠ u) ∨ pc.Restoring := by
  revert hfit h
  fun_cases Pc.exec t m u n sp pc <;> simp_all [Pc.Fits, Pc.Restoring]

end Exec

/-! ### The invariant -/

/-- Every call is made with the user id of its thread. -/
def OwnUser (user : Tid → ℤ) : Label Tid → Prop
  | .invoke i c => c.userId = user i
  | .tick _ _ => True

/-- Whoever is about to pass an owner check holds the node. -/
def ByHolder (s : State Tid) : Label Tid → Prop
  | .invoke _ _ => True
  | .tick i _ =>
      match s.thread i with
      | .running c _ n .unlockLoadOwner =>
          (s.mem.node n).lockedBy = c.userId → Holds i n s.hist
      | .running c _ _ (.upgradeLoadOwner current _ _) =>
          (s.mem.node current).lockedBy = c.userId → Holds i current s.hist
      | _ => True

theorem ByHolder.of_unlock {s : State Tid} {i : Tid} {sp : Bool} {c : Call} {k n : ℕ}
    (h : ByHolder s (.tick i sp)) (hi : s.thread i = .running c k n .unlockLoadOwner)
    (hn : (s.mem.node n).lockedBy = c.userId) : Holds i n s.hist := by
  rw [ByHolder, hi] at h
  exact h hn

theorem ByHolder.of_upgrade {s : State Tid} {i : Tid} {sp : Bool} {c : Call} {k n y : ℕ}
    {bfs ds : List ℕ} (h : ByHolder s (.tick i sp))
    (hi : s.thread i = .running c k n (.upgradeLoadOwner y bfs ds))
    (hy : (s.mem.node y).lockedBy = c.userId) : Holds i y s.hist := by
  rw [ByHolder, hi] at h
  exact h hy

/-- Who holds what, as memory and the calls in flight know it. -/
structure Custody (user : Tid → ℤ) (s : State Tid) : Prop where
  user_eq : ∀ i u, (s.thread i).user? = some u → u = user i
  locked_iff : ∀ n, (s.mem.node n).lockState = 1 ↔ ∃ i, Holds i n s.hist
  unique : ∀ i j n, Holds i n s.hist → Holds j n s.hist → i = j
  claims : ∀ i n, n ∈ (s.thread i).claims → Holds i n s.hist
  not_restoring : ∀ i, ¬(s.thread i).Restoring
  owner : ∀ n, (s.mem.node n).lockedBy = -1 ∨ ∃ i, (s.mem.node n).lockedBy = user i ∧
    ((s.thread i).clears = some n ∨ Holds i n s.hist ∧ (s.thread i).unstored ≠ some n)

variable {t : TreeShape} {user : Tid → ℤ} {s s' : State Tid}

theorem custody_start (adds : List NodeSpec) :
    Custody user (start (AtomicPaymentTree.build adds)) where
  user_eq _ _ h := by cases h
  locked_iff n := by simp [start, build_node, AtomicTreeNode.fresh, Holds]
  unique _ _ _ h := h.elim
  claims _ _ h := by cases h
  not_restoring _ h := h
  owner n := .inl (by rw [start, build_node]; rfl)

section Facts

variable {i j : Tid} {c : Call} {k n y : ℕ} {pc : Pc}

/-- A call is made with the id of its thread. -/
theorem Custody.userId_eq (h : Custody user s) (hi : s.thread i = .running c k n pc) :
    c.userId = user i :=
  h.user_eq i _ (by rw [hi]; rfl)

/-- The thread of a running call holds what the call claims. -/
theorem Custody.holds_of_claims (h : Custody user s) (hi : s.thread i = .running c k n pc)
    (hy : y ∈ pc.claims n) : Holds i y s.hist :=
  h.claims i y (by rw [hi]; exact hy)

/-- No call stands where `unlock` undoes its clearing of the owner. -/
theorem Custody.running_not_restoring (h : Custody user s)
    (hi : s.thread i = .running c k n pc) : ¬pc.Restoring := fun hpc =>
  h.not_restoring i (by rw [hi]; exact hpc)

theorem Custody.locked (h : Custody user s) (hj : Holds j y s.hist) :
    (s.mem.node y).lockState = 1 :=
  (h.locked_iff y).2 ⟨j, hj⟩

/-- With no call in flight a free node has no owner. -/
theorem Custody.lockedBy_of_idle (h : Custody user s) (hidle : ∀ i, s.thread i = .idle)
    (hfree : (s.mem.node y).lockState ≠ 1) : (s.mem.node y).lockedBy = -1 := by
  refine (h.owner y).resolve_right ?_
  rintro ⟨i, -, hclears | ⟨hi, -⟩⟩
  · rw [hidle] at hclears
    cases hclears
  · exact hfree (h.locked hi)

end Facts

/-- A step that releases no claimed node of an acquiring call: a releaser holds the
node, and so does whoever is acquiring it. -/
theorem Custody.cleanRelease (h : Custody user s) (l : Label Tid) : CleanRelease s l := by
  cases l with
  | invoke i c => trivial
  | tick i sp =>
      have hclash {n : ℕ} (hn : n ∈ (s.thread i).claims) (hi : (s.thread i).acquires ≠ some n)
          (j : Tid) : (s.thread j).acquires ≠ some n := fun hj =>
        hi (h.unique _ _ _ (h.claims j n (Local.mem_claims_of_acquires hj)) (h.claims i n hn) ▸ hj)
      simp only [CleanRelease]
      split
      · rename_i c k n hi
        rw [hi] at hclash
        exact fun _ =>
          hclash (by simp [Local.claims, Pc.claims]) (by simp [Local.acquires, Pc.Acquiring])
      · rename_i c k n d ds hi
        have hd : d ∈ (s.thread i).claims := by simp [hi, Local.claims, Pc.claims]
        exact ⟨h.locked (h.claims i d hd),
          hclash hd (by simp [hi, Local.acquires, Pc.Acquiring])⟩
      · trivial

section Access

variable {i j : Tid} {sp : Bool} {c : Call} {k n y : ℕ} {pc : Pc}

/-- A lock state is set to 1 on a node nobody holds, and to 0 by its holder. -/
theorem Custody.exec_set (h : Custody user s) (hi : s.thread i = .running c k n pc) {v : ℤ}
    (ha : (pc.exec t s.mem c.userId n sp).1 = .setLockState y v) :
    v = 1 ∧ (∀ j, ¬Holds j y s.hist) ∨ v = 0 ∧ Holds i y s.hist := by
  rcases exec_setLockState ha with ⟨rfl, rfl, hfree, -⟩ | ⟨rfl, -⟩
  · refine .inl ⟨rfl, fun j hj => ?_⟩
    have := h.locked hj
    omega
  · exact .inr ⟨rfl, h.holds_of_claims hi (exec_release ha)⟩

/-- **Frame**: a step takes no node from a thread that does not release it. -/
theorem Custody.exec_keep (h : Custody user s) (hi : s.thread i = .running c k n pc)
    (hj : Holds j y s.hist)
    (hrel : j = i → (pc.exec t s.mem c.userId n sp).1 ≠ .setLockState y 0) :
    Holds j y ((pc.exec t s.mem c.userId n sp).1.events i ++ s.hist) := by
  rw [holds_events]
  split
  · rename_i z v ha
    rcases h.exec_set hi ha with ⟨rfl, -⟩ | ⟨rfl, -⟩
    · exact .inr hj
    · exact ⟨fun ⟨hij, hzy⟩ => hrel hij.symm (by rw [ha, hzy]), hj⟩
  · exact hj

/-- An access that wins a free node or releases one the thread holds keeps locked
nodes and held nodes the same, and the holders unique. -/
theorem Custody.access (h : Custody user s) {i : Tid} {a : Access}
    (hset : ∀ y v, a = .setLockState y v →
      v = 1 ∧ (∀ j, ¬Holds j y s.hist) ∨ v = 0 ∧ Holds i y s.hist) :
    (∀ y, ((s.mem.apply a).node y).lockState = 1 ↔ ∃ j, Holds j y (a.events i ++ s.hist)) ∧
      ∀ j j' y, Holds j y (a.events i ++ s.hist) → Holds j' y (a.events i ++ s.hist) → j = j' := by
  simp only [Memory.apply_lockState, holds_events]
  cases a with
  | setLockState z v =>
      rcases hset z v rfl with ⟨rfl, hfree⟩ | ⟨rfl, hz⟩
      · simp only [if_true]
        refine ⟨fun y => ?_, ?_⟩
        · by_cases hyz : y = z
          · simp [hyz]
          · simpa [hyz, Ne.symm hyz] using h.locked_iff y
        · rintro j j' y (⟨rfl, rfl⟩ | hj) (⟨rfl, hyz⟩ | hj')
          · rfl
          · exact absurd hj' (hfree j')
          · exact absurd (hyz ▸ hj) (hfree j)
          · exact h.unique j j' y hj hj'
      · simp only [show (0 : ℤ) ≠ 1 by decide, if_false]
        refine ⟨fun y => ?_, fun j j' y hj hj' => h.unique j j' y hj.2 hj'.2⟩
        by_cases hyz : y = z
        · subst hyz
          simpa using fun j hij hj => hij (h.unique i j y hz hj)
        · simpa [hyz, Ne.symm hyz] using h.locked_iff y
  | _ => exact ⟨h.locked_iff, h.unique⟩

/-- What the call claims after its step, its thread holds after the step. -/
theorem Custody.exec_claims (h : Custody user s) (hi : s.thread i = .running c k n pc)
    (hfit : pc.Fits t c.op n) (hby : ByHolder s (.tick i sp))
    (hy : y ∈ ((pc.exec t s.mem c.userId n sp).2.toLocal c k n).claims) :
    Holds i y ((pc.exec t s.mem c.userId n sp).1.events i ++ s.hist) := by
  cases hnext : (pc.exec t s.mem c.userId n sp).2 with
  | finish r =>
      rw [hnext] at hy
      cases hy
  | goto pc' =>
      rw [hnext] at hy
      rcases Atomic.exec_claims hfit hnext hy with
        ⟨hy, hrel⟩ | ⟨rfl, hwon⟩ | ⟨rfl, rfl, hown⟩ | ⟨bfs, ds, rfl, hown⟩
      · exact h.exec_keep hi (h.holds_of_claims hi hy) fun _ => hrel
      · rw [holds_events, hwon]
        exact .inl ⟨rfl, rfl⟩
      · exact h.exec_keep hi (hby.of_unlock hi hown) fun _ => by simp [Pc.exec, hown]
      · exact h.exec_keep hi (hby.of_upgrade hi hown) fun _ => by simp [Pc.exec, hown]

/-- No step brings an `unlock` to the point of restoring an owner. -/
theorem Custody.exec_not_restoring (h : Custody user s) (hi : s.thread i = .running c k n pc) :
    ¬((pc.exec t s.mem c.userId n sp).2.toLocal c k n).Restoring := by
  cases hnext : (pc.exec t s.mem c.userId n sp).2 with
  | finish r => exact fun hr => hr
  | goto pc' =>
      intro hpc'
      rcases exec_restoring hnext hpc' with hpc | ⟨rfl, hlocked⟩
      · exact h.running_not_restoring hi hpc
      · exact hlocked (h.locked (h.holds_of_claims hi (List.mem_singleton.2 rfl)))

/-- A thread that lags behind on the owner of a node after its step did so before,
or has just won the node, or has just cleared the owner. -/
theorem Custody.exec_unstored (h : Custody user s) (hi : s.thread i = .running c k n pc)
    (hH : Holds i y s.hist)
    (hlag : ((pc.exec t s.mem c.userId n sp).2.toLocal c k n).unstored = some y) :
    (s.thread i).unstored = some y ∨ (pc.exec t s.mem c.userId n sp).1 = .setLockedBy y (-1) := by
  cases hnext : (pc.exec t s.mem c.userId n sp).2 with
  | finish r =>
      rw [hnext] at hlag
      cases hlag
  | goto pc' =>
      rw [hnext] at hlag
      rcases Atomic.exec_unstored hnext hlag with h' | h' | h'
      · exact .inl (by rw [hi]; exact h')
      · rcases h.exec_set hi h' with ⟨-, hf⟩ | ⟨h1, -⟩
        · exact absurd hH (hf i)
        · cases h1
      · exact .inr h'

end Access

section Steps

variable [DecidableEq Tid]

/-- Beginning or returning from a call changes nobody's custody. -/
theorem Custody.outside (h : Custody user s) {i : Tid} {l : Local} {H : List (Event Tid)}
    (hH : ∀ j n, Holds j n H ↔ Holds j n s.hist) (huser : ∀ u, l.user? = some u → u = user i)
    (hclaims : l.claims = []) (hunstored : l.unstored = none) (hrest : ¬l.Restoring)
    (hclears : (s.thread i).clears = none) :
    Custody user ⟨s.mem, Function.update s.thread i l, H⟩ where
  user_eq := (Function.forall_update_iff _ fun j (l : Local) =>
    ∀ u, l.user? = some u → u = user j).2 ⟨huser, fun j _ => h.user_eq j⟩
  locked_iff n := (h.locked_iff n).trans (exists_congr fun j => (hH j n).symm)
  unique j j' n hj hj' := h.unique j j' n ((hH _ _).1 hj) ((hH _ _).1 hj')
  claims := (Function.forall_update_iff _ fun j (l : Local) => ∀ n, n ∈ l.claims → Holds j n H).2
    ⟨fun n hn => absurd (hclaims ▸ hn) List.not_mem_nil,
      fun j _ n hn => (hH j n).2 (h.claims j n hn)⟩
  not_restoring := (Function.forall_update_iff _ fun _ (l : Local) => ¬l.Restoring).2
    ⟨hrest, fun j _ => h.not_restoring j⟩
  owner n := by
    refine (h.owner n).imp id fun ⟨j, hj, hw⟩ => ⟨j, hj, ?_⟩
    by_cases hji : j = i
    · subst hji
      rcases hw with hw | ⟨hw, -⟩
      · rw [hclears] at hw
        cases hw
      · exact .inr ⟨(hH j n).2 hw, by simp [hunstored]⟩
    · simpa [hji, hH] using hw

/-- An owner field keeps naming the holder, or the `upgradeLock` about to clear it. -/
theorem Custody.exec_owner (h : Custody user s) {i : Tid} {sp : Bool} {c : Call} {k n : ℕ} {pc : Pc}
    (hi : s.thread i = .running c k n pc) (y : ℕ) :
    let r := pc.exec t s.mem c.userId n sp
    let thread := Function.update s.thread i (r.2.toLocal c k n)
    ((s.mem.apply r.1).node y).lockedBy = -1 ∨
      ∃ j, ((s.mem.apply r.1).node y).lockedBy = user j ∧ ((thread j).clears = some y ∨
        Holds j y (r.1.events i ++ s.hist) ∧ (thread j).unstored ≠ some y) := by
  dsimp only
  by_cases hw : ∃ v, (pc.exec t s.mem c.userId n sp).1 = .setLockedBy y v
  · obtain ⟨v, ha⟩ := hw
    have hv : ((s.mem.apply (pc.exec t s.mem c.userId n sp).1).node y).lockedBy = v := by
      rw [ha, Memory.apply_lockedBy]
      exact if_pos rfl
    rw [hv]
    rcases exec_setLockedBy ha with
      ⟨-, -, rfl, -⟩ | ⟨rfl, rfl, rfl, hgo⟩ | ⟨-, rfl, -⟩ | ⟨ds, -, rfl⟩
    · exact .inl rfl
    · refine .inr ⟨i, h.userId_eq hi, .inr ⟨?_, ?_⟩⟩
      · exact h.exec_keep hi (h.holds_of_claims hi (List.mem_singleton.2 rfl)) fun _ => by
          rw [ha]
          nofun
      · rw [Function.update_self, hgo]
        nofun
    · exact absurd trivial (h.running_not_restoring hi)
    · exact .inl rfl
  · rw [Memory.apply_lockedBy_of_ne _ _ _ fun v ha => hw ⟨v, ha⟩]
    refine (h.owner y).imp id fun ⟨j, hj, hcase⟩ => ⟨j, hj, ?_⟩
    by_cases hji : j = i
    · subst hji
      rw [Function.update_self]
      rcases hcase with hc | ⟨hH, hu⟩
      · rw [hi] at hc
        exact absurd ⟨-1, exec_clears hc⟩ hw
      · by_cases hrel : (pc.exec t s.mem c.userId n sp).1 = .setLockState y 0
        -- the holder releases the node: `upgradeLock` clears the owner next
        · rcases exec_release_owner hrel with h' | ⟨pc', hgo, hc⟩
          · exact absurd (by rw [hi]; exact h') hu
          · rw [hgo]
            exact .inl hc
        · refine .inr ⟨h.exec_keep hi hH fun _ => hrel, fun hlag => ?_⟩
          rcases h.exec_unstored hi hH hlag with h' | h'
          · exact hu h'
          · exact hw ⟨_, h'⟩
    · rw [Function.update_of_ne hji]
      exact hcase.imp id fun ⟨hH, hu⟩ => ⟨h.exec_keep hi hH fun h => absurd h hji, hu⟩

/-- **Every step keeps custody**, if whoever passes an owner check holds the node. -/
theorem Custody.step {l : Label Tid} (h : Custody user s) (hfits : ∀ i, (s.thread i).Fits t)
    (huser : OwnUser user l) (hby : ByHolder s l) (hs : step t s l = some s') :
    Custody user s' := by
  cases move_of_step hs with
  | invoke i c hi =>
      obtain ⟨h₁, h₂, -, h₃, h₄⟩ := Local.enter_custody t c s.hist.length
      refine h.outside (fun _ _ => Iff.rfl) (fun u hu => ?_) h₁ h₂ h₃ (by rw [hi]; rfl)
      rw [h₄, Option.some.injEq] at hu
      exact hu ▸ huser
  | ret i sp c k r hi =>
      exact h.outside (fun _ _ => Iff.rfl) nofun rfl rfl (fun h => h) (by rw [hi]; rfl)
  | exec i sp c k n pc hi =>
      have hfit := fits_running hfits hi
      obtain ⟨hlocked, hunique⟩ := h.access fun y v
        (ha : (pc.exec t s.mem c.userId n sp).1 = .setLockState y v) => h.exec_set hi ha
      refine ⟨(Function.forall_update_iff _ fun j (l : Local) =>
          ∀ u, l.user? = some u → u = user j).2 ⟨fun u hu => ?_, fun j _ => h.user_eq j⟩,
        hlocked, hunique,
        (Function.forall_update_iff _ fun j (l : Local) => ∀ y, y ∈ l.claims →
          Holds j y ((pc.exec t s.mem c.userId n sp).1.events i ++ s.hist)).2
          ⟨fun y hy => h.exec_claims hi hfit hby hy, fun j hj y hy =>
            h.exec_keep hi (h.claims j y hy) fun hji => absurd hji hj⟩,
        (Function.forall_update_iff _ fun _ (l : Local) => ¬l.Restoring).2
          ⟨h.exec_not_restoring hi, fun j _ => h.not_restoring j⟩,
        h.exec_owner hi⟩
      refine h.user_eq i u ?_
      cases hnext : (pc.exec t s.mem c.userId n sp).2 <;>
        simpa [hi, hnext, Next.toLocal, Local.user?] using hu

/-- **A step keeps custody and balanced books**, if whoever passes an owner check holds
the node. -/
theorem sound_custody_step [Fintype Tid] {l : Label Tid}
    (h : Sound t s ∧ Custody user s) (huser : OwnUser user l) (hby : ByHolder s l)
    (hs : step t s l = some s') : Sound t s' ∧ Custody user s' :=
  ⟨h.1.step (h.2.cleanRelease l) hs, h.2.step h.1.fits huser hby hs⟩

end Steps

/-- **Distinct ids make the owner check sound**: an id in a `lockedBy` field is that
of the holder, or of a thread that stands in the release loop of `upgradeLock` and
so passes no check of its own. -/
theorem Custody.byHolder (h : Custody user s) (hinj : Function.Injective user)
    (hne : ∀ i, user i ≠ -1) (l : Label Tid) : ByHolder s l := by
  have hholds {i : Tid} {c : Call} {k n y : ℕ} {pc : Pc} (hi : s.thread i = .running c k n pc)
      (hpc : pc.clears = none) (hy : (s.mem.node y).lockedBy = c.userId) : Holds i y s.hist := by
    rw [h.userId_eq hi] at hy
    rcases h.owner y with hnone | ⟨j, hj, hcase⟩
    · exact absurd (hy.symm.trans hnone) (hne i)
    · obtain rfl : i = j := hinj (hy.symm.trans hj)
      rcases hcase with hcl | ⟨hH, -⟩
      · rw [hi] at hcl
        exact absurd (hpc.symm.trans hcl) nofun
      · exact hH
  cases l with
  | invoke i c => trivial
  | tick i sp =>
      simp only [ByHolder]
      split
      · rename_i hi
        exact hholds hi rfl
      · rename_i hi
        exact hholds hi rfl
      · trivial

end Atomic
end PaymentGateway
