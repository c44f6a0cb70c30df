/-
# What one step can do

The program has one place where it sets a `lockState` to 1 for `lock`, one for
`upgradeLock`, and three where it sets one to 0; `exec_setLockState` lists them
with what the step has checked and where it goes on, and `exec_setLockedBy` does the
same for the stores on owner fields.  Every other step leaves these fields alone.
`Pc.Fits` says which program counters an operation on a node can stand at, and that
the walks and the BFS never meet a node twice; it needs nothing but the shape of the
tree (`exec_fits`).

`Pc.acquires` is the node a call has won and not yet finished publishing.  The
debts `owedUp` and `owedDown` are what the call has still to add to the counter
of a node: the whole path before the publication, what the walks have not met
during it, with the sign of the change.  A step moves a counter, its own debt and
the number of locked relatives by amounts that cancel (`exec_up`, `exec_down`).
-/

import PaymentGateway.Atomic.Machine
import PaymentGateway.Lib.LaggingCounter

namespace PaymentGateway
namespace Atomic

open Lib

/-! ### Memory after an access -/

namespace Memory

variable (m : Memory) (a : Access) (n x : ℕ) (v : ℤ)

/-- The lock flags of all nodes. -/
def flag (x : ℕ) : Bool := decide ((m.node x).lockState = 1)

theorem flag_eq_true_iff : m.flag x = true ↔ (m.node x).lockState = 1 := by simp [flag]

theorem apply_lockState : ((m.apply a).node x).lockState =
    match a with
    | .setLockState n v => if x = n then v else (m.node x).lockState
    | _ => (m.node x).lockState := by
  cases a <;> simp only [apply, setNode, Function.update_apply] <;>
    first | rfl | (split <;> simp_all)

/-- An access leaves a lock state alone, or sets it. -/
theorem apply_lockState_cases : ((m.apply a).node x).lockState = (m.node x).lockState ∨
    a = .setLockState x ((m.apply a).node x).lockState := by
  rw [apply_lockState]
  split
  · split
    · rename_i hxn
      exact .inr (by rw [hxn])
    · exact .inl rfl
  · exact .inl rfl

/-- A node is locked after an access if it was locked, or the access locks it. -/
theorem locked_of_apply (h : ((m.apply a).node x).lockState = 1) :
    (m.node x).lockState = 1 ∨ a = .setLockState x 1 := by
  rcases apply_lockState_cases m a x with hkeep | hset
  · exact .inl (hkeep.symm.trans h)
  · exact .inr (h ▸ hset)

theorem apply_lockedBy : ((m.apply a).node x).lockedBy =
    match a with
    | .setLockedBy n v => if x = n then v else (m.node x).lockedBy
    | _ => (m.node x).lockedBy := by
  cases a <;> simp only [apply, setNode, Function.update_apply] <;>
    first | rfl | (split <;> simp_all)

@[simp] theorem setLockState_lockState : ((m.apply (.setLockState n v)).node n).lockState = v := by
  simp [apply_lockState]

@[simp] theorem setLockState_lockedBy :
    ((m.apply (.setLockState n v)).node x).lockedBy = (m.node x).lockedBy := by
  rw [apply_lockedBy]

@[simp] theorem setLockedBy_lockedBy : ((m.apply (.setLockedBy n v)).node n).lockedBy = v := by
  simp [apply_lockedBy]

@[simp] theorem setLockedBy_lockState :
    ((m.apply (.setLockedBy n v)).node x).lockState = (m.node x).lockState := by
  rw [apply_lockState]

/-- Owner fields change by stores only. -/
theorem apply_lockedBy_of_ne (h : ∀ v, a ≠ .setLockedBy x v) :
    ((m.apply a).node x).lockedBy = (m.node x).lockedBy := by
  rw [apply_lockedBy]
  split
  · rename_i z v
    exact if_neg fun hxz => h v (by rw [hxz])
  · rfl

theorem apply_ancestorLockedCount : ((m.apply a).node x).ancestorLockedCount =
    (m.node x).ancestorLockedCount +
      match a with
      | .addAncestorLocked n delta => if x = n then delta else 0
      | _ => 0 := by
  cases a <;> simp only [apply, setNode, Function.update_apply, add_zero] <;>
    first | rfl | (split <;> simp_all)

theorem apply_descendantLockedCount : ((m.apply a).node x).descendantLockedCount =
    (m.node x).descendantLockedCount +
      match a with
      | .addDescendantLocked n delta => if x = n then delta else 0
      | _ => 0 := by
  cases a <;> simp only [apply, setNode, Function.update_apply, add_zero] <;>
    first | rfl | (split <;> simp_all)

theorem apply_flag : (m.apply a).flag =
    match a with
    | .setLockState n v => Function.update m.flag n (decide (v = 1))
    | _ => m.flag := by
  funext x
  simp only [flag, apply_lockState]
  cases a with
  | setLockState n v =>
      simp only [Function.update_apply]
      split <;> rfl
  | _ => rfl

end Memory

/-! ### Where the lock states change -/

section Exec

variable {t : TreeShape} {m : Memory} {u : ℤ} {n : ℕ} {sp : Bool} {pc : Pc}

/-- **The five accesses that change a `lockState`.** -/
theorem exec_setLockState {y : ℕ} {v : ℤ} (h : (pc.exec t m u n sp).1 = .setLockState y v) :
    (y = n ∧ v = 1 ∧ (m.node n).lockState = 0 ∧
      (pc = .lockCas ∧ (pc.exec t m u n sp).2 = .goto .lockReloadAncestors ∨
        pc = .upgradeCas ∧ (pc.exec t m u n sp).2 = .goto .storeOwner)) ∨
    (v = 0 ∧
      (y = n ∧ pc = .lockRollback ∧ (pc.exec t m u n sp).2 = .finish false ∨
        y = n ∧ pc = .unlockCas ∧ (m.node n).lockState = 1 ∧
          (pc.exec t m u n sp).2 = .goto (.informUp n (-1) (t.parent n) .finish) ∨
        ∃ ds, pc = .upgradeRelease (y :: ds) ∧
          (pc.exec t m u n sp).2 = .goto (.upgradeClearOwner y ds))) := by
  revert h
  fun_cases Pc.exec t m u n sp pc <;> simp_all <;> grind

/-- **The four stores on an owner field.** -/
theorem exec_setLockedBy {y : ℕ} {v : ℤ} (h : (pc.exec t m u n sp).1 = .setLockedBy y v) :
    (y = n ∧ pc = .unlockClearOwner ∧ v = -1 ∧ (pc.exec t m u n sp).2 = .goto .unlockCas) ∨
      (y = n ∧ pc = .storeOwner ∧ v = u ∧
        (pc.exec t m u n sp).2 = .goto (.informUp n 1 (t.parent n) .finish)) ∨
      (y = n ∧ pc = .unlockRestoreOwner ∧ v = u) ∨ ∃ ds, pc = .upgradeClearOwner y ds ∧ v = -1 := by
  revert h
  fun_cases Pc.exec t m u n sp pc <;> simp_all

/-- Apart from those five a step leaves all lock flags alone. -/
theorem exec_flag_eq (h : ∀ y v, (pc.exec t m u n sp).1 ≠ .setLockState y v) :
    (m.apply (pc.exec t m u n sp).1).flag = m.flag := by
  rw [Memory.apply_flag]
  cases ha : (pc.exec t m u n sp).1 with
  | setLockState y v => exact absurd ha (h y v)
  | _ => rfl

/-! ### The shape of a call -/

/-- What may follow a propagation for `node` by `delta` in a call on `n`. -/
def After.Fits (t : TreeShape) (op : Op) (n node : ℕ) (delta : ℤ) : After → Prop
  | .finish => node = n ∧ (delta = 1 ∧ op ≠ .unlock ∨ delta = -1 ∧ op = .unlock)
  | .release ds => delta = -1 ∧ op = .upgradeLock ∧
      ∀ x, (node :: ds).count x ≤ (t.descendants n).count x

/-- The program counters of an operation on `n`.  What the BFS has collected and
what its queue still leads to are different proper descendants of `n`. -/
def Pc.Fits (t : TreeShape) (op : Op) (n : ℕ) : Pc → Prop
  | .lockLoadAncestors | .lockLoadDescendants | .lockCas | .lockCountRetry
  | .lockReloadAncestors | .lockReloadDescendants | .lockRollback => op = .lock
  | .unlockLoadOwner | .unlockClearOwner | .unlockCas | .unlockRestoreOwner
  | .unlockCountRetry => op = .unlock
  | .upgradeLoadState | .upgradeLoadAncestors | .upgradeCas => op = .upgradeLock
  | .upgradeScan bfs ds => op = .upgradeLock ∧
      ∀ x, ds.count x + (t.below bfs).count x ≤ (t.descendants n).count x
  | .upgradeLoadOwner current bfs ds => op = .upgradeLock ∧
      ∀ x, ds.count x + (t.below (current :: bfs)).count x ≤ (t.descendants n).count x
  | .upgradeRelease ds => op = .upgradeLock ∧ ∀ x, ds.count x ≤ (t.descendants n).count x
  | .upgradeClearOwner d ds => op = .upgradeLock ∧
      ∀ x, (d :: ds).count x ≤ (t.descendants n).count x
  | .storeOwner => op ≠ .unlock
  | .informUp node delta current after => after.Fits t op n node delta ∧
      ∀ x, (t.chain current).count x ≤ (t.ancestors node).count x
  | .informDown node delta children after => after.Fits t op n node delta ∧
      ∀ x, (t.below children).count x ≤ (t.descendants node).count x

/-- A step of a call stays within the shape of the call. -/
theorem exec_fits {op : Op} {pc' : Pc} (h : pc.Fits t op n)
    (hnext : (pc.exec t m u n sp).2 = .goto pc') : pc'.Fits t op n := by
  revert h hnext
  fun_cases Pc.exec t m u n sp pc <;> intro h hnext <;>
    simp only [Next.goto.injEq, reduceCtorEq] at hnext <;> subst hnext <;>
    simp_all only [Pc.Fits, After.Fits] <;>
    grind [Forest.chain_parent, Forest.chain_some, Forest.descendants_eq, Forest.below_cons,
      Forest.below_append, Forest.below_nil]

/-! ### Debts -/

/-- The call has won the node it is about and has not finished publishing it. -/
def Pc.Acquiring : Pc → Prop
  | .lockReloadAncestors | .lockReloadDescendants | .lockRollback | .storeOwner => True
  | .informUp _ delta _ _ | .informDown _ delta _ _ => delta = 1
  | _ => False

instance : DecidablePred Pc.Acquiring := fun pc => by
  rcases pc with _ | _ <;> unfold Pc.Acquiring <;> infer_instance

/-- No `unlock` acquires. -/
theorem Pc.Acquiring.op_ne_unlock (h : pc.Acquiring) {op : Op} (hfit : pc.Fits t op n) :
    op ≠ .unlock := by
  rintro rfl
  cases pc with
  | informUp node delta current after | informDown node delta children after =>
      obtain rfl : delta = 1 := h
      cases after with
      | finish =>
          obtain ⟨⟨-, ⟨-, h⟩ | ⟨h, -⟩⟩, -⟩ := hfit
          · exact h rfl
          · cases h
      | release ds =>
          obtain ⟨⟨h, -⟩, -⟩ := hfit
          cases h
  | storeOwner => exact hfit rfl
  | lockReloadAncestors | lockReloadDescendants | lockRollback => cases hfit
  | _ => exact h

/-- What a call on `n` has still to add to `descendantLockedCount` of `x`. -/
def Pc.owedUp (t : TreeShape) (n x : ℕ) : Pc → ℤ
  | .lockReloadAncestors | .lockReloadDescendants | .lockRollback | .storeOwner =>
      (t.ancestors n).count x
  | .upgradeClearOwner d _ => -(t.ancestors d).count x
  | .informUp _ delta current _ => delta * (t.chain current).count x
  | _ => 0

/-- What a call on `n` has still to add to `ancestorLockedCount` of `x`. -/
def Pc.owedDown (t : TreeShape) (n x : ℕ) : Pc → ℤ
  | .lockReloadAncestors | .lockReloadDescendants | .lockRollback | .storeOwner =>
      (t.descendants n).count x
  | .upgradeClearOwner d _ => -(t.descendants d).count x
  | .informUp node delta _ _ => delta * (t.descendants node).count x
  | .informDown _ delta children _ => delta * (t.below children).count x
  | _ => 0

/-- A debt is at most one, and a positive one belongs to an acquisition of a
proper descendant. -/
theorem Pc.Fits.owedUp {op : Op} (h : pc.Fits t op n) (x : ℕ) :
    pc.owedUp t n x ≤ 1 ∧ (0 < pc.owedUp t n x → pc.Acquiring ∧ t.IsAncestor x n) := by
  have hle (d : ℕ) : (t.ancestors d).count x ≤ 1 := by
    rw [Forest.count_ancestors]
    split <;> omega
  have hmem : 0 < (t.ancestors n).count x → t.IsAncestor x n := fun h =>
    Forest.mem_ancestors.1 (List.count_pos_iff.1 h)
  cases pc with
  | informUp node delta current after =>
      obtain ⟨hafter, hcount⟩ := h
      have h₁ := hcount x
      have h₂ := hle node
      cases after with
      | finish =>
          obtain ⟨rfl, ⟨rfl, -⟩ | ⟨rfl, -⟩⟩ := hafter
          · simp only [Pc.owedUp, Pc.Acquiring]
            exact ⟨by omega, fun hpos => ⟨trivial, hmem (by omega)⟩⟩
          · simp only [Pc.owedUp]
            omega
      | release ds =>
          obtain ⟨rfl, -, -⟩ := hafter
          simp only [Pc.owedUp]
          omega
  | lockReloadAncestors | lockReloadDescendants | lockRollback | storeOwner =>
      have h₁ := hle n
      simp only [Pc.owedUp, Pc.Acquiring]
      exact ⟨by omega, fun hpos => ⟨trivial, hmem (by omega)⟩⟩
  | _ =>
      simp only [Pc.owedUp]
      omega

/-- A debt is at most one, and a positive one belongs to an acquisition of a
proper ancestor. -/
theorem Pc.Fits.owedDown {op : Op} (h : pc.Fits t op n) (x : ℕ) :
    pc.owedDown t n x ≤ 1 ∧ (0 < pc.owedDown t n x → pc.Acquiring ∧ t.IsAncestor n x) := by
  have hle (d : ℕ) : (t.descendants d).count x ≤ 1 := by
    rw [Forest.count_descendants]
    split <;> omega
  have hmem : 0 < (t.descendants n).count x → t.IsAncestor n x := fun h =>
    Forest.mem_descendants.1 (List.count_pos_iff.1 h)
  cases pc with
  | informUp node delta current after | informDown node delta children after =>
      obtain ⟨hafter, hcount⟩ := h
      have h₁ := hcount x
      have h₂ := hle node
      cases after with
      | finish =>
          obtain ⟨rfl, ⟨rfl, -⟩ | ⟨rfl, -⟩⟩ := hafter
          · simp only [Pc.owedDown, Pc.Acquiring]
            exact ⟨by omega, fun hpos => ⟨trivial, hmem (by omega)⟩⟩
          · simp only [Pc.owedDown]
            omega
      | release ds =>
          obtain ⟨rfl, -, -⟩ := hafter
          simp only [Pc.owedDown]
          omega
  | lockReloadAncestors | lockReloadDescendants | lockRollback | storeOwner =>
      have h₁ := hle n
      simp only [Pc.owedDown, Pc.Acquiring]
      exact ⟨by omega, fun hpos => ⟨trivial, hmem (by omega)⟩⟩
  | _ =>
      simp only [Pc.owedDown]
      omega

/-- What comes next owes nothing when the call returns. -/
def Next.owedUp (t : TreeShape) (n x : ℕ) : Next → ℤ
  | .goto pc => pc.owedUp t n x
  | .finish _ => 0

def Next.owedDown (t : TreeShape) (n x : ℕ) : Next → ℤ
  | .goto pc => pc.owedDown t n x
  | .finish _ => 0

/-- The stores that set a `lockState` to 0 without a `compare_exchange` find it 1. -/
def Pc.StoresFindLocked (m : Memory) (n : ℕ) : Pc → Prop
  | .lockRollback => (m.node n).lockState = 1
  | .upgradeRelease (d :: _) => (m.node d).lockState = 1
  | _ => True

/-- **A step balances its books upwards**: the counter of `x`, the debt of the
call to it, and the number of locked proper descendants move together. -/
theorem exec_up (hstore : pc.StoresFindLocked m n) (x : ℕ) :
    ((m.apply (pc.exec t m u n sp).1).node x).descendantLockedCount -
        (m.node x).descendantLockedCount +
        ((pc.exec t m u n sp).2.owedUp t n x - pc.owedUp t n x) =
      (t.countBelow (m.apply (pc.exec t m u n sp).1).flag x : ℤ) - t.countBelow m.flag x := by
  rw [Memory.apply_descendantLockedCount, Memory.apply_flag]
  revert hstore
  fun_cases Pc.exec t m u n sp pc <;> intro hstore <;>
    simp_all [Next.owedUp, Pc.owedUp, Forest.countBelow_update, Memory.flag,
      Pc.StoresFindLocked, Forest.chain_parent, List.count_cons]
  -- left: the `fetch_add` of the upward walk
  rename_i current _
  by_cases hx : x = current
  · simp [hx]
    ring
  · simp [hx, Ne.symm hx]

/-- **A step balances its books downwards.** -/
theorem exec_down (hstore : pc.StoresFindLocked m n) (x : ℕ) :
    ((m.apply (pc.exec t m u n sp).1).node x).ancestorLockedCount -
        (m.node x).ancestorLockedCount +
        ((pc.exec t m u n sp).2.owedDown t n x - pc.owedDown t n x) =
      (t.countAbove (m.apply (pc.exec t m u n sp).1).flag x : ℤ) - t.countAbove m.flag x := by
  rw [Memory.apply_ancestorLockedCount, Memory.apply_flag]
  revert hstore
  fun_cases Pc.exec t m u n sp pc <;> intro hstore <;>
    simp_all [Next.owedDown, Pc.owedDown, Forest.countAbove_update, Memory.flag,
      Pc.StoresFindLocked, Forest.descendants_eq, Forest.below_cons, Forest.below_append,
      List.count_cons]
  -- left: the `fetch_add` of the downward walk
  rename_i child _ _
  by_cases hx : x = child
  · simp [hx]
    ring
  · simp [hx, Ne.symm hx]

/-- **How a call comes to acquire**: it was acquiring already and leaves the lock
states alone, or it has just won its node. -/
theorem exec_acquiring {pc' : Pc} (hnext : (pc.exec t m u n sp).2 = .goto pc')
    (h : pc'.Acquiring) :
    (pc.Acquiring ∧ ∀ y v, (pc.exec t m u n sp).1 ≠ .setLockState y v) ∨
      ((pc.exec t m u n sp).1 = .setLockState n 1 ∧ (m.node n).lockState = 0) := by
  revert hnext h
  fun_cases Pc.exec t m u n sp pc <;> intro hnext h <;>
    simp only [Next.goto.injEq, reduceCtorEq] at hnext <;> subst hnext <;>
    simp_all [Pc.Acquiring]

end Exec

/-! ### Threads -/

namespace Local

/-- The node the thread has won in its current call and not finished publishing. -/
def acquires : Local → Option ℕ
  | .running _ _ n pc => if pc.Acquiring then some n else none
  | _ => none

/-- The node of the current call. -/
def target : Local → ℕ
  | .running _ _ n _ => n
  | _ => 0

def owedUp (t : TreeShape) (x : ℕ) : Local → ℤ
  | .running _ _ n pc => pc.owedUp t n x
  | _ => 0

def owedDown (t : TreeShape) (x : ℕ) : Local → ℤ
  | .running _ _ n pc => pc.owedDown t n x
  | _ => 0

def Fits (t : TreeShape) : Local → Prop
  | .running c _ n pc => pc.Fits t c.op n
  | _ => True

variable {t : TreeShape} {c : Call} {k n x : ℕ} {pc : Pc} {l : Local}

theorem acquires_running : (running c k n pc).acquires = some x ↔ pc.Acquiring ∧ n = x := by
  simp [acquires]

/-- A thread that acquires is running at an acquiring program counter. -/
theorem exists_of_acquires (h : l.acquires = some x) :
    ∃ c k pc, l = .running c k x pc ∧ pc.Acquiring := by
  cases l with
  | running c k n pc =>
      obtain ⟨hpc, rfl⟩ := acquires_running.1 h
      exact ⟨c, k, pc, rfl, hpc⟩
  | _ => cases h

theorem Fits.owedUp (h : l.Fits t) (x : ℕ) :
    l.owedUp t x ≤ 1 ∧
      (0 < l.owedUp t x → l.acquires = some l.target ∧ t.IsAncestor x l.target) := by
  cases l with
  | running c k n pc =>
      have hpc := Pc.Fits.owedUp h x
      exact ⟨hpc.1, fun hpos => ⟨acquires_running.2 ⟨(hpc.2 hpos).1, rfl⟩, (hpc.2 hpos).2⟩⟩
  | _ => simp [Local.owedUp]

theorem Fits.owedDown (h : l.Fits t) (x : ℕ) :
    l.owedDown t x ≤ 1 ∧
      (0 < l.owedDown t x → l.acquires = some l.target ∧ t.IsAncestor l.target x) := by
  cases l with
  | running c k n pc =>
      have hpc := Pc.Fits.owedDown h x
      exact ⟨hpc.1, fun hpos => ⟨acquires_running.2 ⟨(hpc.2 hpos).1, rfl⟩, (hpc.2 hpos).2⟩⟩
  | _ => simp [Local.owedDown]

/-- A call that begins fits its operation, owns nothing and owes nothing. -/
theorem enter_facts (t : TreeShape) (c : Call) (k : ℕ) :
    (enter t c k).Fits t ∧ (enter t c k).acquires = none ∧
      (∀ x, (enter t c k).owedUp t x = 0) ∧ ∀ x, (enter t c k).owedDown t x = 0 := by
  unfold enter
  cases hn : t.getNode c.nodeName with
  | none => exact ⟨trivial, rfl, fun _ => rfl, fun _ => rfl⟩
  | some n => cases hop : c.op <;> simp [Fits, Pc.entry, Pc.Fits, acquires, Pc.Acquiring,
      Local.owedUp, Pc.owedUp, Local.owedDown, Pc.owedDown, hop]

end Local

theorem Next.toLocal_owedUp (t : TreeShape) (c : Call) (k n x : ℕ) (r : Next) :
    (r.toLocal c k n).owedUp t x = r.owedUp t n x := by cases r <;> rfl

theorem Next.toLocal_owedDown (t : TreeShape) (c : Call) (k n x : ℕ) (r : Next) :
    (r.toLocal c k n).owedDown t x = r.owedDown t n x := by cases r <;> rfl

/-! ### The three kinds of step -/

variable {Tid : Type}

theorem fits_running {t : TreeShape} {s : State Tid} (h : ∀ i, (s.thread i).Fits t) {i : Tid}
    {c : Call} {k n : ℕ} {pc : Pc} (hi : s.thread i = .running c k n pc) : pc.Fits t c.op n := by
  have hfits := h i
  rwa [hi] at hfits

/-- An access is recorded as a change of a `lockState`, or not at all. -/
theorem mem_events {i : Tid} {a : Access} {e : Event Tid} (h : e ∈ a.events i) :
    ∃ n, e = .acquire i n ∨ e = .release i n := by
  cases a with
  | setLockState n v =>
      rw [Access.events, List.mem_singleton] at h
      split at h
      · exact ⟨n, .inl h⟩
      · exact ⟨n, .inr h⟩
  | _ => cases h

/-- What only a release can end, an access changes by releasing. -/
theorem events_iff {P : List (Event Tid) → Prop} {spares : ℕ → Prop} {i : Tid} {a : Access}
    {H : List (Event Tid)} (hacquire : ∀ n, P (.acquire i n :: H) ↔ P H)
    (hrelease : ∀ n, P (.release i n :: H) ↔ spares n ∧ P H) :
    P (a.events i ++ H) ↔
      match a with
      | .setLockState n v => (v ≠ 1 → spares n) ∧ P H
      | _ => P H := by
  cases a with
  | setLockState n v =>
      simp only [Access.events, List.singleton_append]
      split
      · rename_i hv
        rw [hacquire]
        exact ⟨fun h => ⟨fun hne => absurd hv hne, h⟩, fun h => h.2⟩
      · rename_i hv
        rw [hrelease]
        exact and_congr_left fun _ => ⟨fun h _ => h, fun h => h hv⟩
  | _ => rfl

/-- A step begins a call, makes the next step of one, or returns from one. -/
inductive Move [DecidableEq Tid] (t : TreeShape) (s : State Tid) : Label Tid → State Tid → Prop
  | invoke (i : Tid) (c : Call) (h : s.thread i = .idle) :
      Move t s (.invoke i c)
        ⟨s.mem, Function.update s.thread i (.enter t c s.hist.length), .invoke i c :: s.hist⟩
  | exec (i : Tid) (sp : Bool) (c : Call) (k n : ℕ) (pc : Pc)
      (h : s.thread i = .running c k n pc) :
      Move t s (.tick i sp)
        ⟨s.mem.apply (pc.exec t s.mem c.userId n sp).1,
          Function.update s.thread i ((pc.exec t s.mem c.userId n sp).2.toLocal c k n),
          (pc.exec t s.mem c.userId n sp).1.events i ++ s.hist⟩
  | ret (i : Tid) (sp : Bool) (c : Call) (k : ℕ) (r : Bool) (h : s.thread i = .returning c k r) :
      Move t s (.tick i sp)
        ⟨s.mem, Function.update s.thread i .idle, .ret i c k r :: s.hist⟩

theorem move_of_step [DecidableEq Tid] {t : TreeShape} {s s' : State Tid} {l : Label Tid}
    (h : step t s l = some s') : Move t s l s' := by
  cases l with
  | invoke i c =>
      cases hi : s.thread i with
      | idle =>
          simp only [step, hi, Option.some.injEq] at h
          subst h
          exact .invoke i c hi
      | _ => simp [step, hi] at h
  | tick i sp =>
      cases hi : s.thread i with
      | idle => simp [step, hi] at h
      | running c k n pc =>
          simp only [step, hi, Option.some.injEq] at h
          subst h
          exact .exec i sp c k n pc hi
      | returning c k r =>
          simp only [step, hi, Option.some.injEq] at h
          subst h
          exact .ret i sp c k r hi

end Atomic
end PaymentGateway
