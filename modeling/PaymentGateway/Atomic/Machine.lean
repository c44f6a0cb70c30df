/-
# `AtomicPaymentTree` as a machine of single atomic accesses

`src/atomic_tree.cpp` and `include/atomic_tree_node.h`.  The mutable fields of a
node are four `std::atomic<int>`; every load, store, `fetch_add` and
`compare_exchange` on them is one indivisible step, in a sequentially consistent
interleaving of any number of threads.  A `compare_exchange_weak` may fail
spuriously: the label of a step says whether it does.

A thread is outside every call, inside one (`Local.running`, at the program
counter `Pc`), or about to return.  `Pc.exec` is the program: one step at each
program counter, with at most one access to shared memory.  The comments give
the source lines.  Names are resolved when a call begins, because the tree is
fixed while threads run; an unknown name makes the call return `false`.

The propagation walks keep the position of the source: `informUp` stands at
`current`, `informDown` keeps the subtrees its recursion has still to visit, in
visiting order.  `After` says what follows a propagation: the call returns true,
or the release loop of `upgradeLock` goes on with the remaining descendants.

`State.hist` records, newest first, the calls that began and returned and every
access that changed a `lockState`.  Nothing reads it; the properties of whole
runs are stated about it.
-/

import PaymentGateway.Lib.Transition
import PaymentGateway.Tree.Shape

namespace PaymentGateway
namespace Atomic

open Lib

/-! ### Shared memory -/

/-- The atomic fields of an `AtomicTreeNode`: `lockState` is 0 or 1, `lockedBy`
the id of the holder or -1. -/
structure AtomicTreeNode where
  lockState : ℤ
  lockedBy : ℤ
  ancestorLockedCount : ℤ
  descendantLockedCount : ℤ
  deriving DecidableEq, Repr

/-- The fields set by the constructor `AtomicTreeNode::AtomicTreeNode`. -/
def AtomicTreeNode.fresh : AtomicTreeNode := ⟨0, -1, 0, 0⟩

/-- `AtomicPaymentTree::Metrics`. -/
structure Metrics where
  totalTransactions : ℤ := 0
  successfulLocks : ℤ := 0
  failedLocks : ℤ := 0
  casRetries : ℤ := 0
  deriving DecidableEq, Repr

/-- The atomics of all nodes and of the metrics. -/
structure Memory where
  node : ℕ → AtomicTreeNode
  metrics : Metrics

/-- A tree: its shape and the shared memory. -/
structure AtomicPaymentTree where
  shape : TreeShape
  mem : Memory

namespace AtomicPaymentTree

/-- The constructor `AtomicPaymentTree::AtomicPaymentTree`. -/
def empty : AtomicPaymentTree := ⟨.empty, ⟨fun _ => .fresh, {}⟩⟩

/-- `addNode`; a newly allocated node gets the fields of the constructor. -/
def addNode (t : AtomicPaymentTree) (nodeName parentName : String) : AtomicPaymentTree where
  shape := t.shape.addNode nodeName parentName
  mem := if (t.shape.addNode nodeName parentName).size = t.shape.size then t.mem
    else { t.mem with node := Function.update t.mem.node t.shape.size .fresh }

/-- The tree after a sequence of `addNode` calls. -/
def build (adds : List NodeSpec) : AtomicPaymentTree :=
  adds.foldl (fun t a => t.addNode a.nodeName a.parentName) empty

theorem build_shape_eq (adds : List NodeSpec) : (build adds).shape = TreeShape.build adds :=
  (List.foldl_hom AtomicPaymentTree.shape fun _ _ => rfl).symm

end AtomicPaymentTree

/-- What a step does to shared memory. -/
inductive Access
  /-- a load, a failed `compare_exchange`, or no access at all -/
  | read
  /-- a successful `compare_exchange` or a store on `lockState` -/
  | setLockState (n : ℕ) (v : ℤ)
  | setLockedBy (n : ℕ) (v : ℤ)
  | addAncestorLocked (n : ℕ) (delta : ℤ)
  | addDescendantLocked (n : ℕ) (delta : ℤ)
  | addCasRetries
  deriving DecidableEq, Repr

namespace Memory

variable (m : Memory)

/-- Change one node. -/
def setNode (n : ℕ) (v : AtomicTreeNode) : Memory := { m with node := Function.update m.node n v }

/-- The memory after an access. -/
def apply : Access → Memory
  | .read => m
  | .setLockState n v => m.setNode n { m.node n with lockState := v }
  | .setLockedBy n v => m.setNode n { m.node n with lockedBy := v }
  | .addAncestorLocked n delta =>
      m.setNode n { m.node n with ancestorLockedCount := (m.node n).ancestorLockedCount + delta }
  | .addDescendantLocked n delta =>
      m.setNode n
        { m.node n with descendantLockedCount := (m.node n).descendantLockedCount + delta }
  | .addCasRetries =>
      { m with metrics := { m.metrics with casRetries := m.metrics.casRetries + 1 } }

end Memory

/-! ### The program of a call -/

/-- What follows a propagation. -/
inductive After
  /-- `return true` -/
  | finish
  /-- the next round of the release loop of `upgradeLock` -/
  | release (lockedDescendants : List ℕ)
  deriving DecidableEq, Repr

/-- Where a call stands: the next access it makes. -/
inductive Pc
  -- `lock`
  | lockLoadAncestors
  | lockLoadDescendants
  | lockCas
  | lockCountRetry
  | lockReloadAncestors
  | lockReloadDescendants
  | lockRollback
  -- `unlock`
  | unlockLoadOwner
  | unlockClearOwner
  | unlockCas
  | unlockRestoreOwner
  | unlockCountRetry
  -- `upgradeLock`
  | upgradeLoadState
  | upgradeLoadAncestors
  | upgradeScan (bfs lockedDescendants : List ℕ)
  | upgradeLoadOwner (current : ℕ) (bfs lockedDescendants : List ℕ)
  | upgradeRelease (lockedDescendants : List ℕ)
  | upgradeClearOwner (desc : ℕ) (lockedDescendants : List ℕ)
  | upgradeCas
  -- the end of every acquisition, and the two propagation walks
  | storeOwner
  | informUp (node : ℕ) (delta : ℤ) (current : Option ℕ) (after : After)
  | informDown (node : ℕ) (delta : ℤ) (children : List ℕ) (after : After)
  deriving DecidableEq, Repr

/-- The first step of an operation on a node that exists. -/
def Pc.entry : Op → Pc
  | .lock => .lockLoadAncestors
  | .unlock => .unlockLoadOwner
  | .upgradeLock => .upgradeLoadState

/-- How a step ends: at another program counter, or with a result. -/
inductive Next
  | goto (pc : Pc)
  | finish (result : Bool)
  deriving DecidableEq, Repr

/-- **One step of a call** on the node `n` by the user `userId`, in memory `m`:
its access and what comes next.  `spurious` lets a `compare_exchange_weak` fail
although the expected value is there. -/
def Pc.exec (t : TreeShape) (m : Memory) (userId : ℤ) (n : ℕ) (spurious : Bool) :
    Pc → Access × Next
  -- lines 65-72: refuse when a counter says that a relative is locked
  | .lockLoadAncestors =>
      if (m.node n).ancestorLockedCount > 0 then (.read, .finish false)
      else (.read, .goto .lockLoadDescendants)
  | .lockLoadDescendants =>
      if (m.node n).descendantLockedCount > 0 then (.read, .finish false)
      else (.read, .goto .lockCas)
  -- lines 75-85: the retry loop; a failure with `expected == 0` was spurious
  | .lockCas =>
      if (m.node n).lockState ≠ 0 then (.read, .finish false)
      else if spurious then (.read, .goto .lockCountRetry)
      else (.setLockState n 1, .goto .lockReloadAncestors)
  | .lockCountRetry => (.addCasRetries, .goto .lockCas)
  -- lines 88-93: re-validate, roll back on a conflict
  | .lockReloadAncestors =>
      if (m.node n).ancestorLockedCount > 0 then (.read, .goto .lockRollback)
      else (.read, .goto .lockReloadDescendants)
  | .lockReloadDescendants =>
      if (m.node n).descendantLockedCount > 0 then (.read, .goto .lockRollback)
      else (.read, .goto .storeOwner)
  | .lockRollback => (.setLockState n 0, .finish false)
  -- lines 107-109
  | .unlockLoadOwner =>
      if (m.node n).lockedBy ≠ userId then (.read, .finish false)
      else (.read, .goto .unlockClearOwner)
  -- line 112
  | .unlockClearOwner => (.setLockedBy n (-1), .goto .unlockCas)
  -- lines 115-122, a strong `compare_exchange`
  | .unlockCas =>
      if (m.node n).lockState = 1 then
        (.setLockState n 0, .goto (.informUp n (-1) (t.parent n) .finish))
      else (.read, .goto .unlockRestoreOwner)
  | .unlockRestoreOwner => (.setLockedBy n userId, .goto .unlockCountRetry)
  | .unlockCountRetry => (.addCasRetries, .finish false)
  -- lines 135-142
  | .upgradeLoadState =>
      if (m.node n).lockState ≠ 0 then (.read, .finish false)
      else (.read, .goto .upgradeLoadAncestors)
  | .upgradeLoadAncestors =>
      if (m.node n).ancestorLockedCount > 0 then (.read, .finish false)
      else (.read, .goto (.upgradeScan (t.children n) []))
  -- lines 150-166: one round of the BFS, two loads for a locked node
  | .upgradeScan [] lockedDescendants =>
      if lockedDescendants.isEmpty then (.read, .finish false)
      else (.read, .goto (.upgradeRelease lockedDescendants))
  | .upgradeScan (current :: bfs) lockedDescendants =>
      if (m.node current).lockState = 1 then
        (.read, .goto (.upgradeLoadOwner current bfs lockedDescendants))
      else (.read, .goto (.upgradeScan (bfs ++ t.children current) lockedDescendants))
  | .upgradeLoadOwner current bfs lockedDescendants =>
      if (m.node current).lockedBy ≠ userId then (.read, .finish false)
      else (.read, .goto
        (.upgradeScan (bfs ++ t.children current) (lockedDescendants ++ [current])))
  -- lines 169-174: the release loop
  | .upgradeRelease [] => (.read, .goto .upgradeCas)
  | .upgradeRelease (desc :: rest) => (.setLockState desc 0, .goto (.upgradeClearOwner desc rest))
  | .upgradeClearOwner desc rest =>
      (.setLockedBy desc (-1), .goto (.informUp desc (-1) (t.parent desc) (.release rest)))
  -- lines 177-181, a strong `compare_exchange`
  | .upgradeCas =>
      if (m.node n).lockState = 0 then (.setLockState n 1, .goto .storeOwner)
      else (.read, .finish false)
  -- lines 96-99 and 183-186
  | .storeOwner => (.setLockedBy n userId, .goto (.informUp n 1 (t.parent n) .finish))
  -- lines 43-49: `informAncestorsAtomic`
  | .informUp node delta (some current) after =>
      (.addDescendantLocked current delta, .goto (.informUp node delta (t.parent current) after))
  | .informUp node delta none after =>
      (.read, .goto (.informDown node delta (t.children node) after))
  -- lines 52-57: `informDescendantsAtomic`
  | .informDown node delta (child :: rest) after =>
      (.addAncestorLocked child delta,
        .goto (.informDown node delta (t.children child ++ rest) after))
  | .informDown _ _ [] .finish => (.read, .finish true)
  | .informDown _ _ [] (.release rest) => (.read, .goto (.upgradeRelease rest))

/-! ### Threads and histories -/

variable {Tid : Type}

/-- What happened, as far as the outside and the lock flags are concerned. -/
inductive Event (Tid : Type)
  | invoke (t : Tid) (c : Call)
  /-- a successful `compare_exchange` of `lock` or `upgradeLock` on `lockState` -/
  | acquire (t : Tid) (n : ℕ)
  /-- the rollback of `lock`, the successful `compare_exchange` of `unlock`, or the
  store of 0 of `upgradeLock` -/
  | release (t : Tid) (n : ℕ)
  | ret (t : Tid) (c : Call) (begun : ℕ) (result : Bool)
  deriving DecidableEq, Repr

/-- The event of an access, if it is one that changes a `lockState`. -/
def Access.events (t : Tid) : Access → List (Event Tid)
  | .setLockState n v => [if v = 1 then .acquire t n else .release t n]
  | _ => []

/-- The part of the state that belongs to one thread.  `begun` is the length of
the history when the call began. -/
inductive Local
  | idle
  | running (c : Call) (begun : ℕ) (n : ℕ) (pc : Pc)
  | returning (c : Call) (begun : ℕ) (result : Bool)
  deriving DecidableEq, Repr

/-- The state of the whole machine. -/
structure State (Tid : Type) where
  mem : Memory
  thread : Tid → Local
  hist : List (Event Tid)

/-- A step: a thread begins a call, or makes its next step. -/
inductive Label (Tid : Type)
  | invoke (t : Tid) (c : Call)
  | tick (t : Tid) (spurious : Bool := false)
  deriving DecidableEq, Repr

/-- The thread that steps. -/
def Label.tid : Label Tid → Tid
  | .invoke t _ => t
  | .tick t _ => t

/-- A call resolves its node name and starts. -/
def Local.enter (t : TreeShape) (c : Call) (begun : ℕ) : Local :=
  match t.getNode c.nodeName with
  | none => .returning c begun false
  | some n => .running c begun n (.entry c.op)

/-- The thread after a step that ended as `Next` says. -/
def Next.toLocal (c : Call) (begun n : ℕ) : Next → Local
  | .goto pc => .running c begun n pc
  | .finish result => .returning c begun result

/-- **One step of the machine.** -/
def step [DecidableEq Tid] (t : TreeShape) (s : State Tid) : Label Tid → Option (State Tid)
  | .invoke i c =>
      match s.thread i with
      | .idle => some
          { s with
            thread := Function.update s.thread i (.enter t c s.hist.length)
            hist := .invoke i c :: s.hist }
      | _ => none
  | .tick i spurious =>
      match s.thread i with
      | .idle => none
      | .running c begun n pc =>
          let r := pc.exec t s.mem c.userId n spurious
          some
            { mem := s.mem.apply r.1
              thread := Function.update s.thread i (r.2.toLocal c begun n)
              hist := r.1.events i ++ s.hist }
      | .returning c begun result => some
          { s with
            thread := Function.update s.thread i .idle
            hist := .ret i c begun result :: s.hist }

/-- All threads outside every call, on a tree that has just been built. -/
def start (t : AtomicPaymentTree) : State Tid := ⟨t.mem, fun _ => .idle, []⟩

end Atomic
end PaymentGateway
