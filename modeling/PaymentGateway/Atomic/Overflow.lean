/-
# `int` counters and `long long` metrics

`Memory` counts with integers of any size.  In the source (`include/atomic_tree_node.h`)
the four fields of a node are `std::atomic<int>` and the four metrics are
`std::atomic<long long>`: a load gives a signed value of 32 or of 64 bits, and `fetch_add`
wraps around.  `WordMemory` is that memory, and `stepWords` the same program on it.

Storing an integer in a word commutes with every access, so the two machines can only
part where a load does not give back what was stored, that is where a value has left
the range of its type.  No field of a node does: a counter exceeds the number of locked
relatives at most by the releases that are still being published, one for each thread
(`Sound.descendants_le`, `Sound.ancestors_le`).  Hence with fewer than `2 ^ 31` nodes and
threads together the program on words takes the same steps in every schedule, with the
same results (`int_suffices`), and what is proved about the one holds of the other.  The
metrics decide no step, and `casRetries` gives back what was stored for `2 ^ 63` steps.
-/

import PaymentGateway.Atomic.DistinctUsers
import PaymentGateway.Lib.Schedule

namespace PaymentGateway
namespace Atomic

open Lib

variable {Tid : Type}

/-! ### How far a counter can be off -/

section Bounds

variable {t : TreeShape} {n : ℕ}

theorem After.Fits.delta_eq {op : Op} {node : ℕ} {delta : ℤ} {after : After}
    (h : after.Fits t op n node delta) : delta = 1 ∨ delta = -1 := by
  cases after with
  | finish =>
      obtain ⟨-, ⟨rfl, -⟩ | ⟨rfl, -⟩⟩ := h
      · exact .inl rfl
      · exact .inr rfl
  | release ds => exact .inr h.1

/-- A call takes one node at a time back from a counter above it. -/
theorem Pc.Fits.neg_one_le_owedUp {pc : Pc} {op : Op} (h : pc.Fits t op n) (x : ℕ) :
    -1 ≤ pc.owedUp t n x := by
  have hle (d : ℕ) : (t.ancestors d).count x ≤ 1 := by
    rw [Forest.count_ancestors]
    split <;> omega
  cases pc with
  | informUp node delta current after =>
      obtain ⟨hafter, hcount⟩ := h
      have h₁ := hcount x
      have h₂ := hle node
      rcases hafter.delta_eq with rfl | rfl <;> simp only [Pc.owedUp] <;> omega
  | upgradeClearOwner d ds =>
      have := hle d
      simp only [Pc.owedUp]
      omega
  | _ =>
      simp only [Pc.owedUp]
      omega

/-- A call takes one node at a time back from a counter below it. -/
theorem Pc.Fits.neg_one_le_owedDown {pc : Pc} {op : Op} (h : pc.Fits t op n) (x : ℕ) :
    -1 ≤ pc.owedDown t n x := by
  have hle (d : ℕ) : (t.descendants d).count x ≤ 1 := by
    rw [Forest.count_descendants]
    split <;> omega
  cases pc with
  | informUp node delta current after | informDown node delta children after =>
      obtain ⟨hafter, hcount⟩ := h
      have h₁ := hcount x
      have h₂ := hle node
      rcases hafter.delta_eq with rfl | rfl <;> simp only [Pc.owedDown] <;> omega
  | upgradeClearOwner d ds =>
      have := hle d
      simp only [Pc.owedDown]
      omega
  | _ =>
      simp only [Pc.owedDown]
      omega

variable [Fintype Tid] {s : State Tid}

/-- **No `descendantLockedCount` exceeds what it counts by more than the number of
threads.** -/
theorem Sound.descendants_le (h : Sound t s) (x : ℕ) :
    (s.mem.node x).descendantLockedCount ≤ t.countBelow s.mem.flag x + Fintype.card Tid := by
  refine (h.up x).le_add_card fun i => ?_
  have hfits := h.fits i
  simp only [Function.comp_apply]
  cases hi : s.thread i with
  | running c k n pc =>
      rw [hi] at hfits
      exact Pc.Fits.neg_one_le_owedUp hfits x
  | _ => simp [Local.owedUp]

/-- **No `ancestorLockedCount` exceeds what it counts by more than the number of
threads.** -/
theorem Sound.ancestors_le (h : Sound t s) (x : ℕ) :
    (s.mem.node x).ancestorLockedCount ≤ t.countAbove s.mem.flag x + Fintype.card Tid := by
  refine (h.down x).le_add_card fun i => ?_
  have hfits := h.fits i
  simp only [Function.comp_apply]
  cases hi : s.thread i with
  | running c k n pc =>
      rw [hi] at hfits
      exact Pc.Fits.neg_one_le_owedDown hfits x
  | _ => simp [Local.owedDown]

end Bounds

/-! ### The machine on words -/

/-- The fields of `AtomicTreeNode` as they are stored, each a `std::atomic<int>`. -/
structure AtomicTreeNode32 where
  lockState : BitVec 32
  lockedBy : BitVec 32
  ancestorLockedCount : BitVec 32
  descendantLockedCount : BitVec 32
  deriving DecidableEq, Repr

/-- The fields of `AtomicPaymentTree::Metrics` as they are stored, each a
`std::atomic<long long>`. -/
structure Metrics64 where
  totalTransactions : BitVec 64
  successfulLocks : BitVec 64
  failedLocks : BitVec 64
  casRetries : BitVec 64
  deriving DecidableEq, Repr

/-- Shared memory as it is stored. -/
structure WordMemory where
  node : ℕ → AtomicTreeNode32
  metrics : Metrics64

/-- Store the values of a node. -/
def AtomicTreeNode.toInt32 (v : AtomicTreeNode) : AtomicTreeNode32 :=
  ⟨.ofInt 32 v.lockState, .ofInt 32 v.lockedBy, .ofInt 32 v.ancestorLockedCount,
    .ofInt 32 v.descendantLockedCount⟩

/-- Load the values of a node. -/
def AtomicTreeNode32.load (v : AtomicTreeNode32) : AtomicTreeNode :=
  ⟨v.lockState.toInt, v.lockedBy.toInt, v.ancestorLockedCount.toInt,
    v.descendantLockedCount.toInt⟩

def Metrics.toInt64 (v : Metrics) : Metrics64 :=
  ⟨.ofInt 64 v.totalTransactions, .ofInt 64 v.successfulLocks, .ofInt 64 v.failedLocks,
    .ofInt 64 v.casRetries⟩

def Metrics64.load (v : Metrics64) : Metrics :=
  ⟨v.totalTransactions.toInt, v.successfulLocks.toInt, v.failedLocks.toInt, v.casRetries.toInt⟩

def Memory.toWords (m : Memory) : WordMemory := ⟨fun n => (m.node n).toInt32, m.metrics.toInt64⟩

namespace WordMemory

variable (m : WordMemory)

/-- What the loads of a step read. -/
def load : Memory := ⟨fun n => (m.node n).load, m.metrics.load⟩

def setNode (n : ℕ) (v : AtomicTreeNode32) : WordMemory :=
  { m with node := Function.update m.node n v }

/-- The memory after an access; `fetch_add` wraps around, at 32 bits on a counter of a node
and at 64 bits on `casRetries`. -/
def apply : Access → WordMemory
  | .read => m
  | .setLockState n v => m.setNode n { m.node n with lockState := .ofInt 32 v }
  | .setLockedBy n v => m.setNode n { m.node n with lockedBy := .ofInt 32 v }
  | .addAncestorLocked n delta => m.setNode n { m.node n with
      ancestorLockedCount := (m.node n).ancestorLockedCount + .ofInt 32 delta }
  | .addDescendantLocked n delta => m.setNode n { m.node n with
      descendantLockedCount := (m.node n).descendantLockedCount + .ofInt 32 delta }
  | .addCasRetries =>
      { m with metrics := { m.metrics with casRetries := m.metrics.casRetries + 1 } }

end WordMemory

/-- The state of the machine on words. -/
structure WordState (Tid : Type) where
  mem : WordMemory
  thread : Tid → Local
  hist : List (Event Tid)

/-- **One step of the machine on words**: the program `Pc.exec`, on what it loads. -/
def stepWords [DecidableEq Tid] (t : TreeShape) (s : WordState Tid) :
    Label Tid → Option (WordState Tid)
  | .invoke i c =>
      match s.thread i with
      | .idle => some
          { s with
            thread := Function.update s.thread i (.enter t c s.hist.length)
            hist := .invoke i c :: s.hist }
      | _ => none
  | .tick i spurious =>
      match s.thread i with
      | .idle => none
      | .running c begun n pc =>
          let r := pc.exec t s.mem.load c.userId n spurious
          some
            { mem := s.mem.apply r.1
              thread := Function.update s.thread i (r.2.toLocal c begun n)
              hist := r.1.events i ++ s.hist }
      | .returning c begun result => some
          { s with
            thread := Function.update s.thread i .idle
            hist := .ret i c begun result :: s.hist }

/-- The state with its memory stored in words. -/
def State.toWords (s : State Tid) : WordState Tid := ⟨s.mem.toWords, s.thread, s.hist⟩

/-! ### Where the two machines agree -/

/-- The values of `int`. -/
def FitsInt (v : ℤ) : Prop := -2 ^ 31 ≤ v ∧ v < 2 ^ 31

instance : DecidablePred FitsInt := fun v => inferInstanceAs (Decidable (-2 ^ 31 ≤ v ∧ v < 2 ^ 31))

theorem FitsInt.toInt_ofInt {v : ℤ} (h : FitsInt v) : (BitVec.ofInt 32 v).toInt = v :=
  BitVec.toInt_ofInt_eq_self (by decide) h.1 h.2

/-- Every field of every node is in the range of `int`. -/
def Memory.FitsInt (m : Memory) : Prop :=
  ∀ n, Atomic.FitsInt (m.node n).lockState ∧ Atomic.FitsInt (m.node n).lockedBy ∧
    Atomic.FitsInt (m.node n).ancestorLockedCount ∧ Atomic.FitsInt (m.node n).descendantLockedCount

/-- What fits is loaded as it was stored. -/
theorem Memory.FitsInt.load_toWords {m : Memory} (h : m.FitsInt) :
    m.toWords.load.node = m.node := by
  funext n
  obtain ⟨h₁, h₂, h₃, h₄⟩ := h n
  simp only [WordMemory.load, Memory.toWords, AtomicTreeNode.toInt32, AtomicTreeNode32.load,
    h₁.toInt_ofInt, h₂.toInt_ofInt, h₃.toInt_ofInt, h₄.toInt_ofInt]

/-- **Storing in words commutes with every access.** -/
theorem toWords_apply (m : Memory) (a : Access) : (m.apply a).toWords = m.toWords.apply a := by
  have hset (n : ℕ) (v : AtomicTreeNode) :
      (m.setNode n v).toWords = m.toWords.setNode n v.toInt32 := by
    simp only [Memory.toWords, Memory.setNode, WordMemory.setNode, WordMemory.mk.injEq, and_true]
    funext x
    by_cases hx : x = n
    · simp [hx]
    · simp [hx]
  cases a with
  | read => rfl
  | setLockState n v | setLockedBy n v =>
      rw [Memory.apply, hset]
      rfl
  | addAncestorLocked n delta | addDescendantLocked n delta =>
      rw [Memory.apply, hset]
      simp [WordMemory.apply, AtomicTreeNode.toInt32, Memory.toWords, BitVec.ofInt_add]
  | addCasRetries =>
      simp [Memory.apply, WordMemory.apply, Memory.toWords, Metrics.toInt64, BitVec.ofInt_add]

/-- A step of a call reads nothing but the nodes. -/
theorem exec_congr {t : TreeShape} {m m' : Memory} (h : m'.node = m.node) (u : ℤ) (n : ℕ)
    (sp : Bool) (pc : Pc) : pc.exec t m' u n sp = pc.exec t m u n sp := by
  unfold Pc.exec
  rw [h]

/-- **A step from a state that fits is the same step on words.** -/
theorem stepWords_toWords [DecidableEq Tid] {t : TreeShape} {s : State Tid} (h : s.mem.FitsInt)
    (l : Label Tid) : stepWords t s.toWords l = (step t s l).map State.toWords := by
  cases l with
  | invoke i c =>
      simp only [stepWords, step, State.toWords]
      cases s.thread i <;> rfl
  | tick i sp =>
      simp only [stepWords, step, State.toWords]
      cases s.thread i with
      | running c k n pc =>
          simp only [exec_congr h.load_toWords, Option.map_some, State.toWords, toWords_apply]
      | _ => rfl

/-- The calls add to `casRetries` and to no other metric, one for each step at most. -/
theorem metrics_of_exec [DecidableEq Tid] {t : TreeShape} {guard : State Tid → Label Tid → Prop}
    [∀ s l, Decidable (guard s l)] {s s' : State Tid} {labels : List (Label Tid)}
    (h : exec (step t) guard s labels = some s') :
    ∃ retries ≤ labels.length, s'.mem.metrics =
      { s.mem.metrics with casRetries := s.mem.metrics.casRetries + (retries : ℕ) } := by
  induction labels using List.reverseRecOn generalizing s' with
  | nil =>
      obtain rfl := Option.some.inj h
      exact ⟨0, le_rfl, by simp⟩
  | append_singleton labels l ih =>
      obtain ⟨s₁, hs₁, -, hs'⟩ := exec_concat.1 h
      obtain ⟨retries, hle, hmetrics⟩ := ih hs₁
      rw [List.length_append, List.length_singleton]
      cases move_of_step hs' with
      | invoke i c hi => exact ⟨retries, hle.trans (Nat.le_succ _), hmetrics⟩
      | ret i sp c k r hi => exact ⟨retries, hle.trans (Nat.le_succ _), hmetrics⟩
      | exec i sp c k n pc hi =>
          cases (pc.exec t s₁.mem c.userId n sp).1 with
          | addCasRetries =>
              refine ⟨retries + 1, Nat.succ_le_succ hle, ?_⟩
              simp only [Memory.apply, hmetrics, Nat.cast_add, Nat.cast_one, add_assoc]
          | _ => exact ⟨retries, hle.trans (Nat.le_succ _), hmetrics⟩

section Run

variable [DecidableEq Tid] {adds : List NodeSpec} {user : Tid → ℤ} {s : State Tid}

/-- After fewer than `2 ^ 63` steps the metrics load as they were stored. -/
theorem play_metrics_load {labels : List (Label Tid)} (h : play adds user labels = some s)
    (hlength : labels.length < 2 ^ 63) : s.mem.metrics.toInt64.load = s.mem.metrics := by
  obtain ⟨retries, hle, hmetrics⟩ := metrics_of_exec h
  have hretries : (BitVec.ofInt 64 (retries : ℤ)).toInt = retries :=
    BitVec.toInt_ofInt_eq_self (by decide) (by omega) (by omega)
  rw [start, build_metrics] at hmetrics
  simp only [hmetrics, Metrics.toInt64, Metrics64.load, zero_add, hretries]
  rfl

variable [Fintype Tid]

/-- With fewer than `2 ^ 31` nodes and threads together every field stays in range. -/
theorem OwnRun.fitsInt (hu : DistinctUsers user) (hids : ∀ i, FitsInt (user i))
    (hsize : (AtomicPaymentTree.build adds).shape.size + Fintype.card Tid < 2 ^ 31)
    (h : OwnRun adds user s) : s.mem.FitsInt := by
  obtain ⟨hsound, hcust⟩ := h.sound_custody hu
  intro n
  have hstate := hsound.lockState n
  have hbelow := (AtomicPaymentTree.build adds).shape.countBelow_le_size s.mem.flag n
  have habove := (AtomicPaymentTree.build adds).shape.countAbove_le_size s.mem.flag n
  have hdesc := hsound.descendants_le n
  have hanc := hsound.ancestors_le n
  have hdesc₀ := hsound.descendants_nonneg n
  have hanc₀ := hsound.ancestors_nonneg n
  refine ⟨?_, ?_, ?_, ?_⟩
  · rcases hstate with h | h <;> rw [h] <;> decide
  · rcases hcust.owner n with h | ⟨i, h, -⟩
    · rw [h]
      decide
    · rw [h]
      exact hids i
  · exact ⟨by omega, by omega⟩
  · exact ⟨by omega, by omega⟩

/-- **`int` is enough.**  On every tree and for any threads with distinct ids, as long as
nodes and threads number fewer than `2 ^ 31` together: every schedule runs on the machine
on words exactly as far, and into the state that stores the one it reaches on the machine
with unbounded integers; so each call steps, blocks and returns alike.  The fields of the
nodes load as they were stored, and so do the metrics after fewer than `2 ^ 63` steps.  No
counter is ever negative, or ahead of its count by more than the number of threads. -/
theorem int_suffices (hu : DistinctUsers user) (hids : ∀ i, FitsInt (user i))
    (hsize : (AtomicPaymentTree.build adds).shape.size + Fintype.card Tid < 2 ^ 31)
    (labels : List (Label Tid)) :
    exec (stepWords (AtomicPaymentTree.build adds).shape) (fun _ l => OwnUser user l)
        (start (AtomicPaymentTree.build adds)).toWords labels =
      (play adds user labels).map State.toWords ∧
    ∀ s, play adds user labels = some s → s.toWords.mem.load.node = s.mem.node ∧
      (labels.length < 2 ^ 63 → s.toWords.mem.load = s.mem) ∧
      ∀ n, (0 ≤ (s.mem.node n).ancestorLockedCount ∧ (s.mem.node n).ancestorLockedCount ≤
          (AtomicPaymentTree.build adds).shape.countAbove s.mem.flag n + Fintype.card Tid) ∧
        (0 ≤ (s.mem.node n).descendantLockedCount ∧ (s.mem.node n).descendantLockedCount ≤
          (AtomicPaymentTree.build adds).shape.countBelow s.mem.flag n + Fintype.card Tid) := by
  refine ⟨exec_map (fun s₁ l h => ⟨Iff.rfl, fun _ => ?_⟩) labels, fun s hs => ?_⟩
  · exact stepWords_toWords (OwnRun.fitsInt hu hids hsize h) l
  · have hrun : OwnRun adds user s := reaches_of_exec hs
    obtain ⟨hsound, -⟩ := hrun.sound_custody hu
    have hnodes := (hrun.fitsInt hu hids hsize).load_toWords
    refine ⟨hnodes, fun hlength => ?_, fun n => ⟨⟨hsound.ancestors_nonneg n, hsound.ancestors_le n⟩,
      ⟨hsound.descendants_nonneg n, hsound.descendants_le n⟩⟩⟩
    have hmetrics : s.mem.metrics.toInt64.load = s.mem.metrics := play_metrics_load hs hlength
    calc s.toWords.mem.load
        = ⟨s.mem.toWords.load.node, s.mem.metrics.toInt64.load⟩ := rfl
      _ = s.mem := by rw [hnodes, hmetrics]

/-- Thread 0 has locked `Left`, with one spurious failure, and is giving it back: the counter
of `Root`, in 32 bits, is one ahead of the locks. -/
theorem int_suffices_releasing :
    ∃ (labels : List (Label (Fin 2))) (s : State (Fin 2)),
      play smallTree twoUsers labels = some s ∧
      exec (stepWords (AtomicPaymentTree.build smallTree).shape) (fun _ l => OwnUser twoUsers l)
        (start (AtomicPaymentTree.build smallTree)).toWords labels = some s.toWords ∧
      s.toWords.mem.load = s.mem ∧ s.mem.metrics.casRetries = 1 ∧
      (s.toWords.mem.load.node 0).descendantLockedCount = 1 ∧ (s.mem.node 1).lockState = 0 := by
  let labels : List (Label (Fin 2)) := .invoke 0 ⟨.lock, "Left", 0⟩ :: turns 0 2 ++
    [.tick 0 true] ++ turns 0 9 ++ .invoke 0 ⟨.unlock, "Left", 0⟩ :: turns 0 3
  have hany : (play smallTree twoUsers labels).any (fun s => decide
      ((s.mem.node 0).descendantLockedCount = 1 ∧ (s.mem.node 1).lockState = 0 ∧
        s.mem.metrics.casRetries = 1)) = true := by
    decide +kernel
  obtain ⟨s, hs, hp⟩ := (Option.any_eq_true _ _).1 hany
  obtain ⟨hcount, hfree, hretries⟩ := of_decide_eq_true hp
  have hsize : (AtomicPaymentTree.build smallTree).shape.size + Fintype.card (Fin 2) < 2 ^ 31 := by
    decide +kernel
  obtain ⟨hrun, hload⟩ := int_suffices twoUsers_distinct (by decide) hsize labels
  have hmem := (hload s hs).2.1 (by decide)
  refine ⟨labels, s, hs, ?_, hmem, hretries, ?_, hfree⟩
  · rw [hrun, hs, Option.map_some]
  · rw [hmem]
    exact hcount

end Run

end Atomic
end PaymentGateway
