/-
# A call never waits

No operation of `AtomicPaymentTree` waits for another thread.  The walks follow edges
that never change, the scan of `upgradeLock` empties a queue that only takes in the
children of what it takes out, and the only loop without a bound of its own is the one
around the `compare_exchange_weak` of `lock` (`src/atomic_tree.cpp`, lines 75-85): it
goes round again only when the exchange failed spuriously, and ends when another thread
has taken the node.

`Pc.remaining` counts the steps a call has still to make at most.  It falls at every
step, and a spurious failure costs two steps more (`exec_remaining`); what the memory
holds does not matter, so neither does what the other threads do.  Hence `call_returns`:
in every schedule a call returns within `TreeShape.mostSteps` steps of its own and two
for each spurious failure, and its thread can always make the next one.  The bound is
linear in the number of relatives for `lock` and `unlock`, not logarithmic in the size of
the tree.
-/

import PaymentGateway.Atomic.DistinctUsers
import PaymentGateway.Lib.Schedule

namespace PaymentGateway

namespace TreeShape

variable (t : TreeShape) (n : ℕ)

/-- The steps of the two propagation walks from `n`, with the ends of both loops. -/
def informSteps : ℕ := (t.ancestors n).length + (t.descendants n).length + 2

/-- The steps of one round of the release loop of `upgradeLock`. -/
def releaseSteps : ℕ := t.informSteps n + 2

/-- The most steps a call on `n` makes until it returns, without spurious failures. -/
def mostSteps : Op → ℕ
  | .lock => t.informSteps n + 6
  | .unlock => t.informSteps n + 3
  | .upgradeLock => ((t.descendants n).map fun d => t.releaseSteps d + 2).sum + t.informSteps n + 6

end TreeShape

namespace Atomic

open Lib

variable {Tid : Type}

/-! ### The steps of a call -/

section Steps

variable (t : TreeShape) (n : ℕ)

/-- The steps left from the head of the release loop of `upgradeLock` on. -/
def releaseRemaining (ds : List ℕ) : ℕ := (ds.map t.releaseSteps).sum + t.informSteps n + 3

def After.remaining : After → ℕ
  | .finish => 0
  | .release ds => releaseRemaining t n ds

/-- The steps left in a call on `n`, at most and without spurious failures. -/
def Pc.remaining : Pc → ℕ
  | .lockLoadAncestors => t.informSteps n + 6
  | .lockLoadDescendants => t.informSteps n + 5
  | .lockCas => t.informSteps n + 4
  | .lockCountRetry => t.informSteps n + 5
  | .lockReloadAncestors => t.informSteps n + 3
  | .lockReloadDescendants => t.informSteps n + 2
  | .lockRollback => 1
  | .unlockLoadOwner => t.informSteps n + 3
  | .unlockClearOwner => t.informSteps n + 2
  | .unlockCas => t.informSteps n + 1
  | .unlockRestoreOwner => 2
  | .unlockCountRetry => 1
  | .upgradeLoadState =>
      ((t.descendants n).map fun d => t.releaseSteps d + 2).sum + t.informSteps n + 6
  | .upgradeLoadAncestors =>
      ((t.descendants n).map fun d => t.releaseSteps d + 2).sum + t.informSteps n + 5
  | .upgradeScan bfs ds =>
      ((t.below bfs).map fun d => t.releaseSteps d + 2).sum + releaseRemaining t n ds + 1
  | .upgradeLoadOwner current bfs ds =>
      ((t.below (current :: bfs)).map fun d => t.releaseSteps d + 2).sum + releaseRemaining t n ds
  | .upgradeRelease ds => releaseRemaining t n ds
  | .upgradeClearOwner d ds => t.informSteps d + 1 + releaseRemaining t n ds
  | .upgradeCas => t.informSteps n + 2
  | .storeOwner => t.informSteps n + 1
  | .informUp node _ current after =>
      (t.chain current).length + (t.descendants node).length + 2 + after.remaining t n
  | .informDown _ _ children after => (t.below children).length + 1 + after.remaining t n

def Next.remaining : Next → ℕ
  | .goto pc => pc.remaining t n
  | .finish _ => 0

variable {t n}

/-- **Every step is one step less to make**, in whatever memory it is made; a spurious
failure of `compare_exchange_weak` costs two more. -/
theorem exec_remaining (m : Memory) (u : ℤ) (sp : Bool) (pc : Pc) :
    (pc.exec t m u n sp).2.remaining t n + 1 ≤ pc.remaining t n + if sp then 2 else 0 := by
  fun_cases Pc.exec t m u n sp pc <;>
    simp_all [Next.remaining, Pc.remaining, After.remaining, releaseRemaining,
      TreeShape.releaseSteps, TreeShape.informSteps, Forest.below_cons, Forest.below_append,
      Forest.chain_parent, ← Forest.descendants_eq] <;>
    grind

theorem Pc.remaining_pos (pc : Pc) : 0 < pc.remaining t n := by
  have h := exec_remaining (t := t) (n := n) ⟨fun _ => .fresh, {}⟩ 0 false pc
  simp only [Bool.false_eq_true, if_false] at h
  omega

end Steps

/-! ### The steps of a thread -/

namespace Label

variable [DecidableEq Tid] (i : Tid)

/-- The thread `i` begins a call. -/
def begins : Label Tid → Bool
  | .invoke j _ => j = i
  | .tick _ _ => false

/-- The thread `i` makes a step inside a call. -/
def ticks : Label Tid → Bool
  | .invoke _ _ => false
  | .tick j _ => j = i

/-- The thread `i` makes a step in which a `compare_exchange_weak` would fail spuriously. -/
def fails : Label Tid → Bool
  | .invoke _ _ => false
  | .tick j spurious => j = i && spurious

end Label

/-- The steps left until the thread is outside every call, the return included. -/
def Local.rank (t : TreeShape) : Local → ℕ
  | .idle => 0
  | .running _ _ n pc => pc.remaining t n + 1
  | .returning _ _ _ => 1

/-- The steps of a call on a name that may be unknown, the return included. -/
def callRank (t : TreeShape) (op : Op) (nodeName : String) : ℕ :=
  (t.getNode nodeName).elim 1 fun n => t.mostSteps n op + 1

variable {t : TreeShape}

theorem rank_enter (c : Call) (k : ℕ) :
    (Local.enter t c k).rank t = callRank t c.op c.nodeName := by
  unfold Local.enter callRank
  cases t.getNode c.nodeName with
  | none => rfl
  | some n => cases c.op <;> rfl

theorem rank_toLocal (c : Call) (k n : ℕ) (r : Next) :
    (r.toLocal c k n).rank t = r.remaining t n + 1 := by
  cases r <;> rfl

section Machine

variable [DecidableEq Tid] {i : Tid} {s s' s₁ : State Tid}

/-- Each step of the thread lowers its rank, up to a spurious failure; the steps of the
other threads leave it alone. -/
theorem rank_step {l : Label Tid} (hbegins : l.begins i = false) (h : step t s l = some s') :
    (l.ticks i).toNat + (s'.thread i).rank t ≤
      (s.thread i).rank t + if l.fails i then 2 else 0 := by
  cases move_of_step h with
  | invoke j c hj =>
      have hne : i ≠ j := by simpa [Label.begins, eq_comm] using hbegins
      simp [Label.ticks, Label.fails, hne]
  | ret j sp c k r hj =>
      by_cases hij : j = i
      · subst hij
        simp [Label.ticks, hj, Local.rank]
      · simp [Label.ticks, Label.fails, hij, Function.update_of_ne (Ne.symm hij)]
  | exec j sp c k n pc hj =>
      by_cases hij : j = i
      · subst hij
        have hpc := exec_remaining (t := t) (n := n) s.mem c.userId sp pc
        simp only [Label.ticks, Label.fails, decide_true, Bool.toNat_true, Bool.true_and,
          Function.update_self, hj]
        rw [rank_toLocal, Local.rank]
        omega
      · simp [Label.ticks, Label.fails, hij, Function.update_of_ne (Ne.symm hij)]

/-- A thread inside a call can always make its next step. -/
theorem exists_step_of_ne_idle (h : s.thread i ≠ .idle) (sp : Bool) :
    ∃ s', step t s (.tick i sp) = some s' := by
  cases hi : s.thread i with
  | idle => exact absurd hi h
  | running c k n pc => exact ⟨_, by rw [step, hi]⟩
  | returning c k r => exact ⟨_, by rw [step, hi]⟩

/-- **A call never waits.**  Let the thread `i` begin a call in any state, and let the
threads be scheduled in any way afterwards, so that the others may stop for ever wherever
they are.  On an unknown name the call has its result at once.  On a node `n` it has one
before it has made more than `mostSteps` steps of its own and two for each spurious
failure; and as long as the thread is inside the call, it can make its next step. -/
theorem call_returns {c : Call} {labels : List (Label Tid)}
    (hbegin : step t s (.invoke i c) = some s₁)
    (hrun : exec (step t) (fun _ l => l.begins i = false) s₁ labels = some s') :
    (t.getNode c.nodeName = none → s₁.thread i = .returning c s.hist.length false) ∧
    (∀ n, t.getNode c.nodeName = some n →
      labels.countP (Label.ticks i) ≤ t.mostSteps n c.op + 1 + 2 * labels.countP (Label.fails i) ∧
      ∀ c' k m pc, s'.thread i = .running c' k m pc →
        labels.countP (Label.ticks i) < t.mostSteps n c.op + 2 * labels.countP (Label.fails i)) ∧
    (s'.thread i ≠ .idle → ∀ sp, ∃ s'', step t s' (.tick i sp) = some s'') := by
  have hthread : s₁.thread i = .enter t c s.hist.length := by
    cases move_of_step hbegin with
    | invoke => exact Function.update_self ..
  have hrank := countP_add_rank_le (Label.ticks i) (fun l => if l.fails i then 2 else 0)
    (fun s : State Tid => (s.thread i).rank t) (fun _ _ _ => rank_step) hrun
  rw [sum_slack, hthread, rank_enter] at hrank
  refine ⟨fun hn => ?_, fun n hn => ⟨?_, fun c' k m pc hi => ?_⟩, exists_step_of_ne_idle⟩
  · rw [hthread, Local.enter, hn]
  · rw [callRank, hn, Option.elim_some] at hrank
    omega
  · have hpos := pc.remaining_pos (t := t) (n := m)
    rw [callRank, hn, Option.elim_some, hi, Local.rank] at hrank
    omega

/-- Thread 1 stops for ever in the middle of locking `Right`; thread 0 has its answer about
`Left` nevertheless, after a spurious failure and one step before the bound. -/
theorem call_returns_beside_stopped :
    ∃ s₁ s' : State (Fin 2), ∃ labels : List (Label (Fin 2)),
      step (TreeShape.build smallTree)
        (after smallTree twoUsers (.invoke 1 ⟨.lock, "Right", 1⟩ :: turns 1 5))
        (.invoke 0 ⟨.lock, "Left", 0⟩) = some s₁ ∧
      exec (step (TreeShape.build smallTree)) (fun _ l => l.begins 0 = false) s₁ labels =
        some s' ∧
      s'.thread 0 = .returning ⟨.lock, "Left", 0⟩ 2 true ∧
      s'.thread 1 = .running ⟨.lock, "Right", 1⟩ 0 2 .storeOwner ∧
      labels.countP (Label.ticks 0) = 11 ∧
      labels.countP (Label.ticks 0) ≤
        (TreeShape.build smallTree).mostSteps 1 .lock + 1 + 2 * labels.countP (Label.fails 0) := by
  have hany : ((step (TreeShape.build smallTree)
      (after smallTree twoUsers (.invoke 1 ⟨.lock, "Right", 1⟩ :: turns 1 5))
      (.invoke 0 ⟨.lock, "Left", 0⟩)).bind fun s₁ : State (Fin 2) =>
        exec (step (TreeShape.build smallTree)) (fun _ l => l.begins 0 = false) s₁
          (turns 0 2 ++ [.tick 0 true] ++ turns 0 8)).any (fun s' => decide
      (s'.thread 0 = .returning ⟨.lock, "Left", 0⟩ 2 true ∧
        s'.thread 1 = .running ⟨.lock, "Right", 1⟩ 0 2 .storeOwner)) = true := by decide +kernel
  obtain ⟨s', hs', hp⟩ := (Option.any_eq_true _ _).1 hany
  obtain ⟨s₁, hbegin, hrun⟩ := Option.bind_eq_some_iff.1 hs'
  obtain ⟨h0, h1⟩ := of_decide_eq_true hp
  exact ⟨s₁, s', _, hbegin, hrun, h0, h1, by decide,
    ((call_returns hbegin hrun).2.1 1 (by decide +kernel)).1⟩

end Machine

end Atomic
end PaymentGateway
