/-
# Linearizations, and a ledger to find them

An operation of a concurrent object has an interval: it begins at one time and
returns at a later one.  A *linearization* of a set of operations is an order of
them that never puts an operation before one that had returned when it began, and
in which a sequential object, started in `s₀`, gives every operation its result
(`Linearization`).

To find one along a run, keep a `Ledger`: the state of the sequential object, and
for each thread whether its operation is still `pending` or already `decided`.
`commit` applies a pending operation to the object and enters it at the end of the
order; `finish` closes the entry with the time of the return.  Whatever the threads
do in between, the ledger stays valid (`Valid.start`, `Valid.commit`,
`Valid.finish`), and when no operation is in flight its order is a linearization of
the completed operations (`Valid.linearization`).  So all that is left to do for a
concurrent object is to name the step at which each operation commits and to show
that the object would have given the same result there.
-/

import Mathlib.Data.List.Basic
import Mathlib.Logic.Function.Basic
import Mathlib.Order.Basic

namespace PaymentGateway
namespace Lib

variable {ι α ρ σ : Type*}

/-- An operation of the thread `thread`: when it began, its result, and when it
returned, if it has. -/
structure Operation (ι α ρ : Type*) where
  thread : ι
  call : α
  begun : ℕ
  result : ρ
  returned : Option ℕ

namespace Operation

/-- `a` had returned when `b` began. -/
def Precedes (a b : Operation ι α ρ) : Prop := ∃ time, a.returned = some time ∧ time < b.begun

end Operation

/-- The sequential object `apply`, started in `s`, gives the operations of `l` their
results one after the other, and ends in the last argument. -/
def Replays (apply : σ → α → σ × ρ) : σ → List (Operation ι α ρ) → σ → Prop
  | s, [], s' => s = s'
  | s, o :: l, s' => (apply s o.call).2 = o.result ∧ Replays apply (apply s o.call).1 l s'

/-- **A linearization** of the operations `ops`, which takes the sequential object
from `s₀` to `s`. -/
structure Linearization (apply : σ → α → σ × ρ) (s₀ s : σ) (ops l : List (Operation ι α ρ)) :
    Prop where
  perm : l.Perm ops
  realTime : l.Pairwise fun a b => ¬b.Precedes a
  replays : Replays apply s₀ l s

section Replay

variable {apply : σ → α → σ × ρ} {s s' : σ} {l : List (Operation ι α ρ)}

theorem replays_append {o : Operation ι α ρ} (h : Replays apply s l s')
    (ho : (apply s' o.call).2 = o.result) : Replays apply s (l ++ [o]) (apply s' o.call).1 := by
  induction l generalizing s with
  | nil =>
      obtain rfl : s = s' := h
      exact ⟨ho, rfl⟩
  | cons a l ih => exact ⟨h.1, ih h.2⟩

/-- Replaying reads the calls and the results only. -/
theorem Replays.map {f : Operation ι α ρ → Operation ι α ρ} (hcall : ∀ o, (f o).call = o.call)
    (hresult : ∀ o, (f o).result = o.result) (h : Replays apply s l s') :
    Replays apply s (l.map f) s' := by
  induction l generalizing s with
  | nil => exact h
  | cons a l ih =>
      refine ⟨?_, ?_⟩
      · rw [hcall, hresult]
        exact h.1
      · rw [hcall]
        exact ih h.2

end Replay

/-! ### The ledger -/

/-- How far the operation of a thread has got. -/
inductive Progress (α ρ : Type*)
  | idle
  | pending (call : α) (begun : ℕ)
  | decided (call : α) (begun : ℕ) (result : ρ)

/-- The entries of a thread that are still open. -/
def Progress.entries (i : ι) : Progress α ρ → List (Operation ι α ρ)
  | .decided call begun result => [⟨i, call, begun, result, none⟩]
  | _ => []

/-- A pending operation has begun by the time `clock`. -/
def Progress.BegunBy (clock : ℕ) : Progress α ρ → Prop
  | .pending _ begun => begun ≤ clock
  | _ => True

theorem Progress.BegunBy.mono {p : Progress α ρ} {clock now : ℕ} (h : p.BegunBy clock)
    (hle : clock ≤ now) : p.BegunBy now := by
  cases p with
  | pending call begun => exact Nat.le_trans h hle
  | _ => trivial

/-- The sequential object, the progress of every thread, the operations in the order
in which they were decided, and those that have returned. -/
structure Ledger (ι α ρ σ : Type*) where
  state : σ
  progress : ι → Progress α ρ
  clock : ℕ
  order : List (Operation ι α ρ)
  completed : List (Operation ι α ρ)

namespace Ledger

variable [DecidableEq ι]

/-- The entry of the operation that the thread `i` is about to return from. -/
def isOpen (i : ι) (o : Operation ι α ρ) : Bool := decide (o.thread = i ∧ o.returned = none)

/-- Enter the time of the return into an open entry of the thread `i`. -/
def close (i : ι) (now : ℕ) (o : Operation ι α ρ) : Operation ι α ρ :=
  if isOpen i o then { o with returned := some now } else o

section Close

variable {i j : ι} {now : ℕ} {o : Operation ι α ρ} {l : List (Operation ι α ρ)}

theorem isOpen_iff : isOpen i o = true ↔ o.thread = i ∧ o.returned = none := decide_eq_true_iff

@[simp] theorem close_call : (close i now o).call = o.call := by unfold close; split <;> rfl

@[simp] theorem close_begun : (close i now o).begun = o.begun := by unfold close; split <;> rfl

@[simp] theorem close_result : (close i now o).result = o.result := by unfold close; split <;> rfl

theorem close_of_open (h : isOpen i o = true) : close i now o = { o with returned := some now } :=
  if_pos h

theorem close_of_not_open (h : isOpen i o = false) : close i now o = o := by simp [close, h]

/-- A time of return was entered before, or is the present. -/
theorem close_returned {time : ℕ} (h : (close i now o).returned = some time) :
    o.returned = some time ∨ time = now := by
  unfold close at h
  split at h
  · exact .inr (Option.some.inj h).symm
  · exact .inl h

/-- Closing the entries of one thread leaves the open entries of the others. -/
theorem filter_isOpen_close (i j : ι) (now : ℕ) (l : List (Operation ι α ρ)) :
    (l.map (close i now)).filter (isOpen j) = if j = i then [] else l.filter (isOpen j) := by
  induction l with
  | nil => simp
  | cons o l ih =>
      rw [List.map_cons, List.filter_cons, List.filter_cons, ih]
      cases ho : isOpen i o with
      | true =>
          have hclosed : isOpen j (close i now o) = false := by simp [close_of_open ho, isOpen]
          have hj : j ≠ i → isOpen j o = false := fun hji => by
            simp [isOpen, (isOpen_iff.1 ho).1, Ne.symm hji]
          rw [if_neg (by simp [hclosed])]
          split
          · rfl
          · rename_i hji
            rw [if_neg (by simp [hj hji])]
      | false =>
          rw [close_of_not_open ho]
          by_cases hji : j = i
          · simp [hji, ho]
          · simp [hji]

/-- Closing moves the open entries of the thread to those that have returned. -/
theorem filter_returned_close (i : ι) (now : ℕ) (l : List (Operation ι α ρ)) :
    ((l.map (close i now)).filter fun o => o.returned.isSome).Perm
      ((l.filter (isOpen i)).map (close i now) ++ l.filter fun o => o.returned.isSome) := by
  induction l with
  | nil => simp
  | cons o l ih =>
      rw [List.map_cons, List.filter_cons, List.filter_cons, List.filter_cons]
      cases ho : isOpen i o with
      | true =>
          have hnone : o.returned = none := (isOpen_iff.1 ho).2
          simpa [close_of_open ho, hnone] using ih
      | false =>
          rw [close_of_not_open ho]
          cases hr : o.returned.isSome with
          | true => simpa using (ih.cons o).trans List.perm_middle.symm
          | false => simpa using ih

end Close

variable (apply : σ → α → σ × ρ) (g : Ledger ι α ρ σ) (i : ι)

/-- The thread `i` begins the operation `call`. -/
def invoke (call : α) (now : ℕ) : Ledger ι α ρ σ :=
  { g with progress := Function.update g.progress i (.pending call now), clock := now }

/-- The pending operation of the thread `i` takes effect. -/
def commit (call : α) (begun : ℕ) : Ledger ι α ρ σ :=
  { g with
    state := (apply g.state call).1
    progress := Function.update g.progress i (.decided call begun (apply g.state call).2)
    order := g.order ++ [⟨i, call, begun, (apply g.state call).2, none⟩] }

/-- The thread `i` returns. -/
def finish (call : α) (begun : ℕ) (result : ρ) (now : ℕ) : Ledger ι α ρ σ :=
  { g with
    progress := Function.update g.progress i .idle
    clock := now
    order := g.order.map (close i now)
    completed := ⟨i, call, begun, result, some now⟩ :: g.completed }

/-- The order explains what has been decided, and every thread has the entry open
that it has to close. -/
structure Valid (s₀ : σ) : Prop where
  replays : Replays apply s₀ g.order g.state
  realTime : g.order.Pairwise fun a b => ¬b.Precedes a
  begun_le : ∀ o ∈ g.order, o.begun ≤ g.clock
  pending_le : ∀ i, (g.progress i).BegunBy g.clock
  entries : ∀ i, g.order.filter (isOpen i) = (g.progress i).entries i
  completed : (g.order.filter fun o => o.returned.isSome).Perm g.completed

section Rules

variable {apply} {s₀ : σ} {g} {i} {call : α} {begun now : ℕ} {result : ρ}

/-- The ledger before the first operation. -/
theorem Valid.start (s₀ : σ) (now : ℕ) :
    (⟨s₀, fun _ => .idle, now, [], []⟩ : Ledger ι α ρ σ).Valid apply s₀ :=
  ⟨rfl, .nil, nofun, fun _ => trivial, fun _ => rfl, .nil⟩

theorem Valid.invoke (h : g.Valid apply s₀) (hidle : g.progress i = .idle) (hnow : g.clock ≤ now) :
    (g.invoke i call now).Valid apply s₀ where
  replays := h.replays
  realTime := h.realTime
  begun_le o ho := Nat.le_trans (h.begun_le o ho) hnow
  pending_le := (Function.forall_update_iff _ fun _ (p : Progress α ρ) => p.BegunBy now).2
    ⟨Nat.le_refl now, fun j _ => (h.pending_le j).mono hnow⟩
  entries := (Function.forall_update_iff _ fun j (p : Progress α ρ) =>
    g.order.filter (isOpen j) = p.entries j).2
      ⟨by rw [h.entries, hidle]; rfl, fun j _ => h.entries j⟩
  completed := h.completed

theorem Valid.commit (h : g.Valid apply s₀) (hpending : g.progress i = .pending call begun) :
    (g.commit apply i call begun).Valid apply s₀ where
  replays := replays_append h.replays rfl
  realTime := by
    refine List.pairwise_append.2 ⟨h.realTime, List.pairwise_singleton _ _, fun a _ b hb => ?_⟩
    obtain rfl := List.mem_singleton.1 hb
    rintro ⟨time, hnone, -⟩
    cases hnone
  begun_le o ho := by
    rcases List.mem_append.1 ho with ho | ho
    · exact h.begun_le o ho
    · obtain rfl := List.mem_singleton.1 ho
      have hbegun := h.pending_le i
      rwa [hpending] at hbegun
  pending_le := (Function.forall_update_iff _ fun _ (p : Progress α ρ) => p.BegunBy g.clock).2
    ⟨trivial, fun j _ => h.pending_le j⟩
  entries := by
    refine (Function.forall_update_iff _ fun j (p : Progress α ρ) =>
      (g.commit apply i call begun).order.filter (isOpen j) = p.entries j).2 ⟨?_, fun j hj => ?_⟩
    · simp [Ledger.commit, h.entries, hpending, Progress.entries, isOpen]
    · simp [Ledger.commit, h.entries, isOpen, Ne.symm hj]
  completed := by simpa [Ledger.commit] using h.completed

theorem Valid.finish (h : g.Valid apply s₀) (hdecided : g.progress i = .decided call begun result)
    (hnow : g.clock ≤ now) : (g.finish i call begun result now).Valid apply s₀ where
  replays := h.replays.map (fun _ => close_call) fun _ => close_result
  realTime := by
    refine List.pairwise_map.2 (h.realTime.imp_of_mem fun {a b} ha _ hab => ?_)
    rintro ⟨time, hreturned, hlt⟩
    rw [close_begun] at hlt
    rcases close_returned hreturned with hold | rfl
    · exact hab ⟨time, hold, hlt⟩
    · have := h.begun_le a ha
      omega
  begun_le o ho := by
    obtain ⟨a, ha, rfl⟩ := List.mem_map.1 ho
    rw [close_begun]
    exact Nat.le_trans (h.begun_le a ha) hnow
  pending_le := (Function.forall_update_iff _ fun _ (p : Progress α ρ) => p.BegunBy now).2
    ⟨trivial, fun j _ => (h.pending_le j).mono hnow⟩
  entries := by
    refine (Function.forall_update_iff _ fun j (p : Progress α ρ) =>
      (g.order.map (close i now)).filter (isOpen j) = p.entries j).2 ⟨?_, fun j hj => ?_⟩
    · rw [filter_isOpen_close, if_pos rfl]
      rfl
    · rw [filter_isOpen_close, if_neg hj]
      exact h.entries j
  completed := by
    have hentry : g.order.filter (isOpen i) = [⟨i, call, begun, result, none⟩] := by
      rw [h.entries, hdecided]
      rfl
    refine (filter_returned_close i now g.order).trans ?_
    rw [hentry]
    simpa [close, isOpen, Ledger.finish] using h.completed

/-- **With no operation in flight the order is a linearization** of all operations. -/
theorem Valid.linearization (h : g.Valid apply s₀) (hidle : ∀ i, g.progress i = .idle) :
    Linearization apply s₀ g.state g.completed g.order where
  perm := by
    have hall : ∀ o ∈ g.order, o.returned.isSome = true := fun o ho => by
      by_contra hnone
      have hopen : o ∈ g.order.filter (isOpen o.thread) :=
        List.mem_filter.2 ⟨ho, isOpen_iff.2 ⟨rfl, by simpa using hnone⟩⟩
      rw [h.entries, hidle] at hopen
      cases hopen
    simpa [List.filter_eq_self.2 hall] using h.completed
  realTime := h.realTime
  replays := h.replays

end Rules

end Ledger

end Lib
end PaymentGateway
