/-
# Calls and what their results promise

A call in progress works on the node its name resolves to, and began before
everything the history has recorded since (`Resolved`).  The position it carries is
that of its beginning in the history (`Stamped`), so that "before", "since" and
"meanwhile" can be read off the history.  A call that is about to return true has
come to the end of its last propagation (`exec_finish_true`), so an acquisition that
returns true leaves its thread holding the node.

`Granted` is the caller's view of custody: the thread's `lock` or `upgradeLock` of
the node has returned true, and the thread has not released the node since, by a
rollback, an `unlock` or the release loop of an `upgradeLock`.  What is granted is
held (`Promised`).
-/

import PaymentGateway.Atomic.DistinctUsers

namespace PaymentGateway
namespace Atomic

open Lib

variable {Tid : Type}

/-- The call in progress works on the node of its name and began before the history
reached the length `len`. -/
def Local.Resolved (t : TreeShape) (len : ℕ) : Local → Prop
  | .idle => True
  | .running c k n _ => t.getNode c.nodeName = some n ∧ k < len
  | .returning _ k _ => k < len

theorem Local.Resolved.mono {t : TreeShape} {len len' : ℕ} {l : Local} (h : l.Resolved t len)
    (hle : len ≤ len') : l.Resolved t len' := by
  cases l with
  | idle => trivial
  | running c k n pc => exact ⟨h.1, h.2.trans_le hle⟩
  | returning c k r => exact Nat.lt_of_lt_of_le h hle

/-- All calls in progress are resolved, all calls that returned began in the past,
and a thread is outside every call when it has just returned. -/
structure Resolved (t : TreeShape) (s : State Tid) : Prop where
  calls : ∀ i, (s.thread i).Resolved t s.hist.length
  returned : ∀ i c k r, .ret i c k r ∈ s.hist → k < s.hist.length
  idle : ∀ i c k r H, s.hist = .ret i c k r :: H → s.thread i = .idle

/-- The acquisition of `n` by `i` has returned true, and `i` has not released the
node since. -/
def Granted (t : TreeShape) (i : Tid) (n : ℕ) : List (Event Tid) → Prop
  | [] => False
  | .ret j c _ result :: H =>
      (j = i ∧ c.op ≠ .unlock ∧ t.getNode c.nodeName = some n ∧ result = true) ∨ Granted t i n H
  | .release j y :: H => ¬(j = i ∧ y = n) ∧ Granted t i n H
  | .invoke _ _ :: H => Granted t i n H
  | .acquire _ _ :: H => Granted t i n H

instance Granted.decidable [DecidableEq Tid] (t : TreeShape) (i : Tid) (n : ℕ) :
    ∀ H : List (Event Tid), Decidable (Granted t i n H)
  | [] => inferInstanceAs (Decidable False)
  | .ret j c _ result :: H =>
      have := Granted.decidable t i n H
      inferInstanceAs (Decidable
        ((j = i ∧ c.op ≠ .unlock ∧ t.getNode c.nodeName = some n ∧ result = true) ∨
          Granted t i n H))
  | .release j y :: H =>
      have := Granted.decidable t i n H
      inferInstanceAs (Decidable (¬(j = i ∧ y = n) ∧ Granted t i n H))
  | .invoke _ _ :: H => Granted.decidable t i n H
  | .acquire _ _ :: H => Granted.decidable t i n H

/-- The history when it had the length `k`. -/
def asOf (k : ℕ) (H : List (Event Tid)) : List (Event Tid) := H.drop (H.length - k)

@[simp] theorem asOf_length (H : List (Event Tid)) : asOf H.length H = H := by simp [asOf]

theorem asOf_append {k : ℕ} {H : List (Event Tid)} (h : k ≤ H.length) (es : List (Event Tid)) :
    asOf k (es ++ H) = asOf k H := by
  unfold asOf
  rw [List.length_append, show es.length + H.length - k = es.length + (H.length - k) by omega,
    List.drop_append]
  simp

theorem asOf_cons {k : ℕ} {H : List (Event Tid)} (h : k ≤ H.length) (e : Event Tid) :
    asOf k (e :: H) = asOf k H :=
  asOf_append h [e]

/-- Somebody has won `y` since the history had the length `k`. -/
def WonSince (k y : ℕ) (H : List (Event Tid)) : Prop := ∃ i, .acquire i y ∈ H.take (H.length - k)

instance [Fintype Tid] [DecidableEq Tid] (k y : ℕ) (H : List (Event Tid)) :
    Decidable (WonSince k y H) := by
  unfold WonSince
  infer_instance

theorem wonSince_append {k y : ℕ} {H es : List (Event Tid)} (hk : k ≤ H.length) :
    WonSince k y (es ++ H) ↔ (∃ i, .acquire i y ∈ es) ∨ WonSince k y H := by
  have htake : (es ++ H).take ((es ++ H).length - k) = es ++ H.take (H.length - k) := by
    rw [List.length_append, show es.length + H.length - k = es.length + (H.length - k) by omega,
      List.take_length_add_append]
  simp only [WonSince, htake, List.mem_append, exists_or]

/-- The event at the position `k` of the history is the beginning of the call `c` of
the thread `i`. -/
def BeganAt (i : Tid) (c : Call) (k : ℕ) (H : List (Event Tid)) : Prop :=
  asOf (k + 1) H = .invoke i c :: asOf k H

theorem BeganAt.append {i : Tid} {c : Call} {k : ℕ} {H : List (Event Tid)} (h : BeganAt i c k H)
    (hk : k < H.length) (es : List (Event Tid)) : BeganAt i c k (es ++ H) := by
  unfold BeganAt
  rw [asOf_append hk, asOf_append hk.le]
  exact h

/-- The call in progress began where it says. -/
def Local.Began (i : Tid) (H : List (Event Tid)) : Local → Prop
  | .idle => True
  | .running c k _ _ => BeganAt i c k H
  | .returning c k _ => BeganAt i c k H

theorem Local.Began.append {t : TreeShape} {i : Tid} {H : List (Event Tid)} {l : Local}
    (h : l.Began i H) (hl : l.Resolved t H.length) (es : List (Event Tid)) :
    l.Began i (es ++ H) := by
  cases l with
  | idle => trivial
  | running c k n pc => exact BeganAt.append h hl.2 es
  | returning c k r => exact BeganAt.append h hl es

/-- The positions that calls in progress and returned calls carry are those of their
beginnings. -/
structure Stamped (s : State Tid) : Prop where
  calls : ∀ i, (s.thread i).Began i s.hist
  returned : ∀ i c k r, .ret i c k r ∈ s.hist → BeganAt i c k s.hist

/-- An access changes what is granted only by a release. -/
theorem granted_events {t : TreeShape} {i j : Tid} {n : ℕ} {a : Access} {H : List (Event Tid)} :
    Granted t j n (a.events i ++ H) ↔
      match a with
      | .setLockState y v => (v ≠ 1 → ¬(i = j ∧ y = n)) ∧ Granted t j n H
      | _ => Granted t j n H :=
  events_iff (fun _ => Iff.rfl) fun _ => Iff.rfl

/-- No access is a return. -/
theorem ret_not_mem_events {i j : Tid} {c : Call} {k : ℕ} {r : Bool} {a : Access} :
    .ret j c k r ∉ a.events i := by
  intro h
  obtain ⟨n, h | h⟩ := mem_events h <;> cases h

/-- A call returns true at the end of the last propagation only. -/
theorem exec_finish_true {t : TreeShape} {m : Memory} {u : ℤ} {n : ℕ} {sp : Bool} {pc : Pc}
    (h : (pc.exec t m u n sp).2 = .finish true) :
    ∃ node delta, pc = .informDown node delta [] .finish ∧ (pc.exec t m u n sp).1 = .read := by
  revert h
  fun_cases Pc.exec t m u n sp pc <;> simp_all

/-- The thread `i` holds the node of an acquisition that is about to return true. -/
def Local.Promised (t : TreeShape) (i : Tid) (H : List (Event Tid)) : Local → Prop
  | .returning c _ true => c.op ≠ .unlock → ∀ n, t.getNode c.nodeName = some n → Holds i n H
  | _ => True

/-- What has been granted, or is about to be returned, is held. -/
structure Promised (t : TreeShape) (s : State Tid) : Prop where
  returning : ∀ i, (s.thread i).Promised t i s.hist
  granted : ∀ i n, Granted t i n s.hist → Holds i n s.hist

/-- A promise is kept as long as the thread keeps what it holds. -/
theorem Local.Promised.mono {t : TreeShape} {i : Tid} {H H' : List (Event Tid)}
    {l : Local} (h : l.Promised t i H) (hkeep : ∀ n, Holds i n H → Holds i n H') :
    l.Promised t i H' := by
  cases l with
  | returning c k r =>
      cases r with
      | true => exact fun hop n hn => hkeep n (h hop n hn)
      | false => trivial
  | _ => trivial

section Start

variable {t : TreeShape} {a : AtomicPaymentTree}

theorem resolved_start : Resolved t (start a : State Tid) := ⟨fun _ => trivial, nofun, nofun⟩

theorem promised_start : Promised t (start a : State Tid) := ⟨fun _ => trivial, fun _ _ => id⟩

end Start

variable [DecidableEq Tid] {t : TreeShape} {user : Tid → ℤ} {s s' : State Tid} {l : Label Tid}

/-- **Every step keeps calls resolved.** -/
theorem Resolved.step (h : Resolved t s) (hs : Atomic.step t s l = some s') : Resolved t s' := by
  cases move_of_step hs with
  | invoke i c hi =>
      refine ⟨(Function.forall_update_iff _ fun _ => Local.Resolved t _).2
        ⟨?_, fun j _ => (h.calls j).mono (Nat.le_succ _)⟩, fun j c' k r hr => ?_, nofun⟩
      · unfold Local.enter
        split
        · exact Nat.lt_succ_self _
        · rename_i n hn
          exact ⟨hn, Nat.lt_succ_self _⟩
      · exact Nat.lt_succ_of_lt (h.returned j c' k r (by simpa using hr))
  | ret i sp c k r hi =>
      refine ⟨(Function.forall_update_iff _ fun _ => Local.Resolved t _).2
        ⟨trivial, fun j _ => (h.calls j).mono (Nat.le_succ _)⟩, fun j c' k' r' hr => ?_,
        fun j c' k' r' H hH => ?_⟩
      · rcases List.mem_cons.1 hr with heq | hr
        · cases heq
          exact Nat.lt_succ_of_lt (show Local.Resolved t _ (.returning c k r) from hi ▸ h.calls i)
        · exact Nat.lt_succ_of_lt (h.returned j c' k' r' hr)
      · cases hH
        exact Function.update_self ..
  | exec i sp c k n pc hi =>
      have hle : s.hist.length ≤
          ((pc.exec t s.mem c.userId n sp).1.events i ++ s.hist).length := by
        rw [List.length_append]
        omega
      refine ⟨(Function.forall_update_iff _ fun _ => Local.Resolved t _).2
        ⟨?_, fun j _ => (h.calls j).mono hle⟩, fun j c' k' r hr => ?_, fun j c' k' r H hH => ?_⟩
      · have hrun : (Local.running c k n pc).Resolved t s.hist.length := hi ▸ h.calls i
        cases (pc.exec t s.mem c.userId n sp).2 with
        | goto pc' => exact hrun.mono hle
        | finish r => exact hrun.2.trans_le hle
      · refine (h.returned j c' k' r ?_).trans_le hle
        exact (List.mem_append.1 hr).resolve_left ret_not_mem_events
      · cases hev : (pc.exec t s.mem c.userId n sp).1.events i with
        | nil =>
            have hj := h.idle j c' k' r H (by simpa [hev] using hH)
            simp only
            rw [Function.update_of_ne (by rintro rfl; rw [hi] at hj; cases hj), hj]
        | cons e es =>
            simp only [hev, List.cons_append, List.cons.injEq] at hH
            have hmem : e ∈ (pc.exec t s.mem c.userId n sp).1.events i := by simp [hev]
            exact absurd (hH.1 ▸ hmem) ret_not_mem_events

/-- **Every step keeps the positions of beginnings.** -/
theorem Stamped.step (h : Stamped s) (hres : Resolved t s) (hs : Atomic.step t s l = some s') :
    Stamped s' := by
  have hkeep (es : List (Event Tid)) (j : Tid) : (s.thread j).Began j (es ++ s.hist) :=
    (h.calls j).append (hres.calls j) es
  have hpast {j : Tid} {c : Call} {k : ℕ} {r : Bool} (hr : .ret j c k r ∈ s.hist)
      (es : List (Event Tid)) : BeganAt j c k (es ++ s.hist) :=
    (h.returned j c k r hr).append (hres.returned j c k r hr) es
  cases move_of_step hs with
  | invoke i c hi =>
      refine ⟨(Function.forall_update_iff _ fun j (l : Local) => l.Began j _).2
        ⟨?_, fun j _ => hkeep [_] j⟩, fun j c' k r hr => ?_⟩
      · have hnow : BeganAt i c s.hist.length (.invoke i c :: s.hist) := by
          unfold BeganAt
          rw [asOf_cons le_rfl, asOf_length]
          exact asOf_length (.invoke i c :: s.hist)
        unfold Local.enter
        split <;> exact hnow
      · exact hpast ((List.mem_cons.1 hr).resolve_left nofun) [_]
  | ret i sp c k r hi =>
      refine ⟨(Function.forall_update_iff _ fun j (l : Local) => l.Began j _).2
        ⟨trivial, fun j _ => hkeep [_] j⟩, fun j c' k' r' hr => ?_⟩
      rcases List.mem_cons.1 hr with heq | hr
      · cases heq
        have hcall := hkeep [.ret i c k r] i
        rw [hi] at hcall
        exact hcall
      · exact hpast hr [_]
  | exec i sp c k n pc hi =>
      refine ⟨(Function.forall_update_iff _ fun j (l : Local) => l.Began j _).2
        ⟨?_, fun j _ => hkeep _ j⟩, fun j c' k' r hr => ?_⟩
      · have hcall := hkeep ((pc.exec t s.mem c.userId n sp).1.events i) i
        rw [hi] at hcall
        cases (pc.exec t s.mem c.userId n sp).2 <;> exact hcall
      · exact hpast ((List.mem_append.1 hr).resolve_left ret_not_mem_events) _

/-- Along every run, whatever its guard, the positions in the history are true. -/
theorem resolved_stamped {guard : State Tid → Label Tid → Prop} {a : AtomicPaymentTree}
    (h : Reaches (Atomic.step t) guard (start a) s) : Resolved t s ∧ Stamped s := by
  refine h.invariant ?_ ?_
  · exact ⟨resolved_start, fun _ => trivial, nofun⟩
  · exact fun s₁ l s₂ _ ⟨hres, hstamp⟩ _ hs => ⟨hres.step hs, hstamp.step hres hs⟩

/-- **Every step keeps the promises.** -/
theorem Promised.step (h : Promised t s) (hres : Resolved t s) (hfits : ∀ i, (s.thread i).Fits t)
    (hcust : Custody user s) (hs : Atomic.step t s l = some s') : Promised t s' := by
  cases move_of_step hs with
  | invoke i c hi =>
      refine ⟨(Function.forall_update_iff _ fun j => Local.Promised t j _).2
        ⟨?_, fun j _ => (h.returning j).mono fun _ => id⟩, h.granted⟩
      unfold Local.enter
      split <;> trivial
  | ret i sp c k r hi =>
      refine ⟨(Function.forall_update_iff _ fun j => Local.Promised t j _).2
        ⟨trivial, fun j _ => (h.returning j).mono fun _ => id⟩, fun j n hj => ?_⟩
      rcases hj with ⟨rfl, hop, hn, rfl⟩ | hj
      · have hret := h.returning i
        rw [hi] at hret
        exact hret hop n hn
      · exact h.granted j n hj
  | exec i sp c k n pc hi =>
      refine ⟨(Function.forall_update_iff _ fun j => Local.Promised t j _).2
        ⟨?_, fun j hj => (h.returning j).mono fun y hy => hcust.exec_keep hi hy fun hji =>
          absurd hji hj⟩, fun j y hj => ?_⟩
      · cases hnext : (pc.exec t s.mem c.userId n sp).2 with
        | goto pc' => trivial
        | finish r =>
            cases r with
            | false => trivial
            | true =>
                intro hop n' hn'
                obtain ⟨node, delta, rfl, hread⟩ := exec_finish_true hnext
                have hnode := hres.calls i
                have hfit := hfits i
                rw [hi] at hnode hfit
                obtain rfl : n = n' := Option.some.inj (hnode.1.symm.trans hn')
                obtain ⟨⟨rfl, ⟨rfl, -⟩ | ⟨-, hunlock⟩⟩, -⟩ := hfit
                · rw [hread]
                  exact hcust.holds_of_claims hi (by simp [Pc.claims])
                · exact absurd hunlock hop
      · rw [granted_events] at hj
        refine hcust.exec_keep hi (h.granted j y ?_) ?_
        · split at hj
          · exact hj.2
          · exact hj
        · rintro rfl hrel
          simp [hrel] at hj

/-- Along every run calls are resolved. -/
theorem OwnRun.resolved {adds : List NodeSpec} (h : OwnRun adds user s) :
    Resolved (AtomicPaymentTree.build adds).shape s :=
  (resolved_stamped h).1

/-- Along every run of threads with distinct ids the promises are kept. -/
theorem OwnRun.promised [Fintype Tid] {adds : List NodeSpec} (h : OwnRun adds user s)
    (hu : DistinctUsers user) : Promised (AtomicPaymentTree.build adds).shape s := by
  unfold OwnRun at h
  refine h.invariant ?_ ?_
  · exact promised_start
  · intro s₁ l s₂ hr hp _ hs
    obtain ⟨hsound, hcust⟩ := OwnRun.sound_custody hr hu
    exact hp.step (OwnRun.resolved hr) hsound.fits hcust hs

end Atomic
end PaymentGateway
