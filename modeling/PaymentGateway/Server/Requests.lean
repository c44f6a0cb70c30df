/-
# `POST /api/simulate`

`src/main.cpp`, lines 88-104.  Every request launches its own threads on the one tree of
the server, joins them in order and answers.  The server handles requests side by side,
so threads of different requests overlap, and the thread `i` of every request has the id
`i`.  The number of threads and of transactions are local constants of the handler, 8
and 100; here they are any numbers.

The handlers run on the thread pool of `include/httplib.h`, which has a largest size, and a
handler keeps its thread until it has answered.  So a request may have to wait for another
before its handler starts; `Admits` leaves it to the pool when that is, by any rule on the
state of the server, and what holds of all runs holds under every such rule.  The threads a
handler launches are its own and not of the pool, so no handler that has started waits for
another request.

Whatever the handlers do, the threads are those of one simulation, of which some have not
been launched yet (`ServerRun.simulationRun`), so all that is known of simulations holds
on the server: with no call in flight, some order of all calls explains the tree
(`ServerRun.calls_linearizable`).  A handler knows how far its threads are (`Handler.Fits`):
together this says what the server can promise to whoever asks it in between
(`requests_counted`), and that every request whose handler has started is answered
(`request_completes`).
-/

import PaymentGateway.Atomic.Completion
import PaymentGateway.Atomic.Serialization
import PaymentGateway.Atomic.ToJson
import PaymentGateway.Atomic.Transactions
import PaymentGateway.Lib.JsonNumber
import PaymentGateway.Server.Gateways

namespace PaymentGateway
namespace Server

open Lib Atomic

variable {R : Type} {numThreads txnPerThread : ℕ}

/-! ### The program -/

/-- Where the handler of a request stands. -/
inductive Handler
  /-- the request has not come yet -/
  | waiting
  /-- in the loop that launches the threads, with `i` of them launched -/
  | launching (i : ℕ)
  /-- in the loop that joins the threads, with `i` of them joined -/
  | joining (i : ℕ)
  | responded (content : String)
  deriving DecidableEq, Repr

/-- The threads a handler has launched are the first so many. -/
def Handler.launched (numThreads : ℕ) : Handler → ℕ
  | .waiting => 0
  | .launching i => i
  | .joining _ | .responded _ => numThreads

def Handler.isResponded : Handler → Bool
  | .responded _ => true
  | _ => false

/-- What the threads of a request draw: an index into `gateways` for each transaction. -/
abbrev Draws (R : Type) (numThreads txnPerThread : ℕ) : Type :=
  R → Fin numThreads → Fin txnPerThread → Fin gateways.length

/-- The targets of a thread. -/
def Draws.targets (draws : Draws R numThreads txnPerThread) (w : R × Fin numThreads) :
    List String :=
  List.ofFn fun k => gateways.get (draws w.1 w.2 k)

/-- The thread id does not depend on the request. -/
def workerId (w : R × Fin numThreads) : ℤ := threadId w.2

/-- The threads of all requests on the tree of the server, and the handlers. -/
structure ServerState (R : Type) (numThreads : ℕ) where
  simulation : Simulation (R × Fin numThreads)
  handler : R → Handler

/-- A step of the handler of a request, or of one of its threads. -/
inductive Action (R : Type) (numThreads : ℕ)
  | handle (r : R)
  | work (r : R) (i : Fin numThreads) (spurious : Bool)

def Action.request : Action R numThreads → R
  | .handle r | .work r _ _ => r

/-- The text a request is answered with. -/
def completed (numThreads txnPerThread : ℕ) : String :=
  "\x7b\"status\":\"complete\",\"threads\":" ++ toString numThreads ++ ",\"txnPerThread\":" ++
    toString txnPerThread ++ "\x7d"

section Program

variable [DecidableEq R] (txnPerThread) (S : ServerState R numThreads)

/-- **One step of the handler.**  The first step is its start, when the pool has a thread for
it (`Admits`); `join` waits until the thread has finished. -/
def postSimulate (r : R) : Option (ServerState R numThreads) :=
  let goto (h : Handler) := some { S with handler := Function.update S.handler r h }
  match S.handler r with
  | .waiting => goto (.launching 0)
  | .launching i => goto (if i < numThreads then .launching (i + 1) else .joining 0)
  | .joining i =>
      if h : i < numThreads then
        if S.simulation.phase (r, ⟨i, h⟩) = .count [] then goto (.joining (i + 1)) else none
      else goto (.responded (completed numThreads txnPerThread))
  | .responded _ => none

/-- One step of the server. -/
def serve : Action R numThreads → Option (ServerState R numThreads)
  | .handle r => postSimulate txnPerThread S r
  | .work r i spurious =>
      if i < (S.handler r).launched numThreads then
        (simulateTransactions paymentTree.shape workerId S.simulation (r, i) spurious).map
          fun simulation => { S with simulation := simulation }
      else none

end Program

/-- The server has been started, and no request has come. -/
def ServerState.start (draws : Draws R numThreads txnPerThread) : ServerState R numThreads :=
  ⟨.start buildPaymentTree draws.targets, fun _ => .waiting⟩

/-- The thread pool decides when the handler of a request may start, and nothing else. -/
def Admits (pool : ServerState R numThreads → R → Bool) (S : ServerState R numThreads)
    (a : Action R numThreads) : Prop :=
  S.handler a.request = .waiting → pool S a.request = true

instance (pool : ServerState R numThreads → R → Bool) (S : ServerState R numThreads)
    (a : Action R numThreads) : Decidable (Admits pool S a) :=
  inferInstanceAs (Decidable (S.handler a.request = .waiting → pool S a.request = true))

/-- The states of the server, with any requests coming and any scheduling. -/
def ServerRun [DecidableEq R] (draws : Draws R numThreads txnPerThread)
    (S : ServerState R numThreads) : Prop :=
  Reaches (serve txnPerThread) (fun _ _ => True) (.start draws) S

/-- A schedule given by how often each action is repeated. -/
def repeated (as : List (ℕ × Action R numThreads)) : List (Action R numThreads) :=
  as.flatMap fun a => .replicate a.1 a.2

/-- Every request has one thread and one transaction, for `BHIM`. -/
def bhim (R : Type) : Draws R 1 1 := fun _ _ _ => ⟨8, by decide⟩

theorem Draws.length_targets (draws : Draws R numThreads txnPerThread) (w : R × Fin numThreads) :
    (draws.targets w).length = txnPerThread :=
  List.length_ofFn

theorem Draws.mem_gateways {draws : Draws R numThreads txnPerThread} {w : R × Fin numThreads}
    {g : String} (h : g ∈ draws.targets w) : g ∈ gateways := by
  obtain ⟨k, rfl⟩ := (List.mem_ofFn' _ _).1 h
  exact List.get_mem ..

/-- The JSON value a request is answered with. -/
def completedDocument (numThreads txnPerThread : ℕ) : Json :=
  .object [("status", .string "complete"), ("threads", .number (toString numThreads)),
    ("txnPerThread", .number (toString txnPerThread))]

theorem parse_completed (numThreads txnPerThread : ℕ) :
    Json.parse (completed numThreads txnPerThread) =
      some (completedDocument numThreads txnPerThread) := by
  have hmember₁ := Json.ends_member "status" (by decide)
    (Json.denotes_string (s := "complete") (by decide)).ends
  have hmember₂ := Json.ends_member "threads" (by decide) (Json.ends_nat numThreads)
  have hmember₃ := Json.ends_member "txnPerThread" (by decide) (Json.ends_nat txnPerThread)
  have hobject := Json.denotes_object_of_ends (List.cons_ne_nil _ _)
    (.cons hmember₁ (.cons hmember₂ (.cons hmember₃ .nil)))
  refine Json.Denotes.parse ?_
  unfold completed
  convert hobject using 1
  · simp
  · rfl

/-! ### Handlers and their threads -/

section Steps

variable [DecidableEq R] {draws : Draws R numThreads txnPerThread} {S S' : ServerState R numThreads}

/-- **The threads of all requests are one simulation.** -/
theorem ServerRun.simulationRun (h : ServerRun draws S) :
    SimulationRun workerId S.simulation buildPaymentTree draws.targets := by
  refine h.map ServerState.simulation fun S₁ a S₂ _ _ hs => ?_
  cases a with
  | handle r =>
      rw [serve, postSimulate] at hs
      split at hs
      · cases hs
        exact .refl
      · cases hs
        exact .refl
      · split at hs
        · split at hs <;> cases hs
          exact .refl
        · cases hs
          exact .refl
      · cases hs
  | work r i sp =>
      rw [serve] at hs
      split at hs
      · obtain ⟨simulation, hsim, rfl⟩ := Option.map_eq_some_iff.1 hs
        exact .single (a := ((r, i), sp)) trivial hsim
      · cases hs

/-- How far the threads of a request are, when its handler stands here. -/
def Handler.Fits (txnPerThread : ℕ) (targets : Fin numThreads → List String)
    (phase : Fin numThreads → Phase) : Handler → Prop
  | .waiting => ∀ i, phase i = .count (targets i)
  | .launching k => k ≤ numThreads ∧ ∀ i : Fin numThreads, k ≤ i → phase i = .count (targets i)
  | .joining k => k ≤ numThreads ∧ ∀ i : Fin numThreads, i < k → phase i = .count []
  | .responded content =>
      content = completed numThreads txnPerThread ∧ ∀ i, phase i = .count []

/-- A handler that stands where its threads fit. -/
def ServerState.Fits (draws : Draws R numThreads txnPerThread) (S : ServerState R numThreads)
    (r : R) : Prop :=
  (S.handler r).Fits txnPerThread (fun i => draws.targets (r, i)) fun i => S.simulation.phase (r, i)

/-- A step of the handler fits the threads as they are. -/
theorem handler_of_postSimulate (targets : Fin numThreads → List String) {r : R}
    (hs : postSimulate txnPerThread S r = some S') :
    ∃ p : Handler, S' = { S with handler := Function.update S.handler r p } ∧
      ((S.handler r).Fits txnPerThread targets (fun i => S.simulation.phase (r, i)) →
        p.Fits txnPerThread targets fun i => S.simulation.phase (r, i)) := by
  unfold postSimulate at hs
  cases hhandler : S.handler r with
  | waiting =>
      rw [hhandler] at hs
      cases hs
      exact ⟨_, rfl, fun h => ⟨Nat.zero_le _, fun i _ => h i⟩⟩
  | launching k =>
      rw [hhandler] at hs
      cases hs
      refine ⟨_, rfl, fun h => ?_⟩
      split
      · rename_i hk
        exact ⟨hk, fun i hi => h.2 i (Nat.le_of_succ_le hi)⟩
      · exact ⟨Nat.zero_le _, fun i hi => absurd hi (Nat.not_lt_zero _)⟩
  | joining k =>
      rw [hhandler] at hs
      dsimp only at hs
      split at hs
      · rename_i hk
        split at hs
        · rename_i hfinished
          cases hs
          refine ⟨_, rfl, fun h => ⟨hk, fun i hi => ?_⟩⟩
          rcases Nat.lt_succ_iff_lt_or_eq.1 hi with hi | rfl
          · exact h.2 i hi
          · exact hfinished
        · cases hs
      · rename_i hk
        cases hs
        exact ⟨_, rfl, fun h => ⟨rfl, fun i => h.2 i (i.isLt.trans_le (Nat.le_of_not_lt hk))⟩⟩
  | responded content =>
      rw [hhandler] at hs
      cases hs

/-- A thread that steps has been launched and not been joined, so its handler still fits. -/
theorem Handler.Fits.work {p : Handler} {targets : Fin numThreads → List String}
    {phase phase' : Fin numThreads → Phase} {j : Fin numThreads}
    (h : p.Fits txnPerThread targets phase) (hlaunched : j < p.launched numThreads)
    (hrunning : phase j ≠ .count []) (hother : ∀ i ≠ j, phase' i = phase i) :
    p.Fits txnPerThread targets phase' := by
  cases p with
  | waiting => exact absurd hlaunched (Nat.not_lt_zero _)
  | launching k =>
      refine ⟨h.1, fun i hi => ?_⟩
      rw [hother i fun hij => Nat.not_lt.2 (hij ▸ hi) hlaunched]
      exact h.2 i hi
  | joining k =>
      refine ⟨h.1, fun i hi => ?_⟩
      rw [hother i fun hij => hrunning (h.2 j (hij ▸ hi))]
      exact h.2 i hi
  | responded content => exact absurd (h.2 j) hrunning

/-- The handler of a request and its threads keep in step. -/
theorem ServerState.Fits.step {a : Action R numThreads} {r : R} (h : S.Fits draws r)
    (hs : serve txnPerThread S a = some S') : S'.Fits draws r := by
  cases a with
  | handle r' =>
      obtain ⟨p, rfl, hp⟩ := handler_of_postSimulate (fun i => draws.targets (r', i)) hs
      by_cases hr : r = r'
      · subst hr
        simpa [ServerState.Fits] using hp h
      · simpa [ServerState.Fits, Function.update_of_ne hr] using h
  | work r' j sp =>
      rw [serve] at hs
      split at hs
      · rename_i hlaunched
        obtain ⟨simulation, hsim, rfl⟩ := Option.map_eq_some_iff.1 hs
        by_cases hr : r = r'
        · subst hr
          refine Handler.Fits.work h hlaunched (fun hp => ?_) fun i hi => ?_
          · exact absurd (hsim.symm.trans (simulateTransactions_finished hp))
              (Option.some_ne_none _)
          · exact phase_of_ne hsim fun heq => hi (Prod.ext_iff.1 heq).2
        · have hsame (i : Fin numThreads) :
              simulation.phase (r, i) = S.simulation.phase (r, i) :=
            phase_of_ne hsim fun heq => hr (Prod.ext_iff.1 heq).1
          simpa [ServerState.Fits, hsame] using h
      · cases hs

theorem ServerRun.fits (h : ServerRun draws S) (r : R) : S.Fits draws r := by
  unfold ServerRun at h
  refine h.invariant (P := fun S => S.Fits draws r) (fun i => rfl) ?_
  exact fun S₁ a S₂ _ hfits _ hs => hfits.step hs

end Steps

/-! ### What has been done for the requests -/

section Counted

variable [DecidableEq R] {draws : Draws R numThreads txnPerThread} {S : ServerState R numThreads}

/-- What a thread has still to begin is part of what it was to do. -/
theorem left_le_length {Tid : Type} [DecidableEq Tid] {threadId : Tid → ℤ}
    {adds : List NodeSpec} {targets : Tid → List String} {S : Simulation Tid}
    (h : SimulationRun threadId S adds targets) (i : Tid) :
    0 ≤ (S.phase i).left ∧ (S.phase i).left ≤ (targets i).length := by
  have hlength : (S.phase i).left ≤ ((S.phase i).pending.length : ℤ) := by
    cases S.phase i <;> simp [Phase.left, Phase.pending]
  have hsuffix : ((S.phase i).pending.length : ℤ) ≤ (targets i).length :=
    Int.ofNat_le.2 (h.pending_suffix i).length_le
  refine ⟨?_, hlength.trans hsuffix⟩
  cases S.phase i <;> simp [Phase.left]

/-- The transactions begun for a request: none before it comes, all of them when it is
answered, and never more. -/
theorem ServerRun.begun_transactions (h : ServerRun draws S) (r : R) :
    let begun := ∑ i : Fin numThreads, ((txnPerThread : ℤ) - (S.simulation.phase (r, i)).left)
    0 ≤ begun ∧ begun ≤ numThreads * txnPerThread ∧ (S.handler r = .waiting → begun = 0) ∧
      ((S.handler r).isResponded → begun = numThreads * txnPerThread) := by
  have hleft (i : Fin numThreads) := left_le_length h.simulationRun (r, i)
  simp only [draws.length_targets] at hleft
  have hfits := h.fits r
  unfold ServerState.Fits at hfits
  refine ⟨Finset.sum_nonneg fun i _ => ?_, ?_, fun hr => Finset.sum_eq_zero fun i _ => ?_,
    fun hr => ?_⟩
  · linarith [(hleft i).2]
  · calc ∑ i : Fin numThreads, ((txnPerThread : ℤ) - (S.simulation.phase (r, i)).left)
        ≤ ∑ _i : Fin numThreads, (txnPerThread : ℤ) :=
          Finset.sum_le_sum fun i _ => by linarith [(hleft i).1]
      _ = numThreads * txnPerThread := by simp
  · rw [hr] at hfits
    have hi : S.simulation.phase (r, i) = .count (draws.targets (r, i)) := hfits i
    rw [hi, Phase.left, draws.length_targets, sub_self]
  · cases hp : S.handler r with
    | responded content =>
        rw [hp] at hfits
        simp [hfits.2, Phase.left]
    | _ =>
        rw [hp] at hr
        cases hr

variable [Fintype R]

/-- How many requests have come. -/
def ServerState.begun (S : ServerState R numThreads) : ℕ :=
  (Finset.univ.filter fun r => S.handler r ≠ .waiting).card

/-- How many requests have been answered. -/
def ServerState.answered (S : ServerState R numThreads) : ℕ :=
  (Finset.univ.filter fun r => (S.handler r).isResponded).card

/-- The total counts the transactions begun for all requests. -/
theorem ServerRun.total_eq (h : ServerRun draws S) :
    S.simulation.machine.mem.metrics.totalTransactions =
      ∑ r, ∑ i : Fin numThreads, ((txnPerThread : ℤ) - (S.simulation.phase (r, i)).left) := by
  have htotal := h.simulationRun.counted.total
  simp only [Tallied, draws.length_targets, Function.comp_apply] at htotal
  rw [← Fintype.sum_prod_type' fun r i => (txnPerThread : ℤ) - (S.simulation.phase (r, i)).left,
    Finset.sum_sub_distrib, ← htotal, add_sub_cancel_right]

/-- All transactions of an answered request have been counted. -/
theorem ServerRun.answered_le_total (h : ServerRun draws S) :
    (S.answered * (numThreads * txnPerThread) : ℤ) ≤
      S.simulation.machine.mem.metrics.totalTransactions := by
  rw [h.total_eq, ServerState.answered, Finset.card_filter, Nat.cast_sum, Finset.sum_mul]
  refine Finset.sum_le_sum fun r _ => ?_
  obtain ⟨hnonneg, -, -, hall⟩ := h.begun_transactions r
  split
  · rename_i hr
    simp [hall hr]
  · simpa using hnonneg

/-- No transaction of a request that has not come has been counted. -/
theorem ServerRun.total_le_begun (h : ServerRun draws S) :
    S.simulation.machine.mem.metrics.totalTransactions ≤
      S.begun * (numThreads * txnPerThread) := by
  rw [h.total_eq, ServerState.begun, Finset.card_filter, Nat.cast_sum, Finset.sum_mul]
  refine Finset.sum_le_sum fun r _ => ?_
  obtain ⟨-, hle, hnone, -⟩ := h.begun_transactions r
  split
  · simpa using hle
  · rename_i hr
    simp [hnone (not_not.1 hr)]

/-- **What the server has done, at every moment.**  Requests may come at any time and
overlap in any way.  All transactions of an answered request have been counted, and none
of a request that has not come.  Whenever no request is in progress, the tree is as it was
built, the dashboard is sent the same text as at the start, and every transaction of
every request so far has been counted once, as a success or as a failure.  The answers say
how many threads and transactions there were. -/
theorem requests_counted (h : ServerRun draws S) :
    let m := S.simulation.machine.mem.metrics
    (S.answered * (numThreads * txnPerThread) : ℤ) ≤ m.totalTransactions ∧
    m.totalTransactions ≤ S.begun * (numThreads * txnPerThread) ∧
    ((∀ r, S.handler r = .waiting ∨ (S.handler r).isResponded) →
      (∀ n, S.simulation.machine.mem.node n = .fresh) ∧
      AtomicPaymentTree.toJson ⟨paymentTree.shape, S.simulation.machine.mem⟩ =
        paymentTree.toJson ∧
      m.totalTransactions = S.answered * (numThreads * txnPerThread) ∧
      m.successfulLocks + m.failedLocks = m.totalTransactions) ∧
    ∀ r content, S.handler r = .responded content →
      Json.parse content = some (completedDocument numThreads txnPerThread) := by
  intro m
  have hlower := h.answered_le_total
  have hupper := h.total_le_begun
  have hcontent (r : R) (content : String) (hr : S.handler r = .responded content) :
      Json.parse content = some (completedDocument numThreads txnPerThread) := by
    have hfits := h.fits r
    rw [ServerState.Fits, hr] at hfits
    rw [hfits.1, parse_completed]
  refine ⟨hlower, hupper, fun hquiet => ?_, hcontent⟩
  have hphase (w : R × Fin numThreads) : ∃ targets, S.simulation.phase w = .count targets := by
    obtain ⟨r, i⟩ := w
    have hfits := h.fits r
    unfold ServerState.Fits at hfits
    cases hp : S.handler r with
    | waiting =>
        rw [hp] at hfits
        exact ⟨_, hfits i⟩
    | responded content =>
        rw [hp] at hfits
        exact ⟨_, hfits.2 i⟩
    | launching k | joining k =>
        have := hquiet r
        rw [hp] at this
        simp [Handler.isResponded] at this
  have hfresh := h.simulationRun.disciplined.fresh hphase
  have hbegun : S.begun = S.answered := by
    refine congrArg Finset.card (Finset.filter_congr fun r _ => ⟨fun hr => ?_, fun hr hw => ?_⟩)
    · exact (hquiet r).resolve_left hr
    · rw [hw] at hr
      cases hr
  refine ⟨hfresh, ?_, le_antisymm (hbegun ▸ hupper) hlower, ?_⟩
  · have hstates : (fun n => (S.simulation.machine.mem.node n).lockState) =
        fun n => (paymentTree.mem.node n).lockState := funext fun n => by
      rw [hfresh, paymentTree, build_node]
    simp only [AtomicPaymentTree.toJson, hstates]
  · have hsum := h.simulationRun.disciplined.metrics
    refine hsum.eq_of_zero fun w => ?_
    obtain ⟨targets, hw⟩ := hphase w
    simp [hw, Phase.owed]

/-- Two requests of one thread and one transaction each, both for `BHIM`, of which the second
finds it taken; then both are answered. -/
theorem requests_counted_overlapping :
    ∃ S : ServerState (Fin 2) 1, ServerRun (bhim (Fin 2)) S ∧ S.answered = 2 ∧
      S.simulation.machine.mem.metrics.totalTransactions = 2 ∧
      S.simulation.machine.mem.metrics.failedLocks = 1 ∧
      (∀ n, S.simulation.machine.mem.node n = .fresh) := by
  have hany : (exec (serve 1) (fun _ _ => True) (.start (bhim (Fin 2)))
      (repeated [(3, .handle 0), (3, .handle 1), (8, .work 0 0 false), (7, .work 1 0 false),
        (15, .work 0 0 false), (2, .handle 1), (2, .handle 0)])).any (fun S => decide
          ((∀ r, (S.handler r).isResponded) ∧
            S.simulation.machine.mem.metrics.failedLocks = 1)) = true := by
    decide +kernel
  obtain ⟨S, hS, hp⟩ := exists_reaches_of_exec _ hany
  obtain ⟨hanswered, hfailed⟩ := of_decide_eq_true hp
  have hcard : S.answered = 2 := by
    simp [ServerState.answered, hanswered]
  obtain ⟨hfresh, -, htotal, -⟩ := (requests_counted hS).2.2.1 fun r => .inr (hanswered r)
  exact ⟨S, hS, hcard, by simp [htotal, hcard], hfailed, hfresh⟩

end Counted

/-! ### The requests as calls on one tree -/

section Calls

/-- The gateways are not above one another. -/
theorem Draws.separate (draws : Draws R numThreads txnPerThread) :
    Separate paymentTree.shape draws.targets :=
  separate_of_leaves fun _ _ hg => by
    obtain ⟨n, hn, -, hleaf⟩ := exists_leaf_of_mem_gateways (Draws.mem_gateways hg)
    exact ⟨n, hn, hleaf⟩

variable [DecidableEq R] [Fintype R] {draws : Draws R numThreads txnPerThread}
  {S : ServerState R numThreads}

/-- **Overlapping requests leave the tree as sequential calls would.**  While no call is in
flight, some order of all calls made for all requests, which is consistent with real time,
has the same results on a `PaymentTree`, and ends with the same lock state, owner and
counters of every node, although the threads of different requests share their ids. -/
theorem ServerRun.calls_linearizable (h : ServerRun draws S)
    (hidle : ∀ w, S.simulation.machine.thread w = .idle) :
    ∃ (l : List (Operation (R × Fin numThreads) Call Bool)) (T : PaymentTree),
      Linearization PaymentTree.call (PaymentTree.build buildPaymentTree) T
        (operations S.simulation.machine.hist) l ∧
      ∀ n, let v := S.simulation.machine.mem.node n
        v.lockState = (if (T.node n).isLocked then 1 else 0) ∧
          v.lockedBy = (T.node n).lockedBy ∧
          v.ancestorLockedCount = (T.node n).ancestorLockedCount ∧
          v.descendantLockedCount = (T.node n).descendantLockedCount := by
  obtain ⟨g, hg⟩ := h.simulationRun.explained draws.separate
  have hd := h.simulationRun.disciplined
  exact hg.exists_linearization hd.sound hd.custody hd.recorded hidle

end Calls

/-! ### Every request is answered -/

section Completion

/-- No transaction takes more than 25 steps, a spurious failure apart. -/
theorem loopSteps_targets (draws : Draws R numThreads txnPerThread) (w : R × Fin numThreads) :
    loopSteps paymentTree.shape (draws.targets w) ≤ txnPerThread * 25 := by
  have hall : ∀ g ∈ gateways, iterationSteps paymentTree.shape g ≤ 25 := by decide +kernel
  calc loopSteps paymentTree.shape (draws.targets w)
      ≤ ((draws.targets w).map fun _ => 25).sum :=
        List.sum_le_sum fun g hg => hall g (Draws.mem_gateways hg)
    _ = txnPerThread * 25 := by simp [draws.length_targets]

variable [DecidableEq R] {draws : Draws R numThreads txnPerThread} {S S' : ServerState R numThreads}
  {r : R} {a : Action R numThreads}

/-- The steps left to a handler. -/
def Handler.rank (numThreads : ℕ) : Handler → ℕ
  | .waiting => 2 * numThreads + 3
  | .launching i => (numThreads - i) + numThreads + 2
  | .joining i => (numThreads - i) + 1
  | .responded _ => 0

/-- The steps left to a request: to its handler and to its threads. -/
def ServerState.rank (r : R) (S : ServerState R numThreads) : ℕ :=
  (S.handler r).rank numThreads + ∑ i, S.simulation.rank paymentTree.shape (r, i)

/-- Whether a step makes a `compare_exchange_weak` of the request fail spuriously. -/
def Action.fails (r : R) : Action R numThreads → Bool
  | .handle _ => false
  | .work r' _ spurious => decide (r' = r) && spurious

/-- A handler is one step closer to its answer after each of its steps. -/
theorem rank_postSimulate (hs : postSimulate txnPerThread S r = some S') :
    ∃ p : Handler, S' = { S with handler := Function.update S.handler r p } ∧
      1 + p.rank numThreads ≤ (S.handler r).rank numThreads := by
  unfold postSimulate at hs
  cases hhandler : S.handler r with
  | waiting =>
      rw [hhandler] at hs
      cases hs
      exact ⟨_, rfl, by simp only [Handler.rank]; omega⟩
  | launching k =>
      rw [hhandler] at hs
      cases hs
      refine ⟨_, rfl, ?_⟩
      split <;> simp only [Handler.rank] <;> omega
  | joining k =>
      rw [hhandler] at hs
      dsimp only at hs
      split at hs
      · split at hs <;> cases hs
        exact ⟨_, rfl, by simp only [Handler.rank]; omega⟩
      · cases hs
        exact ⟨_, rfl, by simp only [Handler.rank]; omega⟩
  | responded content =>
      rw [hhandler] at hs
      cases hs

/-- **Every step of a request is one step less to make**, up to a spurious failure; the other
requests leave it alone. -/
theorem ServerState.rank_step (hs : serve txnPerThread S a = some S') :
    (decide (a.request = r)).toNat + S'.rank r ≤ S.rank r + if a.fails r then 2 else 0 := by
  cases a with
  | handle r' =>
      obtain ⟨p, rfl, hp⟩ := rank_postSimulate hs
      by_cases hr : r' = r
      · subst hr
        simp only [Action.request, ServerState.rank, Function.update_self, decide_true,
          Bool.toNat_true]
        omega
      · simp [Action.request, ServerState.rank, hr, Function.update_of_ne (Ne.symm hr)]
  | work r' j sp =>
      rw [serve] at hs
      split at hs
      · obtain ⟨simulation, hsim, rfl⟩ := Option.map_eq_some_iff.1 hs
        by_cases hr : r' = r
        · subst hr
          have hself := rank_step_self hsim
          have hothers : ∑ i ∈ Finset.univ.erase j, simulation.rank paymentTree.shape (r', i) =
              ∑ i ∈ Finset.univ.erase j, S.simulation.rank paymentTree.shape (r', i) :=
            Finset.sum_congr rfl fun i hi => rank_of_ne
              (fun heq => Finset.ne_of_mem_erase hi (Prod.ext_iff.1 heq).2.symm) hsim
          have h₁ := Finset.add_sum_erase Finset.univ
            (fun i => simulation.rank paymentTree.shape (r', i)) (Finset.mem_univ j)
          have h₂ := Finset.add_sum_erase Finset.univ
            (fun i => S.simulation.rank paymentTree.shape (r', i)) (Finset.mem_univ j)
          simp only [Action.request, Action.fails, ServerState.rank, decide_true, Bool.toNat_true,
            Bool.true_and]
          omega
        · have hsame (i : Fin numThreads) : simulation.rank paymentTree.shape (r, i) =
              S.simulation.rank paymentTree.shape (r, i) :=
            rank_of_ne (fun heq => hr (Prod.ext_iff.1 heq).1) hsim
          simp [Action.request, Action.fails, ServerState.rank, hr, hsame]
      · cases hs

variable [Fintype R]

/-- A request that is not answered can go on: its handler can, or the thread that the handler
is about to join. -/
theorem ServerRun.exists_step (h : ServerRun draws S) (hr : ¬(S.handler r).isResponded) :
    ∃ a S', a.request = r ∧ serve txnPerThread S a = some S' := by
  cases hp : S.handler r with
  | waiting => exact ⟨.handle r, _, rfl, by rw [serve, postSimulate, hp]⟩
  | launching k => exact ⟨.handle r, _, rfl, by rw [serve, postSimulate, hp]⟩
  | joining k =>
      by_cases hk : k < numThreads
      · by_cases hfinished : S.simulation.phase (r, ⟨k, hk⟩) = .count []
        · refine ⟨.handle r,
            { S with handler := Function.update S.handler r (.joining (k + 1)) }, rfl, ?_⟩
          rw [serve, postSimulate, hp]
          simp only [dif_pos hk, if_pos hfinished]
        · obtain ⟨simulation, hsim⟩ :=
            h.simulationRun.disciplined.exists_step hfinished false
          refine ⟨.work r ⟨k, hk⟩ false, { S with simulation := simulation }, rfl, ?_⟩
          rw [serve, hp, Handler.launched, if_pos hk]
          exact Option.map_eq_some_iff.2 ⟨simulation, hsim, rfl⟩
      · let content := completed numThreads txnPerThread
        refine ⟨.handle r,
          { S with handler := Function.update S.handler r (.responded content) }, rfl, ?_⟩
        rw [serve, postSimulate, hp]
        simp only [dif_neg hk, content]
  | responded content =>
      rw [hp] at hr
      exact absurd rfl hr

/-- **Every request that is taken up is answered.**  However the pool starts the handlers and
however these and their threads are scheduled: the steps of a request, of its handler and
of its threads together, are bounded by the number of its transactions and of its spurious
failures.  Once its handler has started, or the pool has a thread for it, a request that
is not answered can make the next step, whether or not the others go on.  And as long as
there is a request that is not answered, the server as a whole can make a step, if the pool
has a thread for this request at least while no handler is running. -/
theorem request_completes {pool : ServerState R numThreads → R → Bool}
    {as : List (Action R numThreads)}
    (h : exec (serve txnPerThread) (Admits pool) (.start draws) as = some S) (r : R) :
    as.countP (fun a => decide (a.request = r)) ≤
        2 * numThreads + 3 + numThreads * (txnPerThread * 25) + 2 * as.countP (Action.fails r) ∧
      (¬(S.handler r).isResponded → (S.handler r = .waiting → pool S r = true) →
        ∃ a S', a.request = r ∧ Admits pool S a ∧ serve txnPerThread S a = some S') ∧
      (¬(S.handler r).isResponded →
        ((∀ r', S.handler r' = .waiting ∨ (S.handler r').isResponded) → pool S r = true) →
        ∃ a S', Admits pool S a ∧ serve txnPerThread S a = some S') := by
  have hrun : ServerRun draws S := (reaches_of_exec h).mono fun _ _ _ => trivial
  have hnext {r : R} (hr : ¬(S.handler r).isResponded)
      (hstart : S.handler r = .waiting → pool S r = true) :
      ∃ a S', a.request = r ∧ Admits pool S a ∧ serve txnPerThread S a = some S' := by
    obtain ⟨a, S', rfl, hs⟩ := hrun.exists_step hr
    exact ⟨a, S', rfl, hstart, hs⟩
  refine ⟨?_, hnext, fun hr hpool => ?_⟩
  · have hrank := countP_add_rank_le (fun a : Action R numThreads => decide (a.request = r))
      (fun a => if a.fails r then 2 else 0) (ServerState.rank r)
      (fun S₁ a S₂ _ hs => ServerState.rank_step hs) h
    have hstart : (ServerState.start draws).rank r ≤
        2 * numThreads + 3 + numThreads * (txnPerThread * 25) := by
      have hthreads : ∑ i, loopSteps paymentTree.shape (draws.targets (r, i)) ≤
          ∑ _i : Fin numThreads, txnPerThread * 25 :=
        Finset.sum_le_sum fun i _ => loopSteps_targets draws (r, i)
      rw [Finset.sum_const, Finset.card_univ, Fintype.card_fin, smul_eq_mul] at hthreads
      exact Nat.add_le_add_left hthreads _
    rw [sum_slack] at hrank
    omega
  -- a handler that is running can go on, and without one the pool has a thread
  · by_cases hquiet : ∀ r', S.handler r' = .waiting ∨ (S.handler r').isResponded
    · obtain ⟨a, S', -, hstep⟩ := hnext hr fun _ => hpool hquiet
      exact ⟨a, S', hstep⟩
    · obtain ⟨r', hr'⟩ := not_forall.1 hquiet
      obtain ⟨hstarted, hopen⟩ := not_or.1 hr'
      obtain ⟨a, S', -, hstep⟩ := hnext hopen fun hw => absurd hw hstarted
      exact ⟨a, S', hstep⟩

/-- A pool of `size` threads. -/
def poolOf (size : ℕ) (S : ServerState R numThreads) (_ : R) : Bool :=
  decide ((Finset.univ.filter fun r =>
    S.handler r ≠ .waiting ∧ ¬(S.handler r).isResponded).card < size)

/-- A pool of two threads.  The only thread of request 0 has stopped in the middle of locking
`BHIM`; request 1 has been answered all the same, in 12 of at most 30 steps, and request 2,
which had to wait for that, can start. -/
theorem request_completes_beside_stopped :
    ∃ (as bs : List (Action (Fin 3) 1)) (S₁ S : ServerState (Fin 3) 1),
      exec (serve 1) (Admits (poolOf 2)) (.start (bhim (Fin 3))) as = some S₁ ∧
      ¬Admits (poolOf 2) S₁ (.handle 2) ∧
      exec (serve 1) (Admits (poolOf 2)) (.start (bhim (Fin 3))) (as ++ bs) = some S ∧
      S.simulation.phase (0, 0) = .inLock "BHIM" [] ∧
      S.handler 1 = .responded (completed 1 1) ∧ S.handler 2 = .waiting ∧
      (as ++ bs).countP (fun a => decide (a.request = 1)) = 12 ∧
      (as ++ bs).countP (fun a => decide (a.request = 1)) ≤
        30 + 2 * (as ++ bs).countP (Action.fails 1) ∧
      (∃ a S', a.request = 0 ∧ Admits (poolOf 2) S a ∧ serve 1 S a = some S') ∧
      ∃ a S', a.request = 2 ∧ Admits (poolOf 2) S a ∧ serve 1 S a = some S' := by
  let as : List (Action (Fin 3) 1) := repeated [(3, .handle 0), (3, .handle 1)]
  let bs : List (Action (Fin 3) 1) := repeated [(6, .work 0 0 false), (7, .work 1 0 false),
    (2, .handle 1)]
  have hfirst : (exec (serve 1) (Admits (poolOf 2)) (.start (bhim (Fin 3))) as).any
      (fun S => decide (¬Admits (poolOf 2) S (.handle 2))) = true := by
    decide +kernel
  have hany : (exec (serve 1) (Admits (poolOf 2)) (.start (bhim (Fin 3))) (as ++ bs)).any
      (fun S => decide (S.simulation.phase (0, 0) = .inLock "BHIM" [] ∧ S.handler 0 = .joining 0 ∧
        S.handler 1 = .responded (completed 1 1) ∧ S.handler 2 = .waiting ∧
        poolOf 2 S 2 = true)) = true := by
    decide +kernel
  obtain ⟨S₁, hS₁, hrefused⟩ := (Option.any_eq_true _ _).1 hfirst
  obtain ⟨S, hS, hp⟩ := (Option.any_eq_true _ _).1 hany
  obtain ⟨hphase, hhandler, hresponded, hwaiting, hfree⟩ := of_decide_eq_true hp
  have hsteps : (as ++ bs).countP (fun a => decide (a.request = 1)) = 12 := by decide
  have hbound := (request_completes hS 1).1
  have hnext := (request_completes hS 0).2.1 (by rw [hhandler]; decide)
    (by rw [hhandler]; exact fun hw => Handler.noConfusion hw)
  have hstart := (request_completes hS 2).2.1 (by rw [hwaiting]; decide) fun _ => hfree
  exact ⟨as, bs, S₁, S, hS₁, of_decide_eq_true hrefused, hS, hphase, hresponded, hwaiting, hsteps,
    hbound, hnext, hstart⟩

end Completion

end Server
end PaymentGateway
