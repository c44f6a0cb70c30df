/-
# `GET /api/tree` and `GET /api/metrics`

`src/main.cpp`, lines 68-85.  Both handlers read the tree of the server while simulations
run, one atomic load at a time, so neither answer need be the state of any instant.

What the dashboard is told about the tree is right in one respect all the same: it never
shows a locked node above another node, because only gateways are ever locked
(`tree_response`).

The metrics are loaded in an order that the language leaves open: they are operands of a
chain of `+`.  Since no counter ever goes down, whatever the order each number lies between
those of the counter when the request comes and when it is answered
(`metrics_response`); how the three totals go together depends on the order.
-/

import PaymentGateway.Atomic.Reading
import PaymentGateway.Lib.JsonNumber
import PaymentGateway.Server.Requests

namespace PaymentGateway
namespace Server

open Lib Atomic

variable {R : Type} {numThreads txnPerThread : ℕ}

/-! ### The metrics and their text -/

/-- The members of `Metrics`. -/
inductive Counter
  | totalTransactions | successfulLocks | failedLocks | casRetries
  deriving DecidableEq, Repr

/-- The key of a counter in the text. -/
def Counter.key : Counter → String
  | .totalTransactions => "totalTransactions"
  | .successfulLocks => "successfulLocks"
  | .failedLocks => "failedLocks"
  | .casRetries => "casRetries"

/-- The counters in the order of the text. -/
def counters : List Counter := [.totalTransactions, .successfulLocks, .failedLocks, .casRetries]

/-- What a load finds. -/
def counter (m : Metrics) : Counter → ℤ
  | .totalTransactions => m.totalTransactions
  | .successfulLocks => m.successfulLocks
  | .failedLocks => m.failedLocks
  | .casRetries => m.casRetries

/-- The text of the response. -/
def metricsContent (value : Counter → ℤ) : String :=
  "\x7b\"totalTransactions\":" ++ toString (value .totalTransactions) ++
    ",\"successfulLocks\":" ++ toString (value .successfulLocks) ++
    ",\"failedLocks\":" ++ toString (value .failedLocks) ++
    ",\"casRetries\":" ++ toString (value .casRetries) ++ "\x7d"

/-- The handler, which loads the counters in the given order; `value` are those it has. -/
def getMetrics : List Counter → (Counter → ℤ) → Reads Counter ℤ String
  | [], value => .ret (metricsContent value)
  | c :: order, value => .load c fun v => getMetrics order (Function.update value c v)

/-- The JSON value of the response. -/
def metricsDocument (value : Counter → ℤ) : Json :=
  .object (counters.map fun c => (c.key, .number (toString (value c))))

/-- **The text is that of the numbers it was made from.** -/
theorem parse_metricsContent (value : Counter → ℤ) :
    Json.parse (metricsContent value) = some (metricsDocument value) := by
  have hmember (c : Counter) : Json.Ends Json.memberAt
      ('\"' :: (c.key.toList ++ '\"' :: ':' :: (toString (value c)).toList))
      (c.key, .number (toString (value c))) :=
    Json.ends_member c.key (by cases c <;> decide) (Json.ends_int (value c))
  have hobject := Json.denotes_object_of_ends (List.cons_ne_nil _ _)
    (.cons (hmember .totalTransactions) (.cons (hmember .successfulLocks)
      (.cons (hmember .failedLocks) (.cons (hmember .casRetries) .nil))))
  refine Json.Denotes.parse ?_
  unfold metricsDocument metricsContent
  convert hobject using 1
  · simp [Counter.key]
  · rfl

/-! ### The loads -/

theorem cells_getMetrics (order : List Counter) (value f : Counter → ℤ) :
    (getMetrics order value).cells f = order := by
  induction order generalizing value with
  | nil => rfl
  | cons c order ih => exact congrArg (c :: ·) (ih _)

theorem eval_getMetrics (order : List Counter) (value f : Counter → ℤ) :
    (getMetrics order value).eval f =
      metricsContent fun c => if c ∈ order then f c else value c := by
  induction order generalizing value with
  | nil => simp [getMetrics, Reads.eval]
  | cons c order ih =>
      rw [getMetrics, Reads.eval, ih]
      refine congrArg metricsContent (funext fun d => ?_)
      by_cases hd : d = c
      · subst hd
        simp
      · simp [hd]

/-! ### The metrics while simulations run -/

section Metrics

variable [DecidableEq R] {draws : Draws R numThreads txnPerThread}
  {S S₀ : ServerState R numThreads} {a : Action R numThreads} {order : List Counter}
  {as : List (Option (Action R numThreads))} {text : String}

/-- What a load of `/api/metrics` finds. -/
def ServerState.counters (S : ServerState R numThreads) : Counter → ℤ :=
  counter S.simulation.machine.mem.metrics

/-- The server and a call of `/api/metrics` that comes in the state `S₀`, after a schedule of
loads (`none`) and steps of the server. -/
abbrev metricsAfter (txnPerThread : ℕ) (order : List Counter) (S₀ : ServerState R numThreads)
    (as : List (Option (Action R numThreads))) :
    Option (ServerState R numThreads × Reads Counter ℤ String) :=
  Reads.after (serve txnPerThread) ServerState.counters (fun _ _ => True)
    (S₀, getMetrics order fun _ => 0) as

/-- No counter goes down while the server runs. -/
theorem counters_le_of_serve {S' : ServerState R numThreads}
    (hs : serve txnPerThread S a = some S') (c : Counter) : S.counters c ≤ S'.counters c := by
  cases a with
  | handle r =>
      obtain ⟨p, rfl, -⟩ := handler_of_postSimulate (fun _ => []) hs
      exact le_rfl
  | work r i sp =>
      rw [serve] at hs
      split at hs
      · obtain ⟨simulation, hsim, rfl⟩ := Option.map_eq_some_iff.1 hs
        obtain ⟨h₁, h₂, h₃, h₄⟩ := metrics_le_of_step hsim
        cases c with
        | totalTransactions => exact h₁
        | successfulLocks => exact h₂
        | failedLocks => exact h₃
        | casRetries => exact h₄
      · cases hs

/-- Every state during the call is one of the server. -/
theorem ServerRun.after {ν υ β : Type} {view : ServerState R numThreads → ν → υ}
    {p p₀ : Reads ν υ β} (h₀ : ServerRun draws S₀)
    (h : Reads.after (serve txnPerThread) view (fun _ _ => True) (S₀, p₀) as = some (S, p)) :
    ServerRun draws S :=
  Reaches.trans h₀ (Reads.reaches_of_after (fun _ _ _ _ => trivial) h)

variable [Fintype R]

/-- A request that has come does not go away. -/
theorem begun_le_of_serve {S' : ServerState R numThreads}
    (hs : serve txnPerThread S a = some S') : S.begun ≤ S'.begun := by
  refine Finset.card_le_card fun r hr => ?_
  rw [Finset.mem_filter] at hr ⊢
  refine ⟨Finset.mem_univ r, fun hr' => hr.2 ?_⟩
  cases a with
  | handle r' =>
      obtain ⟨p, rfl, hrank⟩ := rank_postSimulate hs
      dsimp only at hr'
      by_cases hrr : r = r'
      · subst hrr
        rw [Function.update_self] at hr'
        -- nothing is further from its answer than a request that has not come
        cases hp : S.handler r <;> rw [hr', hp] at hrank <;> simp only [Handler.rank] at hrank <;>
          omega
      · rwa [Function.update_of_ne hrr] at hr'
  | work r' i sp =>
      rw [serve] at hs
      split at hs
      · obtain ⟨simulation, -, rfl⟩ := Option.map_eq_some_iff.1 hs
        exact hr'
      · cases hs

/-- Only threads of requests that have come are in the middle of a transaction. -/
theorem ServerRun.owed_le (h : ServerRun draws S) :
    ∑ w, (S.simulation.phase w).owed ≤ (S.begun * numThreads : ℤ) := by
  rw [Fintype.sum_prod_type, ServerState.begun, Finset.card_filter, Nat.cast_sum, Finset.sum_mul]
  refine Finset.sum_le_sum fun r _ => ?_
  split
  · calc ∑ i : Fin numThreads, (S.simulation.phase (r, i)).owed
        ≤ ∑ _i : Fin numThreads, (1 : ℤ) :=
          Finset.sum_le_sum fun i _ => by cases S.simulation.phase (r, i) <;> simp [Phase.owed]
      _ = (1 : ℕ) * (numThreads : ℤ) := by simp
  · rename_i hr
    have hfits := h.fits r
    unfold ServerState.Fits at hfits
    rw [not_not.1 hr] at hfits
    rw [Finset.sum_eq_zero fun i _ => ?_]
    · simp
    · have hi : S.simulation.phase (r, i) = .count (draws.targets (r, i)) := hfits i
      simp [hi, Phase.owed]

/-- The totals at one instant. -/
theorem ServerRun.totals (h : ServerRun draws S) :
    S.counters .successfulLocks + S.counters .failedLocks ≤ S.counters .totalTransactions ∧
      S.counters .totalTransactions ≤
        S.counters .successfulLocks + S.counters .failedLocks + S.begun * numThreads := by
  have hsum : S.counters .successfulLocks + S.counters .failedLocks +
      ∑ w, (S.simulation.phase w).owed = S.counters .totalTransactions :=
    h.simulationRun.disciplined.metrics
  have hnonneg : 0 ≤ ∑ w, (S.simulation.phase w).owed :=
    Finset.sum_nonneg fun w _ => by cases S.simulation.phase w <;> simp [Phase.owed]
  have hle := h.owed_le
  exact ⟨by linarith, by linarith⟩

/-- Where an element of a list without repetitions stands. -/
theorem getElem?_split {α : Type} {before after : List α} {c d : α} {k : ℕ}
    (hnd : (before ++ d :: after).Nodup) (hk : (before ++ d :: after)[k]? = some c) :
    (c ∈ before → k < before.length) ∧ (c = d → k = before.length) ∧
      (c ∈ after → before.length < k) := by
  obtain ⟨hlt, hget⟩ := List.getElem?_eq_some_iff.1 hk
  have hsame {j : ℕ} (hj : (before ++ d :: after)[j]? = some c) : j = k :=
    ((List.getElem?_inj hlt hnd).1 (hk.trans hj.symm)).symm
  refine ⟨fun hc => ?_, fun hc => ?_, fun hc => ?_⟩
  · obtain ⟨j, hj, rfl⟩ := List.getElem_of_mem hc
    rw [← hsame (j := j) (by rw [List.getElem?_append_left hj, List.getElem?_eq_getElem hj])]
    exact hj
  · subst hc
    exact (hsame (by simp)).symm
  · obtain ⟨j, hj, rfl⟩ := List.getElem_of_mem hc
    have := hsame (j := before.length + (j + 1)) (by
      rw [List.getElem?_append_right (by omega)]
      simp [hj])
    omega

/-- **What `/api/metrics` answers** while requests run, whatever the order of its loads.  The
text is parsed as four numbers, each between the values of its counter when the call comes
and when it is answered; so the total has all transactions of the requests that were
answered before, and none of a request that comes later.  With the total loaded last, it
covers the successes and the failures; loaded first, it is at most one transaction for each
thread ahead of them. -/
theorem metrics_response (h₀ : ServerRun draws S₀) (horder : order.Perm counters)
    (h : metricsAfter txnPerThread order S₀ as = some (S, .ret text)) :
    ∃ value : Counter → ℤ, Json.parse text = some (metricsDocument value) ∧
      (∀ c, S₀.counters c ≤ value c ∧ value c ≤ S.counters c) ∧
      S₀.answered * (numThreads * txnPerThread) ≤ value .totalTransactions ∧
      value .totalTransactions ≤ S.begun * (numThreads * txnPerThread) ∧
      ∀ before after, order = before ++ .totalTransactions :: after →
        (.successfulLocks ∈ before → .failedLocks ∈ before →
          value .successfulLocks + value .failedLocks ≤ value .totalTransactions) ∧
        (.successfulLocks ∈ after → .failedLocks ∈ after →
          value .totalTransactions ≤
            value .successfulLocks + value .failedLocks + S.begun * numThreads) := by
  have hcells := cells_getMetrics order fun _ => 0
  have hnd : order.Nodup := horder.nodup_iff.2 (by decide)
  have hmem (c : Counter) : c ∈ order := horder.mem_iff.2 (by cases c <;> decide)
  obtain ⟨value, hvalue⟩ := Reads.exists_loaded hcells hnd h
  have htext : text = metricsContent value := by
    have heval := (Reads.eval_of_loaded hvalue h).1
    rw [eval_getMetrics] at heval
    simpa [Reads.eval, hmem] using heval
  have hload (c : Counter) := Reads.exists_load hcells hnd h
    ((Reads.take_loads (hcells value) hvalue h).symm ▸ hmem c)
  choose bs S₁ k hbs h₁ using hload
  have hbefore (c : Counter) : bs c <+: as := (List.prefix_append _ _).trans (hbs c)
  have hfound (c : Counter) : value c = (S₁ c).counters c := hvalue _ _ _ _ (hbs c) (h₁ c)
  have hmono (S₂ : ServerState R numThreads) (a : Action R numThreads)
      (S₃ : ServerState R numThreads) (hs : serve txnPerThread S₂ a = some S₃) (c : Counter) :
      S₂.counters c ≤ S₃.counters c := counters_le_of_serve hs c
  have hbetween (c : Counter) : S₀.counters c ≤ value c ∧ value c ≤ S.counters c := by
    rw [hfound]
    exact ⟨Reads.view_le hmono (List.nil_prefix ..) rfl (h₁ c) c,
      Reads.view_le hmono (hbefore c) (h₁ c) h c⟩
  refine ⟨value, htext ▸ parse_metricsContent value, hbetween,
    h₀.answered_le_total.trans (hbetween _).1, (hbetween _).2.trans (h₀.after h).total_le_begun,
    fun before after heq => ?_⟩
  have hstand (c : Counter) : (before ++ .totalTransactions :: after)[Reads.loads (bs c)]? =
      some c := by
    rw [← heq, ← hcells value]
    exact Reads.getElem?_of_load (hvalue.of_prefix (hbefore c)) (h₁ c)
  have hplace (c : Counter) := getElem?_split (heq ▸ hnd) (hstand c)
  have htotal := (hplace .totalTransactions).2.1 rfl
  have hlater {c d : Counter} (hcd : Reads.loads (bs c) < Reads.loads (bs d)) (e : Counter) :
      (S₁ c).counters e ≤ (S₁ d).counters e :=
    Reads.view_le hmono (Reads.prefix_of_loads_lt (hbefore c) (hbefore d) hcd) (h₁ c) (h₁ d) e
  obtain ⟨hlow, hhigh⟩ := (h₀.after (h₁ .totalTransactions)).totals
  refine ⟨fun hs hf => ?_, fun hs hf => ?_⟩
  · have hs' := hlater (c := .successfulLocks) (d := .totalTransactions)
      (htotal.symm ▸ (hplace _).1 hs) .successfulLocks
    have hf' := hlater (c := .failedLocks) (d := .totalTransactions)
      (htotal.symm ▸ (hplace _).1 hf) .failedLocks
    rw [hfound, hfound, hfound]
    linarith
  · have hs' := hlater (c := .totalTransactions) (d := .successfulLocks)
      (htotal.symm ▸ (hplace _).2.2 hs) .successfulLocks
    have hf' := hlater (c := .totalTransactions) (d := .failedLocks)
      (htotal.symm ▸ (hplace _).2.2 hf) .failedLocks
    have hbegun : (S₁ .totalTransactions).begun ≤ S.begun := by
      have hrun : Reaches (serve txnPerThread) (fun _ _ => True) (S₁ .totalTransactions) S :=
        Reads.reaches_of_prefix (fun _ _ _ _ => trivial) (hbefore _) (h₁ _) h
      refine hrun.invariant (P := fun S => (S₁ .totalTransactions).begun ≤ S.begun) le_rfl ?_
      exact fun S₂ a S₃ _ hle _ hs => hle.trans (begun_le_of_serve hs)
    have hthreads : ((S₁ .totalTransactions).begun * numThreads : ℤ) ≤ S.begun * numThreads := by
      gcongr
    rw [hfound, hfound, hfound]
    linarith

/-- The thread of the only request counts its transaction and its success between the load
of the total and that of the successes: the text has one success in no transaction. -/
theorem metrics_response_torn :
    ∃ (S : ServerState (Fin 1) 1) (as : List (Option (Action (Fin 1) 1))) (value : Counter → ℤ),
      metricsAfter 1 counters (.start (bhim (Fin 1))) as =
        some (S, .ret (metricsContent fun c => if c = .successfulLocks then 1 else 0)) ∧
      Json.parse (metricsContent fun c => if c = .successfulLocks then 1 else 0) =
        some (metricsDocument value) ∧
      value .totalTransactions ≤ S.counters .totalTransactions ∧
      S.counters .totalTransactions = 1 := by
  let as : List (Option (Action (Fin 1) 1)) :=
    none :: (repeated [(3, .handle 0), (14, .work 0 0 false)]).map some ++ [none, none, none]
  have hany : (metricsAfter 1 counters (.start (bhim (Fin 1))) as).any (fun x => decide
      (x.2.result = some (metricsContent fun c => if c = .successfulLocks then 1 else 0) ∧
        x.1.counters .totalTransactions = 1)) = true := by
    decide +kernel
  obtain ⟨⟨S, p⟩, hS, hp⟩ := (Option.any_eq_true _ _).1 hany
  obtain ⟨hresult, htotal⟩ := of_decide_eq_true hp
  cases p with
  | load c k => cases hresult
  | ret text =>
      obtain rfl := Option.some.inj hresult
      have h₀ : ServerRun (bhim (Fin 1)) (.start (bhim (Fin 1))) := .refl
      obtain ⟨value, hparse, hbetween, -⟩ := metrics_response h₀ (.refl _) hS
      exact ⟨S, as, value, hS, hparse, (hbetween _).2, htotal⟩

end Metrics

/-! ### The tree while simulations run -/

section Tree

variable [DecidableEq R] {draws : Draws R numThreads txnPerThread}
  {S S₀ : ServerState R numThreads} {as : List (Option (Action R numThreads))} {text : String}

/-- What a load of `/api/tree` finds. -/
def ServerState.lockStates (S : ServerState R numThreads) : ℕ → ℤ :=
  S.simulation.machine.lockStates

/-- The server and a call of `/api/tree` that comes in the state `S₀`, after a schedule of
loads (`none`) and steps of the server. -/
abbrev treeAfter (txnPerThread : ℕ) (S₀ : ServerState R numThreads)
    (as : List (Option (Action R numThreads))) :
    Option (ServerState R numThreads × Reads ℕ ℤ String) :=
  Reads.after (serve txnPerThread) ServerState.lockStates (fun _ _ => True)
    (S₀, toJsonReads paymentTree.shape) as

variable [Fintype R]

/-- A locked node is a gateway, held by a thread of a request in progress. -/
theorem ServerRun.locked (h : ServerRun draws S) {n : ℕ}
    (hn : (S.simulation.machine.mem.node n).lockState = 1) :
    paymentTree.shape.children n = [] ∧ paymentTree.shape.name n ∈ gateways ∧
      ∃ r i, S.handler r ≠ .waiting ∧ ¬(S.handler r).isResponded ∧
        Holds (r, i) n S.simulation.machine.hist := by
  obtain ⟨⟨r, i⟩, target, rest, hholds, hpending, hmem, hget⟩ := h.simulationRun.locked hn
  have hgateway := Draws.mem_gateways hmem
  obtain ⟨m, hm, -, hleaf⟩ := exists_leaf_of_mem_gateways hgateway
  obtain rfl : n = m := Option.some.inj (hget.symm.trans hm)
  have hname : paymentTree.shape.name n = target := by
    rw [paymentTree_shape] at hm ⊢
    exact TreeShape.keysMatch_build _ target n hm
  -- a thread at the head of its loop holds nothing
  have hfits := h.fits r
  have hphase := h.simulationRun.disciplined.phase (r, i)
  have hhead (targets : List String) (hp : S.simulation.phase (r, i) = .count targets) : False := by
    rw [hp] at hphase
    cases (hphase.2 n).1 hholds
  unfold ServerState.Fits at hfits
  refine ⟨hleaf, hname ▸ hgateway, r, i, fun hr => ?_, fun hr => ?_, hholds⟩
  · rw [hr] at hfits
    exact hhead _ (hfits i)
  · cases hp : S.handler r with
    | responded content =>
        rw [hp] at hfits
        exact hhead _ (hfits.2 i)
    | _ =>
        rw [hp] at hr
        cases hr

/-- **What `/api/tree` answers** while requests run.  The text is one JSON value, the document
of the payment tree with some nodes locked; all of them are gateways, without children,
and each was locked by a thread of a request in progress at some moment of the call.  So
no dashboard ever sees a locked node above another node. -/
theorem tree_response (h₀ : ServerRun draws S₀)
    (h : treeAfter txnPerThread S₀ as = some (S, .ret text)) :
    ∃ isLocked : ℕ → Bool,
      Json.parse text = some (document paymentTree.shape isLocked 0) ∧
      ∀ n, isLocked n = true →
        paymentTree.shape.children n = [] ∧ paymentTree.shape.name n ∈ gateways ∧
          ∃ bs S₁ p r i, bs <+: as ∧ treeAfter txnPerThread S₀ bs = some (S₁, p) ∧
            S₁.handler r ≠ .waiting ∧ ¬(S₁.handler r).isResponded ∧
            Holds (r, i) n S₁.simulation.machine.hist := by
  have hcells := cells_toJsonReads paymentTree.shape
  have hnd := paymentTree.shape.nodup_visited
  obtain ⟨loaded, hloaded⟩ := Reads.exists_loaded hcells hnd h
  have hall := Reads.take_loads (hcells loaded) hloaded h
  -- the flags, and none for a node that was not loaded
  let flags : ℕ → ℤ := fun n => if n ∈ paymentTree.shape.visited then loaded n else 0
  have htext : text = (toJsonReads paymentTree.shape).eval flags := by
    rw [show text = (toJsonReads paymentTree.shape).eval loaded from
      (Reads.eval_of_loaded hloaded h).1]
    refine Reads.eval_congr fun n hn => ?_
    rw [hcells] at hn
    simp [flags, hn]
  have hroot : paymentTree.shape.root = some 0 := by decide +kernel
  have hnames : ∀ n < paymentTree.shape.size, Json.Plain (paymentTree.shape.name n) := by
    intro n hn
    rw [paymentTree_shape] at hn ⊢
    obtain ⟨a, ha, hname⟩ := TreeShape.exists_spec_of_lt hn
    rw [hname]
    exact (by decide : ∀ a ∈ buildPaymentTree, Json.Plain a.nodeName) a ha
  refine ⟨fun n => flags n = 1, ?_, fun n hn => ?_⟩
  · rw [htext, toJsonReads, hroot]
    dsimp only
    rw [eval_serializeReads]
    exact (denotes_serialize hnames flags (paymentTree.shape.root_lt hroot)).parse
  · have hlocked : n ∈ paymentTree.shape.visited ∧ loaded n = 1 := by
      by_cases hv : n ∈ paymentTree.shape.visited <;> simp_all [flags]
    obtain ⟨bs, S₁, k, hbs, h₁⟩ := Reads.exists_load hcells hnd h (hall.symm ▸ hlocked.1)
    have hone : (S₁.simulation.machine.mem.node n).lockState = 1 :=
      (hloaded bs S₁ n k hbs h₁).symm.trans hlocked.2
    obtain ⟨hleaf, hgateway, r, i, hholds⟩ := (h₀.after h₁).locked hone
    exact ⟨hleaf, hgateway, bs, S₁, _, r, i, (List.prefix_append _ _).trans hbs, h₁, hholds⟩

/-- `BHIM` is locked and unlocked again during the call, which still shows it locked: the
text is not that of the empty tree at the beginning and at the end. -/
theorem tree_response_bhim :
    ∃ (S : ServerState (Fin 1) 1) (as : List (Option (Action (Fin 1) 1))) (text : String)
      (isLocked : ℕ → Bool),
      treeAfter 1 (.start (bhim (Fin 1))) as = some (S, .ret text) ∧
      (S.handler 0).isResponded ∧ text ≠ paymentTree.toJson ∧
      Json.parse text = some (document paymentTree.shape isLocked 0) ∧
      ∀ n, isLocked n = true → paymentTree.shape.children n = [] := by
  let as : List (Option (Action (Fin 1) 1)) :=
    (repeated [(3, .handle 0), (13, .work 0 0 false)]).map some ++ List.replicate 15 none ++
      (repeated [(10, .work 0 0 false), (2, .handle 0)]).map some ++ List.replicate 3 none
  have hany : (treeAfter 1 (.start (bhim (Fin 1))) as).any (fun x => decide
      (x.2.result.isSome ∧ x.2.result ≠ some paymentTree.toJson ∧
        (x.1.handler 0).isResponded)) = true := by
    decide +kernel
  obtain ⟨⟨S, p⟩, hS, hp⟩ := (Option.any_eq_true _ _).1 hany
  obtain ⟨hsome, htext, hresponded⟩ := of_decide_eq_true hp
  cases p with
  | load n k => cases hsome
  | ret text =>
      have h₀ : ServerRun (bhim (Fin 1)) (.start (bhim (Fin 1))) := .refl
      obtain ⟨isLocked, hparse, hleaf⟩ := tree_response h₀ hS
      exact ⟨S, as, text, isLocked, hS, hresponded, fun heq => htext (congrArg some heq), hparse,
        fun n hn => (hleaf n hn).1⟩

end Tree

end Server
end PaymentGateway
