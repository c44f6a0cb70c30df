/-
# The verification at the end of the stress test

`src/simulator.cpp`, lines 55-88 and `main`.  `verifyTreeInvariants` looks up 18 names and
compares three fields of each node with 0; every difference is a line on `cerr` and makes
the result false.

Its counter checks say nothing of their own: when no call is in flight, each line is
about a locked node or a relative of one, and all of these get their line, once
(`verifyTreeInvariants_reports`), so the result is true exactly when no node is locked.
`main` runs it when all threads have been joined, and returns 0 whatever the threads have
done: `stress_test_passes`.
-/

import PaymentGateway.Atomic.Completion
import PaymentGateway.Atomic.Transactions
import PaymentGateway.Server.Gateways
import PaymentGateway.Tree.Index

namespace PaymentGateway
namespace Server

open Lib Atomic

/-! ### The program -/

/-- The names `verifyTreeInvariants` looks up. -/
def allNodes : List String :=
  ["PaymentSystem", "Cards", "UPI", "Wallets", "Visa", "Mastercard", "RuPay", "GPay", "PhonePe",
    "BHIM", "Paytm", "AmazonPay", "HDFC", "ICICI", "SBI", "Axis", "PNB", "BOB"]

/-- The checks at a node: what is compared with 0, and what is said of a difference. -/
def checks (v : AtomicTreeNode) : List (ℤ × String) :=
  [(v.lockState, " still locked"), (v.ancestorLockedCount, " ancestorLockedCount != 0"),
    (v.descendantLockedCount, " descendantLockedCount != 0")]

/-- The line on `cerr`. -/
def violation (name complaint : String) : String :=
  "INVARIANT VIOLATION: " ++ name ++ complaint ++ "\n"

/-- One check: the result and the lines so far, and the value and its complaint. -/
def check (name : String) (acc : Bool × List String) (c : ℤ × String) : Bool × List String :=
  if c.1 ≠ 0 then (false, acc.2 ++ [violation name c.2]) else acc

/-- One round of the loop of `verifyTreeInvariants`. -/
def verifyNode (t : AtomicPaymentTree) (acc : Bool × List String) (name : String) :
    Bool × List String :=
  match t.shape.getNode name with
  | none => acc
  | some n => (checks (t.mem.node n)).foldl (check name) acc

/-- `verifyTreeInvariants`: its result, and what it writes to `cerr`. -/
def verifyTreeInvariants (t : AtomicPaymentTree) : Bool × List String :=
  allNodes.foldl (verifyNode t) (true, [])

/-- The lines about one name. -/
def complaints (t : AtomicPaymentTree) (name : String) : List String :=
  match t.shape.getNode name with
  | none => []
  | some n => ((checks (t.mem.node n)).filter (·.1 ≠ 0)).map (violation name ·.2)

theorem foldl_check (name : String) (cs : List (ℤ × String)) (acc : Bool × List String) :
    cs.foldl (check name) acc =
      (acc.1 && (cs.filter (·.1 ≠ 0)).isEmpty,
        acc.2 ++ (cs.filter (·.1 ≠ 0)).map (violation name ·.2)) := by
  induction cs generalizing acc with
  | nil => simp
  | cons c cs ih =>
      rw [List.foldl_cons, ih, check]
      by_cases hc : c.1 = 0 <;> simp [hc]

/-- **What the loop computes**: all complaints in the order of the names, and whether there
are none. -/
theorem verifyTreeInvariants_eq (t : AtomicPaymentTree) :
    verifyTreeInvariants t =
      ((allNodes.flatMap (complaints t)).isEmpty, allNodes.flatMap (complaints t)) := by
  have hall (names : List String) (acc : Bool × List String) : names.foldl (verifyNode t) acc =
      (acc.1 && (names.flatMap (complaints t)).isEmpty,
        acc.2 ++ names.flatMap (complaints t)) := by
    induction names generalizing acc with
    | nil => simp
    | cons name names ih =>
        rw [List.foldl_cons, ih, List.flatMap_cons, complaints, verifyNode]
        cases t.shape.getNode name with
        | none => simp
        | some n =>
            dsimp only
            rw [foldl_check]
            cases (checks (t.mem.node n)).filter (·.1 ≠ 0) <;> simp
  rw [verifyTreeInvariants, hall, Bool.true_and, List.nil_append]

/-! ### What is reported -/

/-- A line names its node and its complaint: names have no blank, complaints begin with one. -/
theorem violation_inj {name name' complaint complaint' : String} (hname : ' ' ∉ name.toList)
    (hname' : ' ' ∉ name'.toList) (hc : complaint.toList.head? = some ' ')
    (hc' : complaint'.toList.head? = some ' ')
    (h : violation name complaint = violation name' complaint') :
    name = name' ∧ complaint = complaint' := by
  have htake {s c : String} (hs : ' ' ∉ s.toList) (hc : c.toList.head? = some ' ') :
      (s.toList ++ c.toList).takeWhile (· ≠ ' ') = s.toList := by
    obtain ⟨cs, hcs⟩ := List.head?_eq_some_iff.1 hc
    have hall : ∀ x ∈ s.toList, decide (x ≠ ' ') = true :=
      fun x hx => decide_eq_true fun hblank => hs (hblank ▸ hx)
    rw [List.takeWhile_append_of_pos hall, hcs]
    simp
  have hcancel {p e s c s' c' : String} (h : p ++ s ++ c ++ e = p ++ s' ++ c' ++ e) :
      s ++ c = s' ++ c' := by
    have hline := (String.append_left_inj e).1 h
    rw [String.append_assoc, String.append_assoc] at hline
    exact (String.append_right_inj p).1 hline
  have hlist : name.toList ++ complaint.toList = name'.toList ++ complaint'.toList := by
    rw [← String.toList_append, hcancel h, String.toList_append]
  have hnames : name.toList = name'.toList := by
    rw [← htake hname hc, hlist, htake hname' hc']
  rw [hnames] at hlist
  exact ⟨String.toList_inj.1 hnames, String.toList_inj.1 (List.append_cancel_left hlist)⟩

/-- The lines for all differences there can be. -/
theorem nodup_violations :
    (allNodes.flatMap fun name => (checks .fresh).map (violation name ·.2)).Nodup := by
  have hnames : ∀ name ∈ allNodes, ' ' ∉ name.toList := by decide
  have htexts : ∀ c ∈ checks .fresh, c.2.toList.head? = some ' ' := by decide
  have hinj {name name' : String} (hn : name ∈ allNodes) (hn' : name' ∈ allNodes)
      {c c' : ℤ × String} (hc : c ∈ checks .fresh) (hc' : c' ∈ checks .fresh)
      (h : violation name c.2 = violation name' c'.2) : name = name' ∧ c.2 = c'.2 :=
    violation_inj (hnames _ hn) (hnames _ hn') (htexts _ hc) (htexts _ hc') h
  refine List.nodup_flatMap.2 ⟨fun name hname => ?_, ?_⟩
  · have htexts : ((checks .fresh).map Prod.snd).Nodup := by decide
    refine List.Nodup.map_on (fun c hc c' hc' h => ?_) (htexts.of_map _)
    exact List.inj_on_of_nodup_map htexts hc hc' (hinj hname hname hc hc' h).2
  · have hnodup : allNodes.Nodup := by decide
    refine hnodup.imp_of_mem fun hn hn' hne line hline hline' => ?_
    obtain ⟨c, hc, rfl⟩ := List.mem_map.1 hline
    obtain ⟨c', hc', h⟩ := List.mem_map.1 hline'
    exact hne (hinj hn' hn hc' hc h).1.symm

/-- No line is written twice. -/
theorem nodup_report (t : AtomicPaymentTree) : (verifyTreeInvariants t).2.Nodup := by
  rw [verifyTreeInvariants_eq]
  refine nodup_violations.sublist (List.Sublist.flatMap_right _ fun name _ => ?_)
  unfold complaints
  split
  · exact List.nil_sublist _
  · rename_i n _
    exact ((List.filter_sublist (l := checks (t.mem.node n))).map (violation name ·.2) :)

/-- The names are those of the 18 nodes. -/
theorem allNodes_names :
    (∀ n < paymentTree.shape.size, paymentTree.shape.name n ∈ allNodes ∧
      paymentTree.shape.getNode (paymentTree.shape.name n) = some n) ∧
    ∀ name ∈ allNodes, ∃ n < paymentTree.shape.size, paymentTree.shape.name n = name := by
  rw [paymentTree_shape]
  refine ⟨fun n hn => ⟨?_, TreeShape.named_build (by decide) n hn⟩, fun name hname => ?_⟩
  · obtain ⟨a, ha, hname⟩ := TreeShape.exists_spec_of_lt hn
    rw [hname]
    exact (by decide : ∀ a ∈ buildPaymentTree, a.nodeName ∈ allNodes) a ha
  · have hall : ∀ name ∈ allNodes, ((TreeShape.build buildPaymentTree).getNode name).isSome := by
      decide +kernel
    obtain ⟨n, hn⟩ := Option.isSome_iff_exists.1 (hall name hname)
    exact ⟨n, TreeShape.getNode_lt hn, TreeShape.keysMatch_build _ name n hn⟩

/-- A line of the report is about one check of one node. -/
theorem mem_report {m : Memory} (line : String) :
    line ∈ (verifyTreeInvariants ⟨paymentTree.shape, m⟩).2 ↔
      ∃ n < paymentTree.shape.size, ∃ c ∈ checks (m.node n), c.1 ≠ 0 ∧
        line = violation (paymentTree.shape.name n) c.2 := by
  rw [verifyTreeInvariants_eq, List.mem_flatMap]
  constructor
  · rintro ⟨name, hname, hline⟩
    obtain ⟨n, hn, rfl⟩ := allNodes_names.2 name hname
    rw [complaints, (allNodes_names.1 n hn).2] at hline
    obtain ⟨c, hc, rfl⟩ := List.mem_map.1 hline
    obtain ⟨hc, hne⟩ := List.mem_filter.1 hc
    exact ⟨n, hn, c, hc, of_decide_eq_true hne, rfl⟩
  · rintro ⟨n, hn, c, hc, hne, rfl⟩
    obtain ⟨hname, hget⟩ := allNodes_names.1 n hn
    refine ⟨_, hname, ?_⟩
    rw [complaints, hget]
    exact List.mem_map.2 ⟨c, List.mem_filter.2 ⟨hc, decide_eq_true hne⟩, rfl⟩

theorem verifyTreeInvariants_fst (t : AtomicPaymentTree) :
    (verifyTreeInvariants t).1 = true ↔ (verifyTreeInvariants t).2 = [] := by
  rw [verifyTreeInvariants_eq, List.isEmpty_iff]

section Quiescent

variable {Tid : Type} [Fintype Tid] {s : State Tid}

/-- **What `verifyTreeInvariants` reports** when no call is in flight: a line for every
locked node, for every node below a locked one, and for every node above a locked one, and
no other line.  Its result is true exactly when no node is locked. -/
theorem Quiescent.reports (h : Sound paymentTree.shape s) (hidle : ∀ i, s.thread i = .idle) :
    (∀ line, line ∈ (verifyTreeInvariants ⟨paymentTree.shape, s.mem⟩).2 ↔
      ∃ n < paymentTree.shape.size,
        (s.mem.node n).lockState = 1 ∧
            line = violation (paymentTree.shape.name n) " still locked" ∨
          (∃ a, paymentTree.shape.IsAncestor a n ∧ (s.mem.node a).lockState = 1) ∧
            line = violation (paymentTree.shape.name n) " ancestorLockedCount != 0" ∨
          (∃ d, paymentTree.shape.IsAncestor n d ∧ (s.mem.node d).lockState = 1) ∧
            line = violation (paymentTree.shape.name n) " descendantLockedCount != 0") ∧
    ((verifyTreeInvariants ⟨paymentTree.shape, s.mem⟩).1 = true ↔
      ∀ n < paymentTree.shape.size, (s.mem.node n).lockState = 0) := by
  have hstate (n : ℕ) : (s.mem.node n).lockState ≠ 0 ↔ (s.mem.node n).lockState = 1 := by
    have := h.lockState n
    omega
  have habove (n : ℕ) : (s.mem.node n).ancestorLockedCount ≠ 0 ↔
      ∃ a, paymentTree.shape.IsAncestor a n ∧ (s.mem.node a).lockState = 1 := by
    rw [(h.exact_of_idle hidle n).1, Ne, Int.natCast_eq_zero, Forest.countAbove_eq_zero]
    simp [Memory.flag]
  have hbelow (n : ℕ) : (s.mem.node n).descendantLockedCount ≠ 0 ↔
      ∃ d, paymentTree.shape.IsAncestor n d ∧ (s.mem.node d).lockState = 1 := by
    rw [(h.exact_of_idle hidle n).2, Ne, Int.natCast_eq_zero, Forest.countBelow_eq_zero]
    simp [Memory.flag]
  have hlines := mem_report (m := s.mem)
  simp only [checks, List.mem_cons, List.not_mem_nil, or_false, exists_eq_or_imp,
    exists_eq_left, hstate, habove, hbelow] at hlines
  refine ⟨hlines, ?_⟩
  rw [verifyTreeInvariants_fst, List.eq_nil_iff_forall_not_mem]
  constructor
  · intro hnone n hn
    by_contra hlocked
    exact hnone _ ((hlines _).2 ⟨n, hn, .inl ⟨(hstate n).1 hlocked, rfl⟩⟩)
  · intro hfree line hline
    have hnot {x : ℕ} (hx : x < paymentTree.shape.size) : (s.mem.node x).lockState ≠ 1 := by
      rw [hfree x hx]
      decide
    obtain ⟨n, hn, ⟨hlocked, -⟩ | ⟨⟨a, ha, hlocked⟩, -⟩ | ⟨⟨d, hd, hlocked⟩, -⟩⟩ :=
      (hlines line).1 hline
    · exact hnot hn hlocked
    · exact hnot (ha.lt.trans ha.lt_size) hlocked
    · exact hnot hd.lt_size hlocked

end Quiescent

/-- **The verification is exact** at the end of any run of calls by threads with distinct ids
on the payment tree: it reports the locked nodes and their relatives, each with its own
line, once, and passes exactly when no node is locked. -/
theorem verifyTreeInvariants_reports {Tid : Type} [Fintype Tid] [DecidableEq Tid]
    {user : Tid → ℤ} {s : State Tid} (hu : DistinctUsers user)
    (h : OwnRun buildPaymentTree user s) (hidle : ∀ i, s.thread i = .idle) :
    (∀ line, line ∈ (verifyTreeInvariants ⟨paymentTree.shape, s.mem⟩).2 ↔
      ∃ n < paymentTree.shape.size,
        (s.mem.node n).lockState = 1 ∧
            line = violation (paymentTree.shape.name n) " still locked" ∨
          (∃ a, paymentTree.shape.IsAncestor a n ∧ (s.mem.node a).lockState = 1) ∧
            line = violation (paymentTree.shape.name n) " ancestorLockedCount != 0" ∨
          (∃ d, paymentTree.shape.IsAncestor n d ∧ (s.mem.node d).lockState = 1) ∧
            line = violation (paymentTree.shape.name n) " descendantLockedCount != 0") ∧
    (verifyTreeInvariants ⟨paymentTree.shape, s.mem⟩).2.Nodup ∧
    ((verifyTreeInvariants ⟨paymentTree.shape, s.mem⟩).1 = true ↔
      ∀ n < paymentTree.shape.size, (s.mem.node n).lockState = 0) := by
  obtain ⟨hlines, hpass⟩ := Quiescent.reports (h.sound_custody hu).1 hidle
  exact ⟨hlines, nodup_report _, hpass⟩

/-- Thread 0 has locked `Visa` and stopped using the tree: that is reported at the leaf `HDFC`
below it, and at the root. -/
theorem verifyTreeInvariants_reports_visa :
    ∃ s : State (Fin 2), OwnRun buildPaymentTree twoUsers s ∧ (∀ i, s.thread i = .idle) ∧
      (s.mem.node 4).lockState = 1 ∧ (verifyTreeInvariants ⟨paymentTree.shape, s.mem⟩).1 ≠ true ∧
      violation "Visa" " still locked" ∈ (verifyTreeInvariants ⟨paymentTree.shape, s.mem⟩).2 ∧
      violation "HDFC" " ancestorLockedCount != 0" ∈
        (verifyTreeInvariants ⟨paymentTree.shape, s.mem⟩).2 ∧
      violation "PaymentSystem" " descendantLockedCount != 0" ∈
        (verifyTreeInvariants ⟨paymentTree.shape, s.mem⟩).2 := by
  obtain ⟨s, hs, hp⟩ := ownRun_of_play buildPaymentTree twoUsers
    (.invoke 0 ⟨.lock, "Visa", 0⟩ :: turns 0 13)
    (fun s => decide ((∀ i, s.thread i = .idle) ∧ (s.mem.node 4).lockState = 1))
    (by decide +kernel)
  obtain ⟨hidle, hvisa⟩ := of_decide_eq_true hp
  obtain ⟨hlines, -, hpass⟩ := verifyTreeInvariants_reports twoUsers_distinct hs hidle
  refine ⟨s, hs, hidle, hvisa, fun h => ?_, ?_, ?_, ?_⟩
  · have := hpass.1 h 4 (by decide +kernel)
    omega
  · exact (hlines _).2 ⟨4, by decide +kernel, .inl ⟨hvisa, by decide +kernel⟩⟩
  · exact (hlines _).2 ⟨12, by decide +kernel,
      .inr (.inl ⟨⟨4, by decide +kernel, hvisa⟩, by decide +kernel⟩)⟩
  · exact (hlines _).2 ⟨0, by decide +kernel,
      .inr (.inr ⟨⟨4, by decide +kernel, hvisa⟩, by decide +kernel⟩)⟩

/-! ### The stress test -/

/-- What `main` prints about the transactions. -/
def results (m : Metrics) : List String :=
  ["Total transactions: " ++ toString m.totalTransactions ++ "\n",
    "Successful locks: " ++ toString m.successfulLocks ++ "\n",
    "Failed locks: " ++ toString m.failedLocks ++ "\n",
    "CAS retries: " ++ toString m.casRetries ++ "\n"]

/-- What `main` returns. -/
def exitCode (t : AtomicPaymentTree) : ℕ := if (verifyTreeInvariants t).1 then 0 else 1

/-- **The stress test passes**, for any number of threads and of transactions, whatever
gateways the threads draw and however they are scheduled: when all of them have been joined
there is nothing to report, `main` returns 0, and the totals it prints add up to all
transactions. -/
theorem stress_test_passes {numThreads txnPerThread : ℕ} {targets : Fin numThreads → List String}
    {S : Simulation (Fin numThreads)} (hlength : ∀ i, (targets i).length = txnPerThread)
    (h : SimulationRun threadId S buildPaymentTree targets)
    (hjoined : ∀ i, S.phase i = .count []) :
    verifyTreeInvariants ⟨paymentTree.shape, S.machine.mem⟩ = (true, []) ∧
    exitCode ⟨paymentTree.shape, S.machine.mem⟩ = 0 ∧
    ∃ successes failures : ℕ, successes + failures = numThreads * txnPerThread ∧
      (results S.machine.mem.metrics).take 3 =
        ["Total transactions: " ++ toString (numThreads * txnPerThread) ++ "\n",
          "Successful locks: " ++ toString successes ++ "\n",
          "Failed locks: " ++ toString failures ++ "\n"] := by
  have hfresh := h.disciplined.fresh fun i => ⟨_, hjoined i⟩
  have hreport : verifyTreeInvariants ⟨paymentTree.shape, S.machine.mem⟩ = (true, []) := by
    have hnone : (verifyTreeInvariants ⟨paymentTree.shape, S.machine.mem⟩).2 = [] := by
      refine List.eq_nil_iff_forall_not_mem.2 fun line hline => ?_
      obtain ⟨n, -, c, hc, hne, -⟩ := (mem_report _).1 hline
      rw [hfresh n] at hc
      simp only [checks, AtomicTreeNode.fresh, List.mem_cons, List.not_mem_nil, or_false] at hc
      rcases hc with rfl | rfl | rfl <;> exact hne rfl
    exact Prod.ext ((verifyTreeInvariants_fst _).2 hnone) hnone
  have htotal := h.counted.total
  have hsum := h.disciplined.metrics
  have hnonneg := h.metrics_nonneg
  obtain ⟨successes, hs⟩ := Int.eq_ofNat_of_zero_le hnonneg.successfulLocks
  obtain ⟨failures, hf⟩ := Int.eq_ofNat_of_zero_le hnonneg.failedLocks
  simp only [Tallied, Function.comp_apply, hjoined, Phase.left, Phase.owed, hlength,
    Finset.sum_const_zero, add_zero, List.length_nil, Nat.cast_zero, Finset.sum_const,
    Finset.card_univ, Fintype.card_fin, nsmul_eq_mul] at htotal hsum
  refine ⟨hreport, by rw [exitCode, hreport]; rfl, successes, failures, ?_, ?_⟩
  · rw [hs, hf, htotal] at hsum
    exact_mod_cast hsum
  · have htotal' : S.machine.mem.metrics.totalTransactions =
        ((numThreads * txnPerThread : ℕ) : ℤ) := by
      rw [htotal, Nat.cast_mul]
    simp only [results, htotal', hs, hf, List.take_succ_cons, List.take_zero]
    rfl

/-- Two threads, one transaction each, both for `BHIM`: the second finds it taken. -/
theorem stress_test_passes_contended :
    ∃ S : Simulation (Fin 2), SimulationRun threadId S buildPaymentTree (fun _ => ["BHIM"]) ∧
      (∀ i, S.phase i = .count []) ∧ S.machine.mem.metrics = ⟨2, 1, 1, 0⟩ ∧
      exitCode ⟨paymentTree.shape, S.machine.mem⟩ = 0 := by
  obtain ⟨S, hS, hp⟩ := simulationRun_of_exec threadId buildPaymentTree
    (fun _ : Fin 2 => ["BHIM"])
    (List.replicate 8 (0, false) ++ List.replicate 7 (1, false) ++ List.replicate 15 (0, false))
    (fun S => decide ((∀ i, S.phase i = .count []) ∧ S.machine.mem.metrics = ⟨2, 1, 1, 0⟩))
    (by decide +kernel)
  obtain ⟨hjoined, hmetrics⟩ := of_decide_eq_true hp
  exact ⟨S, hS, hjoined, hmetrics, (stress_test_passes (fun _ => rfl) hS hjoined).2.1⟩

end Server
end PaymentGateway
