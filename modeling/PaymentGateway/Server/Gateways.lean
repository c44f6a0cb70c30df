/-
# The payment tree of the server and of the stress test

`buildPaymentTree` and the list of gateways are the same in `src/main.cpp` (lines 9-41)
and `src/simulator.cpp` (lines 9-38).  The tree has 18 nodes on four levels; the
gateways, the only targets of `simulateTransactions`, are its 11 leaves.
-/

import PaymentGateway.Atomic.Machine

namespace PaymentGateway
namespace Server

open Atomic

/-- The `addNode` calls of `buildPaymentTree`. -/
def buildPaymentTree : List NodeSpec :=
  [⟨"PaymentSystem", ""⟩,
    ⟨"Cards", "PaymentSystem"⟩, ⟨"UPI", "PaymentSystem"⟩, ⟨"Wallets", "PaymentSystem"⟩,
    ⟨"Visa", "Cards"⟩, ⟨"Mastercard", "Cards"⟩, ⟨"RuPay", "Cards"⟩,
    ⟨"GPay", "UPI"⟩, ⟨"PhonePe", "UPI"⟩, ⟨"BHIM", "UPI"⟩,
    ⟨"Paytm", "Wallets"⟩, ⟨"AmazonPay", "Wallets"⟩,
    ⟨"HDFC", "Visa"⟩, ⟨"ICICI", "Visa"⟩, ⟨"SBI", "Mastercard"⟩, ⟨"Axis", "Mastercard"⟩,
    ⟨"PNB", "RuPay"⟩, ⟨"BOB", "RuPay"⟩]

/-- The tree `main` works on. -/
def paymentTree : AtomicPaymentTree := .build buildPaymentTree

/-- The targets of `simulateTransactions`. -/
def gateways : List String :=
  ["HDFC", "ICICI", "SBI", "Axis", "PNB", "BOB", "GPay", "PhonePe", "BHIM", "Paytm", "AmazonPay"]

theorem paymentTree_shape : paymentTree.shape = TreeShape.build buildPaymentTree :=
  AtomicPaymentTree.build_shape_eq _

/-- Every gateway is a leaf. -/
theorem exists_leaf_of_mem_gateways {g : String} (h : g ∈ gateways) :
    ∃ n, paymentTree.shape.getNode g = some n ∧ n < paymentTree.shape.size ∧
      paymentTree.shape.children n = [] := by
  have hall : ∀ g ∈ gateways, (paymentTree.shape.getNode g).any (fun n =>
      decide (n < paymentTree.shape.size ∧ paymentTree.shape.children n = [])) = true := by
    decide +kernel
  obtain ⟨n, hn, hleaf⟩ := (Option.any_eq_true _ _).1 (hall g h)
  exact ⟨n, hn, of_decide_eq_true hleaf⟩

/-- The thread id is the counter of the loop that spawns the threads. -/
def threadId {numThreads : ℕ} (i : Fin numThreads) : ℤ := (i : ℕ)

end Server
end PaymentGateway
