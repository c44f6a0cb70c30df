/-
# Calls of `PaymentTree` in other orders

Two laws of the sequential tree, in every state that calls lead to.

Operations on unrelated nodes commute (`operations_commute`): both orders return the
same results and end in the same tree, although both write the counters of all common
ancestors.  An `upgradeLock` that returns true is the same as unlocking the locked
proper descendants, in any order, and then locking the node
(`upgradeLock_eq_unlocks_lock`).

Neither proof looks at the propagation walks.  Both laws hold of the requests of a
`Hierarchy`; a call answers and changes owners as its request does
(`Exact.call_spec`), and the owners determine the tree (`Exact.ext`).
-/

import PaymentGateway.Sequential.Specification

namespace PaymentGateway

open Lib

namespace TreeShape

variable {t : TreeShape} {o : Owners ℕ ℤ}

theorem specCall_of_getNode {c : Call} {n : ℕ} (hn : t.getNode c.nodeName = some n) :
    t.specCall o c = t.hierarchy.perform o (c.op.request n c.userId) := by
  rw [specCall, hn]

/-- The call that makes a request, naming its target. -/
def callOf (t : TreeShape) : Request ℕ ℤ → Call
  | .lock n u => ⟨.lock, t.name n, u⟩
  | .unlock n u => ⟨.unlock, t.name n, u⟩
  | .upgrade n u => ⟨.upgradeLock, t.name n, u⟩

/-- Calls that name their targets make the requests about them. -/
theorem specRun_map_callOf (rs : List (Request ℕ ℤ))
    (h : ∀ r ∈ rs, t.getNode (t.name r.target) = some r.target) :
    t.specRun o (rs.map t.callOf) = t.hierarchy.respond o rs := by
  induction rs generalizing o with
  | nil => rfl
  | cons r rs ih =>
      have hr : t.specCall o (t.callOf r) = t.hierarchy.perform o r := by
        have hn := h r (List.mem_cons_self ..)
        cases r <;> exact specCall_of_getNode hn
      rw [List.map_cons, specRun, Hierarchy.respond, hr,
        ih fun r hr => h r (List.mem_cons_of_mem _ hr)]

end TreeShape

namespace PaymentTree

variable {t : PaymentTree} {a b n : ℕ}

/-! ### Unrelated nodes -/

/-- With exact counters two calls on unrelated nodes commute. -/
theorem Exact.call_comm (h : t.Exact) {c c' : Call} (ha : t.shape.getNode c.nodeName = some a)
    (hb : t.shape.getNode c'.nodeName = some b) (hne : a ≠ b) (hrel : ¬t.shape.Related a b) :
    ((t.call c').1.call c).2 = (t.call c).2 ∧ ((t.call c).1.call c').2 = (t.call c').2 ∧
      ((t.call c).1.call c').1 = ((t.call c').1.call c).1 := by
  have htargets : (c.op.request a c.userId).target ≠ (c'.op.request b c'.userId).target := by
    simpa using hne
  have hunrelated : ¬t.shape.hierarchy.Related (c.op.request a c.userId).target
      (c'.op.request b c'.userId).target := by
    rw [Op.target_request, Op.target_request]
    exact hrel
  have hcomm := Hierarchy.perform_comm (o := t.owners) htargets hunrelated
  rw [← TreeShape.specCall_of_getNode ha, ← TreeShape.specCall_of_getNode hb,
    ← TreeShape.specCall_of_getNode ha, ← TreeShape.specCall_of_getNode hb] at hcomm
  obtain ⟨hc, howners⟩ := h.call_spec c
  obtain ⟨hc', howners'⟩ := h.call_spec c'
  obtain ⟨hcc', hend⟩ := (h.call c).call_spec c'
  obtain ⟨hc'c, hend'⟩ := (h.call c').call_spec c
  rw [call_shape, howners] at hcc' hend
  rw [call_shape, howners'] at hc'c hend'
  refine ⟨?_, ?_, ((h.call c).call c').ext ((h.call c').call c) (by simp) ?_⟩
  · rw [hc'c, hc, hcomm.1]
  · rw [hcc', hc', hcomm.2.1]
  · rw [hend, hend', hcomm.2.2]

/-- **Operations on unrelated nodes commute.**  In every state that calls lead to, an
operation on the node named `sa` and one on the node named `sb`, different nodes of
which neither is an ancestor of the other, return the same results in either order and
lead to the same tree. -/
theorem operations_commute (adds : List NodeSpec) (calls : List Call) {sa sb : String}
    (ha : (build adds).shape.getNode sa = some a) (hb : (build adds).shape.getNode sb = some b)
    (hne : a ≠ b) (hab : ¬(build adds).shape.IsAncestor a b)
    (hba : ¬(build adds).shape.IsAncestor b a) (f g : Op) (u v : ℤ) :
    let t := (build adds).run calls
    ((t.call ⟨g, sb, v⟩).1.call ⟨f, sa, u⟩).2 = (t.call ⟨f, sa, u⟩).2 ∧
      ((t.call ⟨f, sa, u⟩).1.call ⟨g, sb, v⟩).2 = (t.call ⟨g, sb, v⟩).2 ∧
      ((t.call ⟨f, sa, u⟩).1.call ⟨g, sb, v⟩).1 = ((t.call ⟨g, sb, v⟩).1.call ⟨f, sa, u⟩).1 := by
  refine ((exact_build adds).run calls).call_comm (a := a) (b := b) ?_ ?_ hne ?_
  · rwa [run_shape]
  · rwa [run_shape]
  · rw [run_shape]
    exact not_or.2 ⟨hab, hba⟩

/-- Locks of the two children commute; both write the counter of the root. -/
theorem operations_commute_siblings :
    (((build smallTree).call ⟨.lock, "Left", 1⟩).1.call ⟨.lock, "Right", 2⟩).1 =
      (((build smallTree).call ⟨.lock, "Right", 2⟩).1.call ⟨.lock, "Left", 1⟩).1 :=
  (operations_commute smallTree [] (a := 1) (b := 2) (by decide +kernel) (by decide +kernel)
    (by decide) (by decide +kernel) (by decide +kernel) .lock .lock 1 2).2.2

/-! ### An upgrade in single calls -/

/-- **An upgrade is its releases and a lock.**  In every state that calls lead to on a
tree with distinct names: when `upgradeLock` of `n` by `u` returns true, unlocking the
locked proper descendants of `n` by `u`, in any order, and then locking `n` returns
true each time and leads to the same tree. -/
theorem upgradeLock_eq_unlocks_lock {adds : List NodeSpec}
    (hnames : (adds.map NodeSpec.nodeName).Nodup) (calls : List Call) {u : ℤ}
    (hn : n < (build adds).shape.size)
    (hup : (((build adds).run calls).upgradeLock ((build adds).shape.name n) u).2 = true)
    {ds : List ℕ} (hnd : ds.Nodup) (hds : ∀ d, d ∈ ds ↔ (build adds).shape.IsAncestor n d ∧
      (((build adds).run calls).node d).isLocked = true) :
    let t := (build adds).run calls
    let cs := ds.map (fun d => ⟨.unlock, t.shape.name d, u⟩) ++ [⟨.lock, t.shape.name n, u⟩]
    t.results cs = List.replicate (ds.length + 1) true ∧
      t.run cs = (t.upgradeLock (t.shape.name n) u).1 := by
  intro t cs
  have hexact : t.Exact := (exact_build adds).run calls
  have hshape : t.shape = (build adds).shape := run_shape _ _
  have hnamed : t.shape.Named := by
    rw [hshape, build_shape_eq]
    exact TreeShape.named_build hnames
  rw [← hshape] at hn hup hds
  set H := t.shape.hierarchy
  -- the upgrade is granted, and its effect is that of the single requests
  obtain ⟨hresult, howners⟩ := hexact.call_spec ⟨.upgradeLock, t.shape.name n, u⟩
  rw [TreeShape.specCall_of_getNode (hnamed n hn)] at hresult howners
  have hgrants : H.Grants t.owners (.upgrade n u) := Hierarchy.perform_snd.1 (hresult ▸ hup)
  have hsingle := Hierarchy.respond_unlocks_lock hgrants hnd fun d => by
    rw [hds, owners_ne_none]
    rfl
  have hcs : cs = (ds.map (Request.unlock · u) ++ [Request.lock n u]).map t.shape.callOf := by
    simp [cs, TreeShape.callOf, Function.comp_def]
  have hspec : t.shape.specRun t.owners cs =
      (H.effect t.owners (.upgrade n u), List.replicate (ds.length + 1) true) := by
    rw [hcs, TreeShape.specRun_map_callOf _ fun r hr => ?_, hsingle]
    rcases List.mem_append.1 hr with hr | hr
    · obtain ⟨d, hd, rfl⟩ := List.mem_map.1 hr
      exact hnamed d ((hds d).1 hd).1.lt_size
    · obtain rfl := List.mem_singleton.1 hr
      exact hnamed n hn
  obtain ⟨hresults, hend⟩ := hexact.run_spec cs
  rw [hspec] at hresults hend
  refine ⟨hresults, (hexact.run cs).ext (hexact.call ⟨.upgradeLock, t.shape.name n, u⟩) ?_ ?_⟩
  · exact (run_shape t cs).trans (call_shape t ⟨.upgradeLock, t.shape.name n, u⟩).symm
  · have heffect := congrArg Prod.fst (Hierarchy.perform_of_grants hgrants)
    exact hend.trans (heffect.symm.trans howners.symm)

/-- Both children are locked by one user, who upgrades to the root. -/
theorem upgradeLock_eq_unlocks_lock_root :
    let t := (build smallTree).run [⟨.lock, "Left", 1⟩, ⟨.lock, "Right", 1⟩]
    t.run [⟨.unlock, "Right", 1⟩, ⟨.unlock, "Left", 1⟩, ⟨.lock, "Root", 1⟩] =
      (t.upgradeLock "Root" 1).1 := by
  have hlocked (d : ℕ) : d ∈ [2, 1] ↔ (build smallTree).shape.IsAncestor 0 d ∧
      (((build smallTree).run [⟨.lock, "Left", 1⟩, ⟨.lock, "Right", 1⟩]).node d).isLocked =
        true := by
    constructor
    · intro hd
      rcases List.mem_cons.1 hd with rfl | hd
      · decide +kernel
      · obtain rfl := List.mem_singleton.1 hd
        decide +kernel
    · rintro ⟨hd, -⟩
      have h₁ := hd.lt
      have h₂ := hd.lt_size
      have h₃ : (build smallTree).shape.size = 3 := by decide +kernel
      obtain rfl | rfl : d = 1 ∨ d = 2 := by omega
      · decide
      · decide
  have hname : (build smallTree).shape.name 0 = "Root" ∧
      (build smallTree).shape.name 1 = "Left" ∧ (build smallTree).shape.name 2 = "Right" := by
    decide +kernel
  have hnames : (smallTree.map NodeSpec.nodeName).Nodup := by decide
  have hnd : [2, 1].Nodup := by decide
  have h := upgradeLock_eq_unlocks_lock hnames (n := 0) (u := 1)
    [⟨.lock, "Left", 1⟩, ⟨.lock, "Right", 1⟩] (by decide +kernel) (by decide +kernel) hnd hlocked
  simpa [hname] using h.2

end PaymentTree
end PaymentGateway
