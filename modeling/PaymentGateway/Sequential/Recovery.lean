/-
# The states of a tree, and the ways between them

Locks that users hold can pile up in many ways, and `PaymentTree` keeps two counters in
every node besides.  What states are there, and is one of them a dead end?

The states that calls lead to are exactly those with exact counters, in which no locked
node has a locked proper ancestor and every locked node is found under its name
(`reachable_iff`): the invariants that calls keep leave out nothing.  And there are no
dead ends.  From every state that calls lead to, the owners can unlock their nodes, in any
order, and whoever owns nodes in another state can then lock them, in any order; no call
fails on the way, and the other state is reached to the last counter (`states_exchange`).
-/

import PaymentGateway.Sequential.Algebra
import PaymentGateway.Tree.Index

namespace PaymentGateway

open Lib

/-- Only the target of a call can become owned. -/
theorem TreeShape.owned_specCall {t : TreeShape} {o : Owners ℕ ℤ} {c : Call} {x : ℕ}
    (h : (t.specCall o c).1 x ≠ none) : o x ≠ none ∨ t.getNode c.nodeName = some x := by
  unfold specCall at h
  cases hn : t.getNode c.nodeName with
  | none =>
      rw [hn] at h
      exact .inl h
  | some n =>
      rw [hn] at h
      by_cases hx : x = n
      · exact .inr (by rw [hx])
      · refine .inl fun hnone => h ?_
        by_cases hg : t.hierarchy.Grants o (c.op.request n c.userId)
        · simp only [Hierarchy.perform_of_grants hg]
          cases c.op <;> simp [Op.request, Hierarchy.effect, hx, hnone]
        · simp only [Hierarchy.perform_of_not_grants hg, hnone]

namespace PaymentTree

variable {t t' : PaymentTree} {ds es : List ℕ}

/-- The owners of the nodes `ds` unlock them. -/
def unlocks (t : PaymentTree) (ds : List ℕ) : List Call :=
  ds.map fun d => ⟨.unlock, t.shape.name d, (t.node d).lockedBy⟩

/-- The nodes `es` are locked for those who own them in `t`. -/
def locks (t : PaymentTree) (es : List ℕ) : List Call :=
  es.map fun e => ⟨.lock, t.shape.name e, (t.node e).lockedBy⟩

/-- Every locked node is found under its name. -/
def LockedNamed (t : PaymentTree) : Prop :=
  ∀ n, t.flag n = true → t.shape.getNode (t.shape.name n) = some n

/-- A call locks a node that it has found. -/
theorem LockedNamed.call (h : t.LockedNamed) (hexact : t.Exact) (hkeys : t.shape.KeysMatch)
    (c : Call) : (t.call c).1.LockedNamed := by
  intro n hn
  rw [call_shape]
  rw [← owners_ne_none, (hexact.call_spec c).2] at hn
  rcases TreeShape.owned_specCall hn with hold | hfound
  · exact h n (owners_ne_none.1 hold)
  · rw [hkeys _ n hfound, hfound]

/-- What is known of every state that calls lead to. -/
theorem run_invariant (adds : List NodeSpec) (calls : List Call) :
    ((build adds).run calls).Exact ∧ ((build adds).run calls).Exclusive ∧
      ((build adds).run calls).LockedNamed := by
  have hkeys : (build adds).shape.KeysMatch := by
    rw [build_shape_eq]
    exact TreeShape.keysMatch_build adds
  have hfree (n : ℕ) : ¬(build adds).flag n = true := by
    rw [flag, build_node]
    exact Bool.false_ne_true
  suffices hrun : ∀ t : PaymentTree, t.shape = (build adds).shape → t.Exact → t.Exclusive →
      t.LockedNamed → (t.run calls).Exact ∧ (t.run calls).Exclusive ∧ (t.run calls).LockedNamed from
    hrun _ rfl (exact_build adds) (fun a n _ hn => absurd hn (hfree n))
      fun n hn => absurd hn (hfree n)
  induction calls with
  | nil => exact fun t _ h₁ h₂ h₃ => ⟨h₁, h₂, h₃⟩
  | cons c calls ih =>
      intro t hshape h₁ h₂ h₃
      exact ih _ ((call_shape t c).trans hshape) (h₁.call c) (h₂.call h₁ c)
        (h₃.call h₁ (hshape ▸ hkeys) c)

/-- **From one state to another.**  When the owners in `t` unlock their nodes and the nodes
locked in `t'` are then locked for their owners there, each in any order, every call returns
true and the tree is `t'`. -/
theorem Exact.exchange (h : t.Exact) (h' : t'.Exact) (hshape : t'.shape = t.shape)
    (hexclusive : t'.Exclusive) (hnamed : t.LockedNamed) (hnamed' : t'.LockedNamed)
    (hds : ds.Nodup) (hes : es.Nodup) (hd : ∀ d, d ∈ ds ↔ t.flag d = true)
    (he : ∀ e, e ∈ es ↔ t'.flag e = true) :
    t.results (t.unlocks ds ++ t'.locks es) = List.replicate (ds.length + es.length) true ∧
      t.run (t.unlocks ds ++ t'.locks es) = t' := by
  have howned {t : PaymentTree} {n : ℕ} (hn : t.flag n = true) :
      t.owners n = some (t.node n).lockedBy := owners_eq_some.2 ⟨hn, rfl⟩
  have hcalls : t.unlocks ds ++ t'.locks es =
      (ds.map (fun d => Request.unlock d (t.node d).lockedBy) ++
        es.map fun e => Request.lock e (t'.node e).lockedBy).map t.shape.callOf := by
    rw [unlocks, locks, hshape, List.map_append, List.map_map, List.map_map]
    rfl
  have hfound : ∀ r ∈ ds.map (fun d => Request.unlock d (t.node d).lockedBy) ++
      es.map fun e => Request.lock e (t'.node e).lockedBy,
      t.shape.getNode (t.shape.name r.target) = some r.target := by
    intro r hr
    rcases List.mem_append.1 hr with hr | hr
    · obtain ⟨d, hmem, rfl⟩ := List.mem_map.1 hr
      exact hnamed d ((hd d).1 hmem)
    · obtain ⟨e, hmem, rfl⟩ := List.mem_map.1 hr
      exact hshape ▸ hnamed' e ((he e).1 hmem)
  have hspec := Hierarchy.respond_exchange (H := t.shape.hierarchy) (o := t.owners)
    hds hes (hshape ▸ exclusive_iff.1 hexclusive)
    (fun d => (hd d).trans owners_ne_none.symm) (fun d hmem => howned ((hd d).1 hmem))
    (fun e => (he e).trans owners_ne_none.symm) fun e hmem => howned ((he e).1 hmem)
  obtain ⟨hresults, howners⟩ := h.run_spec (t.unlocks ds ++ t'.locks es)
  rw [hcalls, TreeShape.specRun_map_callOf _ hfound, hspec, ← hcalls] at hresults howners
  exact ⟨hresults, (h.run _).ext h' ((run_shape ..).trans hshape.symm) howners⟩

/-- **No state is a dead end.**  From every state that calls lead to, every other one is
reached by the unlocks of all owners and the locks of all owners there, each in any order;
every call on the way returns true.  In particular unlocking everything restores the tree
as it was built. -/
theorem states_exchange (adds : List NodeSpec) (calls calls' : List Call) (hds : ds.Nodup)
    (hes : es.Nodup) (hd : ∀ d, d ∈ ds ↔ (((build adds).run calls).node d).isLocked = true)
    (he : ∀ e, e ∈ es ↔ (((build adds).run calls').node e).isLocked = true) :
    let t := (build adds).run calls
    let t' := (build adds).run calls'
    t.results (t.unlocks ds ++ t'.locks es) = List.replicate (ds.length + es.length) true ∧
      t.run (t.unlocks ds ++ t'.locks es) = t' := by
  obtain ⟨hexact, -, hnamed⟩ := run_invariant adds calls
  obtain ⟨hexact', hexclusive', hnamed'⟩ := run_invariant adds calls'
  refine hexact.exchange hexact' ?_ hexclusive' hnamed hnamed' hds hes hd he
  rw [run_shape, run_shape]

/-- Which nodes are locked is seen from the nodes of the tree. -/
theorem mem_iff_isLocked (adds : List NodeSpec) (calls : List Call) (ds : List ℕ)
    (hlt : ∀ d ∈ ds, d < (build adds).shape.size) (hd : ∀ d < (build adds).shape.size,
      d ∈ ds ↔ (((build adds).run calls).node d).isLocked = true) (d : ℕ) :
    d ∈ ds ↔ (((build adds).run calls).node d).isLocked = true := by
  refine ⟨fun hmem => (hd d (hlt d hmem)).1 hmem, fun hlocked => (hd d ?_).2 hlocked⟩
  have hfound := TreeShape.getNode_lt ((run_invariant adds calls).2.2 d hlocked)
  rwa [run_shape] at hfound

/-- Two users unlock the children, in the other order, and a third one locks the root. -/
theorem states_exchange_children :
    ((build smallTree).run [⟨.lock, "Left", 1⟩, ⟨.lock, "Right", 2⟩]).run
        [⟨.unlock, "Right", 2⟩, ⟨.unlock, "Left", 1⟩, ⟨.lock, "Root", 3⟩] =
      (build smallTree).run [⟨.lock, "Root", 3⟩] := by
  have hd := mem_iff_isLocked smallTree [⟨.lock, "Left", 1⟩, ⟨.lock, "Right", 2⟩]
    [2, 1] (by decide +kernel) (by decide +kernel)
  have he := mem_iff_isLocked smallTree [⟨.lock, "Root", 3⟩] [0] (by decide +kernel)
    (by decide +kernel)
  have hexchange := (states_exchange smallTree _ _ (by decide) (by decide) hd he).2
  have hcalls :
      ((build smallTree).run [⟨.lock, "Left", 1⟩, ⟨.lock, "Right", 2⟩]).unlocks [2, 1] ++
        ((build smallTree).run [⟨.lock, "Root", 3⟩]).locks [0] =
      [⟨.unlock, "Right", 2⟩, ⟨.unlock, "Left", 1⟩, ⟨.lock, "Root", 3⟩] := by decide +kernel
  exact hcalls ▸ hexchange

/-- Locking one node after the other leads from the tree as it was built to every tree that
satisfies the invariants. -/
theorem Exact.exists_run {adds : List NodeSpec} (h : t.Exact)
    (hshape : t.shape = (build adds).shape) (hexclusive : t.Exclusive) (hnamed : t.LockedNamed) :
    ∃ calls, (build adds).run calls = t := by
  obtain ⟨hbuilt, -, hnone⟩ := run_invariant adds []
  refine ⟨(build adds).unlocks [] ++ t.locks ((List.range t.shape.size).filter t.flag), ?_⟩
  refine (hbuilt.exchange h hshape hexclusive hnone hnamed List.nodup_nil
    (List.nodup_range.filter _) (fun d => ?_) fun e => ?_).2
  · simp [flag, PaymentTree.run, build_node, TreeNode.fresh]
  · rw [List.mem_filter, List.mem_range]
    exact and_iff_right_of_imp fun he => TreeShape.getNode_lt (hnamed e he)

/-- **The states that calls lead to** are the trees with exact counters in which no locked
node has a locked proper ancestor and every locked node is found under its name. -/
theorem reachable_iff (adds : List NodeSpec) (t : PaymentTree) :
    (∃ calls, (build adds).run calls = t) ↔
      t.shape = (build adds).shape ∧ t.Exact ∧ t.Exclusive ∧ t.LockedNamed := by
  constructor
  · rintro ⟨calls, rfl⟩
    exact ⟨run_shape _ _, run_invariant adds calls⟩
  · rintro ⟨hshape, hexact, hexclusive, hnamed⟩
    exact hexact.exists_run hshape hexclusive hnamed

end PaymentTree
end PaymentGateway
