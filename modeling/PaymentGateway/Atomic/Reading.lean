/-
# What `toJson` sees while other threads work

`GET /api/tree` calls `toJson` on a server thread, while other threads lock and unlock
(`src/main.cpp`, lines 67-71).  `toJsonReads` is `toJson` with its loads: one load of
`lockState` at every node, in the order of the recursion, and nothing else of the shared
memory.  `Reads.after` runs it between the steps of the machine.

There is no snapshot.  Every flag in the text is the `lockState` of its node at the
moment of its own load (`toJson_reads`), so the text may show a locked node below a
locked node in a run in which no two related nodes are ever locked at once
(`toJson_torn`).  The text shows the tree of one instant of the call when nodes that are
still to be loaded do not change after nodes that have been loaded.
-/

import PaymentGateway.Lib.Snapshot
import PaymentGateway.Tree.Index
import PaymentGateway.Atomic.ToJson
import PaymentGateway.Atomic.UpgradeExclusion

namespace PaymentGateway

open Lib

namespace Atomic

variable {Tid : Type}

/-! ### The loads of `toJson` -/

/-- `serialize`, the recursive lambda of `toJson`, with its loads. -/
def serializeReads (t : TreeShape) (n : ℕ) : Reads ℕ ℤ String :=
  .load n fun lockState =>
    (Reads.all ((t.children n).attach.map fun c => serializeReads t c.1)).bind fun children =>
      .ret ("\x7b\"name\":\"" ++ t.name n ++ "\",\"isLocked\":" ++
        (if lockState = 1 then "true" else "false") ++ ",\"children\":[" ++
        ",".intercalate children ++ "]\x7d")
termination_by t.size - n
decreasing_by
  have h₁ := t.lt_of_mem_children c.2
  have h₂ := t.children_lt_size c.2
  omega

/-- `toJson`, with its loads. -/
def toJsonReads (t : TreeShape) : Reads ℕ ℤ String :=
  match t.root with
  | none => .ret "\x7b\x7d"
  | some root => serializeReads t root

/-- With no writer at work, the text is that of `serialize`. -/
theorem eval_serializeReads (t : TreeShape) (lockState : ℕ → ℤ) (n : ℕ) :
    (serializeReads t n).eval lockState = serialize t lockState n := by
  induction n using serializeReads.induct t with
  | case1 n ih =>
      rw [serializeReads, serialize, Reads.eval, Reads.eval_bind, Reads.eval_all, List.map_map]
      simp only [Function.comp_def, ih]
      rfl

/-- One load at every node of the subtree, in the order of the recursion. -/
theorem cells_serializeReads (t : TreeShape) (lockState : ℕ → ℤ) (n : ℕ) :
    (serializeReads t n).cells lockState = n :: t.descendants n := by
  induction n using serializeReads.induct t with
  | case1 n ih =>
      rw [serializeReads, Reads.cells, Reads.cells_bind, Reads.cells_all, Forest.descendants]
      simp only [List.flatMap_map, ih, Reads.cells, List.append_nil]

theorem eval_toJsonReads (t : AtomicPaymentTree) :
    (toJsonReads t.shape).eval (fun n => (t.mem.node n).lockState) = t.toJson := by
  unfold toJsonReads AtomicPaymentTree.toJson
  cases t.shape.root with
  | none => rfl
  | some root => exact eval_serializeReads t.shape _ root

theorem cells_toJsonReads (t : TreeShape) (lockState : ℕ → ℤ) :
    (toJsonReads t).cells lockState = t.visited := by
  unfold toJsonReads TreeShape.visited
  cases t.root with
  | none => rfl
  | some root => exact cells_serializeReads t lockState root

/-! ### Between the steps of other threads -/

/-- What a load of `toJson` finds. -/
def State.lockStates (s : State Tid) (n : ℕ) : ℤ := (s.mem.node n).lockState

variable [DecidableEq Tid]

/-- The machine and a call of `toJson` that starts in `s₀`, after a schedule of loads
(`none`) and steps of the machine. -/
abbrev toJsonAfter (t : TreeShape)
    (guard : State Tid × Reads ℕ ℤ String → Option (Label Tid) → Prop)
    [∀ x a, Decidable (guard x a)] (s₀ : State Tid) (as : List (Option (Label Tid))) :
    Option (State Tid × Reads ℕ ℤ String) :=
  Reads.after (step t) State.lockStates guard (s₀, toJsonReads t) as

/-- No node still to be loaded changes its `lockState` after a node already loaded. -/
abbrev ChangesAhead (t : TreeShape) (s₀ : State Tid) (as : List (Option (Label Tid))) : Prop :=
  Reads.UnreadFirst (step t) State.lockStates (fun _ _ => True) (s₀, toJsonReads t) t.visited as

/-- **What the text of `toJson` shows.**  On every tree, in every run of any calls on
other threads between and during the loads, from any state: each flag is the `lockState`
of its node at the moment of its own load, and the loads follow the order of the
recursion.  When no node still to be loaded changes after a node already loaded, the
text is that of the tree at one instant of the call. -/
theorem toJson_reads (t : TreeShape) {s₀ s : State Tid} {as : List (Option (Label Tid))}
    {text : String} (h : toJsonAfter t (fun _ _ => True) s₀ as = some (s, .ret text)) :
    ∃ loaded : ℕ → ℤ, text = (toJsonReads t).eval loaded ∧
      (∀ n, t.Reached n → ∃ bs s₁ k, bs ++ [none] <+: as ∧
        toJsonAfter t (fun _ _ => True) s₀ bs = some (s₁, .load n k) ∧
        loaded n = (s₁.mem.node n).lockState ∧ t.visited[Reads.loads bs]? = some n) ∧
      (ChangesAhead t s₀ as → ∃ bs s₁ p, bs <+: as ∧
        toJsonAfter t (fun _ _ => True) s₀ bs = some (s₁, p) ∧
        (∀ n, t.Reached n → loaded n = (s₁.mem.node n).lockState) ∧
        text = AtomicPaymentTree.toJson ⟨t, s₁.mem⟩) := by
  have hcells := cells_toJsonReads t
  have hnd := t.nodup_visited
  obtain ⟨loaded, hloaded⟩ := Reads.exists_loaded hcells hnd h
  have hall := Reads.take_loads (hcells loaded) hloaded h
  refine ⟨loaded, (Reads.eval_of_loaded hloaded h).1, fun n hn => ?_, fun hahead => ?_⟩
  · obtain ⟨bs, s₁, k, hbs, h₁⟩ := Reads.exists_load hcells hnd h
      (hall.symm ▸ TreeShape.mem_visited.2 hn)
    have horder := Reads.getElem?_of_load
      (hloaded.of_prefix ((List.prefix_append bs [none]).trans hbs)) h₁
    rw [hcells] at horder
    exact ⟨bs, s₁, k, hbs, h₁, hloaded bs s₁ n k hbs h₁, horder⟩
  · obtain ⟨bs, s₁, p, hbs, h₁, hvalues, htext⟩ :=
      Reads.single_instant (hcells loaded) hloaded hahead h
    refine ⟨bs, s₁, p, hbs, h₁, fun n hn => hvalues n (TreeShape.mem_visited.2 hn), ?_⟩
    rw [htext]
    exact eval_toJsonReads ⟨t, s₁.mem⟩

/-! ### Two runs -/

/-- `Root` with one child. -/
def pair : List NodeSpec := [⟨"Root", ""⟩, ⟨"Child", "Root"⟩]

/-- A call of the thread 0 from its beginning to its end, `k` steps long. -/
def wholeCall (c : Call) (k : ℕ) : List (Option (Label (Fin 1))) :=
  some (.invoke 0 c) :: (turns 0 k).map some

/-- The text of `pair` with given flags. -/
def pairText (root child : String) : String :=
  "\x7b\"name\":\"Root\",\"isLocked\":" ++ root ++
    ",\"children\":[\x7b\"name\":\"Child\",\"isLocked\":" ++ child ++ ",\"children\":[]\x7d]\x7d"

/-- `Child` is locked between the two loads: the text shows the tree of one instant. -/
theorem toJson_reads_pair : ∃ (s : State (Fin 1)) (bs : List (Option (Label (Fin 1))))
    (s₁ : State (Fin 1)) (p : Reads ℕ ℤ String),
    toJsonAfter (TreeShape.build pair) (fun _ _ => True) (start (AtomicPaymentTree.build pair))
      (none :: wholeCall ⟨.lock, "Child", 1⟩ 10 ++ [none]) =
        some (s, .ret (pairText "false" "true")) ∧
    bs <+: none :: wholeCall ⟨.lock, "Child", 1⟩ 10 ++ [none] ∧
    toJsonAfter (TreeShape.build pair) (fun _ _ => True) (start (AtomicPaymentTree.build pair)) bs =
      some (s₁, p) ∧
    pairText "false" "true" = AtomicPaymentTree.toJson ⟨TreeShape.build pair, s₁.mem⟩ := by
  obtain ⟨s, h⟩ : ∃ s, toJsonAfter (TreeShape.build pair) (fun _ _ => True)
      (start (AtomicPaymentTree.build pair)) (none :: wholeCall ⟨.lock, "Child", 1⟩ 10 ++ [none]) =
        some (s, .ret (pairText "false" "true")) :=
    Reads.exists_of_result (by decide +kernel)
  obtain ⟨loaded, -, -, hone⟩ := toJson_reads _ h
  obtain ⟨bs, s₁, p, hbs, h₁, -, htext⟩ := hone (Reads.unreadFirst_of_check h (by decide +kernel))
  exact ⟨s, bs, s₁, p, h, hbs, h₁, htext⟩

/-- Calls of `lock` and `unlock` are indivisible: neither another call nor a load of
`toJson` comes in the middle. -/
def Undivided (x : State Tid × Reads ℕ ℤ String) : Option (Label Tid) → Prop
  | none => ∀ j, ¬(x.1.thread j).InLockUnlock
  | some l => Indivisible x.1 l

instance [Fintype Tid] (x : State Tid × Reads ℕ ℤ String) (a : Option (Label Tid)) :
    Decidable (Undivided x a) := by
  rcases a with _ | _ <;> unfold Undivided <;> infer_instance

/-- **A state that never existed.**  `toJson` loads `Root` while it is locked; `Root` is
unlocked and then `Child` locked, each in one go; `toJson` loads `Child`.  The text shows
a locked node below a locked node, which is the tree at no instant of the run. -/
theorem toJson_torn : ∃ (as : List (Option (Label (Fin 1)))) (s : State (Fin 1)),
    toJsonAfter (TreeShape.build pair) Undivided (start (AtomicPaymentTree.build pair)) as =
      some (s, .ret (pairText "true" "true")) ∧
    ∀ bs s₁ p, bs <+: as →
      toJsonAfter (TreeShape.build pair) Undivided (start (AtomicPaymentTree.build pair)) bs =
        some (s₁, p) →
      pairText "true" "true" ≠ AtomicPaymentTree.toJson ⟨TreeShape.build pair, s₁.mem⟩ ∧
      ¬((s₁.mem.node 0).lockState = 1 ∧ (s₁.mem.node 1).lockState = 1) := by
  let as : List (Option (Label (Fin 1))) := wholeCall ⟨.lock, "Root", 1⟩ 10 ++ none ::
    wholeCall ⟨.unlock, "Root", 1⟩ 7 ++ wholeCall ⟨.lock, "Child", 1⟩ 10 ++ [none]
  obtain ⟨s, hs⟩ : ∃ s, toJsonAfter (TreeShape.build pair) Undivided
      (start (AtomicPaymentTree.build pair)) as = some (s, .ret (pairText "true" "true")) :=
    Reads.exists_of_result (by decide +kernel)
  have hall : ∀ bs ∈ as.inits,
      (toJsonAfter (TreeShape.build pair) Undivided (start (AtomicPaymentTree.build pair)) bs).all
        (fun x => decide (pairText "true" "true" ≠
            AtomicPaymentTree.toJson ⟨TreeShape.build pair, x.1.mem⟩ ∧
          ¬((x.1.mem.node 0).lockState = 1 ∧ (x.1.mem.node 1).lockState = 1))) = true := by
    decide +kernel
  refine ⟨as, s, hs, fun bs s₁ p hbs h₁ => ?_⟩
  have := hall bs ((List.mem_inits _ _).2 hbs)
  rw [h₁] at this
  exact of_decide_eq_true this

end Atomic
end PaymentGateway
