/-
# A completed acquisition blocks every later conflicting one

Let the `lock` or `upgradeLock` of the thread `T` on the node `m` have returned
true, and let `T` not begin an `unlock` of `m` or an `upgradeLock` afterwards.
From then on `T` holds `m` and has published it, so `m` is locked and every
relative of `m` sees it in its counter, whatever other calls have half done
(`Sound.ancestors_pos`, `Sound.descendants_pos`).  A call that begins in this time
on `m` or on a relative of `m` therefore stays at the program counters of
`Pc.Blocked`, from which it can only return false (`exec_blocked`): a counter or
the `compare_exchange` stops a `lock`, and an `upgradeLock` on an ancestor meets
`m` in its scan, where the owner is not its own.

`Standing` collects this, and `acquisition_blocks` is the property of whole runs.
-/

import PaymentGateway.Atomic.Calls

namespace PaymentGateway
namespace Atomic

open Lib

variable {Tid : Type}

/-- Where an acquisition of `n` can stand while `m` is held by another call: it has
not passed the check that `m` fails. -/
def Pc.Blocked (t : TreeShape) (m n : ℕ) : Pc → Prop
  | .lockLoadAncestors | .upgradeLoadState => True
  | .lockLoadDescendants => n = m ∨ t.IsAncestor n m
  | .lockCas | .lockCountRetry => n = m
  | .upgradeLoadAncestors => n ≠ m
  | .upgradeScan bfs _ => m ∈ t.below bfs
  | .upgradeLoadOwner current bfs _ => m ∈ t.below (current :: bfs)
  | _ => False

/-- What happens next to a blocked call: it stays blocked or returns false. -/
def Next.Blocked (t : TreeShape) (m n : ℕ) : Next → Prop
  | .goto pc => pc.Blocked t m n
  | .finish result => result = false

section Exec

variable {t : TreeShape} {mem : Memory} {u : ℤ} {m n : ℕ} {sp : Bool} {pc : Pc}

/-- **A blocked call stays blocked**, as long as `m` is locked, its relatives count
it, and it does not belong to the caller. -/
theorem exec_blocked (hpc : pc.Blocked t m n) (hrel : n = m ∨ t.Related n m)
    (hlocked : (mem.node m).lockState = 1)
    (habove : t.IsAncestor m n → 0 < (mem.node n).ancestorLockedCount)
    (hbelow : t.IsAncestor n m → 0 < (mem.node n).descendantLockedCount)
    (hown : ∀ bfs ds, pc = .upgradeLoadOwner m bfs ds → (mem.node m).lockedBy ≠ u) :
    (pc.exec t mem u n sp).2.Blocked t m n := by
  cases pc with
  | lockLoadAncestors =>
      by_cases ha : t.IsAncestor m n
      · simp [Pc.exec, habove ha, Next.Blocked]
      · have : n = m ∨ t.IsAncestor n m := hrel.imp id fun h => h.resolve_right ha
        simp only [Pc.exec]
        split
        · rfl
        · exact this
  | lockLoadDescendants =>
      rcases hpc with rfl | hd
      · simp only [Pc.exec]
        split <;> rfl
      · simp [Pc.exec, hbelow hd, Next.Blocked]
  | lockCas =>
      obtain rfl : n = m := hpc
      simp [Pc.exec, hlocked, Next.Blocked]
  | lockCountRetry => exact hpc
  | upgradeLoadState =>
      by_cases hnm : n = m
      · subst hnm
        simp [Pc.exec, hlocked, Next.Blocked]
      · simp only [Pc.exec]
        split
        · rfl
        · exact hnm
  | upgradeLoadAncestors =>
      by_cases ha : t.IsAncestor m n
      · simp [Pc.exec, habove ha, Next.Blocked]
      · have hd : t.IsAncestor n m := (hrel.resolve_left hpc).resolve_right ha
        simp only [Pc.exec]
        split
        · rfl
        · show m ∈ t.below (t.children n)
          rwa [← Forest.descendants_eq, Forest.mem_descendants]
  | upgradeScan bfs ds =>
      cases bfs with
      | nil => exact absurd hpc List.not_mem_nil
      | cons current bfs =>
          simp only [Pc.exec]
          split
          · exact hpc
          · rename_i hfree
            show m ∈ t.below (bfs ++ t.children current)
            exact Forest.mem_below_next hpc fun h => hfree (h ▸ hlocked)
  | upgradeLoadOwner current bfs ds =>
      simp only [Pc.exec]
      split
      · rfl
      · rename_i hmine
        have hne : m ≠ current := fun h => hown bfs ds (by rw [h]) (h ▸ not_not.1 hmine)
        show m ∈ t.below (bfs ++ t.children current)
        exact Forest.mem_below_next hpc hne
  | _ => exact hpc.elim

/-- An acquiring call is not blocked. -/
theorem Pc.Acquiring.not_blocked (h : pc.Acquiring) : ¬pc.Blocked t m n := by
  cases pc <;> simp_all [Pc.Acquiring, Pc.Blocked]

end Exec

/-! ### What stands while `T` keeps its node -/

/-- A call that began after the position `p` on `m` or a relative of `m` is blocked,
or about to return false. -/
def Local.Blocked (t : TreeShape) (m p : ℕ) : Local → Prop
  | .idle => True
  | .running c k n pc => p < k → c.op ≠ .unlock → n = m ∨ t.Related n m → pc.Blocked t m n
  | .returning c k result => p < k → c.op ≠ .unlock →
      ∀ n, t.getNode c.nodeName = some n → n = m ∨ t.Related n m → result = false

/-- The call of the holder of `m` leaves `m` alone. -/
def Local.Keeps (m p : ℕ) : Local → Prop
  | .running c k n _ => p < k ∧ c.op ≠ .upgradeLock ∧ (c.op = .unlock → n ≠ m)
  | _ => True

/-- A call that may take `m` away from its holder. -/
def MayRelease (t : TreeShape) (m : ℕ) (c : Call) : Prop :=
  c.op = .upgradeLock ∨ c.op = .unlock ∧ t.getNode c.nodeName = some m

instance (t : TreeShape) (m : ℕ) (c : Call) : Decidable (MayRelease t m c) := by
  unfold MayRelease
  infer_instance

/-- `T` does not begin a call that may take `m` away. -/
def LeavesHeld (t : TreeShape) (T : Tid) (m : ℕ) : Label Tid → Prop
  | .invoke i c => i = T → ¬MayRelease t m c
  | .tick _ _ => True

instance [DecidableEq Tid] (t : TreeShape) (T : Tid) (m : ℕ) (l : Label Tid) :
    Decidable (LeavesHeld t T m l) := by
  rcases l with _ | _ <;> unfold LeavesHeld <;> infer_instance

/-- The acquisition of `m` by `T` that returned at the position `p` still stands. -/
structure Standing (t : TreeShape) (s : State Tid) (T : Tid) (m p : ℕ) : Prop where
  past : p < s.hist.length
  holds : Holds T m s.hist
  keeps : (s.thread T).Keeps m p
  blocked : ∀ V, (s.thread V).Blocked t m p

section Standing

variable {t : TreeShape} {user : Tid → ℤ} {s s' : State Tid} {T : Tid} {m p : ℕ}

/-- The holder has finished publishing, and nobody else is acquiring the node. -/
theorem Standing.free (h : Standing t s T m p) (hcust : Custody user s)
    (hfits : ∀ i, (s.thread i).Fits t) (i : Tid) : (s.thread i).acquires ≠ some m := by
  intro hi
  obtain rfl : i = T :=
    hcust.unique i T m (hcust.claims i m (Local.mem_claims_of_acquires hi)) h.holds
  obtain ⟨c, k, pc, hrun, hpc⟩ := Local.exists_of_acquires hi
  have hfit := hfits i
  have hblocked := h.blocked i
  have hkeeps := h.keeps
  rw [hrun] at hfit hblocked hkeeps
  exact hpc.not_blocked (hblocked hkeeps.1 (hpc.op_ne_unlock hfit) (.inl rfl))

variable [Fintype Tid]

/-- The next step of any call keeps it blocked. -/
theorem Standing.exec_blocked (h : Standing t s T m p) (hsound : Sound t s)
    (hcust : Custody user s) (hres : Resolved t s) {i : Tid} {sp : Bool} {c : Call} {k n : ℕ}
    {pc : Pc} (hi : s.thread i = .running c k n pc) (hby : ByHolder s (.tick i sp)) :
    ((pc.exec t s.mem c.userId n sp).2.toLocal c k n).Blocked t m p := by
  have hblocked := h.blocked i
  have hnode := hres.calls i
  rw [hi] at hblocked hnode
  have hlocked : (s.mem.node m).lockState = 1 := hcust.locked h.holds
  have hfree (j : Tid) (hj : (s.thread j).acquires = some m) : False :=
    h.free hcust hsound.fits j hj
  have hnext (hk : p < k) (hop : c.op ≠ .unlock) (hrel : n = m ∨ t.Related n m) :
      (pc.exec t s.mem c.userId n sp).2.Blocked t m n := by
    refine Atomic.exec_blocked (hblocked hk hop hrel) hrel hlocked
      (fun ha => hsound.ancestors_pos ha hlocked fun j hj => (hfree j hj).elim)
      (fun hd => hsound.descendants_pos hd hlocked fun j hj => (hfree j hj).elim) ?_
    rintro bfs ds rfl hown
    -- the scan would take `m` for one of the caller's own nodes
    obtain rfl : i = T := hcust.unique i T m (hby.of_upgrade hi hown) h.holds
    have hkeeps := h.keeps
    have hfit := hsound.fits i
    rw [hi] at hkeeps hfit
    exact hkeeps.2.1 hfit.1
  cases hn : (pc.exec t s.mem c.userId n sp).2 with
  | goto pc' =>
      rw [hn] at hnext
      exact hnext
  | finish r =>
      rw [hn] at hnext
      intro hk hop n' hn' hrel
      obtain rfl : n = n' := Option.some.inj (hnode.1.symm.trans hn')
      exact hnext hk hop hrel

/-- The holder does not release the node, in none of the three ways. -/
theorem Standing.not_released (h : Standing t s T m p) (hsound : Sound t s) {sp : Bool} {c : Call}
    {k n : ℕ} {pc : Pc} (hi : s.thread T = .running c k n pc) :
    (pc.exec t s.mem c.userId n sp).1 ≠ .setLockState m 0 := by
  intro hrel
  have hkeeps := h.keeps
  have hblocked := h.blocked T
  have hfit := hsound.fits T
  rw [hi] at hkeeps hblocked hfit
  rcases exec_setLockState hrel with
    ⟨-, h', -⟩ | ⟨-, ⟨rfl, rfl, -⟩ | ⟨rfl, rfl, -⟩ | ⟨ds, rfl, -⟩⟩
  · cases h'
  · exact hblocked hkeeps.1 (fun hop => by cases hop.symm.trans hfit) (.inl rfl)
  · exact hkeeps.2.2 hfit rfl
  · exact hkeeps.2.1 hfit.1

variable [DecidableEq Tid]

omit [Fintype Tid] in
/-- The holder begins no call that may take the node away. -/
theorem Standing.keeps_step {l : Label Tid} (h : Standing t s T m p)
    (hquiet : LeavesHeld t T m l) (hs : Atomic.step t s l = some s') : (s'.thread T).Keeps m p := by
  have hother {i : Tid} {l : Local} (hT : T ≠ i) :
      (Function.update s.thread i l T).Keeps m p := by
    rw [Function.update_of_ne hT]
    exact h.keeps
  cases move_of_step hs with
  | invoke i c hi =>
      by_cases hT : T = i
      · subst hT
        have hc := hquiet rfl
        simp only [Function.update_self, Local.enter]
        split
        · trivial
        · rename_i n hn
          exact ⟨h.past, fun hop => hc (.inl hop), fun hop hnm => hc (.inr ⟨hop, hnm ▸ hn⟩)⟩
      · exact hother hT
  | ret i sp c k r hi =>
      by_cases hT : T = i
      · simp only [hT, Function.update_self]
        trivial
      · exact hother hT
  | exec i sp c k n pc hi =>
      by_cases hT : T = i
      · subst hT
        have hkeeps := h.keeps
        rw [hi] at hkeeps
        simp only [Function.update_self]
        cases (pc.exec t s.mem c.userId n sp).2 with
        | goto pc' => exact hkeeps
        | finish r => trivial
      · exact hother hT

/-- **Every step keeps the acquisition standing**, unless `T` begins a call that
may release the node. -/
theorem Standing.step {l : Label Tid} (h : Standing t s T m p) (hsound : Sound t s)
    (hcust : Custody user s) (hres : Resolved t s) (hby : ByHolder s l)
    (hquiet : LeavesHeld t T m l) (hs : Atomic.step t s l = some s') :
    Standing t s' T m p := by
  have hkeeps := h.keeps_step hquiet hs
  cases move_of_step hs with
  | invoke i c hi =>
      refine ⟨h.past.trans (Nat.lt_succ_self _), h.holds, hkeeps,
        (Function.forall_update_iff _ fun _ => Local.Blocked t m p).2
          ⟨?_, fun V _ => h.blocked V⟩⟩
      unfold Local.enter
      split
      · exact fun _ _ _ _ _ => rfl
      · intro _ hop _
        cases hc : c.op with
        | unlock => exact absurd hc hop
        | _ => trivial
  | ret i sp c k r hi =>
      exact ⟨h.past.trans (Nat.lt_succ_self _), h.holds, hkeeps,
        (Function.forall_update_iff _ fun _ => Local.Blocked t m p).2
          ⟨trivial, fun V _ => h.blocked V⟩⟩
  | exec i sp c k n pc hi =>
      refine ⟨?_, hcust.exec_keep hi h.holds ?_, hkeeps,
        (Function.forall_update_iff _ fun _ => Local.Blocked t m p).2
          ⟨h.exec_blocked hsound hcust hres hi hby, fun V _ => h.blocked V⟩⟩
      · have := h.past
        rw [List.length_append]
        omega
      · rintro rfl
        exact h.not_released hsound hi

end Standing

/-! ### Runs -/

section Runs

variable [Fintype Tid] [DecidableEq Tid] {adds : List NodeSpec} {user : Tid → ℤ}
  {s₁ s₂ : State Tid}

/-- An acquisition stands when it has just returned true. -/
theorem standing_of_ret (hu : DistinctUsers user) (h : OwnRun adds user s₁) {T : Tid} {c : Call}
    {k m : ℕ} {H : List (Event Tid)} (hret : s₁.hist = .ret T c k true :: H)
    (hop : c.op ≠ .unlock) (hm : (AtomicPaymentTree.build adds).shape.getNode c.nodeName = some m) :
    Standing (AtomicPaymentTree.build adds).shape s₁ T m H.length := by
  have hres := h.resolved
  have hlen : s₁.hist.length = H.length + 1 := by rw [hret, List.length_cons]
  refine ⟨by omega, (h.promised hu).granted T m (by rw [hret]; exact .inl ⟨rfl, hop, hm, rfl⟩), ?_,
    fun V => ?_⟩
  · rw [hres.idle T c k true H hret]
    trivial
  · -- every call in progress began before the return
    have hV := hres.calls V
    cases hl : s₁.thread V with
    | idle => trivial
    | running c' k' n pc =>
        rw [hl] at hV
        intro hk
        have := hV.2
        omega
    | returning c' k' r =>
        rw [hl] at hV
        intro hk
        have : k' < s₁.hist.length := hV
        omega

/-- **A completed acquisition blocks every later conflicting one.**  The `lock` or
`upgradeLock` of `T` on `m` has returned true in the state `s₁`, and the run goes on
to `s₂` while `T` begins no `unlock` of `m` and no `upgradeLock`.  Then every `lock`
or `upgradeLock` on `m`, on an ancestor or on a descendant of `m` that began after
that return and has returned by `s₂` returned false. -/
theorem acquisition_blocks (hu : DistinctUsers user) (h₁ : OwnRun adds user s₁) {T : Tid}
    {c₁ : Call} {k₁ m : ℕ} {H : List (Event Tid)} (hret₁ : s₁.hist = .ret T c₁ k₁ true :: H)
    (hop₁ : c₁.op ≠ .unlock)
    (hm : (AtomicPaymentTree.build adds).shape.getNode c₁.nodeName = some m)
    (h₂ : Reaches (step (AtomicPaymentTree.build adds).shape)
      (fun _ l => OwnUser user l ∧ LeavesHeld (AtomicPaymentTree.build adds).shape T m l) s₁ s₂)
    {V : Tid} {c₂ : Call} {k₂ n : ℕ} {result : Bool} (hret₂ : .ret V c₂ k₂ result ∈ s₂.hist)
    (hbegun : s₁.hist.length ≤ k₂) (hop₂ : c₂.op ≠ .unlock)
    (hn : (AtomicPaymentTree.build adds).shape.getNode c₂.nodeName = some n)
    (hrel : n = m ∨ (AtomicPaymentTree.build adds).shape.Related n m) : result = false := by
  have hlen : s₁.hist.length = H.length + 1 := by rw [hret₁, List.length_cons]
  suffices hinv : Standing (AtomicPaymentTree.build adds).shape s₂ T m H.length ∧
      ∀ V c k r, .ret V c k r ∈ s₂.hist → H.length < k → c.op ≠ .unlock →
        ∀ n, (AtomicPaymentTree.build adds).shape.getNode c.nodeName = some n →
          n = m ∨ (AtomicPaymentTree.build adds).shape.Related n m → r = false from
    hinv.2 V c₂ k₂ result hret₂ (by omega) hop₂ n hn hrel
  clear hret₂
  refine h₂.invariant ?_ ?_
  · refine ⟨standing_of_ret hu h₁ hret₁ hop₁ hm, fun V c k r hr hk => ?_⟩
    have := h₁.resolved.returned V c k r hr
    omega
  · rintro s l s' hr ⟨hstand, hpast⟩ ⟨hown, hquiet⟩ hs
    have hrun : OwnRun adds user s := h₁.trans (hr.mono fun _ _ h => h.1)
    obtain ⟨hsound, hcust⟩ := hrun.sound_custody hu
    refine ⟨hstand.step hsound hcust hrun.resolved
      (hcust.byHolder hu.injective hu.ne_none l) hquiet hs, fun V c k r hr => ?_⟩
    cases move_of_step hs with
    | invoke i c' hi => exact hpast V c k r (by simpa using hr)
    | ret i sp c' k' r' hi =>
        rcases List.mem_cons.1 hr with heq | hr
        · cases heq
          have hblocked := hstand.blocked V
          rw [hi] at hblocked
          exact hblocked
        · exact hpast V c k r hr
    | exec i sp c' k' n' pc hi =>
        exact hpast V c k r ((List.mem_append.1 hr).resolve_left ret_not_mem_events)

/-- While thread 0 keeps `Left`, thread 1 is refused an `upgradeLock` of `Root`. -/
theorem acquisition_blocks_upgrade :
    ∃ s : State (Fin 2), Reaches (step (AtomicPaymentTree.build smallTree).shape)
        (fun _ l => OwnUser twoUsers l ∧
          LeavesHeld (AtomicPaymentTree.build smallTree).shape 0 1 l)
        (after smallTree twoUsers (.invoke 0 ⟨.lock, "Left", 0⟩ :: turns 0 10)) s ∧
      .ret 1 ⟨.upgradeLock, "Root", 1⟩ 3 false ∈ s.hist := by
  have hret : (after smallTree twoUsers (.invoke 0 ⟨.lock, "Left", 0⟩ :: turns 0 10)).hist =
      [.ret 0 ⟨.lock, "Left", 0⟩ 0 true, .acquire 0 1, .invoke 0 ⟨.lock, "Left", 0⟩] := by
    decide +kernel
  obtain ⟨s, hs, hp⟩ : ∃ s, Reaches (step (AtomicPaymentTree.build smallTree).shape)
      (fun _ l => OwnUser twoUsers l ∧ LeavesHeld (AtomicPaymentTree.build smallTree).shape 0 1 l)
      (after smallTree twoUsers (.invoke 0 ⟨.lock, "Left", 0⟩ :: turns 0 10)) s ∧
      decide (∃ r, .ret 1 ⟨.upgradeLock, "Root", 1⟩ 3 r ∈ s.hist) = true :=
    exists_reaches_of_exec (.invoke 1 ⟨.upgradeLock, "Root", 1⟩ :: turns 1 5) (by decide +kernel)
  obtain ⟨r, hr⟩ := of_decide_eq_true hp
  obtain rfl : r = false :=
    acquisition_blocks twoUsers_distinct (ownRun_after _ _ _) hret (by decide)
      (show _ = some 1 by decide +kernel) hs hr (by decide +kernel) (by decide)
      (show _ = some 0 by decide +kernel) (by decide +kernel)
  exact ⟨s, hs, hr⟩

end Runs

end Atomic
end PaymentGateway
