/-
# Reading a memory one cell at a time

A `Reads` program loads cells of a memory, one after the other, and returns a result.
`eval` is what it returns in a memory that nobody writes, `cells` the cells it loads
there, in order.

`interleave` lets the system that owns the memory step between any two loads.  Every
cell is then seen at the moment of its own load (`Loaded`, `eval_of_loaded`), so the
result may show a memory that never existed.  It shows the memory of one instant when no
cell still to be loaded changes after a cell that has been loaded already
(`UnreadFirst`, `single_instant`).  When the memory only grows, the later of two loads
finds the later memory, and the order of the loads says what the result can be off by
(`prefix_of_loads_lt`, `view_le`).
-/

import Mathlib.Data.List.Nodup
import Mathlib.Data.List.Induction
import Mathlib.Order.Basic
import PaymentGateway.Lib.Transition

namespace PaymentGateway
namespace Lib

/-- A program that loads cells one after the other and returns. -/
inductive Reads (ν υ β : Type*)
  | ret (b : β)
  | load (n : ν) (k : υ → Reads ν υ β)

namespace Reads

variable {ν υ β γ : Type*}

/-- One program after the other. -/
def bind : Reads ν υ β → (β → Reads ν υ γ) → Reads ν υ γ
  | .ret b, q => q b
  | .load n k, q => .load n fun v => (k v).bind q

/-- The programs of a list in order, and the list of what they return. -/
def all : List (Reads ν υ β) → Reads ν υ (List β)
  | [] => .ret []
  | p :: ps => p.bind fun b => (all ps).bind fun bs => .ret (b :: bs)

/-- What the program returns when the memory stays `f`. -/
def eval (f : ν → υ) : Reads ν υ β → β
  | .ret b => b
  | .load n k => (k (f n)).eval f

/-- The cells the program loads when the memory stays `f`. -/
def cells (f : ν → υ) : Reads ν υ β → List ν
  | .ret _ => []
  | .load n k => n :: (k (f n)).cells f

/-- What a program that has come to its end returns. -/
def result : Reads ν υ β → Option β
  | .ret b => some b
  | .load _ _ => none

variable {f g : ν → υ}

@[simp] theorem eval_bind (p : Reads ν υ β) (q : β → Reads ν υ γ) :
    (p.bind q).eval f = (q (p.eval f)).eval f := by
  induction p with
  | ret b => rfl
  | load n k ih => exact ih (f n)

@[simp] theorem cells_bind (p : Reads ν υ β) (q : β → Reads ν υ γ) :
    (p.bind q).cells f = p.cells f ++ (q (p.eval f)).cells f := by
  induction p with
  | ret b => rfl
  | load n k ih => exact congrArg (n :: ·) (ih (f n))

@[simp] theorem eval_all (ps : List (Reads ν υ β)) : (all ps).eval f = ps.map (eval f) := by
  induction ps with
  | nil => rfl
  | cons p ps ih => simp [all, eval, ih]

@[simp] theorem cells_all (ps : List (Reads ν υ β)) : (all ps).cells f = ps.flatMap (cells f) := by
  induction ps with
  | nil => rfl
  | cons p ps ih => simp [all, cells, ih]

/-- The result depends on the cells loaded alone. -/
theorem eval_congr {p : Reads ν υ β} (h : ∀ n ∈ p.cells f, f n = g n) : p.eval f = p.eval g := by
  induction p with
  | ret b => rfl
  | load n k ih =>
      rw [eval, eval, ← h n (List.mem_cons_self ..)]
      exact ih (f n) fun n' hn' => h n' (List.mem_cons_of_mem _ hn')

/-! ### Loads between the steps of a system -/

section Interleaved

variable {σ α : Type*} (step : σ → α → Option σ) (view : σ → ν → υ)

/-- A load of the program (`none`), or a step of the system. -/
def interleave (x : σ × Reads ν υ β) : Option α → Option (σ × Reads ν υ β)
  | none =>
      match x.2 with
      | .ret _ => none
      | .load n k => some (x.1, k (view x.1 n))
  | some a => (step x.1 a).map fun s => (s, x.2)

variable (guard : σ × Reads ν υ β → Option α → Prop) [∀ x a, Decidable (guard x a)]

/-- The state after a schedule. -/
abbrev after (x : σ × Reads ν υ β) (as : List (Option α)) : Option (σ × Reads ν υ β) :=
  exec (interleave step view) guard x as

/-- How many loads a schedule makes. -/
def loads (as : List (Option α)) : ℕ := as.countP Option.isNone

/-- At every cell `f` is what its load has found, in the course of the schedule. -/
def Loaded (x : σ × Reads ν υ β) (as : List (Option α)) (f : ν → υ) : Prop :=
  ∀ bs s n k, bs ++ [none] <+: as → after step view guard x bs = some (s, .load n k) →
    f n = view s n

/-- The step of the system that follows the first steps `bs` of the schedule changes the
cell `n`. -/
def Changes (x : σ × Reads ν υ β) (as bs : List (Option α)) (n : ν) : Prop :=
  ∃ a s p s', bs ++ [some a] <+: as ∧ after step view guard x bs = some (s, p) ∧
    step s a = some s' ∧ view s' n ≠ view s n

/-- Changes of cells not loaded yet come before changes of cells already loaded, where
`L` are the cells in the order of the loads. -/
def UnreadFirst (x : σ × Reads ν υ β) (L : List ν) (as : List (Option α)) : Prop :=
  ∀ bs cs n n', Changes step view guard x as bs n → n ∈ L.take (loads bs) →
    Changes step view guard x as cs n' → n' ∈ L.drop (loads cs) → cs.length < bs.length

variable {step view guard} {x : σ × Reads ν υ β} {L : List ν} {as bs : List (Option α)}
  {s s' : σ} {p p' : Reads ν υ β}

@[simp] theorem loads_append (as bs : List (Option α)) :
    loads (as ++ bs) = loads as + loads bs := List.countP_append

/-- The last step of a schedule is a load or a step of the system. -/
theorem after_concat {a : Option α} (h : after step view guard x (as ++ [a]) = some (s', p')) :
    ∃ s p, after step view guard x as = some (s, p) ∧
      ((a = none ∧ s' = s ∧ ∃ n k, p = .load n k ∧ p' = k (view s n)) ∨
        ∃ b, a = some b ∧ step s b = some s' ∧ p' = p) := by
  obtain ⟨⟨s, p⟩, hafter, -, hstep⟩ := exec_concat.1 h
  refine ⟨s, p, hafter, ?_⟩
  cases a with
  | none =>
      cases p with
      | ret b => cases hstep
      | load n k =>
          cases hstep
          exact .inl ⟨rfl, rfl, n, k, rfl, rfl⟩
  | some b =>
      obtain ⟨s₁, hs₁, heq⟩ := Option.map_eq_some_iff.1 hstep
      cases heq
      exact .inr ⟨b, rfl, hs₁, rfl⟩

theorem Loaded.of_prefix {f : ν → υ} (h : Loaded step view guard x as f) (hbs : bs <+: as) :
    Loaded step view guard x bs f :=
  fun cs s n k hcs => h cs s n k (hcs.trans hbs)

theorem Changes.mono {cs : List (Option α)} {n : ν} (h : Changes step view guard x bs cs n)
    (hbs : bs <+: as) : Changes step view guard x as cs n := by
  obtain ⟨a, s, p, s', hcs, h⟩ := h
  exact ⟨a, s, p, s', hcs.trans hbs, h⟩

theorem UnreadFirst.of_prefix (h : UnreadFirst step view guard x L as) (hbs : bs <+: as) :
    UnreadFirst step view guard x L bs :=
  fun cs ds n n' hc hn hd hn' => h cs ds n n' (hc.mono hbs) hn (hd.mono hbs) hn'

/-- What one more load takes from the cells to be loaded. -/
theorem take_drop_of_getElem? {k : ℕ} {n : ν} (h : L[k]? = some n) :
    L.take (k + 1) = L.take k ++ [n] ∧ L.drop k = n :: L.drop (k + 1) := by
  obtain ⟨hk, rfl⟩ := List.getElem?_eq_some_iff.1 h
  exact ⟨(List.take_append_getElem hk).symm, List.drop_eq_getElem_cons hk⟩

/-- **The program goes on as in a memory that holds what was loaded.** -/
theorem eval_of_loaded {f : ν → υ} (hf : Loaded step view guard x as f)
    (h : after step view guard x as = some (s, p)) :
    p.eval f = x.2.eval f ∧ p.cells f = (x.2.cells f).drop (loads as) := by
  induction as using List.reverseRecOn generalizing s p with
  | nil =>
      cases h
      exact ⟨rfl, rfl⟩
  | append_singleton as a ih =>
      obtain ⟨s₁, p₁, h₁, hlast⟩ := after_concat h
      obtain ⟨heval, hcells⟩ := ih (hf.of_prefix (List.prefix_append as [a])) h₁
      rcases hlast with ⟨rfl, rfl, n, k, rfl, rfl⟩ | ⟨b, rfl, -, rfl⟩
      · rw [← hf as s n k List.prefix_rfl h₁]
        refine ⟨heval, ?_⟩
        rw [loads_append, ← List.drop_drop, ← hcells]
        rfl
      · refine ⟨heval, hcells.trans ?_⟩
        rw [loads_append]
        rfl

/-- A program that has returned has loaded all its cells. -/
theorem take_loads {f : ν → υ} {b : β} (hcells : x.2.cells f = L)
    (hf : Loaded step view guard x as f) (h : after step view guard x as = some (s, .ret b)) :
    L.take (loads as) = L := by
  have hrest := (eval_of_loaded hf h).2
  rw [hcells] at hrest
  exact List.take_of_length_le (List.drop_eq_nil_iff.1 hrest.symm)

/-- A load that is made is the next cell in the order of the loads. -/
theorem getElem?_of_load {f : ν → υ} {n : ν} {k : υ → Reads ν υ β}
    (hf : Loaded step view guard x as f)
    (h : after step view guard x as = some (s, .load n k)) :
    (x.2.cells f)[loads as]? = some n := by
  have hcells := (eval_of_loaded hf h).2
  rw [← List.head?_drop, ← hcells]
  rfl

/-- **Every load finds some value**, and none is made twice. -/
theorem exists_loaded (hcells : ∀ f, x.2.cells f = L) (hnd : L.Nodup)
    (h : after step view guard x as = some (s, p)) : ∃ f, Loaded step view guard x as f := by
  classical
  induction as using List.reverseRecOn generalizing s p with
  | nil =>
      refine ⟨view x.1, fun bs s n k hbs _ => ?_⟩
      have := hbs.length_le
      simp at this
  | append_singleton as a ih =>
      obtain ⟨s₁, p₁, h₁, hlast⟩ := after_concat h
      obtain ⟨f, hf⟩ := ih h₁
      rcases hlast with ⟨rfl, rfl, n, k, rfl, rfl⟩ | ⟨b, rfl, -, rfl⟩
      · have hnext := getElem?_of_load hf h₁
        rw [hcells f] at hnext
        refine ⟨Function.update f n (view s n), fun bs s₂ m k₂ hbs h₂ => ?_⟩
        rcases List.prefix_concat_iff.1 hbs with heq | hbs
        · obtain ⟨rfl, -⟩ := List.append_inj' heq rfl
          obtain ⟨rfl, heq⟩ := Prod.ext_iff.1 (Option.some.inj (h₁.symm.trans h₂))
          cases heq
          exact Function.update_self ..
        · -- an earlier load was of another cell
          have hearlier := getElem?_of_load
            (hf.of_prefix ((List.prefix_append bs [none]).trans hbs)) h₂
          rw [hcells f] at hearlier
          have hlt : loads bs < loads as := by
            obtain ⟨cs, rfl⟩ := hbs
            rw [loads_append, loads_append, show loads [(none : Option α)] = 1 from rfl]
            omega
          have hne : m ≠ n := by
            rintro rfl
            have hlen := (List.getElem?_eq_some_iff.1 hearlier).1
            have := (List.getElem?_inj hlen hnd).1 (hearlier.trans hnext.symm)
            omega
          rw [Function.update_of_ne hne]
          exact hf bs s₂ m k₂ hbs h₂
      · refine ⟨f, fun bs s₂ m k₂ hbs h₂ => ?_⟩
        rcases List.prefix_concat_iff.1 hbs with heq | hbs
        · simpa using (List.append_inj' heq rfl).2
        · exact hf bs s₂ m k₂ hbs h₂

/-- Every cell in the order of the loads is loaded, once the program has returned. -/
theorem exists_load (hcells : ∀ f, x.2.cells f = L) (hnd : L.Nodup)
    (h : after step view guard x as = some (s, p)) {n : ν} (hn : n ∈ L.take (loads as)) :
    ∃ bs s₁ k, bs ++ [none] <+: as ∧ after step view guard x bs = some (s₁, .load n k) := by
  induction as using List.reverseRecOn generalizing s p with
  | nil => simp [loads] at hn
  | append_singleton as a ih =>
      obtain ⟨s₁, p₁, h₁, hlast⟩ := after_concat h
      have hold (hn : n ∈ L.take (loads as)) : ∃ bs s₁ k, bs ++ [none] <+: as ++ [a] ∧
          after step view guard x bs = some (s₁, .load n k) := by
        obtain ⟨bs, s₂, k, hbs, h₂⟩ := ih h₁ hn
        exact ⟨bs, s₂, k, hbs.trans (List.prefix_append as [a]), h₂⟩
      rcases hlast with ⟨rfl, rfl, m, k, rfl, rfl⟩ | ⟨b, rfl, -, rfl⟩
      · obtain ⟨f, hf⟩ := exists_loaded hcells hnd h₁
        have hnext := getElem?_of_load hf h₁
        rw [hcells f] at hnext
        rw [loads_append, show loads [(none : Option α)] = 1 from rfl,
          (take_drop_of_getElem? hnext).1, List.mem_append, List.mem_singleton] at hn
        rcases hn with hn | rfl
        · exact hold hn
        · exact ⟨as, s, k, List.prefix_rfl, h₁⟩
      · rw [loads_append, show loads [some b] = 0 from rfl] at hn
        exact hold hn

/-- **The cells loaded so far, all at one instant.**  Either they have not changed since,
or what is still to be loaded has not changed since the instant at which they had the
values that were loaded. -/
theorem exists_instant {f : ν → υ} (hcells : x.2.cells f = L)
    (hf : Loaded step view guard x as f)
    (hfirst : UnreadFirst step view guard x L as)
    (h : after step view guard x as = some (s, p)) :
    ∃ bs s₁ p₁, bs <+: as ∧ after step view guard x bs = some (s₁, p₁) ∧
      (∀ n ∈ L.take (loads as), f n = view s₁ n) ∧
      (bs = as ∨ (∃ n ∈ L.take (loads bs), Changes step view guard x as bs n) ∧
        ∀ n ∈ L.drop (loads as), view s n = view s₁ n) := by
  induction as using List.reverseRecOn generalizing s p with
  | nil => exact ⟨[], s, p, List.prefix_rfl, h, by simp [loads], .inl rfl⟩
  | append_singleton as a ih =>
      have hpre := List.prefix_append as [a]
      obtain ⟨s₁, p₁, h₁, hlast⟩ := after_concat h
      obtain ⟨bs, sτ, pτ, hbs, hτ, htaken, hstate⟩ :=
        ih (hf.of_prefix hpre) (hfirst.of_prefix hpre) h₁
      rcases hlast with ⟨rfl, rfl, n, k, rfl, rfl⟩ | ⟨b, rfl, hstep, rfl⟩
      · -- a load: the cell has not changed since the instant, or the instant is now
        have hnow : f n = view s n := hf as s n k List.prefix_rfl h₁
        have hnext := getElem?_of_load (hf.of_prefix hpre) h₁
        rw [hcells] at hnext
        obtain ⟨htake, hdrop⟩ := take_drop_of_getElem? hnext
        rw [loads_append, show loads [(none : Option α)] = 1 from rfl, htake]
        rw [hdrop] at hstate
        rcases hstate with rfl | ⟨hdirty, hrest⟩
        · obtain ⟨rfl, -⟩ := Prod.ext_iff.1 (Option.some.inj (h₁.symm.trans hτ))
          refine ⟨_, _, _, List.prefix_rfl, h, ?_, .inl rfl⟩
          simpa [or_imp, forall_and, hnow] using htaken
        · refine ⟨bs, sτ, pτ, hbs.trans hpre, hτ, ?_, .inr ⟨?_, fun m hm => ?_⟩⟩
          · have := hrest n (List.mem_cons_self ..)
            simpa [or_imp, forall_and, hnow, this] using htaken
          · exact hdirty.imp fun m hm => ⟨hm.1, hm.2.mono hpre⟩
          · exact hrest m (List.mem_cons_of_mem _ hm)
      · -- a step of the system: the first that changes a loaded cell fixes the instant
        have hchanges {m : ν} (hm : view s m ≠ view s₁ m) :
            Changes step view guard x (as ++ [some b]) as m :=
          ⟨b, s₁, p, s, List.prefix_rfl, h₁, hstep, hm⟩
        rw [loads_append, show loads [some b] = 0 from rfl, Nat.add_zero]
        rcases hstate with rfl | ⟨⟨n, hn, hdirty⟩, hrest⟩
        · obtain ⟨rfl, -⟩ := Prod.ext_iff.1 (Option.some.inj (h₁.symm.trans hτ))
          by_cases hfix : ∃ n ∈ L.take (loads bs), view s n ≠ view s₁ n
          · obtain ⟨n, hn, hne⟩ := hfix
            refine ⟨bs, s₁, p, hpre, h₁, htaken, .inr ⟨⟨n, hn, hchanges hne⟩, fun m hm => ?_⟩⟩
            by_contra hm'
            exact absurd (hfirst bs bs n m (hchanges hne) hn (hchanges hm') hm) (Nat.lt_irrefl _)
          · refine ⟨_, _, _, List.prefix_rfl, h, fun n hn => ?_, .inl rfl⟩
            rw [htaken n hn]
            by_contra hne
            exact hfix ⟨n, hn, Ne.symm hne⟩
        · refine ⟨bs, sτ, pτ, hbs.trans hpre, hτ, htaken,
            .inr ⟨⟨n, hn, hdirty.mono hpre⟩, fun m hm => ?_⟩⟩
          rw [← hrest m hm]
          by_contra hm'
          have hlt := hfirst bs as n m (hdirty.mono hpre) hn (hchanges hm') hm
          have hle := hbs.length_le
          omega

/-- **When all loads show one instant.** -/
theorem single_instant {f : ν → υ} {b : β} (hcells : x.2.cells f = L)
    (hf : Loaded step view guard x as f) (hfirst : UnreadFirst step view guard x L as)
    (h : after step view guard x as = some (s, .ret b)) :
    ∃ bs s₁ p₁, bs <+: as ∧ after step view guard x bs = some (s₁, p₁) ∧
      (∀ n ∈ L, f n = view s₁ n) ∧ b = x.2.eval (view s₁) := by
  obtain ⟨bs, s₁, p₁, hbs, h₁, htaken, -⟩ := exists_instant hcells hf hfirst h
  rw [take_loads hcells hf h] at htaken
  refine ⟨bs, s₁, p₁, hbs, h₁, htaken, (eval_of_loaded hf h).1.trans (eval_congr fun n hn => ?_)⟩
  exact htaken n (hcells ▸ hn)

/-! ### Memories that only grow -/

/-- The system makes a run of its own between the loads. -/
theorem reaches_of_after {guard' : σ → α → Prop}
    (hguard : ∀ s p a, guard (s, p) (some a) → guard' s a)
    (h : after step view guard x as = some (s, p)) : Reaches step guard' x.1 s := by
  refine (reaches_of_exec h).invariant (P := fun y => Reaches step guard' x.1 y.1) .refl ?_
  rintro ⟨s₁, p₁⟩ a ⟨s₂, p₂⟩ - hr ha hs
  cases a with
  | none =>
      cases p₁ with
      | ret b => cases hs
      | load n k =>
          cases hs
          exact hr
  | some b =>
      obtain ⟨s₃, hs₃, heq⟩ := Option.map_eq_some_iff.1 hs
      cases heq
      exact hr.tail (hguard _ _ _ ha) hs₃

/-- Of two moments of a schedule, the one with fewer loads made comes first. -/
theorem prefix_of_loads_lt {cs : List (Option α)} (hbs : bs <+: as) (hcs : cs <+: as)
    (hlt : loads bs < loads cs) : bs <+: cs := by
  rcases List.prefix_or_prefix_of_prefix hbs hcs with h | ⟨ds, rfl⟩
  · exact h
  · rw [loads_append] at hlt
    omega

/-- What the system does between two moments of a schedule. -/
theorem reaches_of_prefix {guard' : σ → α → Prop}
    (hguard : ∀ s p a, guard (s, p) (some a) → guard' s a) (hbs : bs <+: as)
    (h' : after step view guard x bs = some (s', p'))
    (h : after step view guard x as = some (s, p)) : Reaches step guard' s' s := by
  obtain ⟨cs, rfl⟩ := hbs
  obtain ⟨y, hy, hrest⟩ := Option.bind_eq_some_iff.1 ((exec_append _ _ _).symm.trans h)
  cases h'.symm.trans hy
  exact reaches_of_after hguard hrest

/-- **A memory that only grows** is no smaller later. -/
theorem view_le [Preorder υ]
    (hmono : ∀ s a s', step s a = some s' → ∀ n, view s n ≤ view s' n) (hbs : bs <+: as)
    (h' : after step view guard x bs = some (s', p'))
    (h : after step view guard x as = some (s, p)) (n : ν) : view s' n ≤ view s n := by
  have hrun : Reaches step (fun _ _ => True) s' s :=
    reaches_of_prefix (fun _ _ _ _ => trivial) hbs h' h
  refine hrun.invariant (P := fun s₁ => view s' n ≤ view s₁ n) le_rfl ?_
  exact fun s₁ a s₂ _ hle _ hs => hle.trans (hmono s₁ a s₂ hs n)

/-! ### Checking a schedule -/

variable [DecidableEq υ]

/-- Whether a step of the schedule changes a cell. -/
def changedAt (step : σ → α → Option σ) (view : σ → ν → υ)
    (guard : σ × Reads ν υ β → Option α → Prop) [∀ x a, Decidable (guard x a)]
    (x : σ × Reads ν υ β) (as : List (Option α)) (i : ℕ) (n : ν) : Bool :=
  (after step view guard x (as.take i)).any fun y =>
    (after step view guard x (as.take (i + 1))).any fun y' => view y'.1 n ≠ view y.1 n

theorem Changes.changedAt {n : ν} (hc : Changes step view guard x as bs n)
    (h : after step view guard x as = some (s, p)) :
    bs.length < as.length ∧ bs = as.take bs.length ∧
      changedAt step view guard x as bs.length n = true := by
  obtain ⟨a, s₁, p₁, s₂, ⟨cs, rfl⟩, h₁, hstep, hne⟩ := hc
  have htake : (bs ++ [some a] ++ cs).take bs.length = bs := by simp
  have htake' : (bs ++ [some a] ++ cs).take (bs.length + 1) = bs ++ [some a] :=
    List.take_left' (by simp)
  refine ⟨by simp, htake.symm, ?_⟩
  obtain ⟨y, hy, -⟩ := Option.bind_eq_some_iff.1 ((exec_append _ _ _).symm.trans h)
  obtain ⟨⟨s₃, p₃⟩, h₃, -, hlast⟩ := exec_concat.1 hy
  cases h₁.symm.trans h₃
  have hlast' : interleave step view (s₁, p₁) (some a) = some (s₂, p₁) := by
    rw [interleave, hstep]
    rfl
  cases hlast.symm.trans hlast'
  change after step view guard x (bs ++ [some a]) = some (s₂, p₁) at hy
  rw [Reads.changedAt, htake, htake', h₁, hy]
  simpa using hne

/-- A finite check of `UnreadFirst`. -/
theorem unreadFirst_of_check (h : after step view guard x as = some (s, p))
    (hcheck : ∀ i < as.length, ∀ n ∈ L.take (loads (as.take i)),
      changedAt step view guard x as i n = true →
        ∀ j < as.length, ∀ n' ∈ L.drop (loads (as.take j)),
          changedAt step view guard x as j n' = true → j < i) :
    UnreadFirst step view guard x L as := by
  intro bs cs n n' hc hn hc' hn'
  obtain ⟨hlt, heq, hchanged⟩ := hc.changedAt h
  obtain ⟨hlt', heq', hchanged'⟩ := hc'.changedAt h
  rw [heq] at hn
  rw [heq'] at hn'
  exact hcheck _ hlt n hn hchanged _ hlt' n' hn' hchanged'

omit [DecidableEq υ] in
/-- A schedule at whose end the program has returned. -/
theorem exists_of_result {b : β}
    (h : ((after step view guard x as).bind fun y => y.2.result) = some b) :
    ∃ s, after step view guard x as = some (s, .ret b) := by
  obtain ⟨⟨s, p⟩, hafter, hresult⟩ := Option.bind_eq_some_iff.1 h
  cases p with
  | ret b' =>
      cases hresult
      exact ⟨s, hafter⟩
  | load n k => cases hresult

end Interleaved

end Reads

end Lib
end PaymentGateway
