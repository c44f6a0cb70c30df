/-
# Exclusive ownership in a hierarchy

The elements of a `Hierarchy` are ordered by a strict `above` in which everything
above one element is comparable, as the proper ancestors of a node of a forest are.
An owner map says who owns which element.  Three requests change it: `lock` takes an
element that nobody owns, nor anything above or below it; `unlock` gives an element
up; `upgrade` trades everything one user owns below an element for the element
itself.

A request looks only at elements related to its target (`Grants.congr`) and writes
only its target and what is below it (`effect_apply`).  So requests
on unrelated targets commute (`perform_comm`).  An upgrade is the same as unlocking
everything below one by one, in any order, and then locking the target
(`respond_unlocks_lock`).  No request makes anybody own an element above an owned
one (`Exclusive.perform`).  That is the only limit: any owners can be replaced by any
others among whom no owned element is above another, and no request on the way is refused
(`respond_exchange`).
-/

import Mathlib.Logic.Function.Basic

namespace PaymentGateway
namespace Lib

/-- A strict order in which the elements above one element are comparable. -/
structure Hierarchy (ν : Type*) where
  above : ν → ν → Prop
  irrefl : ∀ n, ¬above n n
  trans : ∀ {a b c}, above a b → above b c → above a c
  comparable : ∀ {a b n}, above a n → above b n → a = b ∨ above a b ∨ above b a

/-- Who owns which element. -/
abbrev Owners (ν υ : Type*) := ν → Option υ

/-- A request of the user `u` about the element `n`. -/
inductive Request (ν υ : Type*)
  | lock (n : ν) (u : υ)
  | unlock (n : ν) (u : υ)
  | upgrade (n : ν) (u : υ)

namespace Request

variable {ν υ : Type*}

def target : Request ν υ → ν
  | lock n _ => n
  | unlock n _ => n
  | upgrade n _ => n

end Request

namespace Hierarchy

variable {ν υ : Type*} (H : Hierarchy ν)

/-- One of the elements is above the other. -/
def Related (a b : ν) : Prop := H.above a b ∨ H.above b a

/-- When a request is granted. -/
def Grants (o : Owners ν υ) : Request ν υ → Prop
  | .lock n _ => o n = none ∧ (∀ a, H.above a n → o a = none) ∧ ∀ d, H.above n d → o d = none
  | .unlock n u => o n = some u
  | .upgrade n u => o n = none ∧ (∀ a, H.above a n → o a = none) ∧
      (∃ d, H.above n d ∧ o d ≠ none) ∧ ∀ d, H.above n d → ∀ v, o d = some v → v = u

/-- No owned element is above another. -/
def Exclusive (o : Owners ν υ) : Prop := ∀ a n, H.above a n → o a ≠ none → o n = none

open Classical in
/-- What a granted request changes: the new owners of the elements it writes. -/
noncomputable def effect (o : Owners ν υ) : Request ν υ → Owners ν υ
  | .lock n u => Function.update o n (some u)
  | .unlock n _ => Function.update o n none
  | .upgrade n u => Function.update (fun x => if H.above n x then none else o x) n (some u)

open Classical in
/-- A request changes the owners when it is granted, and nothing otherwise. -/
noncomputable def perform (o : Owners ν υ) (r : Request ν υ) : Owners ν υ × Bool :=
  if H.Grants o r then (H.effect o r, true) else (o, false)

/-- Several requests, one after the other, and what each of them is answered. -/
noncomputable def respond (o : Owners ν υ) : List (Request ν υ) → Owners ν υ × List Bool
  | [] => (o, [])
  | r :: rs =>
      let next := respond (H.perform o r).1 rs
      (next.1, (H.perform o r).2 :: next.2)

variable {H} {o o' : Owners ν υ} {r r' : Request ν υ} {a b n : ν} {u : υ}

theorem perform_of_grants (h : H.Grants o r) : H.perform o r = (H.effect o r, true) := if_pos h

theorem perform_of_not_grants (h : ¬H.Grants o r) : H.perform o r = (o, false) := if_neg h

/-- The answer to a request. -/
theorem perform_snd : (H.perform o r).2 = true ↔ H.Grants o r := by
  by_cases hg : H.Grants o r
  · simp [perform_of_grants hg, hg]
  · simp [perform_of_not_grants hg, hg]

section Effects

variable [DecidableEq ν]

theorem effect_lock (o : Owners ν υ) (n : ν) (u : υ) :
    H.effect o (.lock n u) = Function.update o n (some u) := by
  funext x
  by_cases hx : x = n <;> simp [effect, hx]

theorem effect_unlock (o : Owners ν υ) (n : ν) (u : υ) :
    H.effect o (.unlock n u) = Function.update o n none := by
  funext x
  by_cases hx : x = n <;> simp [effect, hx]

theorem effect_upgrade [DecidableRel H.above] (o : Owners ν υ) (n : ν) (u : υ) :
    H.effect o (.upgrade n u) =
      Function.update (fun x => if H.above n x then none else o x) n (some u) := by
  funext x
  by_cases hx : x = n <;> simp [effect, hx]

end Effects

/-! ### Exclusion -/

/-- **No request leaves an owned element above another.** -/
theorem Exclusive.perform (h : H.Exclusive o) (r : Request ν υ) :
    H.Exclusive (H.perform o r).1 := by
  classical
  by_cases hg : H.Grants o r
  · rw [perform_of_grants hg]
    intro a n han ha
    have hne : a ≠ n := fun h => H.irrefl n (h ▸ han)
    cases r with
    | lock m u =>
        obtain ⟨-, habove, hbelow⟩ := hg
        by_cases ham : a = m
        · subst ham
          simpa [effect, hne.symm] using hbelow n han
        · have ha : o a ≠ none := by simpa [effect, ham] using ha
          by_cases hnm : n = m
          · exact absurd (habove a (hnm ▸ han)) ha
          · simpa [effect, hnm] using h a n han ha
    | unlock m u =>
        by_cases hnm : n = m
        · simp [effect, hnm]
        · have ha : o a ≠ none := fun ho => ha <| by
            by_cases ham : a = m <;> simp [effect, ham, ho]
          simpa [effect, hnm] using h a n han ha
    | upgrade m u =>
        obtain ⟨-, habove, -, -⟩ := hg
        by_cases ham : a = m
        · subst ham
          simp [effect, hne.symm, han]
        · have hma : ¬H.above m a := fun hma => ha (by simp [effect, ham, hma])
          have ha : o a ≠ none := by simpa [effect, ham, hma] using ha
          by_cases hnm : n = m
          · exact absurd (habove a (hnm ▸ han)) ha
          · by_cases hmn : H.above m n
            · simp [effect, hnm, hmn]
            · simpa [effect, hnm, hmn] using h a n han ha
  · rw [perform_of_not_grants hg]
    exact h

/-! ### Requests on unrelated targets -/

/-- What a request looks at: its target and everything related to it. -/
theorem Grants.congr (h : ∀ x, x = r.target ∨ H.Related x r.target → o x = o' x) :
    H.Grants o r ↔ H.Grants o' r := by
  have hself := h r.target (.inl rfl)
  have hup {x : ν} (hx : H.above x r.target) : o x = o' x := h x (.inr (.inl hx))
  have hdown {x : ν} (hx : H.above r.target x) : o x = o' x := h x (.inr (.inr hx))
  cases r with
  | lock n u =>
      refine and_congr (iff_of_eq (congrArg (· = none) hself)) (and_congr ?_ ?_)
      · exact forall₂_congr fun a ha => by rw [hup ha]
      · exact forall₂_congr fun d hd => by rw [hdown hd]
  | unlock n u => exact iff_of_eq (congrArg (· = some u) hself)
  | upgrade n u =>
      refine and_congr (iff_of_eq (congrArg (· = none) hself)) (and_congr ?_ (and_congr ?_ ?_))
      · exact forall₂_congr fun a ha => by rw [hup ha]
      · exact exists_congr fun d => and_congr_right fun hd => by rw [hdown hd]
      · exact forall₂_congr fun d hd => by rw [hdown hd]

/-- A request writes its target and what is below it, without reading the rest. -/
theorem effect_apply (r : Request ν υ) (x : ν) :
    (∀ o : Owners ν υ, H.effect o r x = o x) ∨
      ((x = r.target ∨ H.above r.target x) ∧ ∃ v, ∀ o : Owners ν υ, H.effect o r x = v) := by
  classical
  cases r with
  | lock n u =>
      by_cases hx : x = n
      · exact .inr ⟨.inl hx, some u, fun o => by simp [effect, hx]⟩
      · exact .inl fun o => by simp [effect, hx]
  | unlock n u =>
      by_cases hx : x = n
      · exact .inr ⟨.inl hx, none, fun o => by simp [effect, hx]⟩
      · exact .inl fun o => by simp [effect, hx]
  | upgrade n u =>
      by_cases hx : x = n
      · exact .inr ⟨.inl hx, some u, fun o => by simp [effect, hx]⟩
      · by_cases hnx : H.above n x
        · exact .inr ⟨.inr hnx, none, fun o => by simp [effect, hx, hnx]⟩
        · exact .inl fun o => by simp [effect, hx, hnx]

/-- An element that is related to `a`, or `a` itself, is not below an unrelated `b`. -/
theorem not_below_of_unrelated (hab : a ≠ b) (hrel : ¬H.Related a b) {x : ν}
    (hx : x = a ∨ H.Related x a) : ¬(x = b ∨ H.above b x) := by
  rintro (rfl | hbx)
  · rcases hx with rfl | hx | hx
    · exact hab rfl
    · exact hrel (.inr hx)
    · exact hrel (.inl hx)
  · rcases hx with rfl | hx | hx
    · exact hrel (.inr hbx)
    · exact hrel (.inr (H.trans hbx hx))
    · rcases H.comparable hx hbx with h | h | h
      · exact hab h
      · exact hrel (.inl h)
      · exact hrel (.inr h)

/-- A request does not change what a request on an unrelated target looks at. -/
theorem grants_after (hne : r.target ≠ r'.target) (hrel : ¬H.Related r.target r'.target) :
    H.Grants (H.perform o r').1 r ↔ H.Grants o r := by
  by_cases hg : H.Grants o r'
  · rw [perform_of_grants hg]
    refine Grants.congr fun x hx => ?_
    rcases effect_apply r' x with h | ⟨h, -⟩
    · exact h o
    · exact absurd h (not_below_of_unrelated hne hrel hx)
  · rw [perform_of_not_grants hg]

/-- Effects on unrelated targets commute. -/
theorem effect_comm (hne : r.target ≠ r'.target) (hrel : ¬H.Related r.target r'.target) :
    H.effect (H.effect o r) r' = H.effect (H.effect o r') r := by
  funext x
  rcases effect_apply (H := H) r x with h | ⟨hx, v, h⟩
  · rcases effect_apply (H := H) r' x with h' | ⟨-, v', h'⟩
    · rw [h', h, h, h']
    · rw [h', h, h']
  · rcases effect_apply (H := H) r' x with h' | ⟨hx', -⟩
    · rw [h', h, h]
    · refine absurd hx' (not_below_of_unrelated hne hrel ?_)
      exact hx.imp id .inr

/-- **Requests on unrelated targets commute**: each is answered the same in either
order, and both orders leave the same owners. -/
theorem perform_comm (hne : r.target ≠ r'.target) (hrel : ¬H.Related r.target r'.target) :
    (H.perform (H.perform o r').1 r).2 = (H.perform o r).2 ∧
      (H.perform (H.perform o r).1 r').2 = (H.perform o r').2 ∧
      (H.perform (H.perform o r).1 r').1 = (H.perform (H.perform o r').1 r).1 := by
  have hr := grants_after (o := o) hne hrel
  have hr' := grants_after (o := o) hne.symm fun h => hrel h.symm
  refine ⟨?_, ?_, ?_⟩
  · rw [Bool.eq_iff_iff, perform_snd, perform_snd, hr]
  · rw [Bool.eq_iff_iff, perform_snd, perform_snd, hr']
  · by_cases hg : H.Grants o r <;> by_cases hg' : H.Grants o r'
    · rw [perform_of_grants (hr'.2 hg'), perform_of_grants (hr.2 hg), perform_of_grants hg,
        perform_of_grants hg', effect_comm hne hrel]
    · rw [perform_of_not_grants (mt hr'.1 hg'), perform_of_not_grants hg']
    · rw [perform_of_not_grants (mt hr.1 hg), perform_of_not_grants hg]
    · rw [perform_of_not_grants hg, perform_of_not_grants hg', perform_of_not_grants hg]

/-! ### An upgrade in single steps -/

/-- Unlocking elements that the user owns, none of them twice, succeeds each time. -/
theorem respond_unlocks [DecidableEq ν] (ds : List ν) (hnd : ds.Nodup)
    (hown : ∀ d ∈ ds, o d = some u) (rs : List (Request ν υ)) :
    H.respond o (ds.map (.unlock · u) ++ rs) =
      let next := H.respond (fun x => if x ∈ ds then none else o x) rs
      (next.1, List.replicate ds.length true ++ next.2) := by
  induction ds generalizing o with
  | nil => simp
  | cons d ds ih =>
      obtain ⟨hd, hnd⟩ := List.nodup_cons.1 hnd
      have hg : H.Grants o (.unlock d u) := hown d (List.mem_cons_self ..)
      have hrest : ∀ e ∈ ds, H.effect o (.unlock d u) e = some u := fun e he => by
        have hne : e ≠ d := fun hed => hd (hed ▸ he)
        simpa [effect, hne] using hown e (List.mem_cons_of_mem _ he)
      have hcleared : (fun x => if x ∈ ds then none else H.effect o (.unlock d u) x) =
          fun x => if x ∈ d :: ds then none else o x := funext fun x => by
        by_cases hx : x = d <;> simp [effect, hx]
      rw [List.map_cons, List.cons_append, respond, perform_of_grants hg]
      dsimp only
      rw [ih hnd hrest, hcleared]
      rfl

/-- **An upgrade, one release at a time.**  Unlocking what is owned below the target,
in any order, and then locking the target succeeds each time and leaves the owners
an upgrade leaves. -/
theorem respond_unlocks_lock [DecidableEq ν] (hg : H.Grants o (.upgrade n u)) {ds : List ν}
    (hnd : ds.Nodup) (hds : ∀ d, d ∈ ds ↔ H.above n d ∧ o d ≠ none) :
    H.respond o (ds.map (.unlock · u) ++ [.lock n u]) =
      (H.effect o (.upgrade n u), List.replicate (ds.length + 1) true) := by
  classical
  obtain ⟨hn, habove, -, hown⟩ := hg
  have howned : ∀ d ∈ ds, o d = some u := fun d hd => by
    obtain ⟨hnd, ho⟩ := (hds d).1 hd
    obtain ⟨v, hv⟩ := Option.ne_none_iff_exists'.1 ho
    rw [hv, hown d hnd v hv]
  have hcleared : (fun x => if x ∈ ds then none else o x) =
      fun x => if H.above n x then none else o x := funext fun x => by
    by_cases hx : H.above n x <;> by_cases ho : o x = none <;> simp [hds, hx, ho]
  have hlock : H.Grants (fun x => if H.above n x then none else o x) (.lock n u) := by
    refine ⟨by simp [hn], fun a ha => by simp [habove a ha], fun d hd => if_pos hd⟩
  rw [respond_unlocks ds hnd howned, hcleared]
  simp only [respond, perform_of_grants hlock]
  exact Prod.ext rfl List.replicate_succ'.symm

/-! ### From one state to another -/

/-- Requests made one after the other. -/
theorem respond_append (o : Owners ν υ) (rs rs' : List (Request ν υ)) :
    H.respond o (rs ++ rs') =
      let first := H.respond o rs
      let second := H.respond first.1 rs'
      (second.1, first.2 ++ second.2) := by
  induction rs generalizing o with
  | nil => rfl
  | cons r rs ih => simp only [List.cons_append, respond, ih]

section Exchange

variable [DecidableEq ν] {v v' : ν → υ} {ds es : List ν}

/-- **Owners give up what they own**, in any order, and succeed each time. -/
theorem respond_releases (hnd : ds.Nodup) (hown : ∀ d ∈ ds, o d = some (v d)) :
    H.respond o (ds.map fun d => .unlock d (v d)) =
      (fun x => if x ∈ ds then none else o x, List.replicate ds.length true) := by
  induction ds generalizing o with
  | nil => simp [respond]
  | cons d ds ih =>
      obtain ⟨hd, hnd⟩ := List.nodup_cons.1 hnd
      have hg : H.Grants o (.unlock d (v d)) := hown d (List.mem_cons_self ..)
      have hrest : ∀ e ∈ ds, H.effect o (.unlock d (v d)) e = some (v e) := fun e he => by
        have hne : e ≠ d := fun hed => hd (hed ▸ he)
        simpa [effect, hne] using hown e (List.mem_cons_of_mem _ he)
      have hcleared : (fun x => if x ∈ ds then none else H.effect o (.unlock d (v d)) x) =
          fun x => if x ∈ d :: ds then none else o x := funext fun x => by
        by_cases hx : x = d <;> simp [effect, hx]
      rw [List.map_cons, respond, perform_of_grants hg]
      dsimp only
      rw [ih hnd hrest, hcleared]
      rfl

/-- **Unrelated free elements are taken**, in any order, when nothing related to them is
owned: none of them is in the way of another. -/
theorem respond_acquires (hnd : es.Nodup)
    (hfree : ∀ e ∈ es, o e = none ∧ ∀ x, H.Related x e → o x = none)
    (hunrelated : ∀ a ∈ es, ∀ b ∈ es, ¬H.above a b) :
    H.respond o (es.map fun e => .lock e (v e)) =
      (fun x => if x ∈ es then some (v x) else o x, List.replicate es.length true) := by
  induction es generalizing o with
  | nil => simp [respond]
  | cons e es ih =>
      obtain ⟨he, hnd⟩ := List.nodup_cons.1 hnd
      obtain ⟨hnone, hrelated⟩ := hfree e (List.mem_cons_self ..)
      have hg : H.Grants o (.lock e (v e)) :=
        ⟨hnone, fun a ha => hrelated a (.inl ha), fun d hd => hrelated d (.inr hd)⟩
      have hrest : ∀ b ∈ es, H.effect o (.lock e (v e)) b = none ∧
          ∀ x, H.Related x b → H.effect o (.lock e (v e)) x = none := by
        intro b hb
        have hne : b ≠ e := fun hbe => he (hbe ▸ hb)
        obtain ⟨hb₀, hb₁⟩ := hfree b (List.mem_cons_of_mem _ hb)
        refine ⟨by simpa [effect, hne] using hb₀, fun x hx => ?_⟩
        have hxe : x ≠ e := by
          rintro rfl
          rcases hx with hx | hx
          · exact hunrelated _ (List.mem_cons_self ..) b (List.mem_cons_of_mem _ hb) hx
          · exact hunrelated b (List.mem_cons_of_mem _ hb) _ (List.mem_cons_self ..) hx
        simpa [effect, hxe] using hb₁ x hx
      have htaken : (fun x => if x ∈ es then some (v x) else H.effect o (.lock e (v e)) x) =
          fun x => if x ∈ e :: es then some (v x) else o x := funext fun x => by
        by_cases hx : x = e
        · subst hx
          simp [effect]
        · simp [effect, hx]
      rw [List.map_cons, respond, perform_of_grants hg]
      dsimp only
      rw [ih hnd hrest fun a ha b hb => hunrelated a (List.mem_cons_of_mem _ ha) b
        (List.mem_cons_of_mem _ hb), htaken]
      rfl

/-- **Any exclusive owners can replace any others**: first everything owned is given up,
then everything is taken, both in any order, and all requests succeed. -/
theorem respond_exchange (hds : ds.Nodup) (hes : es.Nodup) (hexclusive : H.Exclusive o')
    (hd : ∀ d, d ∈ ds ↔ o d ≠ none) (hv : ∀ d ∈ ds, o d = some (v d))
    (he : ∀ e, e ∈ es ↔ o' e ≠ none) (hv' : ∀ e ∈ es, o' e = some (v' e)) :
    H.respond o (ds.map (fun d => .unlock d (v d)) ++ es.map fun e => .lock e (v' e)) =
      (o', List.replicate (ds.length + es.length) true) := by
  have hcleared : (fun x => if x ∈ ds then none else o x) = fun _ => none := funext fun x => by
    by_cases hx : o x = none
    · simp [hx]
    · exact if_pos ((hd x).2 hx)
  have htaken : (fun x => if x ∈ es then some (v' x) else none) = o' := funext fun x => by
    by_cases hx : x ∈ es
    · rw [if_pos hx, hv' x hx]
    · rw [if_neg hx]
      exact (not_not.1 (mt (he x).2 hx)).symm
  rw [respond_append, respond_releases hds hv, hcleared]
  dsimp only
  rw [respond_acquires hes (fun e _ => ⟨rfl, fun x _ => rfl⟩) fun a ha b hb hab =>
    (he b).1 hb (hexclusive a b hab ((he a).1 ha)), htaken]
  exact Prod.ext rfl (List.replicate_append_replicate ..)

end Exchange

end Hierarchy
end Lib
end PaymentGateway
