/-
# Numbers in JSON texts

A number ends where the next character is no part of it, so a reader does not take it
whatever follows (`Takes`), only before a comma or a closing bracket.  `Ends` is the
corresponding weakening of `Denotes`, with the same rules: what denotes a value also ends
(`Denotes.ends`), the decimal text of an integer does (`ends_int`), members pass it on
(`ends_member`), and an object whose members end denotes its value whatever follows
(`denotes_object_of_ends`), since it has a bracket of its own.
-/

import PaymentGateway.Lib.Json

namespace PaymentGateway
namespace Lib
namespace Json

/-- The characters that may follow a value inside another. -/
def Closes (c : Char) : Prop := c = ',' ∨ c = ']' ∨ c = '\x7d'

/-- The reader takes exactly this text, when the value ends after it. -/
def TakesClosed {α : Type} (p : Reader α) (text : List Char) (a : α) : Prop :=
  ∀ c rest, Closes c → p (text ++ c :: rest) = some (a, c :: rest)

/-- A reader of values at most `depth` deep takes the text and returns `a`, when the value
ends after it. -/
def Ends {α : Type} (item : ℕ → Reader α) (text : List Char) (a : α) : Prop :=
  ∀ depth, text.length ≤ depth → TakesClosed (item depth) text a

theorem Denotes.ends {α : Type} {item : ℕ → Reader α} {text : List Char} {a : α}
    (h : Denotes item text a) : Ends item text a :=
  fun depth hdepth c rest _ => h depth hdepth (c :: rest)

/-! ### Decimal texts -/

/-- No digits of a positive number start with zero. -/
theorem head_toDigits_ne_zero {n : ℕ} (hn : 0 < n) : (Nat.toDigits 10 n).head? ≠ some '0' := by
  induction n using Nat.strongRecOn with
  | ind n ih =>
      rw [Nat.toDigits_eq_if (by decide)]
      split
      · rename_i hsmall
        exact (by decide : ∀ n < 10, 0 < n → [n.digitChar].head? ≠ some '0') n hsmall hn
      · rename_i hlarge
        rw [List.head?_append_of_ne_nil _ Nat.toDigits_ne_nil]
        exact ih (n / 10) (by omega) (by omega)

/-- The digits of a number are read up to what closes it. -/
theorem digits_toDigits (n : ℕ) {c : Char} (hc : Closes c) (rest : List Char) :
    digits (Nat.toDigits 10 n ++ c :: rest) = some (Nat.toDigits 10 n, c :: rest) := by
  have hdigit : ∀ d ∈ Nat.toDigits 10 n, d.isDigit = true := fun d hd =>
    Nat.isDigit_of_mem_toDigits (by decide) (by decide) hd
  have hstop : c.isDigit = false := by rcases hc with rfl | rfl | rfl <;> decide
  have htake : (Nat.toDigits 10 n ++ c :: rest).takeWhile Char.isDigit = Nat.toDigits 10 n := by
    rw [List.takeWhile_append_of_pos hdigit, List.takeWhile_cons_of_neg (by simp [hstop]),
      List.append_nil]
  have hdrop : (Nat.toDigits 10 n ++ c :: rest).dropWhile Char.isDigit = c :: rest := by
    rw [List.dropWhile_append_of_pos hdigit, List.dropWhile_cons_of_neg (by simp [hstop])]
  rw [digits, htake, hdrop]
  split
  · rename_i hnil
    exact absurd hnil Nat.toDigits_ne_nil
  · rfl

theorem integer_toDigits (n : ℕ) {c : Char} (hc : Closes c) (rest : List Char) :
    integer (Nat.toDigits 10 n ++ c :: rest) = some (Nat.toDigits 10 n, c :: rest) := by
  rcases Nat.eq_zero_or_pos n with rfl | hn
  · rfl
  · have hhead : (Nat.toDigits 10 n ++ c :: rest).head? ≠ some '0' := by
      rw [List.head?_append_of_ne_nil _ Nat.toDigits_ne_nil]
      exact head_toDigits_ne_zero hn
    rw [← digits_toDigits n hc rest]
    unfold integer
    split
    · rename_i s heq
      rw [heq] at hhead
      exact absurd rfl hhead
    · rfl

/-- Neither a fraction nor an exponent follows. -/
theorem fraction_exponent_of_closes {c : Char} (hc : Closes c) (rest : List Char) :
    fraction (c :: rest) = some ([], c :: rest) ∧ exponent (c :: rest) = some ([], c :: rest) := by
  rcases hc with rfl | rfl | rfl <;> exact ⟨rfl, rfl⟩

/-- The text of a number starts with a digit. -/
theorem exists_toDigits_eq_cons (n : ℕ) :
    ∃ d ds, Nat.toDigits 10 n = d :: ds ∧ d.isDigit = true := by
  obtain ⟨d, ds, hds⟩ := List.exists_cons_of_ne_nil (Nat.toDigits_ne_nil (n := n) (b := 10))
  have hd : d ∈ Nat.toDigits 10 n := hds ▸ List.mem_cons_self ..
  exact ⟨d, ds, hds, Nat.isDigit_of_mem_toDigits (by decide) (by decide) hd⟩

theorem toString_int (z : ℤ) :
    (toString z).toList = (if z < 0 then ['-'] else []) ++ Nat.toDigits 10 z.natAbs := by
  cases z with
  | ofNat n => simp [toString, Int.repr]
  | negSucc n => simp [toString, Int.repr]

theorem sign_toString (z : ℤ) (rest : List Char) :
    sign ['-'] ((toString z).toList ++ rest) =
      (if z < 0 then ['-'] else [], Nat.toDigits 10 z.natAbs ++ rest) := by
  obtain ⟨d, ds, hds, hd⟩ := exists_toDigits_eq_cons z.natAbs
  have hminus : d ≠ '-' := by
    rintro rfl
    cases hd
  rw [toString_int, hds]
  split <;> simp [sign, hminus]

/-- **A number is read up to what closes it.** -/
theorem numeral_int (z : ℤ) {c : Char} (hc : Closes c) (rest : List Char) :
    numeral ((toString z).toList ++ c :: rest) = some (.number (toString z), c :: rest) := by
  obtain ⟨hfraction, hexponent⟩ := fraction_exponent_of_closes hc rest
  have htext : String.ofList ((if z < 0 then ['-'] else []) ++ Nat.toDigits 10 z.natAbs) =
      toString z := by
    rw [← toString_int, String.ofList_toList]
  unfold numeral
  simp only [sign_toString, integer_toDigits _ hc, hfraction, hexponent, List.append_nil, htext,
    Option.bind_eq_bind, Option.bind_some, Option.pure_def]

/-- What starts with a sign or a digit is read as a number. -/
theorem value_eq_numeral {d : Char} (hd : d = '-' ∨ d.isDigit = true) (s : List Char) (depth : ℕ) :
    value (depth + 1) (d :: s) = numeral (d :: s) := by
  have hspace : isSpace d = false := by
    rcases hd with rfl | hd
    · rfl
    · unfold isSpace
      by_contra hne
      simp only [Bool.not_eq_false, Bool.or_eq_true, decide_eq_true_eq] at hne
      rcases hne with ((rfl | rfl) | rfl) | rfl <;> cases hd
  have hskip : skip (d :: s) = d :: s := List.dropWhile_cons_of_neg (by simp [hspace])
  rw [value, hskip]
  split
  case h_7 => rfl
  all_goals
    rename_i heq
    cases heq
    rcases hd with hd | hd <;> cases hd

theorem ends_int (z : ℤ) : Ends value (toString z).toList (.number (toString z)) := by
  intro depth hdepth c rest hc
  obtain ⟨d, ds, hds, hd⟩ := exists_toDigits_eq_cons z.natAbs
  have hfirst : ∃ d' ds', (toString z).toList = d' :: ds' ∧ (d' = '-' ∨ d'.isDigit = true) := by
    rw [toString_int, hds]
    split
    · exact ⟨'-', d :: ds, rfl, .inl rfl⟩
    · exact ⟨d, ds, rfl, .inr hd⟩
  obtain ⟨d', ds', htext, hd'⟩ := hfirst
  cases depth with
  | zero =>
      rw [htext] at hdepth
      cases hdepth
  | succ depth =>
      have hread := numeral_int z hc rest
      rw [htext] at hread ⊢
      exact (value_eq_numeral hd' _ depth).trans hread

theorem ends_nat (n : ℕ) : Ends value (toString n).toList (.number (toString n)) := ends_int n

/-! ### Objects of values that end -/

theorem ends_member (key : String) (hkey : Plain key) {text : List Char} {v : Json}
    (h : Ends value text v) :
    Ends memberAt ('\"' :: (key.toList ++ '\"' :: ':' :: text)) (key, v) := by
  intro depth hdepth c rest hc
  simp only [List.length_cons, List.length_append] at hdepth
  have hkey := takes_quoted hkey (':' :: (text ++ c :: rest))
  have hvalue := h depth (by omega) c rest hc
  have hspace : isSpace '\"' = false ∧ isSpace ':' = false := ⟨rfl, rfl⟩
  simp only [List.append_assoc, List.singleton_append] at hkey
  simp [memberAt, member, skip, hspace, hkey, hvalue]

variable {α : Type} {item : Reader α} {texts : List (List Char)} {xs : List α}

/-- Members that end are taken up to the closing brace. -/
theorem takes_separated_of_closed (h : List.Forall₂ (TakesClosed item) texts xs)
    (hne : texts ≠ []) {fuel : ℕ} (hfuel : ([','].intercalate texts).length < fuel) :
    Takes (separated item '\x7d' fuel) ([','].intercalate texts ++ ['\x7d']) xs := by
  induction h generalizing fuel with
  | nil => exact absurd rfl hne
  | @cons text x texts xs hx h ih =>
      intro rest
      cases fuel with
      | zero => exact absurd hfuel (Nat.not_lt_zero _)
      | succ fuel =>
          cases h with
          | nil =>
              have hlast := hx '\x7d' rest (.inr (.inr rfl))
              simp only [List.intercalate_singleton, List.append_assoc, List.singleton_append]
              rw [separated, hlast]
              rfl
          | cons _ _ =>
              rw [List.intercalate_cons_cons] at hfuel ⊢
              simp only [List.length_append, List.length_singleton] at hfuel
              have hlater := ih (List.cons_ne_nil _ _) (show _ < fuel by omega) rest
              simp only [List.append_assoc, List.cons_append, List.nil_append] at hlater ⊢
              rw [separated, hx ',' _ (.inl rfl)]
              simp [skip, isSpace, hlater]

/-- Items between commas are no longer than their list. -/
theorem closed_of_ends {item : ℕ → Reader α} {depth : ℕ} (h : List.Forall₂ (Ends item) texts xs)
    (hdepth : ([','].intercalate texts).length ≤ depth) :
    List.Forall₂ (TakesClosed (item depth)) texts xs := by
  induction h with
  | nil => exact .nil
  | @cons text x texts xs hx h ih =>
      have hlength : text.length ≤ depth ∧ ([','].intercalate texts).length ≤ depth := by
        cases texts with
        | nil => simpa using hdepth
        | cons text' texts =>
            rw [List.intercalate_cons_cons] at hdepth
            simp only [List.length_append] at hdepth
            omega
      exact .cons (hx depth hlength.1) (ih hlength.2)

/-- **An object of values that end** is itself read whatever follows. -/
theorem denotes_object_of_ends {ms : List (String × Json)} (hne : texts ≠ [])
    (h : List.Forall₂ (Ends memberAt) texts ms) :
    Denotes value ('\x7b' :: ([','].intercalate texts ++ ['\x7d'])) (.object ms) := by
  refine denotes_value fun depth hdepth rest => ?_
  simp only [List.length_append] at hdepth
  have hlist := takes_separated_of_closed (closed_of_ends h (show _ ≤ depth by omega)) hne
    (show _ < ([','].intercalate texts ++ ['\x7d'] ++ rest).length by
      simp only [List.length_append, List.length_singleton]
      omega) rest
  have hopen : (skip ([','].intercalate texts ++ ['\x7d'] ++ rest)).head? ≠ some '\x7d' :=
    fun hc => absurd (hlist.symm.trans (separated_eq_none (memberAt_eq_none hc depth) _))
      (Option.some_ne_none _)
  change (bracketed (memberAt depth) '\x7d' ([','].intercalate texts ++ ['\x7d'] ++ rest)).map _ = _
  rw [bracketed, if_neg hopen, hlist]
  rfl

end Json
end Lib
end PaymentGateway
