/-
# JSON texts

`Json` is what a JSON text denotes and `Json.parse` reads such texts: strictly, as
the grammar has them, with whitespace between tokens, escapes in strings, numbers,
arrays and objects, and nothing after the value.  A reader takes a value from the
front of the characters that are left and returns the rest.

`Takes p text a` says that the reader `p` takes exactly `text`, whatever follows it,
and returns `a`; `Denotes` says it of the readers that are bounded in depth.  It has
one rule for each way a printer without whitespace puts texts together
(`denotes_bool`, `denotes_string`, `denotes_array`, `denotes_member`,
`denotes_object`), and `Denotes.parse` turns the result into a fact about `parse`.
-/

import Mathlib.Data.Char
import Mathlib.Data.List.Forall2
import Mathlib.Data.Nat.Notation

namespace PaymentGateway
namespace Lib

/-- The value of a JSON text.  A number is kept as it is written, an object keeps its
members in the order of the text. -/
inductive Json
  | null
  | bool (b : Bool)
  | number (literal : String)
  | string (s : String)
  | array (elements : List Json)
  | object (members : List (String × Json))

namespace Json

/-- A reader takes something from the front of a text and leaves the rest. -/
abbrev Reader (α : Type) : Type := List Char → Option (α × List Char)

/-! ### Numbers -/

/-- Insignificant whitespace. -/
def isSpace (c : Char) : Bool := c = ' ' || c = '\t' || c = '\n' || c = '\r'

def skip (s : List Char) : List Char := s.dropWhile isSpace

/-- One digit or more. -/
def digits : Reader (List Char) := fun s =>
  match s.takeWhile Char.isDigit with
  | [] => none
  | ds => some (ds, s.dropWhile Char.isDigit)

/-- The integer part, without leading zeros. -/
def integer : Reader (List Char)
  | '0' :: s => some (['0'], s)
  | s => digits s

/-- A point and digits, or nothing. -/
def fraction : Reader (List Char)
  | '.' :: s => (digits s).map fun p => ('.' :: p.1, p.2)
  | s => some ([], s)

/-- An optional sign. -/
def sign (allowed : List Char) : List Char → List Char × List Char
  | [] => ([], [])
  | c :: s => if c ∈ allowed then ([c], s) else ([], c :: s)

/-- `e` or `E`, an optional sign and digits, or nothing. -/
def exponent : Reader (List Char)
  | [] => some ([], [])
  | c :: s =>
      if c = 'e' ∨ c = 'E' then
        (digits (sign ['+', '-'] s).2).map fun p => (c :: (sign ['+', '-'] s).1 ++ p.1, p.2)
      else some ([], c :: s)

def numeral : Reader Json := fun s => do
  let (minus, s) := sign ['-'] s
  let (whole, s) ← integer s
  let (part, s) ← fraction s
  let (power, s) ← exponent s
  return (.number (String.ofList (minus ++ whole ++ part ++ power)), s)

/-! ### Strings -/

def hexDigit (c : Char) : Option ℕ :=
  if '0' ≤ c ∧ c ≤ '9' then some (c.toNat - '0'.toNat)
  else if 'a' ≤ c ∧ c ≤ 'f' then some (c.toNat - 'a'.toNat + 10)
  else if 'A' ≤ c ∧ c ≤ 'F' then some (c.toNat - 'A'.toNat + 10)
  else none

/-- The four hexadecimal digits of an escape. -/
def codeUnit : Reader ℕ
  | a :: b :: c :: d :: s => do
      let a ← hexDigit a
      let b ← hexDigit b
      let c ← hexDigit c
      let d ← hexDigit d
      return (a * 4096 + b * 256 + c * 16 + d, s)
  | _ => none

/-- The second half of a surrogate pair, and the character of the pair. -/
def surrogate (high : ℕ) : Reader Char
  | '\\' :: 'u' :: s => do
      let (low, s) ← codeUnit s
      if 0xDC00 ≤ low ∧ low < 0xE000 then
        return (Char.ofNat (0x10000 + (high - 0xD800) * 0x400 + (low - 0xDC00)), s)
      else none
  | _ => none

/-- An escape after its backslash; half a surrogate pair is no character. -/
def escape : Reader Char
  | 'u' :: s => do
      let (u, s) ← codeUnit s
      if 0xD800 ≤ u ∧ u < 0xDC00 then surrogate u s
      else if 0xDC00 ≤ u ∧ u < 0xE000 then none
      else return (Char.ofNat u, s)
  | '\"' :: s => some ('\"', s)
  | '\\' :: s => some ('\\', s)
  | '/' :: s => some ('/', s)
  | 'b' :: s => some ('\x08', s)
  | 'f' :: s => some ('\x0c', s)
  | 'n' :: s => some ('\n', s)
  | 'r' :: s => some ('\r', s)
  | 't' :: s => some ('\t', s)
  | _ => none

/-- The characters of a string after its opening quote; control characters have to be
escaped. -/
def chars : ℕ → Reader (List Char)
  | 0, _ => none
  | _ + 1, [] => none
  | fuel + 1, c :: s =>
      if c = '\"' then some ([], s)
      else if c = '\\' then do
        let (c, s) ← escape s
        let (cs, s) ← chars fuel s
        return (c :: cs, s)
      else if c < ' ' then none
      else do
        let (cs, s) ← chars fuel s
        return (c :: cs, s)

/-- A string after its opening quote. -/
def quoted : Reader String := fun s => (chars s.length s).map fun p => (String.ofList p.1, p.2)

/-! ### Arrays, objects, values -/

/-- Items between commas, and the closing bracket. -/
def separated {α : Type} (item : Reader α) (close : Char) : ℕ → Reader (List α)
  | 0, _ => none
  | fuel + 1, s => do
      let (a, s) ← item s
      match skip s with
      | [] => none
      | c :: s =>
          if c = close then return ([a], s)
          else if c = ',' then do
            let (as, s) ← separated item close fuel s
            return (a :: as, s)
          else none

/-- What follows an opening bracket: the closing one, or items and the closing one. -/
def bracketed {α : Type} (item : Reader α) (close : Char) : Reader (List α) := fun s =>
  if (skip s).head? = some close then some ([], (skip s).tail)
  else separated item close s.length s

/-- A member of an object. -/
def member (value : Reader Json) : Reader (String × Json) := fun s =>
  match skip s with
  | '\"' :: s => do
      let (key, s) ← quoted s
      match skip s with
      | ':' :: s => do
          let (v, s) ← value s
          return ((key, v), s)
      | _ => none
  | _ => none

/-- A value nested at most `depth` deep. -/
def value : ℕ → Reader Json
  | 0, _ => none
  | depth + 1, s =>
      match skip s with
      | '\"' :: s => (quoted s).map fun p => (.string p.1, p.2)
      | '[' :: s => (bracketed (value depth) ']' s).map fun p => (.array p.1, p.2)
      | '\x7b' :: s => (bracketed (member (value depth)) '\x7d' s).map fun p => (.object p.1, p.2)
      | 't' :: 'r' :: 'u' :: 'e' :: s => some (.bool true, s)
      | 'f' :: 'a' :: 'l' :: 's' :: 'e' :: s => some (.bool false, s)
      | 'n' :: 'u' :: 'l' :: 'l' :: s => some (.null, s)
      | s => numeral s

/-- The value of a text that is one JSON value and nothing else.  No text is nested
deeper than it is long. -/
def parse (text : String) : Option Json :=
  match value text.length text.toList with
  | none => none
  | some (v, s) => if skip s = [] then some v else none

example : parse " [null, -1.50e+3,\"\\u00e9\\n\", \x7b\"a\" :[ ] \x7d] " =
    some (.array [.null, .number "-1.50e+3", .string "é\n", .object [("a", .array [])]]) := by
  rfl

example : parse "[1,]" = none ∧ parse "01" = none ∧ parse "\x7b\x7d\x7d" = none ∧
    parse "\"\n\"" = none := by
  refine ⟨rfl, rfl, rfl, rfl⟩

/-! ### What a reader takes -/

/-- The reader takes exactly this text, whatever follows it. -/
def Takes {α : Type} (p : Reader α) (text : List Char) (a : α) : Prop :=
  ∀ rest, p (text ++ rest) = some (a, rest)

/-- The characters that stand for themselves in a string. -/
def Unescaped (c : Char) : Prop := c ≠ '\"' ∧ c ≠ '\\' ∧ ' ' ≤ c

/-- A string that is written between quotes as it is. -/
def Plain (s : String) : Prop := ∀ c ∈ s.toList, Unescaped c

instance : DecidablePred Unescaped := fun c =>
  inferInstanceAs (Decidable (c ≠ '\"' ∧ c ≠ '\\' ∧ ' ' ≤ c))

instance : DecidablePred Plain := fun s => List.decidableBAll Unescaped s.toList

variable {α : Type} {item : Reader α} {close : Char} {texts : List (List Char)} {xs : List α}

theorem takes_chars {cs : List Char} (h : ∀ c ∈ cs, Unescaped c) {fuel : ℕ}
    (hfuel : cs.length < fuel) : Takes (chars fuel) (cs ++ ['\"']) cs := by
  intro rest
  induction cs generalizing fuel with
  | nil =>
      cases fuel with
      | zero => exact absurd hfuel (Nat.not_lt_zero _)
      | succ fuel => rfl
  | cons c cs ih =>
      cases fuel with
      | zero => exact absurd hfuel (Nat.not_lt_zero _)
      | succ fuel =>
          obtain ⟨hquote, hslash, hcontrol⟩ := h c (List.mem_cons_self ..)
          have htail : chars fuel (cs ++ ['\"'] ++ rest) = some (cs, rest) :=
            ih (fun d hd => h d (List.mem_cons_of_mem _ hd)) (Nat.lt_of_succ_lt_succ hfuel)
          rw [List.cons_append, List.cons_append, chars, if_neg hquote, if_neg hslash,
            if_neg (not_lt.2 hcontrol), htail]
          rfl

theorem takes_quoted {s : String} (h : Plain s) :
    Takes quoted (s.toList ++ ['\"']) s := by
  intro rest
  have hlong : s.toList.length < (s.toList ++ ['\"'] ++ rest).length := by
    simp only [List.length_append, List.length_singleton]
    omega
  rw [quoted, takes_chars h hlong rest]
  simp

/-- Items between commas are taken up to the closing bracket. -/
theorem takes_separated (hcomma : ',' ≠ close) (hspace : isSpace close = false)
    (h : List.Forall₂ (Takes item) texts xs) (hne : texts ≠ []) {fuel : ℕ}
    (hfuel : ([','].intercalate texts).length < fuel) :
    Takes (separated item close fuel) ([','].intercalate texts ++ [close]) xs := by
  induction h generalizing fuel with
  | nil => exact absurd rfl hne
  | @cons text x texts xs hx h ih =>
      intro rest
      cases fuel with
      | zero => exact absurd hfuel (Nat.not_lt_zero _)
      | succ fuel =>
          cases h with
          | nil =>
              rw [List.intercalate_singleton, List.append_assoc, separated, hx]
              simp [skip, hspace]
          | cons _ _ =>
              rw [List.intercalate_cons_cons] at hfuel ⊢
              simp only [List.length_append, List.length_singleton] at hfuel
              have hlater := ih (List.cons_ne_nil _ _) (show _ < fuel by omega) rest
              simp only [List.append_assoc, List.singleton_append] at hlater ⊢
              rw [separated, hx]
              simp [skip, isSpace, hcomma, hlater]

/-- No list starts where no item does. -/
theorem separated_eq_none {s : List Char} (h : item s = none) (fuel : ℕ) :
    separated item close fuel s = none := by
  cases fuel with
  | zero => rfl
  | succ fuel =>
      rw [separated, h]
      rfl

/-- **A bracketed list is taken as a whole**, when no item starts with the closing
bracket. -/
theorem takes_bracketed (hcomma : ',' ≠ close) (hspace : isSpace close = false)
    (hitem : ∀ {s}, (skip s).head? = some close → item s = none)
    (h : List.Forall₂ (Takes item) texts xs) :
    Takes (bracketed item close) ([','].intercalate texts ++ [close]) xs := by
  intro rest
  rcases eq_or_ne texts [] with rfl | hne
  · cases h
    simp [bracketed, skip, hspace]
  · have hlist := takes_separated hcomma hspace h hne
      (show _ < ([','].intercalate texts ++ [close] ++ rest).length by
        simp only [List.length_append, List.length_singleton]
        omega) rest
    have hopen : (skip ([','].intercalate texts ++ [close] ++ rest)).head? ≠ some close := fun hc =>
      absurd (hlist.symm.trans (separated_eq_none (hitem hc) _)) (Option.some_ne_none _)
    rw [bracketed, if_neg hopen, hlist]

/-! ### What a text denotes -/

/-- A reader of values at most `depth` deep takes the text and returns `a`, from the depth
on that is the length of the text. -/
def Denotes {α : Type} (item : ℕ → Reader α) (text : List Char) (a : α) : Prop :=
  ∀ depth, text.length ≤ depth → Takes (item depth) text a

/-- What denotes a value may be read one level deeper. -/
theorem denotes_value {c : Char} {text : List Char} {v : Json}
    (h : ∀ depth, text.length ≤ depth → Takes (value (depth + 1)) (c :: text) v) :
    Denotes value (c :: text) v := by
  intro depth hdepth
  cases depth with
  | zero => cases hdepth
  | succ depth => exact h depth (Nat.le_of_succ_le_succ hdepth)

/-- Items between commas are no longer than their list. -/
theorem takes_of_denotes {item : ℕ → Reader α} {depth : ℕ}
    (h : List.Forall₂ (Denotes item) texts xs)
    (hdepth : ([','].intercalate texts).length ≤ depth) :
    List.Forall₂ (Takes (item depth)) texts xs := by
  induction h with
  | nil => exact .nil
  | @cons text x texts xs hx h ih =>
      have hlength : text.length ≤ depth ∧ ([','].intercalate texts).length ≤ depth := by
        cases texts with
        | nil => simpa using hdepth
        | cons text' texts =>
            rw [List.intercalate_cons_cons] at hdepth
            simp only [List.length_append] at hdepth
            omega
      exact .cons (hx depth hlength.1) (ih hlength.2)

theorem denotes_bool (b : Bool) :
    Denotes value (if b then "true" else "false").toList (.bool b) := by
  cases b <;> exact denotes_value fun depth _ rest => rfl

theorem denotes_string {s : String} (h : Plain s) :
    Denotes value ('\"' :: (s.toList ++ ['\"'])) (.string s) := by
  refine denotes_value fun depth _ rest => ?_
  change (quoted (s.toList ++ ['\"'] ++ rest)).map _ = _
  rw [takes_quoted h rest]
  rfl

/-- No value starts with a closing square bracket. -/
theorem value_eq_none {s : List Char} (h : (skip s).head? = some ']') (depth : ℕ) :
    value depth s = none := by
  obtain ⟨r, hr⟩ := List.head?_eq_some_iff.1 h
  cases depth with
  | zero => rfl
  | succ depth =>
      rw [value, hr]
      rfl

theorem denotes_array {vs : List Json} (h : List.Forall₂ (Denotes value) texts vs) :
    Denotes value ('[' :: ([','].intercalate texts ++ [']'])) (.array vs) := by
  refine denotes_value fun depth hdepth rest => ?_
  simp only [List.length_append] at hdepth
  have hitems := takes_of_denotes h (show _ ≤ depth by omega)
  change (bracketed (value depth) ']' ([','].intercalate texts ++ [']'] ++ rest)).map _ = _
  rw [takes_bracketed (by decide) rfl (fun hs => value_eq_none hs depth) hitems rest]
  rfl

/-- The members of an object, at a depth. -/
def memberAt (depth : ℕ) : Reader (String × Json) := member (value depth)

theorem denotes_member (key : String) (hkey : Plain key) {text : List Char} {v : Json}
    (h : Denotes value text v) :
    Denotes memberAt ('\"' :: (key.toList ++ '\"' :: ':' :: text)) (key, v) := by
  intro depth hdepth rest
  simp only [List.length_cons, List.length_append] at hdepth
  have hkey := takes_quoted hkey (':' :: (text ++ rest))
  have hvalue := h depth (by omega) rest
  have hspace : isSpace '\"' = false ∧ isSpace ':' = false := ⟨rfl, rfl⟩
  simp only [List.append_assoc, List.singleton_append] at hkey
  simp [memberAt, member, skip, hspace, hkey, hvalue]

/-- No member starts with a closing brace. -/
theorem memberAt_eq_none {s : List Char} (h : (skip s).head? = some '\x7d') (depth : ℕ) :
    memberAt depth s = none := by
  obtain ⟨r, hr⟩ := List.head?_eq_some_iff.1 h
  rw [memberAt, member, hr]
  rfl

theorem denotes_object {ms : List (String × Json)} (h : List.Forall₂ (Denotes memberAt) texts ms) :
    Denotes value ('\x7b' :: ([','].intercalate texts ++ ['\x7d'])) (.object ms) := by
  refine denotes_value fun depth hdepth rest => ?_
  simp only [List.length_append] at hdepth
  have hitems := takes_of_denotes h (show _ ≤ depth by omega)
  change (bracketed (memberAt depth) '\x7d' ([','].intercalate texts ++ ['\x7d'] ++ rest)).map _ = _
  rw [takes_bracketed (by decide) rfl (fun hs => memberAt_eq_none hs depth) hitems rest]
  rfl

/-- **A text that denotes a value is parsed as that value.** -/
theorem Denotes.parse {text : String} {v : Json} (h : Denotes value text.toList v) :
    parse text = some v := by
  have hread := h text.length (Nat.le_of_eq String.length_toList) []
  rw [List.append_nil] at hread
  rw [Json.parse, hread]
  rfl

end Json
end Lib
end PaymentGateway
