import Turma.Lib.Double
import Turma.Lib.JsString

/-! JSON text as `JSON.stringify` writes it, its length as a JavaScript string and its size in
a UTF-8 file. A lone surrogate is written as an escape, so the text is all scalar values. -/

namespace Turma.Lib

open List

/-- The UTF-16 code units of the text. -/
def jsLength (t : List Char) : ℕ := (t.map fun c => if c.toNat < 0x10000 then 1 else 2).sum

def utf8Length (t : List Char) : ℕ := (t.map Char.utf8Size).sum

/-- What a character takes in UTF-8 beyond its code units: nothing in ASCII only. -/
def excess (c : Char) : ℕ := if c.toNat < 0x80 then 0 else if c.toNat < 0x800 then 1 else 2

def textExcess (t : List Char) : ℕ := (t.map excess).sum

def JsString.excess (s : JsString) : ℕ :=
  (s.map fun c => match c with
    | .scalar c => Lib.excess c
    | .lone _ => 0).sum

def JsString.Ascii (s : JsString) : Prop := ∀ c, CodePoint.scalar c ∈ s → c.toNat < 0x80

def hex4 (n : ℕ) : List Char :=
  [(n / 4096 % 16).digitChar, (n / 256 % 16).digitChar, (n / 16 % 16).digitChar,
    (n % 16).digitChar]

def quoteChar : CodePoint → List Char
  | .scalar c =>
    if c = '"' then ['\\', '"']
    else if c = '\\' then ['\\', '\\']
    else if c.toNat = 8 then ['\\', 'b']
    else if c.toNat = 9 then ['\\', 't']
    else if c.toNat = 10 then ['\\', 'n']
    else if c.toNat = 12 then ['\\', 'f']
    else if c.toNat = 13 then ['\\', 'r']
    else if c.toNat < 0x20 then '\\' :: 'u' :: hex4 c.toNat
    else [c]
  | .lone u => '\\' :: 'u' :: hex4 (0xD800 + u)

def jsonString (s : JsString) : List Char := '"' :: s.flatMap quoteChar ++ ['"']

/-- The multiple of `unit` closest to `n` that reads back as `n`. -/
def decimalAt (n unit : ℕ) : Option ℕ :=
  let lo := n / unit * unit
  let hi := lo + unit
  if fl lo = n ∧ (fl hi ≠ n ∨ n - lo ≤ hi - n) then some lo
  else if fl hi = n then some hi
  else none

/-- The decimal number with the fewest digits that reads back as `n`. -/
def shortest (n : ℕ) : ℕ :=
  let width := (Nat.toDigits 10 n).length
  ((List.range width).findSome? fun k => decimalAt n (10 ^ (width - 1 - k))).getD n

def jsonNumber (n : ℕ) : List Char :=
  let digits := Nat.toDigits 10 (shortest n)
  if shortest n < 10 ^ 21 then digits
  else
    let head := digits.take 1
    let rest := ((digits.drop 1).reverse.dropWhile fun c => c = '0').reverse
    head ++ (if rest = [] then [] else '.' :: rest) ++
      'e' :: '+' :: Nat.toDigits 10 (digits.length - 1)

def jsonBool : Bool → List Char
  | true => ['t', 'r', 'u', 'e']
  | false => ['f', 'a', 'l', 's', 'e']

def jsonNull : List Char := ['n', 'u', 'l', 'l']

def jsonMembers : List (List Char × List Char) → List Char
  | [] => []
  | [(k, v)] => k ++ ':' :: v
  | (k, v) :: m :: ms => k ++ ':' :: v ++ ',' :: jsonMembers (m :: ms)

def jsonObject (ms : List (List Char × List Char)) : List Char := '{' :: jsonMembers ms ++ ['}']

@[simp] theorem textExcess_nil : textExcess [] = 0 := rfl

variable (ms : List (List Char × List Char)) (n : ℕ) (c : Char)

@[simp] theorem textExcess_cons (t : List Char) :
    textExcess (c :: t) = excess c + textExcess t := rfl

@[simp] theorem textExcess_append (t t' : List Char) :
    textExcess (t ++ t') = textExcess t + textExcess t' := by
  rw [textExcess, map_append, sum_append]
  rfl

theorem utf8Size_eq :
    c.utf8Size = (if c.toNat < 0x10000 then 1 else 2) + excess c := by
  have hv : c.val.toNat = c.toNat := rfl
  unfold Char.utf8Size excess
  simp only [UInt32.le_iff_toNat_le, UInt32.toNat_ofNatLT, hv]
  split_ifs <;> omega

/-- The size of the file: the length of the string, and what is past ASCII in it. -/
theorem utf8Length_eq (t : List Char) : utf8Length t = jsLength t + textExcess t := by
  induction t with
  | nil => rfl
  | cons c t ih =>
    have hsize := utf8Size_eq c
    unfold utf8Length jsLength textExcess at *
    simp only [map_cons, sum_cons]
    omega

theorem excess_eq_zero {c : Char} : excess c = 0 ↔ c.toNat < 0x80 := by
  unfold excess
  split_ifs <;> simp <;> omega

theorem excess_digitChar : excess n.digitChar = 0 := by
  match n with
  | 0 | 1 | 2 | 3 | 4 | 5 | 6 | 7 | 8 | 9 | 10 | 11 | 12 | 13 | 14 | 15 => rfl
  | n + 16 => rw [Nat.digitChar_eq_star.mpr (by omega)]; rfl

theorem textExcess_eq_zero {t : List Char} : textExcess t = 0 ↔ ∀ c ∈ t, excess c = 0 := by
  induction t with
  | nil => simp
  | cons c t ih => simp [ih]

theorem textExcess_digits : textExcess (Nat.toDigits 10 n) = 0 := by
  refine textExcess_eq_zero.mpr fun c hc => excess_eq_zero.mpr ?_
  have hdigit := Nat.isDigit_of_mem_toDigits (by decide) (by decide) hc
  rw [Char.isDigit_iff_toNat] at hdigit
  exact lt_of_le_of_lt hdigit.2 (by decide)

theorem textExcess_hex4 : textExcess (hex4 n) = 0 := by
  simp [hex4, excess_digitChar]

theorem textExcess_escape (t : List Char) :
    textExcess ('\\' :: 'u' :: t) = textExcess t := by
  rw [textExcess_cons, textExcess_cons, show excess '\\' = 0 from rfl,
    show excess 'u' = 0 from rfl, zero_add, zero_add]

/-- Every escape is in ASCII, and only characters in ASCII and lone surrogates are escaped. -/
theorem textExcess_quoteScalar : textExcess (quoteChar (.scalar c)) = excess c := by
  have hascii : c.toNat < 0x80 → excess c = 0 := excess_eq_zero.mpr
  dsimp only [quoteChar]
  split_ifs with h1 h2 h3 h4 h5 h6 h7 h8
  · rw [h1]; rfl
  · rw [h2]; rfl
  · rw [hascii (by omega)]; rfl
  · rw [hascii (by omega)]; rfl
  · rw [hascii (by omega)]; rfl
  · rw [hascii (by omega)]; rfl
  · rw [hascii (by omega)]; rfl
  · rw [hascii (by omega), textExcess_escape, textExcess_hex4]
  · rfl

theorem textExcess_quoteLone (u : Fin 0x800) : textExcess (quoteChar (.lone u)) = 0 := by
  dsimp only [quoteChar]
  rw [textExcess_escape, textExcess_hex4]

theorem textExcess_jsonString (s : JsString) : textExcess (jsonString s) = s.excess := by
  have hbody : textExcess (s.flatMap quoteChar) = s.excess := by
    induction s with
    | nil => rfl
    | cons c s ih =>
      rw [flatMap_cons, textExcess_append, ih]
      cases c with
      | scalar c => rw [textExcess_quoteScalar]; rfl
      | lone u => rw [textExcess_quoteLone]; rfl
  rw [jsonString, cons_append, textExcess_cons, textExcess_append, hbody]
  exact (zero_add _).trans (add_zero _)

theorem textExcess_jsonNumber : textExcess (jsonNumber n) = 0 := by
  have hdigit : ∀ c ∈ Nat.toDigits 10 (shortest n), excess c = 0 :=
    textExcess_eq_zero.mp (textExcess_digits _)
  unfold jsonNumber
  dsimp only
  split_ifs with hplain hrest
  · exact textExcess_digits _
  · rw [textExcess_append, textExcess_append, textExcess_cons, textExcess_cons, textExcess_digits,
      textExcess_eq_zero.mpr fun c hc => hdigit c (mem_of_mem_take hc)]
    rfl
  · have htail : ∀ c ∈ (((Nat.toDigits 10 (shortest n)).drop 1).reverse.dropWhile
        fun c => c = '0').reverse, excess c = 0 := by
      intro c hc
      rw [mem_reverse] at hc
      have hc := mem_reverse.mp ((dropWhile_sublist _).subset hc)
      exact hdigit c (mem_of_mem_drop hc)
    rw [textExcess_append, textExcess_append, textExcess_cons '.', textExcess_cons 'e',
      textExcess_cons '+', textExcess_digits, textExcess_eq_zero.mpr htail,
      textExcess_eq_zero.mpr fun c hc => hdigit c (mem_of_mem_take hc)]
    rfl

theorem textExcess_jsonBool (b : Bool) : textExcess (jsonBool b) = 0 := by
  cases b <;> rfl

theorem textExcess_jsonMembers :
    textExcess (jsonMembers ms) = (ms.map fun m => textExcess m.1 + textExcess m.2).sum := by
  have hcolon : excess ':' = 0 := rfl
  have hcomma : excess ',' = 0 := rfl
  induction ms with
  | nil => rfl
  | cons m ms ih =>
    obtain ⟨k, v⟩ := m
    cases ms with
    | nil => simp [jsonMembers, hcolon]
    | cons m ms =>
      rw [map_cons, sum_cons, ← ih]
      simp [jsonMembers, hcolon, hcomma, add_assoc]

theorem textExcess_jsonObject :
    textExcess (jsonObject ms) = (ms.map fun m => textExcess m.1 + textExcess m.2).sum := by
  rw [jsonObject, cons_append, textExcess_cons, textExcess_append, textExcess_jsonMembers]
  exact (zero_add _).trans (add_zero _)

theorem JsString.excess_eq_zero {s : JsString} : s.excess = 0 ↔ s.Ascii := by
  unfold JsString.excess JsString.Ascii
  induction s with
  | nil => simp
  | cons c s ih =>
    cases c with
    | scalar c => simp [ih, Lib.excess_eq_zero]
    | lone u => simp [ih]

end Turma.Lib
