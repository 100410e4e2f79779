import Turma.Lib.Json

/-! Numbers as `JSON.stringify` writes them. A whole number that prints as plain digits is kept
as an integer, any other one as the text that it prints as. -/

namespace Turma.Lib

open List

def numberChar (c : Char) : Bool :=
  c.isDigit || c = '-' || c = '+' || c = '.' || c = 'e' || c = 'E'

/-- A finite number. There is one zero. -/
inductive JsNumber
  | whole (z : ℤ) (exact : fl z.natAbs = z.natAbs) (plain : shortest z.natAbs < 10 ^ 21)
  | literal (t : List Char) (chars : t.all numberChar = true)
      (broken : t.any (fun c => c = '.' || c = 'e') = true)
      (starts : (t.head?.any fun c => c.isDigit || c = '-') = true)
deriving DecidableEq

def signed (z : ℤ) (t : List Char) : List Char := if z < 0 then '-' :: t else t

def JsNumber.text : JsNumber → List Char
  | .whole z _ _ => signed z (jsonNumber z.natAbs)
  | .literal t _ _ _ => t

def readInt (t : List Char) : Option ℤ :=
  let digits := if t.head? = some '-' then t.tail else t
  if digits.all Char.isDigit = true ∧ digits ≠ [] then
    some (if t.head? = some '-' then -(Nat.ofDigitChars 10 digits 0 : ℤ)
      else (Nat.ofDigitChars 10 digits 0 : ℤ))
  else none

variable {n : ℕ}

theorem fl_of_dvd (h : ulp n ∣ n) : fl n = n := by
  have hmod : n % ulp n = 0 := Nat.mod_eq_zero_of_dvd h
  have hpos : 0 < ulp n := Nat.two_pow_pos _
  rw [fl, hmod, if_pos (Or.inl (by omega))]
  exact Nat.div_mul_cancel h

/-- A double reads back as itself. -/
theorem fl_fl (n : ℕ) : fl (fl n) = fl n := by
  by_cases hn : n < 2 ^ 53
  · rw [fl_of_le hn.le]
    exact fl_of_le hn.le
  · have hpos : 0 < ulp n := Nat.two_pow_pos _
    have hulp : 2 ^ 52 * ulp n = 2 ^ n.log2 := ulp_mul_le (by omega)
    have hnext : 2 ^ 53 * ulp n = 2 ^ (n.log2 + 1) := by
      rw [pow_succ 2 n.log2, ← hulp]
      ring
    have hlow : 2 ^ 52 ≤ n / ulp n := by
      rw [Nat.le_div_iff_mul_le hpos, hulp]
      exact Nat.log2_self_le (by omega)
    have hhigh : n / ulp n < 2 ^ 53 := by
      rw [Nat.div_lt_iff_lt_mul hpos, hnext]
      exact Nat.lt_log2_self
    obtain ⟨q, hq, hq', hfl⟩ : ∃ q, 2 ^ 52 ≤ q ∧ q ≤ 2 ^ 53 ∧ fl n = q * ulp n := by
      unfold fl
      split_ifs
      · exact ⟨n / ulp n, hlow, hhigh.le, rfl⟩
      · exact ⟨n / ulp n + 1, by omega, hhigh, rfl⟩
    rw [hfl]
    apply fl_of_dvd
    -- the rounded quotient keeps its 53 bits, or it is the next power of two
    rcases hq'.lt_or_eq with hlt | rfl
    · have hsame : (q * ulp n).log2 = n.log2 := by
        refine (Nat.log2_eq_iff (mul_pos (by omega) hpos).ne').mpr ⟨?_, ?_⟩
        · rw [← hulp]
          exact Nat.mul_le_mul_right _ hq
        · rw [← hnext]
          exact mul_lt_mul_of_pos_right hlt hpos
      rw [show ulp (q * ulp n) = ulp n by rw [ulp, hsame, ← ulp]]
      exact dvd_mul_left _ _
    · rw [hnext, ulp, Nat.log2_two_pow]
      exact pow_dvd_pow 2 (by omega)

/-- The digits that are printed read back as the number. -/
theorem fl_shortest (h : fl n = n) : fl (shortest n) = n := by
  unfold shortest
  dsimp only
  cases hfind : (List.range (Nat.toDigits 10 n).length).findSome? fun k =>
      decimalAt n (10 ^ ((Nat.toDigits 10 n).length - 1 - k)) with
  | none => exact h
  | some m =>
    obtain ⟨k, -, hk⟩ := exists_of_findSome?_eq_some hfind
    unfold decimalAt at hk
    dsimp only at hk
    split_ifs at hk with hlo hhi
    · rw [← Option.some.inj hk]
      exact hlo.1
    · rw [← Option.some.inj hk]
      exact hhi

/-- A safe integer prints all of its digits. -/
theorem shortest_of_lt (h : n < 2 ^ 53) : shortest n = n := by
  have honly : ∀ m, fl m = n → m = n := by
    intro m hm
    rcases le_total m (2 ^ 53) with hle | hge
    · rwa [fl_of_le hle] at hm
    · have := le_fl hge
      omega
  exact honly _ (fl_shortest (fl_of_le h.le))

theorem jsonNumber_of_lt (h : n < 2 ^ 53) : jsonNumber n = Nat.toDigits 10 n := by
  rw [jsonNumber, shortest_of_lt h]
  exact if_pos (by omega)

variable {c : Char}

theorem numberChar_of_isDigit (h : c.isDigit = true) : numberChar c = true := by
  simp [numberChar, h]

theorem isDigit_of_mem_digits (h : c ∈ Nat.toDigits 10 n) : c.isDigit = true :=
  Nat.isDigit_of_mem_toDigits (by omega) (by omega) h

theorem signed_all {p : Char → Bool} (hp : p '-' = true) (z : ℤ) {t : List Char}
    (ht : t.all p = true) : (signed z t).all p = true := by
  unfold signed
  split_ifs
  · rw [all_cons, hp, ht]
    rfl
  · exact ht

theorem jsonNumber_chars (n : ℕ) : (jsonNumber n).all numberChar = true := by
  have hdigits : ∀ m, ∀ c ∈ Nat.toDigits 10 m, numberChar c = true :=
    fun m c hc => numberChar_of_isDigit (isDigit_of_mem_digits hc)
  rw [all_eq_true]
  unfold jsonNumber
  dsimp only
  intro c hc
  split_ifs at hc with hplain hrest
  · exact hdigits _ c hc
  · simp only [append_nil, mem_append, mem_cons] at hc
    rcases hc with hc | rfl | rfl | hc
    · exact hdigits _ c (mem_of_mem_take hc)
    · rfl
    · rfl
    · exact hdigits _ c hc
  · simp only [mem_append, mem_cons, mem_reverse] at hc
    rcases hc with (hc | rfl | hc) | rfl | rfl | hc
    · exact hdigits _ c (mem_of_mem_take hc)
    · rfl
    · have hc := mem_reverse.mp ((dropWhile_sublist _).subset hc)
      exact hdigits _ c (mem_of_mem_drop hc)
    · rfl
    · rfl
    · exact hdigits _ c hc

theorem jsonNumber_head (n : ℕ) : ∃ c t, jsonNumber n = c :: t ∧ c.isDigit = true := by
  obtain ⟨c, t, hdigits⟩ := exists_cons_of_ne_nil
    (Nat.toDigits_ne_nil (n := shortest n) (b := 10))
  have hc : c.isDigit = true := isDigit_of_mem_digits (n := shortest n) (hdigits ▸ mem_cons_self)
  unfold jsonNumber
  dsimp only
  split_ifs
  · exact ⟨c, t, hdigits, hc⟩
  · exact ⟨c, _, by rw [hdigits]; rfl, hc⟩
  · exact ⟨c, _, by rw [hdigits]; rfl, hc⟩

theorem jsonNumber_broken (h : ¬ shortest n < 10 ^ 21) :
    (jsonNumber n).any (fun c => c = '.' || c = 'e') = true := by
  unfold jsonNumber
  rw [if_neg h, any_append, any_cons]
  simp

theorem signed_head (z : ℤ) (n : ℕ) :
    ((signed z (jsonNumber n)).head?.any fun c => c.isDigit || c = '-') = true := by
  unfold signed
  split_ifs
  · rfl
  · obtain ⟨c, t, hnumber, hc⟩ := jsonNumber_head n
    rw [hnumber]
    simp [hc]

def JsNumber.ofInt (z : ℤ) : JsNumber :=
  if h : shortest (fl z.natAbs) < 10 ^ 21 then
    .whole (if z < 0 then -(fl z.natAbs : ℤ) else fl z.natAbs)
      (by split_ifs <;> simp [fl_fl]) (by split_ifs <;> simpa using h)
  else
    .literal (signed z (jsonNumber (fl z.natAbs))) (signed_all rfl z (jsonNumber_chars _))
      (by
        unfold signed
        split_ifs
        · rw [any_cons, jsonNumber_broken h, Bool.or_true]
        · exact jsonNumber_broken h)
      (signed_head z _)

/-- `n` at the start of `t`, and what follows it. -/
def readNumber (t : List Char) : Option (JsNumber × List Char) :=
  let number := t.takeWhile numberChar
  let rest := t.dropWhile numberChar
  match readInt number with
  | some z => some (.ofInt z, rest)
  | none =>
    if h : number.any (fun c => c = '.' || c = 'e') = true ∧
        (number.head?.any fun c => c.isDigit || c = '-') = true then
      some (.literal number all_takeWhile h.1 h.2, rest)
    else none

theorem JsNumber.ofInt_exact {z : ℤ} (exact : fl z.natAbs = z.natAbs)
    (plain : shortest z.natAbs < 10 ^ 21) : ofInt z = .whole z exact plain := by
  unfold ofInt
  rw [dif_pos (by rwa [exact])]
  congr 1
  rw [exact]
  split_ifs <;> omega

theorem JsNumber.ofInt_shortest {z : ℤ} (exact : fl z.natAbs = z.natAbs)
    (plain : shortest z.natAbs < 10 ^ 21) :
    ofInt (if z < 0 then -(shortest z.natAbs : ℤ) else shortest z.natAbs) =
      .whole z exact plain := by
  have hfl := fl_shortest exact
  have hzero : shortest z.natAbs = 0 → z.natAbs = 0 := by
    intro h
    rw [h, fl_of_le (Nat.zero_le _)] at hfl
    exact hfl.symm
  have habs : (if z < 0 then -(shortest z.natAbs : ℤ) else shortest z.natAbs).natAbs =
      shortest z.natAbs := by
    split_ifs <;> simp
  unfold ofInt
  rw [dif_pos (by rwa [habs, hfl])]
  congr 1
  rw [habs, hfl]
  split_ifs <;> omega

theorem digit_ne_minus (h : c.isDigit = true) : c ≠ '-' := by
  rintro rfl
  cases h

theorem readInt_signed (z : ℤ) (m : ℕ) :
    readInt (signed z (Nat.toDigits 10 m)) = some (if z < 0 then -(m : ℤ) else m) := by
  have hall : (Nat.toDigits 10 m).all Char.isDigit = true :=
    all_eq_true.mpr fun c hc => isDigit_of_mem_digits hc
  have hnil : Nat.toDigits 10 m ≠ [] := Nat.toDigits_ne_nil
  unfold signed
  split_ifs with hz
  · simp [readInt, hall, hnil, Nat.ofDigitChars_ten_toDigits]
  · have hminus : (Nat.toDigits 10 m).head? ≠ some '-' := fun hc =>
      digit_ne_minus (isDigit_of_mem_digits (mem_of_head? hc)) rfl
    simp [readInt, hall, hnil, hminus, Nat.ofDigitChars_ten_toDigits]

theorem readInt_broken {t : List Char} (h : t.any (fun c => c = '.' || c = 'e') = true) :
    readInt t = none := by
  obtain ⟨c, hc, hbreak⟩ := any_eq_true.mp h
  have hdigit : c.isDigit = false ∧ c ≠ '-' := by
    simp only [Bool.or_eq_true, decide_eq_true_eq] at hbreak
    rcases hbreak with rfl | rfl <;> decide
  refine if_neg ?_
  rintro ⟨hall, -⟩
  have hin : c ∈ if t.head? = some '-' then t.tail else t := by
    split_ifs with hminus
    · cases t with
      | nil => exact absurd hc not_mem_nil
      | cons d t =>
        rcases mem_cons.mp hc with rfl | hc
        · exact absurd (Option.some.inj hminus) hdigit.2
        · exact hc
    · exact hc
  have hc := all_eq_true.mp hall c hin
  rw [hdigit.1] at hc
  cases hc

def Stops (r : List Char) : Prop := ∀ c ∈ r.head?, numberChar c = false

theorem JsNumber.text_chars (n : JsNumber) : n.text.all numberChar = true := by
  cases n with
  | whole z _ _ => exact signed_all rfl z (jsonNumber_chars _)
  | literal t chars _ _ => exact chars

theorem JsNumber.text_head (n : JsNumber) :
    ∃ c t, n.text = c :: t ∧ (c.isDigit = true ∨ c = '-') := by
  have hstart : (n.text.head?.any fun c => c.isDigit || c = '-') = true := by
    cases n with
    | whole z _ _ => exact signed_head z _
    | literal t _ _ starts => exact starts
  cases htext : n.text with
  | nil => rw [htext] at hstart; cases hstart
  | cons c t =>
    rw [htext] at hstart
    exact ⟨c, t, rfl, by simpa using hstart⟩

/-- A number reads back from its text. -/
theorem readNumber_text (n : JsNumber) {r : List Char} (hr : Stops r) :
    readNumber (n.text ++ r) = some (n, r) := by
  have hall : ∀ c ∈ n.text, numberChar c = true := all_eq_true.mp n.text_chars
  have htake : (n.text ++ r).takeWhile numberChar = n.text := by
    rw [takeWhile_append_of_pos hall]
    cases r with
    | nil => simp
    | cons c r => simp [hr c rfl]
  have hdrop : (n.text ++ r).dropWhile numberChar = r := by
    rw [dropWhile_append_of_pos hall]
    cases r with
    | nil => simp
    | cons c r => simp [hr c rfl]
  unfold readNumber
  simp only [htake, hdrop]
  cases n with
  | whole z exact plain =>
    have hread : readInt (JsNumber.whole z exact plain).text =
        some (if z < 0 then -(shortest z.natAbs : ℤ) else shortest z.natAbs) := by
      have hdigits : jsonNumber z.natAbs = Nat.toDigits 10 (shortest z.natAbs) := if_pos plain
      change readInt (signed z (jsonNumber z.natAbs)) = _
      rw [hdigits, readInt_signed]
    simp only [hread]
    exact congrArg (fun n => some (n, r)) (JsNumber.ofInt_shortest exact plain)
  | literal t chars broken starts =>
    have hread : readInt (JsNumber.literal t chars broken starts).text = none :=
      readInt_broken broken
    simp only [hread]
    exact dif_pos ⟨broken, starts⟩

end Turma.Lib
