import Mathlib.Algebra.Order.Floor.Div
import Mathlib.Data.List.TakeWhile
import Mathlib.Data.Rat.Floor
import Turma.Lib.JsString

/-! What `Number` makes of a string: the number that it spells, rounded to the nearest double. -/

namespace Turma.Lib

open List JsString

/-- A JavaScript number. There is one zero. -/
inductive Num
  | nan
  | infinite (negative : Bool)
  | finite (q : ℚ)
deriving DecidableEq

/-- `Number.isInteger`, with the integer. -/
def Num.integer : Num → Option ℤ
  | .finite q => if q.den = 1 then some q.num else none
  | _ => none

/-- The power of two that `q`, not zero, is at least and less than twice. -/
def binade (q : ℚ) : ℤ :=
  let k : ℤ := q.num.natAbs.log2 - q.den.log2
  if 2 ^ k ≤ |q| then k else k - 1

/-- Half to even. -/
def roundEven (x : ℚ) : ℤ :=
  if x - ⌊x⌋ < 1 / 2 ∨ x - ⌊x⌋ = 1 / 2 ∧ ⌊x⌋ % 2 = 0 then ⌊x⌋ else ⌊x⌋ + 1

/-- The double nearest to `q`: 53 bits, the last one worth no less than `2 ^ -1074`. -/
def nearest (q : ℚ) : Num :=
  if q = 0 then .finite 0
  else
    let last : ℚ := 2 ^ max (binade q - 52) (-1074)
    let rounded := roundEven (|q| / last) * last
    if 2 ^ 1024 ≤ rounded then .infinite (decide (q < 0))
    else .finite (if q < 0 then -rounded else rounded)

def digitOf : CodePoint → Option ℕ
  | .scalar c =>
    if '0' ≤ c ∧ c ≤ '9' then some (c.toNat - '0'.toNat)
    else if 'a' ≤ c ∧ c ≤ 'z' then some (c.toNat - 'a'.toNat + 10)
    else if 'A' ≤ c ∧ c ≤ 'Z' then some (c.toNat - 'A'.toNat + 10)
    else none
  | .lone _ => none

def digits (radix : ℕ) (s : JsString) : Option ℕ :=
  s.foldl (fun n c => do
    let n ← n
    let d ← digitOf c
    if d < radix then some (n * radix + d) else none) (some 0)

def isE (c : CodePoint) : Bool := c = .scalar 'e' || c = .scalar 'E'

def signOf : JsString → Bool × JsString
  | .scalar '-' :: s => (true, s)
  | .scalar '+' :: s => (false, s)
  | s => (false, s)

/-- What follows the digits: nothing, or `e` and a whole number. -/
def exponentOf : JsString → Option ℤ
  | [] => some 0
  | _ :: e =>
    let (negative, e) := signOf e
    if e = [] then none
    else (digits 10 e).map fun (n : ℕ) => if negative = true then -(n : ℤ) else (n : ℤ)

/-- `digits . digits e digits`, the value that is written. -/
def unsignedDecimal (s : JsString) : Option ℚ :=
  let mantissa := s.takeWhile fun c => !isE c
  let whole := mantissa.takeWhile fun c => c ≠ .scalar '.'
  let fraction := (mantissa.dropWhile fun c => c ≠ .scalar '.').tail
  if whole ++ fraction = [] then none
  else
    (exponentOf (s.dropWhile fun c => !isE c)).bind fun exponent =>
      (digits 10 (whole ++ fraction)).map fun (n : ℕ) =>
        (n : ℚ) * 10 ^ (exponent - (fraction.length : ℤ))

/-- `Number(s)`. -/
def toNumber (s : JsString) : Num :=
  match s.trim with
  | [] => .finite 0
  | .scalar '0' :: .scalar x :: rest =>
    match [('x', 16), ('X', 16), ('o', 8), ('O', 8), ('b', 2), ('B', 2)].lookup x with
    | some radix =>
      if rest = [] then .nan
      else ((digits radix rest).map fun (n : ℕ) => nearest n).getD .nan
    | none => ((unsignedDecimal s.trim).map nearest).getD .nan
  | t =>
    let (negative, t) := signOf t
    if t = ofString "Infinity" then .infinite negative
    else ((unsignedDecimal t).map fun q => nearest (if negative = true then -q else q)).getD .nan

/-- `String(z)`, for an integer. -/
def decimal (z : ℤ) : JsString :=
  (if z < 0 then [CodePoint.scalar '-'] else []) ++ (Nat.toDigits 10 z.natAbs).map .scalar

theorem abs_intCast (z : ℤ) : |(z : ℚ)| = z.natAbs := by
  rw [Nat.cast_natAbs, Int.cast_abs]

theorem binade_intCast {z : ℤ} (hz : z ≠ 0) : binade z = z.natAbs.log2 := by
  have hle : (2 : ℚ) ^ (z.natAbs.log2 : ℤ) ≤ |(z : ℚ)| := by
    rw [zpow_natCast, abs_intCast]
    exact_mod_cast Nat.log2_self_le (Int.natAbs_ne_zero.mpr hz)
  have hone : Nat.log2 1 = 0 := by decide
  rw [binade]
  simp only [Rat.num_intCast, Rat.den_intCast, hone, Nat.cast_zero, sub_zero]
  exact if_pos hle

theorem roundEven_intCast (z : ℤ) : roundEven z = z := by
  rw [roundEven, Int.floor_intCast, sub_self, if_pos (Or.inl (by norm_num))]

theorem nearest_intCast {z : ℤ} (h : z.natAbs ≤ 2 ^ 53) : nearest z = .finite z := by
  by_cases hz : z = 0
  · rw [hz]
    rfl
  have hne : (z : ℚ) ≠ 0 := by exact_mod_cast hz
  -- the last bit is worth one or less, or `z` is `2 ^ 53` and even
  have hexact : ∃ m : ℤ, (z.natAbs : ℚ) / 2 ^ max (binade z - 52) (-1074) = m := by
    rw [binade_intCast hz]
    rcases h.lt_or_eq with hlt | heq
    · have hlog : z.natAbs.log2 < 53 := (Nat.log2_lt (Int.natAbs_ne_zero.mpr hz)).mpr hlt
      refine ⟨z.natAbs * 2 ^ (52 - z.natAbs.log2), ?_⟩
      have hlast : max ((z.natAbs.log2 : ℤ) - 52) (-1074) = -((52 - z.natAbs.log2 : ℕ) : ℤ) := by
        omega
      rw [hlast, zpow_neg, div_inv_eq_mul, zpow_natCast]
      rw [Int.cast_mul, Int.cast_pow, Int.cast_natCast, Int.cast_ofNat]
    · refine ⟨2 ^ 52, ?_⟩
      rw [heq, Nat.log2_two_pow]
      norm_num
  obtain ⟨m, hm⟩ := hexact
  have hpos : (0 : ℚ) < 2 ^ max (binade z - 52) (-1074) := zpow_pos (by norm_num) _
  have hback : (m : ℚ) * 2 ^ max (binade z - 52) (-1074) = z.natAbs := by
    rw [← hm, div_mul_cancel₀ _ hpos.ne']
  have hsmall : ¬(2 : ℚ) ^ 1024 ≤ z.natAbs := by
    refine not_le.mpr (lt_of_le_of_lt (b := (2 : ℚ) ^ 53) (by exact_mod_cast h) ?_)
    exact pow_lt_pow_right₀ (by norm_num) (by norm_num)
  rw [nearest, if_neg hne]
  dsimp only
  rw [abs_intCast, hm, roundEven_intCast, hback, if_neg hsmall]
  congr 1
  rcases lt_or_ge z 0 with hneg | hnonneg
  · rw [if_pos (by exact_mod_cast hneg), ← abs_intCast, abs_of_neg (by exact_mod_cast hneg), neg_neg]
  · rw [if_neg (not_lt.mpr (by exact_mod_cast hnonneg)), ← abs_intCast,
      abs_of_nonneg (by exact_mod_cast hnonneg)]

theorem digitOf_digitChar {d : ℕ} (h : d < 10) : digitOf (.scalar d.digitChar) = some d := by
  revert d
  decide

theorem digits_append_digit {radix d n : ℕ} {s : JsString} {c : CodePoint} (hs : digits radix s = some n)
    (hc : digitOf c = some d) (hd : d < radix) : digits radix (s ++ [c]) = some (n * radix + d) := by
  rw [digits, foldl_append, ← digits, hs]
  simp [hc, hd]

theorem digits_toDigits (n : ℕ) : digits 10 ((Nat.toDigits 10 n).map .scalar) = some n := by
  induction n using Nat.strong_induction_on with
  | _ n ih =>
    rcases Nat.lt_or_ge n 10 with hlt | hge
    · rw [Nat.toDigits_of_lt_base hlt]
      have h : digits 10 ([] ++ [.scalar n.digitChar]) = some (0 * 10 + n) :=
        digits_append_digit rfl (digitOf_digitChar hlt) hlt
      simpa using h
    · have hd : n % 10 < 10 := Nat.mod_lt n (by omega)
      rw [Nat.toDigits_of_base_le (by omega) hge, map_append]
      have h := digits_append_digit (ih (n / 10) (by omega)) (digitOf_digitChar hd) hd
      rw [Nat.div_add_mod'] at h
      exact h

theorem isDigit_cases {c : Char} (h : c.isDigit = true) : ∃ d < 10, c = Nat.digitChar d := by
  have hdigits : ∀ d < 10, Char.ofNat (48 + d) = Nat.digitChar d := by decide
  have hrange : 48 ≤ c.toNat ∧ c.toNat ≤ 57 := by
    simpa [Char.isDigit, UInt32.le_iff_toNat_le] using h
  refine ⟨c.toNat - 48, by omega, ?_⟩
  rw [← hdigits _ (by omega), show 48 + (c.toNat - 48) = c.toNat by omega, Char.ofNat_toNat]

/-- Nothing in the decimal text of an integer is white space, a point or an exponent's mark. -/
theorem of_mem_toDigits {n : ℕ} {c : CodePoint} (p : CodePoint → Prop)
    (hp : ∀ d < 10, p (.scalar (Nat.digitChar d)))
    (h : c ∈ (Nat.toDigits 10 n).map CodePoint.scalar) : p c := by
  obtain ⟨d, hd, rfl⟩ := mem_map.mp h
  obtain ⟨k, hk, rfl⟩ := isDigit_cases (Nat.isDigit_of_mem_toDigits (by omega) (by omega) hd)
  exact hp k hk

theorem unsignedDecimal_toDigits (n : ℕ) :
    unsignedDecimal ((Nat.toDigits 10 n).map .scalar) = some (n : ℚ) := by
  have he : ∀ c ∈ (Nat.toDigits 10 n).map CodePoint.scalar, (!isE c) = true := fun c hc =>
    of_mem_toDigits (fun c => (!isE c) = true) (by decide) hc
  have hpoint : ∀ c ∈ (Nat.toDigits 10 n).map CodePoint.scalar,
      decide (c ≠ .scalar '.') = true := fun c hc =>
    of_mem_toDigits (fun c => decide (c ≠ .scalar '.') = true) (by decide) hc
  have hne : (Nat.toDigits 10 n).map CodePoint.scalar ≠ [] := by
    simp [Nat.toDigits_ne_nil]
  rw [unsignedDecimal, takeWhile_eq_self_iff.mpr he, dropWhile_eq_nil_iff.mpr he,
    takeWhile_eq_self_iff.mpr hpoint, dropWhile_eq_nil_iff.mpr hpoint]
  simp [hne, digits_toDigits, exponentOf]

theorem trim_decimal (z : ℤ) : (decimal z).trim = decimal z := by
  have hall : ∀ c ∈ decimal z, ¬JsString.blank c = true := by
    intro c hc
    rcases mem_append.mp hc with hc | hc
    · split_ifs at hc
      · rw [mem_singleton.mp hc]
        decide
      · exact absurd hc not_mem_nil
    · exact of_mem_toDigits (fun c => ¬JsString.blank c = true) (by decide) hc
  have hdrop : ∀ s : JsString, (∀ c ∈ s, ¬JsString.blank c = true) → s.dropWhile JsString.blank = s := by
    intro s hs
    cases s with
    | nil => rfl
    | cons c s => exact dropWhile_cons_of_neg (hs c mem_cons_self)
  rw [JsString.trim, JsString.stripEnds, hdrop _ hall,
    hdrop _ fun c hc => hall c (mem_reverse.mp hc), reverse_reverse]

/-- The decimal text of an integer reads as the double nearest to it. -/
theorem toNumber_decimal (z : ℤ) : toNumber (decimal z) = nearest z := by
  have hread := unsignedDecimal_toDigits z.natAbs
  have hword : ∀ n, (Nat.toDigits 10 n).map CodePoint.scalar ≠ ofString "Infinity" := by
    intro n h
    have hI : CodePoint.scalar 'I' ∈ (Nat.toDigits 10 n).map CodePoint.scalar := by
      rw [h]
      decide
    exact of_mem_toDigits (fun c => c ≠ .scalar 'I') (by decide) hI rfl
  rw [toNumber, trim_decimal]
  rcases lt_or_ge z 0 with hneg | hnonneg
  · have htext : decimal z = .scalar '-' :: (Nat.toDigits 10 z.natAbs).map .scalar := by
      rw [decimal, if_pos hneg]
      rfl
    have hcast : (z : ℚ) = -(z.natAbs : ℚ) := by
      rw [← abs_intCast, abs_of_neg (by exact_mod_cast hneg), neg_neg]
    rw [htext, hcast]
    simp [signOf, hword z.natAbs, hread]
  · have htext : decimal z = (Nat.toDigits 10 z.natAbs).map .scalar := by
      rw [decimal, if_neg (not_lt.mpr hnonneg), nil_append]
    have hcast : (z : ℚ) = (z.natAbs : ℚ) := by
      rw [← abs_intCast, abs_of_nonneg (by exact_mod_cast hnonneg)]
    have hsign : signOf (decimal z) = (false, decimal z) := by
      rw [htext]
      unfold signOf
      split
      · rename_i heq
        exact absurd rfl (of_mem_toDigits (fun c => c ≠ .scalar '-') (by decide)
          (heq ▸ mem_cons_self))
      · rename_i heq
        exact absurd rfl (of_mem_toDigits (fun c => c ≠ .scalar '+') (by decide)
          (heq ▸ mem_cons_self))
      · rfl
    split
    · rename_i heq
      rw [htext, map_eq_nil_iff] at heq
      exact absurd heq Nat.toDigits_ne_nil
    · rename_i x rest heq
      have hx : CodePoint.scalar x ∈ (Nat.toDigits 10 z.natAbs).map CodePoint.scalar := by
        rw [← htext, heq]
        exact .tail _ mem_cons_self
      have hradix : [('x', 16), ('X', 16), ('o', 8), ('O', 8), ('b', 2), ('B', 2)].lookup x =
          (none : Option ℕ) := by
        obtain ⟨d, hd, hdx⟩ := mem_map.mp hx
        obtain ⟨k, hk, rfl⟩ := isDigit_cases (Nat.isDigit_of_mem_toDigits (by omega) (by omega) hd)
        rw [← CodePoint.scalar.inj hdx]
        clear hd hdx
        revert k
        decide
      rw [hradix]
      rw [htext, hread, hcast]
      rfl
    · rw [hsign]
      dsimp only
      rw [htext, if_neg (hword z.natAbs), hread, hcast]
      rfl

end Turma.Lib
