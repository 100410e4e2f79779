import Mathlib.Algebra.BigOperators.Group.List.Basic
import Mathlib.Tactic.Ring

/-! Whole numbers as IEEE doubles. A sum is rounded to 53 significant bits, ties to even:
it is exact up to `2 ^ 53`, and past that no rounding brings it back below. -/

namespace Turma.Lib

open List

/-- The weight of the last bit that a double as large as `n` keeps. -/
def ulp (n : ℕ) : ℕ := 2 ^ (n.log2 - 52)

def fl (n : ℕ) : ℕ :=
  if 2 * (n % ulp n) < ulp n ∨ 2 * (n % ulp n) = ulp n ∧ n / ulp n % 2 = 0 then
    n / ulp n * ulp n
  else (n / ulp n + 1) * ulp n

/-- `for (const x of xs) a += x`. -/
def flSum (a : ℕ) (xs : List ℕ) : ℕ := xs.foldl (fun s x => fl (s + x)) a

/-- `Math.floor(a / b)`: the quotient to far more than 53 bits, the last one telling whether
anything is left, then rounded. -/
def floorDiv (a b : ℕ) : ℕ :=
  fl (2 * (a * 2 ^ 128 / b) + if a * 2 ^ 128 % b = 0 then 0 else 1) / 2 ^ 129

variable {n : ℕ}

theorem ulp_of_lt (h : n < 2 ^ 53) : ulp n = 1 := by
  have hlog : n.log2 < 53 := by
    rcases eq_zero_or_pos n with rfl | hn
    · decide
    · exact (Nat.log2_lt hn.ne').mpr h
  rw [ulp, show n.log2 - 52 = 0 by omega, pow_zero]

theorem fl_of_le (h : n ≤ 2 ^ 53) : fl n = n := by
  rcases h.lt_or_eq with hlt | rfl
  · simp [fl, ulp_of_lt hlt, Nat.mod_one]
  · decide

theorem ulp_mul_le (h : 2 ^ 53 ≤ n) : 2 ^ 52 * ulp n = 2 ^ n.log2 := by
  have hlog : 53 ≤ n.log2 := (Nat.le_log2 (by omega)).mpr h
  rw [ulp, ← pow_add]
  congr 1
  omega

theorem le_fl (h : 2 ^ 53 ≤ n) : 2 ^ 53 ≤ fl n := by
  have hlog : 53 ≤ n.log2 := (Nat.le_log2 (by omega)).mpr h
  have hn : 2 ^ n.log2 ≤ n := Nat.log2_self_le (by omega)
  have hq : 2 ^ 52 ≤ n / ulp n := by
    have hpos : 0 < ulp n := Nat.two_pow_pos _
    rw [Nat.le_div_iff_mul_le hpos, ulp_mul_le h]
    exact hn
  have hu : 2 ^ 53 ≤ n / ulp n * ulp n :=
    calc 2 ^ 53 ≤ 2 ^ n.log2 := Nat.pow_le_pow_right (by omega) hlog
      _ = 2 ^ 52 * ulp n := (ulp_mul_le h).symm
      _ ≤ n / ulp n * ulp n := Nat.mul_le_mul_right _ hq
  unfold fl
  split_ifs
  · exact hu
  · exact hu.trans (Nat.mul_le_mul_right _ (Nat.le_succ _))

theorem min_le_fl (n : ℕ) : min n (2 ^ 53) ≤ fl n := by
  rcases le_total n (2 ^ 53) with h | h
  · rw [fl_of_le h]
    exact min_le_left _ _
  · exact (min_le_right _ _).trans (le_fl h)

variable {xs : List ℕ}

theorem flSum_of_le {a : ℕ} (h : a + xs.sum ≤ 2 ^ 53) : flSum a xs = a + xs.sum := by
  unfold flSum
  induction xs generalizing a with
  | nil => rfl
  | cons x xs ih =>
    rw [sum_cons, ← add_assoc] at h
    rw [foldl_cons, fl_of_le (by omega), ih h, sum_cons, add_assoc]

theorem min_le_flSum (a : ℕ) (xs : List ℕ) : min (a + xs.sum) (2 ^ 53) ≤ flSum a xs := by
  unfold flSum
  induction xs generalizing a with
  | nil => exact min_le_left _ _
  | cons x xs ih =>
    have hfl := min_le_fl (a + x)
    have hrest := ih (fl (a + x))
    rw [foldl_cons, sum_cons]
    omega

/-- Rounding does not matter to a bound that is exact itself. -/
theorem le_flSum_iff {n a : ℕ} (h : n ≤ 2 ^ 53) :
    n ≤ flSum a xs ↔ n ≤ a + xs.sum := by
  have hmin := min_le_flSum a xs
  rcases le_total (a + xs.sum) (2 ^ 53) with hle | hge
  · rw [flSum_of_le hle]
  · omega

/-- A sum that comes out a safe integer was computed exactly. -/
theorem flSum_exact {a : ℕ} (h : flSum a xs < 2 ^ 53) :
    flSum a xs = a + xs.sum := by
  have hmin := min_le_flSum a xs
  exact flSum_of_le (by omega)

end Turma.Lib
