import Mathlib.Algebra.Order.BigOperators.Group.Finset

/-! Sums of a function over the part of a finite type that a test picks out. -/

namespace Turma.Lib

variable {κ : Type*} [Fintype κ]

def sumOn (p : κ → Bool) (f : κ → ℕ) : ℕ := ∑ k, if p k then f k else 0

variable {p q : κ → Bool} {f g : κ → ℕ}

theorem sumOn_congr (h : ∀ k, p k = true → f k = g k) : sumOn p f = sumOn p g := by
  apply Finset.sum_congr rfl
  intro k _
  split_ifs with hp
  · exact h k hp
  · rfl

/-- A test may differ where there is nothing to sum. -/
theorem sumOn_congr_test (h : ∀ k, f k ≠ 0 → p k = q k) : sumOn p f = sumOn q f := by
  apply Finset.sum_congr rfl
  intro k _
  by_cases hk : f k = 0
  · simp [hk]
  · rw [h k hk]

theorem sumOn_le_sumOn (h : ∀ k, p k = true → f k ≤ g k) : sumOn p f ≤ sumOn p g := by
  apply Finset.sum_le_sum
  intro k _
  split_ifs with hp
  · exact h k hp
  · exact le_rfl

theorem sumOn_mono (h : ∀ k, p k = true → q k = true) : sumOn p f ≤ sumOn q f := by
  apply Finset.sum_le_sum
  intro k _
  by_cases hp : p k = true
  · rw [if_pos hp, if_pos (h k hp)]
  · rw [if_neg hp]
    exact Nat.zero_le _

theorem sumOn_add (p : κ → Bool) (f g : κ → ℕ) :
    sumOn p (fun k => f k + g k) = sumOn p f + sumOn p g := by
  unfold sumOn
  rw [← Finset.sum_add_distrib]
  apply Finset.sum_congr rfl
  intro k _
  split_ifs <;> rfl

/-- A sum is what it takes on a part and what it takes off it. -/
theorem sumOn_add_not (p : κ → Bool) (f : κ → ℕ) :
    sumOn p f + sumOn (fun k => !p k) f = ∑ k, f k := by
  rw [sumOn, sumOn, ← Finset.sum_add_distrib]
  apply Finset.sum_congr rfl
  intro k _
  cases p k <;> simp

theorem sumOn_and_add_not (p q : κ → Bool) (f : κ → ℕ) :
    sumOn (fun k => p k && q k) f + sumOn (fun k => p k && !q k) f = sumOn p f := by
  unfold sumOn
  rw [← Finset.sum_add_distrib]
  apply Finset.sum_congr rfl
  intro k _
  by_cases hp : p k = true <;> by_cases hq : q k = true <;> simp [hp, hq]

/-- A bound on one part, kept when the part grows and the bound holds key by key. -/
theorem sumOn_grow {a : ℕ} (hpq : ∀ k, p k = true → q k = true) (hfg : ∀ k, f k ≤ g k)
    (h : a + sumOn p f ≤ sumOn p g) : a + sumOn q f ≤ sumOn q g := by
  have split : ∀ f : κ → ℕ, sumOn p f + sumOn (fun k => q k && !p k) f = sumOn q f := by
    intro f
    rw [← sumOn_and_add_not q p f]
    have hp : sumOn (fun k => q k && p k) f = sumOn p f := by
      apply Finset.sum_congr rfl
      intro k _
      by_cases hk : p k = true
      · simp [hk, hpq k hk]
      · simp [hk]
    rw [hp]
  have hrest : sumOn (fun k => q k && !p k) f ≤ sumOn (fun k => q k && !p k) g :=
    sumOn_le_sumOn fun k _ => hfg k
  rw [← split f, ← split g]
  omega

end Turma.Lib
