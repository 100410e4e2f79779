import Turma.Lib.JsString

/-! What trimming and cutting a JavaScript string leave behind. -/

namespace Turma.Lib

open List

namespace JsString

variable {strip : CodePoint → Bool} {s : JsString} {n : ℕ}

theorem length16_cons (c : CodePoint) (s : JsString) :
    length16 (c :: s) = c.units.length + length16 s := by
  simp [length16]

theorem length16_append (s t : JsString) : length16 (s ++ t) = length16 s + length16 t := by
  simp [length16]

theorem slice_of_le (h : s.length16 ≤ n) : s.slice n = s := by
  induction s generalizing n with
  | nil => rfl
  | cons c s ih =>
    rw [length16_cons] at h
    rw [slice, if_pos (by omega), ih (by omega)]

/-- Half of a pair is a unit of its own. -/
theorem length_units_high {c : CodePoint} (h : 1 < c.units.length) :
    c.high.units.length = 1 := by
  cases c with
  | scalar c => rfl
  | lone u => exact absurd h (by simp [CodePoint.units])

theorem length16_slice (n : ℕ) (s : JsString) : (s.slice n).length16 ≤ n := by
  induction s generalizing n with
  | nil => exact Nat.zero_le n
  | cons c s ih =>
    rw [slice]
    split_ifs with hfits hone
    · have hrest := ih (n - c.units.length)
      rw [length16_cons]
      omega
    · rw [length16_cons, length_units_high (by omega)]
      exact hone.ge
    · exact Nat.zero_le n

/-- What is left is what was there, but for half a pair. -/
theorem mem_slice {c : CodePoint} (h : c ∈ s.slice n) : c ∈ s ∨ ∃ u, c = .lone u := by
  induction s generalizing n with
  | nil => exact .inl h
  | cons d s ih =>
    rw [slice] at h
    split_ifs at h with hfits hone
    · rcases mem_cons.mp h with rfl | h
      · exact .inl mem_cons_self
      · exact (ih h).imp_left (mem_cons_of_mem _)
    · obtain rfl := mem_singleton.mp h
      cases d with
      | scalar c => exact .inr ⟨_, rfl⟩
      | lone u => exact .inr ⟨u, rfl⟩
    · exact nomatch h

theorem length_units_le (c : CodePoint) : c.units.length ≤ 2 := by
  cases c with
  | scalar c =>
    rw [CodePoint.units]
    split_ifs <;> simp
  | lone u => simp [CodePoint.units]

/-- The first character survives a cut that leaves two units. -/
theorem head?_slice (h : 2 ≤ n) : (s.slice n).head? = s.head? := by
  cases s with
  | nil => rfl
  | cons c s => rw [slice, if_pos ((length_units_le c).trans h), head?_cons, head?_cons]

theorem stripEnds_sublist (strip : CodePoint → Bool) (s : JsString) : (s.stripEnds strip).Sublist s := by
  have h := (dropWhile_sublist strip (l := (s.dropWhile strip).reverse)).reverse
  rw [reverse_reverse] at h
  exact h.trans (dropWhile_sublist strip)

structure Bare (strip : CodePoint → Bool) (s : JsString) : Prop where
  head : ∀ c ∈ s.head?, strip c = false
  last : ∀ c ∈ s.getLast?, strip c = false

theorem head_dropWhile (strip : CodePoint → Bool) (s : JsString) :
    ∀ c ∈ (s.dropWhile strip).head?, strip c = false := by
  intro c hc
  have h := head?_dropWhile_not strip s
  rwa [Option.mem_def.mp hc] at h

theorem dropWhile_of_head (h : ∀ c ∈ s.head?, strip c = false) : s.dropWhile strip = s := by
  cases s with
  | nil => rfl
  | cons c s => exact dropWhile_cons_of_neg (by simp [h c rfl])

/-- Stripping a string whose first character stays takes away from its end only. -/
theorem stripEnds_prefix (h : ∀ c ∈ s.head?, strip c = false) : s.stripEnds strip <+: s := by
  rw [stripEnds, dropWhile_of_head h, ← reverse_suffix, reverse_reverse]
  exact dropWhile_suffix _

theorem stripEnds_of_bare (h : s.Bare strip) : s.stripEnds strip = s := by
  have hlast : s.reverse.dropWhile strip = s.reverse :=
    dropWhile_of_head fun c hc => h.last c (by rwa [head?_reverse] at hc)
  rw [stripEnds, dropWhile_of_head h.head, hlast, reverse_reverse]

theorem bare_stripEnds (strip : CodePoint → Bool) (s : JsString) : (s.stripEnds strip).Bare strip where
  head c hc := by
    have hpre : s.stripEnds strip <+: s.dropWhile strip := by
      have h := stripEnds_prefix (head_dropWhile strip s)
      rwa [stripEnds, dropWhile_of_head (head_dropWhile strip s), ← stripEnds] at h
    obtain ⟨t, ht⟩ := hpre
    refine head_dropWhile strip s c ?_
    rw [← ht, head?_append, Option.mem_def.mp hc]
    rfl
  last c hc := by
    rw [stripEnds, getLast?_reverse] at hc
    exact head_dropWhile strip _ c hc

/-- A string whose first character stays is not stripped to nothing. -/
theorem stripEnds_ne_nil (h : ∀ c ∈ s.head?, strip c = false) (hs : s ≠ []) :
    s.stripEnds strip ≠ [] := by
  cases s with
  | nil => exact absurd rfl hs
  | cons c s =>
    intro hnil
    have hrev : (c :: s).reverse.dropWhile strip = [] := by
      rw [stripEnds, dropWhile_of_head h] at hnil
      exact reverse_eq_nil_iff.mp hnil
    have htake : (c :: s).reverse.takeWhile strip = (c :: s).reverse := by
      have hsplit := takeWhile_append_dropWhile (p := strip) (l := (c :: s).reverse)
      rwa [hrev, append_nil] at hsplit
    have hc : c ∈ (c :: s).reverse.takeWhile strip := by
      rw [htake]
      simp
    have hstrip : strip c = true := all_eq_true.mp all_takeWhile c hc
    rw [h c rfl] at hstrip
    exact nomatch hstrip

end JsString

end Turma.Lib
