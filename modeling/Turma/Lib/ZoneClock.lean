import Mathlib.Data.Int.Init
import Mathlib.Order.Lattice

/-! The clock of a time zone, in seconds: it runs by an offset that moves rarely and by no more
than a day. The instant at which it reads a given time is found from two probes of the offset. -/

namespace Turma.Lib

structure Zone where
  off : ℤ → ℤ
  low : ∀ t, -43200 ≤ off t
  high : ∀ t, off t ≤ 50400
  forth : ∀ t, off (t + 1) ≤ off t + 86400
  back : ∀ t, off t ≤ off (t + 1) + 86400
  rare : ∀ s t, s < t → off (s + 1) ≠ off s → off (t + 1) ≠ off t → s + 345600 ≤ t

namespace Zone

variable {z : Zone}

def clock (z : Zone) (t : ℤ) : ℤ := t + z.off t

/-- The instant the clock reads `w`: the first of two, and in a gap the one the old offset names. -/
def instant (z : Zone) (w : ℤ) : ℤ :=
  let before := w - z.off (w - 129600)
  let after := w - z.off (w + 129600)
  if z.clock before = w then if z.clock after = w then min before after else before
  else if z.clock after = w then after else before

/-- In the four days from `x` the offset is `a` before `c` and `b` from then on. -/
structure Turns (z : Zone) (x c a b : ℤ) : Prop where
  before : ∀ t, x ≤ t → t < c → z.off t = a
  after : ∀ t, c ≤ t → t ≤ x + 345600 → z.off t = b
  change : a ≠ b → z.off (c - 1) = a ∧ z.off c = b
  lowOld : -43200 ≤ a
  highOld : a ≤ 50400
  lowNew : -43200 ≤ b
  highNew : b ≤ 50400
  forth : b ≤ a + 86400
  back : a ≤ b + 86400

/-- Where nothing changes the offset is the same. -/
theorem off_const {x y : ℤ} (h : ∀ t, x ≤ t → t < y → z.off (t + 1) = z.off t) (t : ℤ) (hx : x ≤ t)
    (hy : t ≤ y) : z.off t = z.off x := by
  induction t, hx using Int.leInduction with
  | base => rfl
  | succ t hx ih => rw [h t hx (by omega), ih (by omega)]

theorem exists_turns (z : Zone) (x : ℤ) : ∃ c a b, z.Turns x c a b := by
  by_cases hmove : ∃ s, x ≤ s ∧ s < x + 345600 ∧ z.off (s + 1) ≠ z.off s
  · obtain ⟨s, hx, hs, hne⟩ := hmove
    have hbefore : ∀ t, x ≤ t → t < s → z.off (t + 1) = z.off t := fun t hxt hts => by
      by_contra hmove
      have := z.rare t s hts hmove hne
      omega
    have hafter : ∀ t, s + 1 ≤ t → t < x + 345600 → z.off (t + 1) = z.off t := fun t hst ht => by
      by_contra hmove
      have := z.rare s t (by omega) hne hmove
      omega
    have hold : z.off s = z.off x := off_const hbefore s hx le_rfl
    refine ⟨s + 1, z.off s, z.off (s + 1), fun t hxt ht => ?_, off_const hafter, fun _ => ?_,
      z.low s, z.high s, z.low _, z.high _, z.forth s, z.back s⟩
    · rw [hold]
      exact off_const hbefore t hxt (by omega)
    · exact ⟨by rw [Int.add_sub_cancel], rfl⟩
  · have hstill : ∀ t, x ≤ t → t < x + 345600 → z.off (t + 1) = z.off t := fun t hx ht => by
      by_contra hne
      exact hmove ⟨t, hx, ht, hne⟩
    refine ⟨x, z.off x, z.off x, fun t hx ht => absurd hx (by omega), off_const hstill,
      fun hne => absurd rfl hne, z.low x, z.high x, z.low x, z.high x, by omega, by omega⟩

section

variable {x c a b w n : ℤ}

theorem Turns.off_eq (h : z.Turns x c a b) {t : ℤ} (hx : x ≤ t) (ht : t ≤ x + 345600) :
    t < c ∧ z.off t = a ∨ c ≤ t ∧ z.off t = b := by
  by_cases hc : t < c
  · exact .inl ⟨hc, h.before t hx hc⟩
  · exact .inr ⟨by omega, h.after t (by omega) ht⟩

/-- What the two probes come to, in a stretch that has them. -/
theorem Turns.instant_eq (h : z.Turns x c a b) (hx : x + 129600 ≤ w) (hw : w ≤ x + 216000) :
    z.instant w = if w < c + a ∨ w < c + b then w - a else w - b := by
  obtain ⟨-, -, -, hla, hha, hlb, hhb, -, -⟩ := id h
  have hprobe := h.off_eq (t := w - 129600) (by omega) (by omega)
  have hprobe' := h.off_eq (t := w + 129600) (by omega) (by omega)
  have hold := h.off_eq (t := w - a) (by omega) (by omega)
  have hnew := h.off_eq (t := w - b) (by omega) (by omega)
  unfold instant clock
  rcases hprobe with ⟨hp, hp'⟩ | ⟨hp, hp'⟩ <;> rcases hprobe' with ⟨hq, hq'⟩ | ⟨hq, hq'⟩ <;>
    rw [hp', hq'] <;> dsimp only <;> split_ifs <;> omega

/-- The clock reads `w` at no other instants than these two. -/
theorem Turns.clock_eq (h : z.Turns x c a b) (hx : x + 129600 ≤ w) (hw : w ≤ x + 216000)
    (hn : z.clock n = w) : n < c ∧ n = w - a ∨ c ≤ n ∧ n = w - b := by
  have hlow := z.low n
  have hhigh := z.high n
  unfold clock at hn
  rcases h.off_eq (t := n) (by omega) (by omega) with ⟨hc, ho⟩ | ⟨hc, ho⟩ <;> omega

theorem instant_clock (hn : z.clock n = w) :
    z.clock (z.instant w) = w ∧ z.instant w ≤ n := by
  obtain ⟨c, a, b, h⟩ := z.exists_turns (w - 129600)
  obtain ⟨-, -, -, hla, hha, hlb, hhb, -, -⟩ := id h
  have hread := h.clock_eq (by omega) (by omega) hn
  have hold := h.off_eq (t := w - a) (by omega) (by omega)
  have hnew := h.off_eq (t := w - b) (by omega) (by omega)
  rw [h.instant_eq (by omega) (by omega)]
  unfold clock
  split_ifs <;> omega

/-- A time the clock never reads is in a gap. -/
theorem instant_gap (hn : ∀ n, z.clock n ≠ w) : ∃ c, z.clock (c - 1) < w ∧ w < z.clock c ∧
    z.instant w = w - z.off (c - 1) := by
  obtain ⟨c, a, b, h⟩ := z.exists_turns (w - 129600)
  obtain ⟨-, -, hchange, hla, hha, hlb, hhb, -, -⟩ := id h
  have hold := h.off_eq (t := w - a) (by omega) (by omega)
  have hnew := h.off_eq (t := w - b) (by omega) (by omega)
  have hnotOld := hn (w - a)
  have hnotNew := hn (w - b)
  have hne : a ≠ b := by
    unfold clock at hnotOld hnotNew
    omega
  obtain ⟨hlast, hfirst⟩ := hchange hne
  refine ⟨c, ?_, ?_, ?_⟩
  · unfold clock at *
    omega
  · unfold clock at *
    omega
  · rw [h.instant_eq (by omega) (by omega), hlast]
    unfold clock at hnotOld hnotNew
    split_ifs <;> omega

/-- A day later on the clock is later, unless a whole day was skipped between. -/
theorem instant_next (z : Zone) (w : ℤ) : z.instant w < z.instant (w + 86400) ∨
    z.instant w = z.instant (w + 86400) ∧ ∃ c, z.off c = z.off (c - 1) + 86400 := by
  obtain ⟨c, a, b, h⟩ := z.exists_turns (w - 129600)
  obtain ⟨-, -, hchange, hla, hha, hlb, hhb, hforth, hback⟩ := id h
  rw [h.instant_eq (by omega) (by omega), h.instant_eq (by omega) (by omega)]
  by_cases hday : b = a + 86400 ∧ w < c + b ∧ c + b ≤ w + 86400
  · obtain ⟨hlast, hfirst⟩ := hchange (by omega)
    refine .inr ⟨?_, c, by rw [hlast, hfirst, hday.1]⟩
    split_ifs <;> omega
  · left
    split_ifs <;> omega

/-- What the clock is a day past has come. -/
theorem instant_lt (hn : w + 86400 < z.clock n) : z.instant w < n := by
  obtain ⟨c, a, b, h⟩ := z.exists_turns (w - 129600)
  obtain ⟨-, -, -, hla, hha, hlb, hhb, hforth, hback⟩ := id h
  have hhigh := z.high n
  rw [h.instant_eq (by omega) (by omega)]
  unfold clock at hn
  by_cases hwithin : w - 129600 ≤ n ∧ n ≤ w + 216000
  · have hoff := h.off_eq (t := n) (by omega) (by omega)
    split_ifs <;> omega
  · split_ifs <;> omega

/-- What is two days ahead on the clock is hours ahead. -/
theorem lt_instant (hn : z.clock n + 172800 < w) : n + 7200 < z.instant w := by
  obtain ⟨c, a, b, h⟩ := z.exists_turns (w - 129600)
  obtain ⟨-, -, -, hla, hha, hlb, hhb, hforth, hback⟩ := id h
  have hlow := z.low n
  rw [h.instant_eq (by omega) (by omega)]
  unfold clock at hn
  by_cases hwithin : w - 129600 ≤ n ∧ n ≤ w + 216000
  · split_ifs <;> omega
  · split_ifs <;> omega

/-- What is more than a day ahead on the clock comes within half an hour only where it is read. -/
theorem read_of_near (hn : z.clock n + 86400 < w) (hw : z.instant w ≤ n + 1800) :
    z.clock (z.instant w) = w := by
  obtain ⟨c, a, b, h⟩ := z.exists_turns (w - 129600)
  obtain ⟨-, -, -, hla, hha, hlb, hhb, hforth, hback⟩ := id h
  have hlow := z.low n
  have hnew := h.off_eq (t := w - b) (by omega) (by omega)
  rw [h.instant_eq (by omega) (by omega)] at hw ⊢
  unfold clock at hn ⊢
  by_cases hwithin : w - 129600 ≤ n ∧ n ≤ w + 216000
  · have hoff := h.off_eq (t := n) (by omega) (by omega)
    split_ifs at hw ⊢ <;> omega
  · split_ifs at hw ⊢ <;> omega

/-- Where a whole day is skipped two times a day apart come at the same instant. -/
theorem instant_skip {c : ℤ} (hc : z.off c = z.off (c - 1) + 86400) (hlow : w < z.clock c)
    (hhigh : z.clock c ≤ w + 86400) : z.instant w = z.instant (w + 86400) := by
  obtain ⟨c', a, b, h⟩ := z.exists_turns (w - 129600)
  obtain ⟨-, -, -, hla, hha, hlb, hhb, -, -⟩ := id h
  have hoff := z.low c
  have hoff' := z.high c
  unfold clock at hlow hhigh
  have hlast := h.off_eq (t := c - 1) (by omega) (by omega)
  have hfirst := h.off_eq (t := c) (by omega) (by omega)
  rw [h.instant_eq (by omega) (by omega), h.instant_eq (by omega) (by omega)]
  split_ifs <;> omega

end

end Zone

end Turma.Lib
