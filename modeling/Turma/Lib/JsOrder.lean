import Mathlib.Data.List.Lex
import Turma.Lib.JsString

/-! The order of JavaScript strings. A list of code points is what a string is read as when no
high surrogate in it stands before a low one; on such lists the order by code units is total. -/

namespace Turma.Lib

open List

/-- The two would have been read as one code point. -/
def CodePoint.pairs : CodePoint → CodePoint → Bool
  | .lone u, .lone v => decide (u.val < 0x400 ∧ 0x400 ≤ v.val)
  | _, _ => false

/-- The list is what `[...s]` yields for some `s`. -/
def JsString.Formed (s : JsString) : Prop := s.IsChain fun a b => CodePoint.pairs a b = false

instance (s : JsString) : Decidable s.Formed :=
  inferInstanceAs (Decidable (s.IsChain fun a b => CodePoint.pairs a b = false))

theorem char_not_surrogate (c : Char) : c.toNat < 0xD800 ∨ 0xDFFF < c.toNat := by
  rcases c.valid with h | h
  · exact Or.inl h
  · exact Or.inr h.1

theorem char_lt (c : Char) : c.toNat < 0x110000 := by
  rcases c.valid with h | h
  · exact lt_trans h (by decide)
  · exact h.2

/-- What a code point is as units: itself, two surrogates, or one. -/
theorem CodePoint.units_cases (a : CodePoint) :
    (∃ c, a = .scalar c ∧ a.units = [c.toNat]) ∨
      (∃ c h l, a = .scalar c ∧ a.units = [h, l] ∧ 0xD800 ≤ h ∧ h < 0xDC00 ∧
        0xDC00 ≤ l ∧ l < 0xE000 ∧ c.toNat = 0x10000 + (h - 0xD800) * 0x400 + (l - 0xDC00)) ∨
      ∃ u, a = .lone u ∧ a.units = [0xD800 + u.val] := by
  cases a with
  | scalar c =>
    have hlt := char_lt c
    by_cases hc : c.toNat < 0x10000
    · exact Or.inl ⟨c, rfl, if_pos hc⟩
    · exact Or.inr (Or.inl ⟨c, _, _, rfl, if_neg hc, by omega, by omega, by omega, by omega,
        by omega⟩)
  | lone u => exact Or.inr (Or.inr ⟨u, rfl, rfl⟩)

/-- A list that begins with the unit of a low surrogate begins with a lone one. -/
theorem flatMap_units_low {s : JsString} {l : ℕ} {xs : List ℕ}
    (h : s.flatMap CodePoint.units = l :: xs) (hl : 0xDC00 ≤ l) (hl' : l < 0xE000) :
    ∃ v : Fin 0x800, ∃ t, s = .lone v :: t ∧ 0x400 ≤ v.val := by
  cases s with
  | nil => cases h
  | cons b t =>
    rw [flatMap_cons] at h
    rcases b.units_cases with ⟨c, rfl, hu⟩ | ⟨c, h', l', rfl, hu, hrange⟩ | ⟨v, rfl, hu⟩
    · rw [hu, singleton_append, List.cons.injEq] at h
      have hc := char_not_surrogate c
      omega
    · rw [hu, cons_append, List.cons.injEq] at h
      omega
    · rw [hu, singleton_append, List.cons.injEq] at h
      exact ⟨v, t, rfl, by omega⟩

/-- A lone high surrogate is not followed by the unit of a low one. -/
theorem lone_high_next {u : Fin 0x800} {s : JsString} {l : ℕ} {xs : List ℕ}
    (hs : JsString.Formed (.lone u :: s)) (h : s.flatMap CodePoint.units = l :: xs)
    (hu : u.val < 0x400) (hl : 0xDC00 ≤ l) (hl' : l < 0xE000) : False := by
  obtain ⟨v, t, rfl, hv⟩ := flatMap_units_low h hl hl'
  have hpair : CodePoint.pairs (.lone u) (.lone v) = false := (isChain_cons_cons.mp hs).1
  exact of_decide_eq_false hpair ⟨hu, hv⟩

/-- A string is read back from its code units. -/
theorem units_inj {a b : JsString} (ha : a.Formed) (hb : b.Formed)
    (h : a.flatMap CodePoint.units = b.flatMap CodePoint.units) : a = b := by
  induction a generalizing b with
  | nil =>
    cases b with
    | nil => rfl
    | cons y b =>
      rw [flatMap_nil, flatMap_cons] at h
      rcases y.units_cases with ⟨c, -, hu⟩ | ⟨c, h', l', -, hu, -⟩ | ⟨v, -, hu⟩ <;>
        rw [hu] at h <;> cases h
  | cons x a ih =>
    cases b with
    | nil =>
      rw [flatMap_nil, flatMap_cons] at h
      rcases x.units_cases with ⟨c, -, hu⟩ | ⟨c, h', l', -, hu, -⟩ | ⟨v, -, hu⟩ <;>
        rw [hu] at h <;> cases h
    | cons y b =>
      have ha' : JsString.Formed a := List.IsChain.tail ha
      have hb' : JsString.Formed b := List.IsChain.tail hb
      rw [flatMap_cons, flatMap_cons] at h
      rcases x.units_cases with ⟨c, rfl, hu⟩ | ⟨c, hi, lo, rfl, hu, hrange⟩ | ⟨u, rfl, hu⟩ <;>
        rcases y.units_cases with ⟨d, rfl, hv⟩ | ⟨d, hi', lo', rfl, hv, hrange'⟩ | ⟨v, rfl, hv⟩ <;>
        rw [hu, hv] at h <;>
        simp only [cons_append, nil_append, List.cons.injEq] at h
      · rw [ih ha' hb' h.2, Char.toNat_inj.mp h.1]
      · have hc := char_not_surrogate c
        omega
      · have hc := char_not_surrogate c
        omega
      · have hd := char_not_surrogate d
        omega
      · rw [ih ha' hb' h.2.2, Char.toNat_inj.mp (show c.toNat = d.toNat by omega)]
      · exact absurd (lone_high_next hb h.2.symm (by omega) (by omega) (by omega)) id
      · have hd := char_not_surrogate d
        omega
      · exact absurd (lone_high_next ha h.2 (by omega) (by omega) (by omega)) id
      · have huv : u = v := Fin.ext (by omega)
        rw [ih ha' hb' h.2, huv]

theorem JsString.before_irrefl (a : JsString) : a.before a = false :=
  decide_eq_false (lt_irrefl _)

theorem JsString.before_trans {a b c : JsString} (hab : a.before b = true)
    (hbc : b.before c = true) : a.before c = true :=
  decide_eq_true (lt_trans (of_decide_eq_true hab) (of_decide_eq_true hbc))

theorem JsString.before_total {a b : JsString} (ha : a.Formed) (hb : b.Formed) (hne : a ≠ b) :
    a.before b = true ∨ b.before a = true := by
  rcases lt_trichotomy (a.flatMap CodePoint.units) (b.flatMap CodePoint.units) with h | h | h
  · exact Or.inl (decide_eq_true h)
  · exact absurd (units_inj ha hb h) hne
  · exact Or.inr (decide_eq_true h)

end Turma.Lib
