import Mathlib.Tactic.Basic

/-! Owners with a file each: which file an owner is given, whom a file is signed for, and whose
things it holds. -/

namespace Turma.Lib

open Option

structure Placement (ι π : Type*) where
  filed : ι → Option π
  signed : π → Option ι
  holds : π → ι → Prop

namespace Placement

variable {ι π : Type*} {P Q : Placement ι π} {i : ι} {p : π}

/-- No two owners have one file. A file is signed for the owner that has it, and holds only what
is of the owner it is signed for. -/
structure Sound (P : Placement ι π) : Prop where
  apart : ∀ {i j p}, P.filed i = some p → P.filed j = some p → i = j
  named : ∀ {i j p}, P.filed i = some p → P.signed p = some j → j = i
  own : ∀ {i p}, P.holds p i → P.signed p = some i

structure Free (P : Placement ι π) (i : ι) (p : π) : Prop where
  filed : ∀ {j}, P.filed j = some p → j = i
  signed : ∀ {j}, P.signed p = some j → j = i

/-- `Q` is `P` with some files taken away, from those that had them or as a whole. -/
structure Within (Q P : Placement ι π) : Prop where
  filed : ∀ {i p}, Q.filed i = some p → P.filed i = some p
  signed : ∀ {i p}, Q.signed p = some i → P.signed p = some i
  holds : ∀ {i p}, Q.holds p i → P.holds p i ∧ Q.signed p = P.signed p

/-- `Q` is `P` with each owner given a file that is signed for it, if any. -/
structure Refiled (Q P : Placement ι π) : Prop where
  filed : ∀ {i p}, Q.filed i = some p → P.signed p = some i
  signed : ∀ p, Q.signed p = P.signed p
  holds : ∀ {i p}, Q.holds p i → P.holds p i

/-- `Q` is `P` with `p` signed for `i`, perhaps with something of it, and perhaps given to it. -/
structure Gives (P Q : Placement ι π) (i : ι) (p : π) : Prop where
  filed : ∀ {j p'}, Q.filed j = some p' → P.filed j = some p' ∨ j = i ∧ p' = p
  signed : Q.signed p = some i
  elsewhere : ∀ {p'}, p' ≠ p → Q.signed p' = P.signed p'
  holds : ∀ {j p'}, Q.holds p' j → P.holds p' j ∨ p' = p ∧ j = i

theorem Sound.within (hP : P.Sound) (h : Q.Within P) : Q.Sound where
  apart hi hj := hP.apart (h.filed hi) (h.filed hj)
  named hi hj := hP.named (h.filed hi) (h.signed hj)
  own hi := (h.holds hi).2.trans (hP.own (h.holds hi).1)

theorem Sound.refiled (hP : P.Sound) (h : Q.Refiled P) : Q.Sound where
  apart hi hj := some.inj ((h.filed hi).symm.trans (h.filed hj))
  named hi hj := some.inj ((hj.symm.trans (h.signed _)).trans (h.filed hi))
  own hi := (h.signed _).trans (hP.own (h.holds hi))

theorem Sound.gives (hP : P.Sound) (hfree : P.Free i p) (h : P.Gives Q i p) : Q.Sound where
  apart {a b p'} ha hb := by
    rcases h.filed ha with ha | ⟨hai, hp⟩ <;> rcases h.filed hb with hb | ⟨hbi, hp'⟩
    · exact hP.apart ha hb
    · rw [hbi]
      exact hfree.filed (hp' ▸ ha)
    · rw [hai]
      exact (hfree.filed (hp ▸ hb)).symm
    · rw [hai, hbi]
  named {a b p'} ha hb := by
    by_cases hp : p' = p
    · subst hp
      obtain rfl : b = i := some.inj (hb.symm.trans h.signed)
      rcases h.filed ha with ha | ⟨rfl, -⟩
      · exact (hfree.filed ha).symm
      · rfl
    · rw [h.elsewhere hp] at hb
      rcases h.filed ha with ha | ⟨-, hp'⟩
      · exact hP.named ha hb
      · exact absurd hp' hp
  own {a p'} ha := by
    rcases h.holds ha with ha | ⟨rfl, rfl⟩
    · have hs := hP.own ha
      by_cases hp : p' = p
      · subst hp
        rw [hfree.signed hs]
        exact h.signed
      · rw [h.elsewhere hp]
        exact hs
    · exact h.signed

/-- What an owner has stays free for it while files are taken away. -/
theorem Sound.free_within (hP : P.Sound) (h : Q.Within P) (hi : P.filed i = some p) :
    Q.Free i p where
  filed hj := hP.apart (h.filed hj) hi
  signed hj := hP.named hi (h.signed hj)

/-- What an owner has stays free for it when files are given out by their signatures. -/
theorem Sound.free_refiled (hP : P.Sound) (h : Q.Refiled P) (hi : P.filed i = some p) :
    Q.Free i p where
  filed hj := hP.named hi (h.filed hj)
  signed hj := hP.named hi ((h.signed p).symm.trans hj)

end Placement

end Turma.Lib
