import Mathlib.Data.List.Basic
import Mathlib.Logic.Relation

/-! Disjoint sets kept as a forest without ranks, each set under its least element. A parent is
below its child, so a climb ends; linking two roots joins two sets and leaves the rest. -/

namespace Turma.Lib

open Relation List Option

section

variable {κ : Type*}

inductive RootOf (parent : κ → Option κ) : κ → κ → Prop
  | here {x : κ} (h : ∀ y, parent x = some y → y = x) : RootOf parent x x
  | up {x y r : κ} (h : parent x = some y) (hne : y ≠ x) (hy : RootOf parent y r) :
      RootOf parent x r

theorem RootOf.unique {parent : κ → Option κ} {x r r' : κ} (h : RootOf parent x r)
    (h' : RootOf parent x r') : r = r' := by
  induction h with
  | here hroot =>
    cases h' with
    | here => rfl
    | up hy hne => exact absurd (hroot _ hy) hne
  | up hy hne _ ih =>
    cases h' with
    | here hroot => exact absurd (hroot _ hy) hne
    | up hy' _ hr' =>
      rw [hy, some.injEq] at hy'
      exact ih (hy' ▸ hr')

theorem RootOf.root {parent : κ → Option κ} {x r : κ} (h : RootOf parent x r) :
    ∀ y, parent r = some y → y = r := by
  induction h with
  | here hroot => exact hroot
  | up _ _ _ ih => exact ih

theorem RootOf.found {parent : κ → Option κ} {x r : κ} (h : RootOf parent x r) :
    r = x ∨ ∃ z, parent z = some r := by
  induction h with
  | here => exact Or.inl rfl
  | @up x y r hy _ _ ih =>
    rcases ih with rfl | hz
    · exact Or.inr ⟨x, hy⟩
    · exact Or.inr hz

/-- A root `loser` put under another root `winner` takes its set along. -/
theorem RootOf.link {parent parent' : κ → Option κ} {winner loser x r : κ} [DecidableEq κ]
    (hne : winner ≠ loser) (hloser : parent' loser = some winner)
    (hwinner : ∀ y, parent' winner = some y → y = winner)
    (hrest : ∀ z, z ≠ loser → parent' z = parent z ∨ parent z = none ∧ parent' z = some z)
    (hroot : ∀ y, parent loser = some y → y = loser) (h : RootOf parent x r) :
    RootOf parent' x (if r = loser then winner else r) := by
  induction h with
  | @here x hx =>
    by_cases hxl : x = loser
    · subst hxl
      rw [if_pos rfl]
      exact RootOf.up hloser hne (RootOf.here hwinner)
    · rw [if_neg hxl]
      refine RootOf.here fun y hy => ?_
      rcases hrest x hxl with heq | ⟨-, heq⟩
      · exact hx y (heq ▸ hy)
      · rw [heq, some.injEq] at hy
        exact hy.symm
  | @up x y r hy hne' _ ih =>
    have hxl : x ≠ loser := by
      rintro rfl
      exact hne' (hroot y hy)
    refine RootOf.up ?_ hne' ih
    rcases hrest x hxl with heq | ⟨hnone, -⟩
    · rw [heq, hy]
    · rw [hnone] at hy
      exact absurd hy nofun

theorem countP_lt_countP {p q : κ → Bool} {y : κ} {xs : List κ}
    (h : ∀ x ∈ xs, p x = true → q x = true) (hy : y ∈ xs) (hp : p y = false) (hq : q y = true) :
    xs.countP p < xs.countP q := by
  induction xs with
  | nil => exact absurd hy not_mem_nil
  | cons x xs ih =>
    have hrest : ∀ z ∈ xs, p z = true → q z = true := fun z hz => h z (mem_cons_of_mem x hz)
    rw [countP_cons, countP_cons]
    rcases mem_cons.mp hy with rfl | hy
    · have hle := countP_mono_left hrest
      rw [hp, hq]
      simp only [Bool.false_eq_true, if_false, if_true]
      omega
    · have hlt := ih hrest hy
      have hx := h x mem_cons_self
      split_ifs with hpx hqx
      · omega
      · exact absurd (hx hpx) hqx
      · omega
      · omega

section

variable [DecidableEq κ] (parent : κ → Option κ)

/-- `while (parent.has(x) && parent.get(x) !== x) x = parent.get(x)`, for `n` rounds. -/
def climb : ℕ → κ → κ
  | 0, x => x
  | n + 1, x =>
    match parent x with
    | none => x
    | some y => if y = x then x else climb n y

/-- The climb ends within as many rounds as there are elements below its start. -/
theorem climb_rootOf {below : κ → κ → Bool} (hirrefl : ∀ x, below x x = false)
    (htrans : ∀ x y z, below x y = true → below y z = true → below x z = true) {elems : List κ}
    (hdown : ∀ x y, parent x = some y → y ∈ elems ∧ (y = x ∨ below y x = true)) {n : ℕ} {x : κ}
    (hn : elems.countP (below · x) ≤ n) : RootOf parent x (climb parent n x) := by
  induction n generalizing x with
  | zero =>
    refine RootOf.here fun y hy => ?_
    obtain ⟨hmem, hle⟩ := hdown x y hy
    exact hle.resolve_right (countP_eq_zero.mp (Nat.le_zero.mp hn) y hmem)
  | succ n ih =>
    cases hx : parent x with
    | none =>
      rw [climb, hx]
      exact RootOf.here fun y hy => absurd (hx.symm.trans hy) nofun
    | some y =>
      rw [climb, hx]
      dsimp only
      split_ifs with hyx
      · exact RootOf.here fun z hz => (some.inj (hz.symm.trans hx)).trans hyx
      · obtain ⟨hmem, hle⟩ := hdown x y hx
        have hbelow := hle.resolve_left hyx
        refine RootOf.up hx hyx (ih ?_)
        have hlt : elems.countP (below · y) < elems.countP (below · x) :=
          countP_lt_countP (fun z _ hz => htrans z y x hz hbelow) hmem (hirrefl y) hbelow
        omega

end

/-- `rep` takes each element to one of its set, the sets being what `linked` connects, the same
for all of a set and below the others. -/
structure Represents (linked : κ → κ → Prop) (below : κ → κ → Bool) (rep : κ → κ) : Prop where
  member : ∀ x, EqvGen linked x (rep x)
  shared : ∀ x y, linked x y → rep x = rep y
  least : ∀ x, rep x = x ∨ below (rep x) x = true

section

variable {linked : κ → κ → Prop} {below : κ → κ → Bool} {rep : κ → κ}

theorem Represents.shared_of_connected (h : Represents linked below rep) {x y : κ}
    (hxy : EqvGen linked x y) : rep x = rep y := by
  induction hxy with
  | rel x y hxy => exact h.shared x y hxy
  | refl x => rfl
  | symm x y _ ih => exact ih.symm
  | trans x y z _ _ ihxy ihyz => exact ihxy.trans ihyz

theorem Represents.eq_iff (h : Represents linked below rep) {x y : κ} :
    rep x = rep y ↔ EqvGen linked x y := by
  refine ⟨fun hxy => ?_, h.shared_of_connected⟩
  have hx := h.member x
  rw [hxy] at hx
  exact hx.trans _ _ _ (h.member y).symm

/-- `r` is the least element that `x` is connected to. -/
def Leads (linked : κ → κ → Prop) (below : κ → κ → Bool) (r x : κ) : Prop :=
  EqvGen linked r x ∧ ∀ y, EqvGen linked y x → y = r ∨ below r y = true

theorem Represents.leads (h : Represents linked below rep) (x : κ) :
    Leads linked below (rep x) x := by
  refine ⟨(h.member x).symm, fun y hy => ?_⟩
  have hle := h.least y
  rw [h.shared_of_connected hy] at hle
  exact hle.imp_left Eq.symm

theorem Represents.eq_of_leads (h : Represents linked below rep)
    (hirrefl : ∀ x, below x x = false)
    (htrans : ∀ x y z, below x y = true → below y z = true → below x z = true) {r x : κ}
    (hr : Leads linked below r x) : r = rep x := by
  obtain ⟨hmem, hleast⟩ := h.leads x
  rcases hr.2 (rep x) hmem with heq | hbelow
  · exact heq.symm
  · rcases hleast r hr.1 with heq | hbelow'
    · exact heq
    · exact absurd (htrans _ _ _ hbelow hbelow') (by rw [hirrefl]; exact Bool.false_ne_true)

theorem Represents.congr {linked' : κ → κ → Prop} (h : Represents linked below rep)
    (heq : ∀ x y, linked x y ↔ linked' x y) : Represents linked' below rep := by
  have hsame : linked = linked' := funext fun x => funext fun y => propext (heq x y)
  exact hsame ▸ h

/-- A pair of one set changes nothing. -/
theorem Represents.skip (h : Represents linked below rep) {a b : κ} (hab : rep a = rep b) :
    Represents (fun x y => linked x y ∨ x = a ∧ y = b) below rep where
  member x := (h.member x).mono fun _ _ => Or.inl
  shared x y := by
    rintro (hxy | ⟨rfl, rfl⟩)
    · exact h.shared x y hxy
    · exact hab
  least := h.least

/-- A pair of two sets makes one of them, under the lower of the two representatives. -/
theorem Represents.merge (h : Represents linked below rep)
    (htrans : ∀ x y z, below x y = true → below y z = true → below x z = true) {a b winner loser : κ}
    [DecidableEq κ] (hab : rep a = winner ∧ rep b = loser ∨ rep a = loser ∧ rep b = winner)
    (hbelow : below winner loser = true) :
    Represents (fun x y => linked x y ∨ x = a ∧ y = b) below
      fun x => if rep x = loser then winner else rep x where
  member x := by
    have hold : ∀ y z, EqvGen linked y z → EqvGen (fun x y => linked x y ∨ x = a ∧ y = b) y z :=
      fun y z hyz => hyz.mono fun _ _ => Or.inl
    have hpair : EqvGen (fun x y => linked x y ∨ x = a ∧ y = b) a b := .rel a b (Or.inr ⟨rfl, rfl⟩)
    have ha := hold _ _ (h.member a)
    have hb := hold _ _ (h.member b)
    have hjoin : EqvGen (fun x y => linked x y ∨ x = a ∧ y = b) loser winner := by
      rcases hab with ⟨hwin, hlose⟩ | ⟨hlose, hwin⟩
      · rw [hwin] at ha
        rw [hlose] at hb
        exact (hb.symm.trans _ _ _ hpair.symm).trans _ _ _ ha
      · rw [hlose] at ha
        rw [hwin] at hb
        exact (ha.symm.trans _ _ _ hpair).trans _ _ _ hb
    have hx := hold _ _ (h.member x)
    split_ifs with hlose
    · rw [hlose] at hx
      exact hx.trans _ _ _ hjoin
    · exact hx
  shared x y := by
    rintro (hxy | ⟨rfl, rfl⟩)
    · rw [h.shared x y hxy]
    · rcases hab with ⟨hwin, hlose⟩ | ⟨hlose, hwin⟩
      · simp [hwin, hlose]
      · simp [hwin, hlose]
  least x := by
    split_ifs with hlose
    · have hx := h.least x
      rw [hlose] at hx
      rcases hx with rfl | hx
      · exact Or.inr hbelow
      · exact Or.inr (htrans _ _ _ hbelow hx)
    · exact h.least x

end

end

end Turma.Lib
