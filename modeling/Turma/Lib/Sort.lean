import Mathlib.Data.List.Basic
import Mathlib.Data.List.MinMax
import Mathlib.Data.List.Nodup
import Mathlib.Data.List.Perm.Basic

/-! Sorting by a comparator, and what is left of a list without some of its elements. -/

namespace Turma.Lib

open List

variable {α β : Type*}

variable {le : α → α → Bool} {R : α → α → Prop}

/-- A merge is in the order of any relation that the comparator decides, also where the comparator
does not call equal elements equal. -/
theorem pairwise_merge_of
    (htrans : ∀ a b c, R a b → R b c → R a c) (hle : ∀ a b, le a b = true → R a b)
    (hgt : ∀ a b, le a b = false → R b a) {xs ys : List α} (hx : xs.Pairwise R)
    (hy : ys.Pairwise R) : (xs.merge ys le).Pairwise R := by
  induction xs generalizing ys with
  | nil => simpa using hy
  | cons x xs ihx =>
    induction ys with
    | nil => simpa using hx
    | cons y ys ihy =>
      have hx' := pairwise_cons.mp hx
      have hy' := pairwise_cons.mp hy
      rw [cons_merge_cons]
      cases h : le x y with
      | true =>
        rw [if_pos rfl]
        refine pairwise_cons.mpr ⟨fun z hz => ?_, ihx hx'.2 hy⟩
        rcases mem_merge.mp hz with hz | hz
        · exact hx'.1 z hz
        · rcases mem_cons.mp hz with rfl | hz
          · exact hle x z h
          · exact htrans x y z (hle x y h) (hy'.1 z hz)
      | false =>
        rw [if_neg Bool.false_ne_true]
        refine pairwise_cons.mpr ⟨fun z hz => ?_, ihy hy'.2⟩
        rcases mem_merge.mp hz with hz | hz
        · rcases mem_cons.mp hz with rfl | hz
          · exact hgt z y h
          · exact htrans y x z (hgt x y h) (hx'.1 z hz)
        · exact hy'.1 z hz

theorem pairwise_mergeSort_of
    (htrans : ∀ a b c, R a b → R b c → R a c) (hle : ∀ a b, le a b = true → R a b)
    (hgt : ∀ a b, le a b = false → R b a) : ∀ xs : List α, (xs.mergeSort le).Pairwise R
  | [] => by simp
  | [a] => by simp
  | a :: b :: xs => by
    rw [List.mergeSort]
    exact pairwise_merge_of htrans hle hgt (pairwise_mergeSort_of htrans hle hgt _)
      (pairwise_mergeSort_of htrans hle hgt _)
termination_by xs => xs.length

/-- Without the first part, as its elements are told apart by `f`, a list is its second part. -/
theorem filter_outside [BEq β] [LawfulBEq β] {f : α → β} {xs ys : List α}
    (h : ((xs ++ ys).map f).Nodup) : (xs ++ ys).filter (fun x => f x ∉ xs.map f) = ys := by
  rw [map_append, nodup_append] at h
  have hnone : xs.filter (fun x => f x ∉ xs.map f) = [] := by
    rw [filter_eq_nil_iff]
    intro x hx
    simpa using ⟨x, hx, rfl⟩
  have hall : ys.filter (fun x => f x ∉ xs.map f) = ys := by
    rw [filter_eq_self]
    intro y hy
    rw [decide_eq_true_eq]
    exact fun hmem => h.2.2 _ hmem _ (mem_map_of_mem hy) rfl
  rw [filter_append, hnone, hall, nil_append]

/-- The loop that keeps the first of the largest. -/
theorem foldl_largest (use : α → Bool) (w : α → ℕ) (xs : List α) :
    xs.foldl (fun (big : Option α) x =>
      if use x = true ∧ big.all (fun b => w b < w x) = true then some x else big) none =
      (xs.filter use).argmax w := by
  rw [List.argmax, foldl_filter]
  congr 1
  funext big x
  cases big with
  | none => simp [List.argAux]
  | some b =>
    cases hx : use x with
    | false => simp
    | true => simp [List.argAux]

variable {l : List α}

/-- Of two elements of a list without duplicates one comes before the other. -/
theorem pair_sublist_or {a b : α} (ha : a ∈ l) (hb : b ∈ l)
    (hne : a ≠ b) : [a, b].Sublist l ∨ [b, a].Sublist l := by
  induction l with
  | nil => cases ha
  | cons x l ih =>
    rcases mem_cons.mp ha with rfl | ha'
    · rcases mem_cons.mp hb with rfl | hb'
      · exact absurd rfl hne
      · exact .inl ((singleton_sublist.mpr hb').cons_cons a)
    · rcases mem_cons.mp hb with rfl | hb'
      · exact .inr ((singleton_sublist.mpr ha').cons_cons b)
      · exact (ih ha' hb').imp (.cons x) (.cons x)

theorem not_both_sublist (hl : l.Nodup) {a b : α} (hab : [a, b].Sublist l) :
    ¬ [b, a].Sublist l := by
  induction l with
  | nil => cases hab
  | cons x l ih =>
    have hl' := nodup_cons.mp hl
    intro hba
    rcases cons_sublist_cons'.mp hab with hab' | ⟨rfl, hb⟩
    · rcases cons_sublist_cons'.mp hba with hba' | ⟨rfl, -⟩
      · exact ih hl'.2 hab' hba'
      · exact hl'.1 (hab'.subset (by simp))
    · rcases cons_sublist_cons'.mp hba with hba' | ⟨rfl, -⟩
      · exact hl'.1 (hba'.subset (by simp))
      · exact hl'.1 (singleton_sublist.mp hb)

theorem eraseDups_of_nodup [BEq α] [LawfulBEq α] (h : l.Nodup) :
    l.eraseDups = l := by
  induction l with
  | nil => rfl
  | cons a l ih =>
    obtain ⟨ha, hl⟩ := nodup_cons.mp h
    have hrest : l.filter (fun b => !b == a) = l :=
      filter_eq_self.mpr fun b hb => by
        have hne : b ≠ a := fun hba => ha (hba ▸ hb)
        simpa using hne
    rw [eraseDups_cons, hrest, ih hl]

theorem nodup_eraseDups [BEq α] [LawfulBEq α] (l : List α) : l.eraseDups.Nodup := by
  induction hn : l.length using Nat.strong_induction_on generalizing l with
  | _ n ih =>
    cases l with
    | nil => exact nodup_nil
    | cons a l =>
      rw [eraseDups_cons]
      have hlt : (l.filter fun b => !b == a).length < n := by
        have hle := length_filter_le (fun b => !b == a) l
        rw [length_cons] at hn
        omega
      refine nodup_cons.mpr ⟨fun ha => ?_, ih _ hlt _ rfl⟩
      have hmem := mem_filter.mp (mem_eraseDups.mp ha)
      simp at hmem

end Turma.Lib
