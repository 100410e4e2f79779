import Mathlib.Data.List.Sort
import Mathlib.Data.Prod.Lex
import Mathlib.Order.Compare

/-! `Array.prototype.sort`: stable by a comparator that is an order on the elements. What any other
comparator gives is left to the engine. -/

namespace Turma.Lib

open List

/-- A comparator that is an order on the elements of `xs`. -/
structure Consistent {α : Type} (cmp : α → α → Ordering) (xs : List α) : Prop where
  swap : ∀ a ∈ xs, ∀ b ∈ xs, cmp b a = (cmp a b).swap
  trans : ∀ a ∈ xs, ∀ b ∈ xs, ∀ c ∈ xs,
    (cmp a b).isLE = true → (cmp b c).isLE = true → (cmp a c).isLE = true

structure JsSort where
  sort : {α : Type} → (α → α → Ordering) → List α → List α
  perm : ∀ {α : Type} (cmp : α → α → Ordering) (xs : List α), (sort cmp xs).Perm xs
  ordered : ∀ {α : Type} {cmp : α → α → Ordering} {xs : List α}, Consistent cmp xs →
    (sort cmp xs).Pairwise fun a b => (cmp a b).isLE = true
  stable : ∀ {α : Type} {cmp : α → α → Ordering} {xs : List α} {a b : α}, Consistent cmp xs →
    [a, b].Sublist xs → (cmp a b).isLE = true → [a, b].Sublist (sort cmp xs)

section

variable {α β : Type} [LinearOrder β]

theorem isLE_compare (a b : β) : (compare a b).isLE = true ↔ a ≤ b := by
  rw [← Ordering.ne_gt_iff_isLE]
  exact compare_le_iff_le

theorem consistent_of_compare {cmp : α → α → Ordering} {xs : List α} (f : α → β)
    (h : ∀ a ∈ xs, ∀ b ∈ xs, cmp a b = compare (f a) (f b)) : Consistent cmp xs where
  swap a ha b hb := by
    rw [h a ha b hb, h b hb a ha]
    exact Std.OrientedCmp.eq_swap
  trans a ha b hb c hc := by
    rw [h a ha b hb, h b hb c hc, h a ha c hc]
    exact Std.TransCmp.isLE_trans

/-- The comparator that goes on where `a` and `a'` are equal. -/
theorem compare_else (a a' : β) (o : Ordering) :
    (if a ≠ a' then compare a a' else o) = (compare a a').then o := by
  split_ifs with h
  · rcases lt_or_gt_of_ne h with h | h
    · rw [compare_lt_iff_lt.mpr h]
      rfl
    · rw [compare_gt_iff_gt.mpr h]
      rfl
  · rw [compare_eq_iff_eq.mpr (not_not.mp h)]
    rfl

/-- Pairs are compared by their first components, and by the second ones where these agree. -/
theorem compare_toLex {γ : Type} [LinearOrder γ] (a a' : β) (b b' : γ) :
    compare (toLex (a, b)) (toLex (a', b')) = (compare a a').then (compare b b') := by
  have hlt : ∀ {p q : β × γ}, p.1 < q.1 ∨ p.1 = q.1 ∧ p.2 < q.2 → toLex p < toLex q :=
    Prod.Lex.toLex_lt_toLex.mpr
  rw [← compare_else]
  split_ifs with h
  · rcases lt_or_gt_of_ne h with h | h
    · rw [compare_lt_iff_lt.mpr h, compare_lt_iff_lt.mpr (hlt (.inl h))]
    · rw [compare_gt_iff_gt.mpr h, compare_gt_iff_gt.mpr (hlt (.inl h))]
  · rw [not_not] at h
    rcases lt_trichotomy b b' with hb | rfl | hb
    · rw [compare_lt_iff_lt.mpr hb, compare_lt_iff_lt.mpr (hlt (.inr ⟨h, hb⟩))]
    · rw [compare_eq_iff_eq.mpr rfl, compare_eq_iff_eq.mpr (by rw [h])]
    · rw [compare_gt_iff_gt.mpr hb, compare_gt_iff_gt.mpr (hlt (.inr ⟨h.symm, hb⟩))]

end

def within {α : Type} (cmp : α → α → Ordering) (xs : List α) (a b : {x // x ∈ xs}) : Prop :=
  (cmp a.1 b.1).isLE = true

instance {α : Type} (cmp : α → α → Ordering) (xs : List α) : DecidableRel (within cmp xs) :=
  fun a b => inferInstanceAs (Decidable ((cmp a.1 b.1).isLE = true))

theorem Consistent.total {α : Type} {cmp : α → α → Ordering} {xs : List α}
    (h : Consistent cmp xs) : Std.Total (within cmp xs) where
  total a b := by
    unfold within
    rw [h.swap a.1 a.2 b.1 b.2]
    cases cmp a.1 b.1 <;> simp

theorem Consistent.isTrans {α : Type} {cmp : α → α → Ordering} {xs : List α}
    (h : Consistent cmp xs) : IsTrans {x // x ∈ xs} (within cmp xs) where
  trans a b c := h.trans a.1 a.2 b.1 b.2 c.1 c.2

def insertion : JsSort where
  sort {_} cmp xs := (List.insertionSort (within cmp xs) xs.attach).map Subtype.val
  perm {_} cmp xs := by
    have h := (perm_insertionSort (within cmp xs) xs.attach).map Subtype.val
    rwa [attach_map_subtype_val] at h
  ordered {_ cmp xs} h := by
    have := h.total
    have := h.isTrans
    exact pairwise_map.mpr (pairwise_insertionSort (within cmp xs) xs.attach)
  stable {_ cmp xs a b} h hsub hle := by
    have := h.total
    have := h.isTrans
    have ha : a ∈ xs := hsub.subset mem_cons_self
    have hb : b ∈ xs := hsub.subset (.tail _ mem_cons_self)
    have hattach : [(⟨a, ha⟩ : {x // x ∈ xs}), ⟨b, hb⟩].Sublist xs.attach := by
      rw [← attach_map_subtype_val xs] at hsub
      obtain ⟨l, hl, heq⟩ := sublist_map_iff.mp hsub
      obtain ⟨x, y, rfl⟩ : ∃ x y, l = [x, y] := by
        match l, heq with
        | [x, y], _ => exact ⟨x, y, rfl⟩
      simp only [map_cons, map_nil, List.cons.injEq, and_true] at heq
      obtain ⟨rfl, rfl⟩ := heq
      exact hl
    have hwithin : within cmp xs ⟨a, ha⟩ ⟨b, hb⟩ := hle
    exact (pair_sublist_insertionSort hwithin hattach).map Subtype.val

end Turma.Lib
