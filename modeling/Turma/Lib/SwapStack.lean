import Mathlib.Order.Basic

/-! Compare-and-swaps that may be undone. The swaps in effect lie one on another, each with a
token of its own that marks the value it wrote, so an undo that finds its own value finds its own
swap on top. -/

namespace Turma.Lib

open List

structure Swap (τ ν : Type*) where
  token : τ
  before : ν
  after : ν

namespace Swap

variable {τ ν : Type*} {marks : ν → τ → Prop} {base : ν} {f g : Swap τ ν} {fs : List (Swap τ ν)}

/-- The value in force, `base` before any swap. -/
def top (base : ν) : List (Swap τ ν) → ν
  | [] => base
  | f :: _ => f.after

/-- The swaps in effect, the last one first. `marks v t` says that `v` shows the token `t`. -/
def Stacked (marks : ν → τ → Prop) (base : ν) : List (Swap τ ν) → Prop
  | [] => True
  | f :: fs => f.before = top base fs ∧ marks f.after f.token ∧ ¬ marks base f.token ∧
      (∀ g ∈ fs, ¬ marks g.after f.token) ∧ Stacked marks base fs

theorem Stacked.tail (h : Stacked marks base (f :: fs)) : Stacked marks base fs := h.2.2.2.2

theorem Stacked.push (h : Stacked marks base fs) (hbefore : f.before = top base fs)
    (hmark : marks f.after f.token) (hbase : ¬ marks base f.token)
    (hnew : ∀ g ∈ fs, ¬ marks g.after f.token) : Stacked marks base (f :: fs) :=
  ⟨hbefore, hmark, hbase, hnew, h⟩

/-- A swap whose value is in force is the last one. -/
theorem Stacked.eq_head (h : Stacked marks base (f :: fs)) (hg : g ∈ f :: fs)
    (hafter : g.after = f.after) : g = f := by
  rcases mem_cons.mp hg with rfl | hg
  · rfl
  · refine absurd ?_ (h.2.2.2.1 g hg)
    rw [hafter]
    exact h.2.1

variable {le : ν → ν → Prop}

/-- No value a swap wrote is above the one in force, when each swap raises what it finds. -/
theorem Stacked.le_top (hrefl : ∀ v, le v v) (htrans : ∀ u v w, le u v → le v w → le u w)
    (h : Stacked marks base fs) (hraise : ∀ g ∈ fs, le g.before g.after) (hg : g ∈ fs) :
    le g.after (top base fs) := by
  induction fs with
  | nil => simp at hg
  | cons f fs ih =>
    rcases mem_cons.mp hg with rfl | hg
    · exact hrefl _
    · have hbelow := ih h.tail (fun g hg => hraise g (mem_cons_of_mem f hg)) hg
      have hf := hraise f mem_cons_self
      rw [h.1] at hf
      exact htrans _ _ _ hbelow hf

/-- Of two swaps in effect the later one found what the earlier one wrote, or more. -/
theorem Stacked.comparable (hrefl : ∀ v, le v v) (htrans : ∀ u v w, le u v → le v w → le u w)
    (h : Stacked marks base fs) (hraise : ∀ g ∈ fs, le g.before g.after) (hf : f ∈ fs)
    (hg : g ∈ fs) : f = g ∨ le f.after g.before ∨ le g.after f.before := by
  induction fs with
  | nil => simp at hf
  | cons k fs ih =>
    have hraise' : ∀ g ∈ fs, le g.before g.after := fun g hg => hraise g (mem_cons_of_mem k hg)
    rcases mem_cons.mp hf with rfl | hf' <;> rcases mem_cons.mp hg with rfl | hg'
    · exact Or.inl rfl
    · refine Or.inr (Or.inr ?_)
      rw [h.1]
      exact h.tail.le_top hrefl htrans hraise' hg'
    · refine Or.inr (Or.inl ?_)
      rw [h.1]
      exact h.tail.le_top hrefl htrans hraise' hf'
    · exact ih h.tail hraise' hf' hg'

end Swap

end Turma.Lib
