import Turma.Lib.OrdMap

/-! How many values of a map pass a test, from one map to another. -/

namespace Turma.Lib.OrdMap

open List Option

variable {κ α β : Type*} {m : OrdMap κ α} {m' : OrdMap κ β} {p : α → Bool} {q : β → Bool}

theorem length_passing (m : OrdMap κ α) (p : α → Bool) :
    m.values.countP p = ((m.entries.filter fun e => p e.2).map (·.1)).length := by
  rw [length_map, values, countP_map, countP_eq_length_filter]
  rfl

theorem nodup_passing (m : OrdMap κ α) (p : α → Bool) :
    ((m.entries.filter fun e => p e.2).map (·.1)).Nodup :=
  m.nodup.sublist (filter_sublist.map _)

theorem size_eq_countP (m : OrdMap κ α) : m.size = m.values.countP fun _ => true := by
  simp [size, values]

variable [DecidableEq κ]

theorem mem_passing {k : κ} :
    k ∈ (m.entries.filter fun e => p e.2).map (·.1) ↔ ∃ v, m.get? k = some v ∧ p v = true := by
  constructor
  · intro h
    obtain ⟨e, he, rfl⟩ := List.mem_map.mp h
    obtain ⟨he, hp⟩ := mem_filter.mp he
    exact ⟨e.2, get?_eq_some.mpr he, hp⟩
  · rintro ⟨v, hv, hp⟩
    exact List.mem_map.mpr ⟨(k, v), mem_filter.mpr ⟨get?_eq_some.mp hv, hp⟩, rfl⟩

/-- A map whose passing values all come from passing ones under the same keys has no more of them. -/
theorem countP_le_of_back
    (h : ∀ k w, m'.get? k = some w → q w = true → ∃ v, m.get? k = some v ∧ p v = true) :
    m'.values.countP q ≤ m.values.countP p := by
  rw [length_passing, length_passing]
  refine ((nodup_passing m' q).subperm fun k hk => ?_).length_le
  obtain ⟨w, hw, hq⟩ := mem_passing.mp hk
  exact mem_passing.mpr (h k w hw hq)

theorem size_le_of_back (h : ∀ k, m'.get? k ≠ none → m.get? k ≠ none) : m'.size ≤ m.size := by
  rw [size_eq_countP, size_eq_countP]
  refine countP_le_of_back fun k w hw _ => ?_
  obtain ⟨v, hv⟩ := ne_none_iff_exists'.mp (h k (by rw [hw]; simp))
  exact ⟨v, hv, rfl⟩

theorem values_upsert_of_absent {k : κ} (hk : m.get? k = none) (f : Option α → α) :
    (m.upsert k f).values = m.values ++ [f none] := by
  have hnot : k ∉ m.entries.map Prod.fst := get?_eq_none.mp hk
  simp only [upsert, values]
  generalize m.entries = entries at hnot ⊢
  induction entries with
  | nil => rfl
  | cons e es ih =>
    rw [map_cons, mem_cons, not_or] at hnot
    rw [upsertEntry, if_neg (Ne.symm hnot.1), map_cons, map_cons, ih hnot.2, cons_append]

end Turma.Lib.OrdMap

namespace Turma.Lib.OrdMap

variable {κ α ρ : Type*}

def sumWhere (m : OrdMap κ α) (p : κ → Bool) (w : α → ℕ) : ℕ :=
  ((m.entries.filter fun e => p e.1).map fun e => w e.2).sum

variable {m : OrdMap κ α} {p q : κ → Bool} {w : α → ℕ}

theorem sumWhere_true (m : OrdMap κ α) (w : α → ℕ) :
    m.sumWhere (fun _ => true) w = (m.values.map w).sum := by
  rw [sumWhere, values, List.map_map, List.filter_eq_self.mpr fun _ _ => rfl]
  rfl

variable [DecidableEq κ]

end Turma.Lib.OrdMap
