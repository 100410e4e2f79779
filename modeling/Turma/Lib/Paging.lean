import Mathlib.Data.List.Basic
import Mathlib.Data.List.Nodup
import Mathlib.Data.Nat.Notation
import Mathlib.Order.Lattice

/-! Tables that are read page by page with LIMIT and OFFSET while rows come and go. -/

namespace Turma.Lib

structure Table (K V : Type*) [LinearOrder K] where
  rows : List (K × V)
  sorted : (rows.map Prod.fst).Pairwise (· < ·)

structure Pager (K V : Type*) where
  offset : ℕ := 0
  passed : List (K × V) := []
  done : Bool := false

variable {K V : Type*} [LinearOrder K]

/-- `INSERT ... ON CONFLICT`: `f` is given the row that has the key. -/
def putRow (k : K) (f : Option V → V) : List (K × V) → List (K × V)
  | [] => [(k, f none)]
  | (k', v) :: rows =>
    if k < k' then (k, f none) :: (k', v) :: rows
    else if k = k' then (k, f (some v)) :: rows
    else (k', v) :: putRow k f rows

variable {rows : List (K × V)}

theorem mem_keys_putRow {k k' : K} {f : Option V → V} :
    k' ∈ (putRow k f rows).map Prod.fst ↔ k' = k ∨ k' ∈ rows.map Prod.fst := by
  induction rows with
  | nil => simp [putRow]
  | cons r rows ih =>
    obtain ⟨a, v⟩ := r
    rw [putRow]
    split_ifs with hlt heq
    · simp
    · subst heq
      simp
    · rw [List.map_cons, List.mem_cons, ih, List.map_cons, List.mem_cons]
      tauto

theorem sorted_putRow (k : K) (f : Option V → V)
    (h : (rows.map Prod.fst).Pairwise (· < ·)) :
    ((putRow k f rows).map Prod.fst).Pairwise (· < ·) := by
  induction rows with
  | nil => simp [putRow]
  | cons r rows ih =>
    obtain ⟨a, v⟩ := r
    rw [List.map_cons, List.pairwise_cons] at h
    rw [putRow]
    split_ifs with hlt heq
    · rw [List.map_cons, List.pairwise_cons, List.map_cons, List.pairwise_cons]
      refine ⟨fun b hb => ?_, h⟩
      rcases List.mem_cons.mp hb with rfl | hb
      · exact hlt
      · exact hlt.trans (h.1 b hb)
    · subst heq
      exact List.pairwise_cons.mpr h
    · rw [List.map_cons, List.pairwise_cons]
      refine ⟨fun b hb => ?_, ih h.2⟩
      rcases mem_keys_putRow.mp hb with rfl | hb
      · exact lt_of_le_of_ne (not_lt.mp hlt) (Ne.symm heq)
      · exact h.1 b hb

variable {t : Table K V} {k : K}

namespace Table

def keys (t : Table K V) : List K := t.rows.map Prod.fst

def put (t : Table K V) (k : K) (f : Option V → V) : Table K V :=
  ⟨putRow k f t.rows, sorted_putRow k f t.sorted⟩

def remove (t : Table K V) (p : K → Bool) : Table K V :=
  ⟨t.rows.filter fun r => !p r.1, t.sorted.sublist (List.filter_sublist.map _)⟩

def update (t : Table K V) (p : K → Bool) (f : V → V) : Table K V where
  rows := t.rows.map fun r => if p r.1 = true then (r.1, f r.2) else r
  sorted := by
    have hkeys : (t.rows.map fun r => if p r.1 = true then (r.1, f r.2) else r).map Prod.fst =
        t.rows.map Prod.fst := by
      rw [List.map_map]
      refine List.map_congr_left fun r _ => ?_
      rw [Function.comp_apply]
      split_ifs <;> rfl
    rw [hkeys]
    exact t.sorted

/-- `ORDER BY` the key, with LIMIT and OFFSET. -/
def page (t : Table K V) (limit offset : ℕ) : List (K × V) := (t.rows.drop offset).take limit

theorem nodup_keys (t : Table K V) : t.keys.Nodup := t.sorted.imp fun hlt => ne_of_lt hlt

theorem mem_keys : k ∈ t.keys ↔ ∃ v, (k, v) ∈ t.rows := by
  simp [keys]

/-- The table changes among its first `n` rows: another key is there, or one is gone. -/
def Shifted (t t' : Table K V) (n : ℕ) : Prop := t'.keys.take n ≠ t.keys.take n

instance (t t' : Table K V) (n : ℕ) : Decidable (t.Shifted t' n) :=
  inferInstanceAs (Decidable (_ ≠ _))

/-- A row shifts the table when it is new and comes before one of the first `n`. -/
theorem shifted_put (t : Table K V) (k : K) (f : Option V → V) {n : ℕ} (hn : n ≤ t.keys.length) :
    t.Shifted (t.put k f) n ↔ k ∉ t.keys ∧ ∃ k' ∈ t.keys.take n, k < k' := by
  obtain ⟨rows, hsorted⟩ := t
  simp only [Shifted, keys, put] at hsorted hn ⊢
  induction rows generalizing n with
  | nil =>
    cases n with
    | zero => simp
    | succ n => simp at hn
  | cons r rows ih =>
    obtain ⟨a, v⟩ := r
    cases n with
    | zero => simp
    | succ n =>
      rw [putRow]
      split_ifs with hlt heq
      · have hfirst : ∀ b ∈ rows.map Prod.fst, k ≠ b := fun b hb =>
          (hlt.trans ((List.pairwise_cons.mp hsorted).1 b hb)).ne
        simp only [List.map_cons, List.take_succ_cons, ne_eq, List.cons.injEq, hlt.ne, false_and,
          not_false_eq_true, List.mem_cons, false_or, exists_eq_or_imp, hlt, true_or, and_true, true_iff]
        exact fun hmem => hfirst k hmem rfl
      · subst heq
        simp
      · have hrest := ih (List.pairwise_cons.mp hsorted).2 (Nat.le_of_succ_le_succ hn)
        simp only [List.map_cons, List.take_succ_cons, ne_eq, List.cons.injEq, true_and,
          List.mem_cons, exists_eq_or_imp, hlt, false_or, heq] at hrest ⊢
        exact hrest

theorem shifted_remove (t : Table K V) (p : K → Bool) (n : ℕ) :
    t.Shifted (t.remove p) n ↔ ∃ k ∈ t.keys.take n, p k = true := by
  obtain ⟨rows, hsorted⟩ := t
  simp only [Shifted, keys, remove] at hsorted ⊢
  constructor
  · intro hne
    by_contra hkeep
    refine hne ?_
    clear hne hsorted
    induction rows generalizing n with
    | nil => rfl
    | cons r rows ih =>
      cases n with
      | zero => rfl
      | succ n =>
        simp only [List.map_cons, List.take_succ_cons, List.mem_cons, exists_eq_or_imp, not_or] at hkeep
        rw [List.filter_cons_of_pos (by simpa using hkeep.1), List.map_cons, List.take_succ_cons,
          ih n hkeep.2, List.map_cons, List.take_succ_cons]
  · rintro ⟨k, hk, hp⟩ heq
    rw [← heq] at hk
    obtain ⟨r, hr, rfl⟩ := List.mem_map.mp (List.mem_of_mem_take hk)
    simp [hp] at hr

end Table

variable {p : Pager K V} {S : V → Prop}

namespace Pager

/-- One query and what is done with its page. -/
def query (limit : ℕ) (t : Table K V) (p : Pager K V) : Pager K V :=
  if p.done = true then p
  else
    let rows := t.page limit p.offset
    if rows.length < limit then { p with passed := p.passed ++ rows, done := true }
    else { p with passed := p.passed ++ rows, offset := p.offset + limit }

def times (p : Pager K V) (k : K) : ℕ := (p.passed.map Prod.fst).count k

/-- What has been passed is the first rows of the table as it is now. -/
structure Follows (p : Pager K V) (t : Table K V) : Prop where
  keys : p.done = false → p.passed.map Prod.fst = t.keys.take p.offset
  room : p.done = false → p.offset ≤ t.keys.length
  nodup : (p.passed.map Prod.fst).Nodup

/-- A row that is there, with a value of `S`, has been passed with one, or it is still to come. -/
def Serves (p : Pager K V) (t : Table K V) (k : K) (S : V → Prop) : Prop :=
  (∃ v, S v ∧ (k, v) ∈ p.passed) ∨ p.done = false ∧ k ∉ t.keys.take p.offset

theorem follows_start (t : Table K V) : Follows {} t where
  keys _ := by simp
  room _ := Nat.zero_le _
  nodup := by simp

theorem serves_start (t : Table K V) (k : K) (S : V → Prop) : Serves {} t k S :=
  .inr ⟨rfl, by simp⟩

theorem Follows.changed {t t' : Table K V} (h : p.Follows t)
    (hkeep : p.done = true ∨ ¬ t.Shifted t' p.offset) : p.Follows t' where
  keys hdone := by
    rcases hkeep with htrue | hkeep
    · exact absurd (htrue.symm.trans hdone) (by simp)
    · rw [h.keys hdone, ← not_not.mp hkeep]
  room hdone := by
    rcases hkeep with htrue | hkeep
    · exact absurd (htrue.symm.trans hdone) (by simp)
    · have hlen := congrArg List.length (not_not.mp hkeep)
      have hroom := h.room hdone
      rw [List.length_take, List.length_take] at hlen
      omega
  nodup := h.nodup

theorem Serves.changed {t t' : Table K V}
    (h : p.Serves t k S) (hkeep : p.done = true ∨ ¬ t.Shifted t' p.offset) : p.Serves t' k S := by
  refine h.imp_right fun ⟨hdone, hk⟩ => ⟨hdone, ?_⟩
  rcases hkeep with htrue | hkeep
  · exact absurd (htrue.symm.trans hdone) (by simp)
  · rw [not_not.mp hkeep]
    exact hk

/-- What a query passes on is what is next in the table. -/
theorem Follows.keys_append (h : p.Follows t)
    (hdone : p.done = false) (limit : ℕ) :
    (p.passed ++ t.page limit p.offset).map Prod.fst = t.keys.take (p.offset + limit) := by
  rw [List.map_append, h.keys hdone, List.take_add, Table.page, Table.keys, List.map_take,
    List.map_drop]

theorem Follows.query (h : p.Follows t) (limit : ℕ) :
    (p.query limit t).Follows t := by
  rw [Pager.query]
  by_cases hdone : p.done = true
  · rw [if_pos hdone]
    exact h
  · have hkeys := h.keys_append (Bool.eq_false_iff.mpr hdone) limit
    rw [if_neg hdone]
    dsimp only
    have hnodup : ((p.passed ++ t.page limit p.offset).map Prod.fst).Nodup := by
      rw [hkeys]
      exact t.nodup_keys.sublist (List.take_sublist _ _)
    split_ifs with hshort
    · exact ⟨nofun, nofun, hnodup⟩
    · refine ⟨fun _ => hkeys, fun _ => ?_, hnodup⟩
      have hroom := h.room (Bool.eq_false_iff.mpr hdone)
      rw [Table.page, List.length_take, List.length_drop] at hshort
      rw [Table.keys, List.length_map] at hroom ⊢
      dsimp only
      omega

/-- The last page is the end of the table. -/
theorem length_le_of_short {limit offset : ℕ}
    (h : (t.page limit offset).length < limit) : t.keys.length ≤ offset + limit := by
  rw [Table.page, List.length_take, List.length_drop] at h
  rw [Table.keys, List.length_map]
  omega

theorem Serves.query (h : p.Serves t k S) (hin : ∃ v, S v ∧ (k, v) ∈ t.rows) (limit : ℕ) :
    (p.query limit t).Serves t k S := by
  rw [Pager.query]
  rcases h with ⟨v, hv, hmem⟩ | ⟨hdone, hk⟩
  · split_ifs
    · exact .inl ⟨v, hv, hmem⟩
    · dsimp only
      split_ifs <;> exact .inl ⟨v, hv, List.mem_append_left _ hmem⟩
  · rw [if_neg (by simp [hdone])]
    obtain ⟨v, hv, hrow⟩ := hin
    -- the row is in the page, or behind it
    have hpage : k ∈ t.keys.take (p.offset + limit) → (k, v) ∈ t.page limit p.offset := by
      intro hmem
      rw [Table.keys, ← List.map_take] at hmem hk
      rw [List.take_add] at hmem
      obtain ⟨⟨k', v'⟩, hr, rfl⟩ := List.mem_map.mp hmem
      rcases List.mem_append.mp hr with hr | hr
      · exact absurd (List.mem_map_of_mem hr) hk
      · have hback : (k', v') ∈ t.rows := List.mem_of_mem_drop (List.mem_of_mem_take hr)
        have hsame := List.inj_on_of_nodup_map t.nodup_keys hback hrow rfl
        rw [← hsame]
        exact hr
    dsimp only
    split_ifs with hshort
    · refine .inl ⟨v, hv, List.mem_append_right _ (hpage ?_)⟩
      rw [List.take_of_length_le (length_le_of_short hshort)]
      exact Table.mem_keys.mpr ⟨v, hrow⟩
    · by_cases hmem : k ∈ t.keys.take (p.offset + limit)
      · exact .inl ⟨v, hv, List.mem_append_right _ (hpage hmem)⟩
      · exact .inr ⟨hdone, hmem⟩

/-- A row of which this holds at the end has been passed exactly once. -/
theorem Serves.once (hf : p.Follows t)
    (h : p.Serves t k S) (hdone : p.done = true) :
    p.times k = 1 ∧ ∃ v, S v ∧ (k, v) ∈ p.passed := by
  rcases h with ⟨v, hv, hmem⟩ | ⟨hno, -⟩
  · exact ⟨List.count_eq_one_of_mem hf.nodup (List.mem_map_of_mem hmem), v, hv, hmem⟩
  · exact absurd (hdone.symm.trans hno) (by simp)

end Pager

end Turma.Lib
