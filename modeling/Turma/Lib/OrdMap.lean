import Mathlib.Algebra.BigOperators.Group.Finset.Basic
import Mathlib.Algebra.GroupWithZero.Nat
import Mathlib.Data.List.Nodup

/-! Finite maps that keep the order their keys were first inserted in, each key once. A
write to a present key changes it in place and a write to a new key goes last. -/

namespace Turma.Lib

open Option

structure OrdMap (κ α : Type*) where
  entries : List (κ × α)
  nodup : (entries.map Prod.fst).Nodup

namespace OrdMap

variable {κ α β : Type*}

def lookup [DecidableEq κ] (k : κ) : List (κ × α) → Option α
  | [] => none
  | (k', v) :: es => if k' = k then some v else lookup k es

def upsertEntry [DecidableEq κ] (k : κ) (f : Option α → α) : List (κ × α) → List (κ × α)
  | [] => [(k, f none)]
  | (k', v) :: es => if k' = k then (k', f (some v)) :: es else (k', v) :: upsertEntry k f es

theorem keys_upsertEntry [DecidableEq κ] (k : κ) (f : Option α → α) (es : List (κ × α)) :
    (upsertEntry k f es).map Prod.fst =
      if k ∈ es.map Prod.fst then es.map Prod.fst else es.map Prod.fst ++ [k] := by
  induction es with
  | nil => simp [upsertEntry]
  | cons e es ih =>
    by_cases h : e.1 = k
    · simp [upsertEntry, h]
    · have h' : k ≠ e.1 := fun hk => h hk.symm
      by_cases hm : k ∈ es.map Prod.fst
      · rw [if_pos hm] at ih
        rw [upsertEntry, if_neg h, List.map_cons, ih, if_pos (by simp [hm])]
        rfl
      · rw [if_neg hm] at ih
        rw [upsertEntry, if_neg h, List.map_cons, ih, if_neg (by simp [h', hm])]
        rfl

def empty : OrdMap κ α := ⟨[], List.nodup_nil⟩

def keys (m : OrdMap κ α) : List κ := m.entries.map Prod.fst

def values (m : OrdMap κ α) : List α := m.entries.map Prod.snd

def size (m : OrdMap κ α) : ℕ := m.entries.length

theorem length_keys (m : OrdMap κ α) : m.keys.length = m.size := List.length_map _

/-- `m[k] = f(m[k])`, with `f` told whether `k` was there. -/
def upsert [DecidableEq κ] (m : OrdMap κ α) (k : κ) (f : Option α → α) : OrdMap κ α where
  entries := upsertEntry k f m.entries
  nodup := by
    rw [keys_upsertEntry]
    split_ifs with h
    · exact m.nodup
    · exact List.nodup_append.mpr ⟨m.nodup, List.nodup_singleton k, by
        intro a ha b hb hab
        rw [hab, List.mem_singleton.mp hb] at ha
        exact h ha⟩

def filterKeys (m : OrdMap κ α) (p : κ → Bool) : OrdMap κ α where
  entries := m.entries.filter fun e => p e.1
  nodup := m.nodup.sublist (List.filter_sublist.map _)

def mapValues (m : OrdMap κ α) (f : α → β) : OrdMap κ β where
  entries := m.entries.map fun e => (e.1, f e.2)
  nodup := by
    rw [List.map_map]
    exact m.nodup

def sift (m : OrdMap κ α) (f : κ → α → Option β) : OrdMap κ β where
  entries := m.entries.filterMap fun e => (f e.1 e.2).map fun v => (e.1, v)
  nodup := by
    refine m.nodup.sublist ?_
    induction m.entries with
    | nil => exact List.Sublist.slnil
    | cons e es ih =>
      rw [List.filterMap_cons]
      cases f e.1 e.2 with
      | none => exact ih.cons _
      | some v => exact ih.cons_cons _

section

variable [DecidableEq κ]

def get? (m : OrdMap κ α) (k : κ) : Option α := lookup k m.entries

def erase (m : OrdMap κ α) (k : κ) : OrdMap κ α := m.filterKeys fun k' => k' ≠ k

def adjust (m : OrdMap κ α) (k : κ) (f : α → α) : OrdMap κ α :=
  match m.get? k with
  | none => m
  | some v => m.upsert k fun _ => f v

/-- `for (const [k, b] of src) dst[k] = f(dst[k], b)`. -/
def mergeWith (f : Option α → β → α) (dst : OrdMap κ α) (src : OrdMap κ β) : OrdMap κ α :=
  src.entries.foldl (fun m e => m.upsert e.1 fun cur => f cur e.2) dst

def groupBy (f : β → κ) (xs : List β) : OrdMap κ (List β) :=
  xs.foldl (fun m x => m.upsert (f x) fun cur => cur.getD [] ++ [x]) empty

/-- The figure `g` reads off the value at `k`, zero where there is none. -/
def figure (g : α → ℕ) (m : OrdMap κ α) (k : κ) : ℕ := ((m.get? k).map g).getD 0

end

theorem eq_of_entries {m m' : OrdMap κ α} (h : m.entries = m'.entries) : m = m' := by
  cases m
  cases m'
  congr

theorem size_eq_zero {m : OrdMap κ α} : m.size = 0 ↔ ∀ k, k ∉ m.keys := by
  rw [size, List.length_eq_zero_iff, ← List.eq_nil_iff_forall_not_mem, keys, List.map_eq_nil_iff]

section

variable [DecidableEq κ]

@[simp] theorem get?_empty (k : κ) : (empty : OrdMap κ α).get? k = none := rfl

theorem lookup_eq_none {k : κ} {es : List (κ × α)} :
    lookup k es = none ↔ k ∉ es.map Prod.fst := by
  induction es with
  | nil => simp [lookup]
  | cons e es ih =>
    by_cases h : e.1 = k
    · simp [lookup, h]
    · have h' : k ≠ e.1 := fun hk => h hk.symm
      simp [lookup, h, h', ih]

theorem get?_eq_none {m : OrdMap κ α} {k : κ} : m.get? k = none ↔ k ∉ m.keys :=
  lookup_eq_none

theorem mem_keys {m : OrdMap κ α} {k : κ} : k ∈ m.keys ↔ ∃ v, m.get? k = some v := by
  rw [← not_iff_not, ← get?_eq_none, Option.eq_none_iff_forall_ne_some, not_exists]

theorem lookup_eq_some {k : κ} {v : α} {es : List (κ × α)} (h : (es.map Prod.fst).Nodup) :
    lookup k es = some v ↔ (k, v) ∈ es := by
  induction es with
  | nil => simp [lookup]
  | cons e es ih =>
    rw [List.map_cons, List.nodup_cons] at h
    by_cases he : e.1 = k
    · rw [lookup, if_pos he, some.injEq, List.mem_cons]
      constructor
      · intro hv
        exact Or.inl (Prod.ext he.symm hv.symm)
      · rintro (hv | hm)
        · exact (congrArg Prod.snd hv).symm
        · exact absurd (List.mem_map.mpr ⟨(k, v), hm, he.symm⟩) h.1
    · rw [lookup, if_neg he, ih h.2, List.mem_cons]
      constructor
      · exact Or.inr
      · rintro (hv | hm)
        · exact absurd (congrArg Prod.fst hv).symm he
        · exact hm

theorem get?_eq_some {m : OrdMap κ α} {k : κ} {v : α} : m.get? k = some v ↔ (k, v) ∈ m.entries :=
  lookup_eq_some m.nodup

theorem get?_upsert (m : OrdMap κ α) (k : κ) (f : Option α → α) (k' : κ) :
    (m.upsert k f).get? k' = if k' = k then some (f (m.get? k)) else m.get? k' := by
  unfold get? upsert
  dsimp only
  induction m.entries with
  | nil =>
    by_cases h : k' = k
    · simp [lookup, upsertEntry, h]
    · have h' : k ≠ k' := fun hk => h hk.symm
      simp [lookup, upsertEntry, h, h']
  | cons e es ih =>
    by_cases he : e.1 = k
    · by_cases h : k' = k
      · simp [lookup, upsertEntry, he, h]
      · have h' : k ≠ k' := fun hk => h hk.symm
        simp [lookup, upsertEntry, he, h, h']
    · by_cases h : k' = k
      · subst h
        simpa [lookup, upsertEntry, he] using ih
      · simp only [upsertEntry, if_neg he, lookup, ih, if_neg h]

theorem get?_adjust (m : OrdMap κ α) (k : κ) (f : α → α) (k' : κ) :
    (m.adjust k f).get? k' = if k' = k then (m.get? k').map f else m.get? k' := by
  unfold adjust
  cases h : m.get? k with
  | none =>
    split_ifs with hk
    · rw [hk, h]
      rfl
    · rfl
  | some v =>
    rw [get?_upsert]
    split_ifs with hk
    · rw [hk, h]
      rfl
    · rfl

theorem get?_filterKeys (m : OrdMap κ α) (p : κ → Bool) (k : κ) :
    (m.filterKeys p).get? k = if p k then m.get? k else none := by
  unfold get? filterKeys
  dsimp only
  induction m.entries with
  | nil => simp [lookup]
  | cons e es ih =>
    by_cases he : p e.1
    · by_cases h : e.1 = k
      · subst h
        simp [lookup, he]
      · rw [List.filter_cons, if_pos he, lookup, if_neg h, ih, lookup, if_neg h]
    · rw [List.filter_cons, if_neg he, ih]
      by_cases h : e.1 = k
      · subst h
        simp [he]
      · rw [lookup, if_neg h]

theorem get?_mapValues (m : OrdMap κ α) (f : α → β) (k : κ) :
    (m.mapValues f).get? k = (m.get? k).map f := by
  unfold get? mapValues
  dsimp only
  induction m.entries with
  | nil => rfl
  | cons e es ih =>
    by_cases h : e.1 = k
    · simp [lookup, h]
    · simp only [List.map_cons, lookup, if_neg h, ih]

theorem get?_sift (m : OrdMap κ α) (f : κ → α → Option β) (k : κ) :
    (m.sift f).get? k = (m.get? k).bind (f k) := by
  have hfst : k ∉ m.keys → k ∉ (m.sift f).keys := by
    intro hk hmem
    refine hk ?_
    obtain ⟨e, he, rfl⟩ := List.mem_map.mp hmem
    obtain ⟨e', he', heq⟩ := List.mem_filterMap.mp he
    obtain ⟨v, -, rfl⟩ := Option.map_eq_some_iff.mp heq
    exact List.mem_map_of_mem he'
  rcases hv : m.get? k with _ | v
  · rw [get?_eq_none.mpr (hfst (get?_eq_none.mp hv))]
    rfl
  · rw [Option.bind_some]
    cases hf : f k v with
    | none =>
      refine get?_eq_none.mpr fun hmem => ?_
      obtain ⟨e, he, hek⟩ := List.mem_map.mp hmem
      obtain ⟨e', he', heq⟩ := List.mem_filterMap.mp he
      obtain ⟨w, hw, rfl⟩ := Option.map_eq_some_iff.mp heq
      have hk : e'.1 = k := hek
      have hv' : m.get? k = some e'.2 := get?_eq_some.mpr (by rw [← hk]; exact he')
      rw [hv, some.injEq] at hv'
      rw [hk, ← hv', hf] at hw
      cases hw
    | some w =>
      refine get?_eq_some.mpr (List.mem_filterMap.mpr ⟨(k, v), get?_eq_some.mp hv, ?_⟩)
      rw [hf]
      rfl

theorem get?_erase (m : OrdMap κ α) (k k' : κ) :
    (m.erase k).get? k' = if k' = k then none else m.get? k' := by
  rw [erase, get?_filterKeys]
  by_cases h : k' = k <;> simp [h]

theorem mem_keys_filterKeys {m : OrdMap κ α} {p : κ → Bool} {k : κ} :
    k ∈ (m.filterKeys p).keys ↔ p k = true ∧ k ∈ m.keys := by
  simp only [mem_keys, get?_filterKeys]
  by_cases h : p k = true <;> simp [h]

theorem mem_keys_upsert {m : OrdMap κ α} {k k' : κ} {f : Option α → α} :
    k' ∈ (m.upsert k f).keys ↔ k' = k ∨ k' ∈ m.keys := by
  simp only [mem_keys, get?_upsert]
  by_cases h : k' = k <;> simp [h]

theorem keys_upsert (m : OrdMap κ α) (k : κ) (f : Option α → α) :
    (m.upsert k f).keys = if k ∈ m.keys then m.keys else m.keys ++ [k] :=
  keys_upsertEntry k f m.entries

theorem size_upsert_le (m : OrdMap κ α) (k : κ) (f : Option α → α) :
    (m.upsert k f).size ≤ m.size + 1 := by
  rw [← length_keys, ← length_keys, keys_upsert]
  split_ifs <;> simp

theorem size_adjust (m : OrdMap κ α) (k : κ) (f : α → α) : (m.adjust k f).size = m.size := by
  unfold adjust
  cases h : m.get? k with
  | none => rfl
  | some v =>
    have hk : k ∈ m.keys := mem_keys.mpr ⟨v, h⟩
    rw [← length_keys, keys_upsert, if_pos hk, length_keys]

theorem size_erase_le (m : OrdMap κ α) (k : κ) : (m.erase k).size ≤ m.size :=
  List.length_filter_le _ _

theorem size_erase_lt {m : OrdMap κ α} {k : κ} (h : k ∈ m.keys) : (m.erase k).size < m.size := by
  obtain ⟨e, he, rfl⟩ := List.mem_map.mp h
  exact List.length_filter_lt_length_iff_exists.mpr ⟨e, he, by simp⟩

theorem get?_foldl_upsert (f : Option α → β → α) (es : List (κ × β))
    (h : (es.map Prod.fst).Nodup) (m : OrdMap κ α) (k : κ) :
    (es.foldl (fun m e => m.upsert e.1 fun cur => f cur e.2) m).get? k =
      match lookup k es with
      | none => m.get? k
      | some b => some (f (m.get? k) b) := by
  induction es generalizing m with
  | nil => rfl
  | cons e es ih =>
    rw [List.map_cons, List.nodup_cons] at h
    rw [List.foldl_cons, ih h.2, get?_upsert]
    by_cases he : e.1 = k
    · subst he
      rw [lookup_eq_none.mpr h.1]
      simp [lookup]
    · have he' : k ≠ e.1 := fun hk => he hk.symm
      rw [if_neg he', lookup, if_neg he]

/-- What a merge loop leaves at each key. -/
theorem get?_mergeWith (f : Option α → β → α) (dst : OrdMap κ α) (src : OrdMap κ β) (k : κ) :
    (mergeWith f dst src).get? k =
      match src.get? k with
      | none => dst.get? k
      | some b => some (f (dst.get? k) b) :=
  get?_foldl_upsert f src.entries src.nodup dst k

theorem mem_keys_mergeWith {f : Option α → β → α} {dst : OrdMap κ α} {src : OrdMap κ β} {k : κ} :
    k ∈ (mergeWith f dst src).keys ↔ k ∈ dst.keys ∨ k ∈ src.keys := by
  simp only [mem_keys, get?_mergeWith]
  cases src.get? k <;> simp

theorem get?_foldl_group (f : β → κ) (xs : List β) (m : OrdMap κ (List β)) (k : κ) :
    (xs.foldl (fun m x => m.upsert (f x) fun cur => cur.getD [] ++ [x]) m).get? k =
      if xs.filter (fun x => f x = k) = [] then m.get? k
      else some ((m.get? k).getD [] ++ xs.filter fun x => f x = k) := by
  induction xs generalizing m with
  | nil => simp
  | cons x xs ih =>
    rw [List.foldl_cons, ih, get?_upsert]
    by_cases hx : f x = k
    · subst hx
      by_cases hn : xs.filter (fun x' => f x' = f x) = [] <;> simp [hn]
    · have hx' : k ≠ f x := fun h => hx h.symm
      simp [hx, hx']

/-- The group at `k` is what `f` sends to `k`, and a group is not empty. -/
theorem get?_groupBy (f : β → κ) (xs : List β) (k : κ) :
    (groupBy f xs).get? k =
      if xs.filter (fun x => f x = k) = [] then none else some (xs.filter fun x => f x = k) := by
  rw [groupBy, get?_foldl_group]
  rfl

theorem mem_keys_groupBy {f : β → κ} {xs : List β} {k : κ} :
    k ∈ (groupBy f xs).keys ↔ k ∈ xs.map f := by
  rw [mem_keys, get?_groupBy, List.mem_map]
  split_ifs with h
  · rw [List.filter_eq_nil_iff] at h
    simpa using h
  · obtain ⟨x, hx⟩ := List.exists_mem_of_ne_nil _ h
    rw [List.mem_filter, decide_eq_true_eq] at hx
    exact ⟨fun _ => ⟨x, hx⟩, fun _ => ⟨_, rfl⟩⟩

theorem values_groupBy (f : β → κ) (xs : List β) :
    (groupBy f xs).values = (groupBy f xs).keys.map fun k => xs.filter fun x => f x = k := by
  rw [values, keys, List.map_map]
  refine List.map_congr_left fun e he => ?_
  have hget := get?_eq_some.mpr he
  rw [get?_groupBy] at hget
  split_ifs at hget
  exact (some.inj hget).symm

/-- The groups come in the order of their first elements. -/
theorem keys_groupBy_first [BEq κ] [LawfulBEq κ] (f : β → κ) (xs : List β) :
    (groupBy f xs).keys.Pairwise fun k k' => (xs.map f).idxOf k < (xs.map f).idxOf k' := by
  induction xs using List.reverseRecOn with
  | nil => exact .nil
  | append_singleton xs x ih =>
    have hold : ∀ {k}, k ∈ (groupBy f xs).keys →
        ((xs ++ [x]).map f).idxOf k = (xs.map f).idxOf k := by
      intro k hk
      rw [List.map_append, List.idxOf_append_of_mem (mem_keys_groupBy.mp hk)]
    have hkeep : (groupBy f xs).keys.Pairwise fun k k' =>
        ((xs ++ [x]).map f).idxOf k < ((xs ++ [x]).map f).idxOf k' :=
      ih.imp_of_mem fun hk hk' h => by rwa [hold hk, hold hk']
    rw [groupBy, List.foldl_append, List.foldl_cons, List.foldl_nil, ← groupBy, keys_upsert]
    split_ifs with hx
    · exact hkeep
    · refine List.pairwise_append.mpr ⟨hkeep, List.pairwise_singleton _ _, fun k hk k' hk' => ?_⟩
      rw [List.mem_singleton.mp hk', hold hk, List.map_append,
        List.idxOf_append_of_notMem (mt mem_keys_groupBy.mpr hx)]
      exact Nat.lt_add_right _ (List.idxOf_lt_length_iff.mpr (mem_keys_groupBy.mp hk))

/-- What `g` reads off the values, when a write adds `x` to it. -/
theorem flatMap_upsertEntry {γ : Type*} (g : α → List γ) {k : κ} {f : Option α → α} {x : γ}
    (es : List (κ × α)) (hnone : g (f none) = [x])
    (hsome : ∀ v, lookup k es = some v → g (f (some v)) = g v ++ [x]) :
    ((upsertEntry k f es).flatMap fun e => g e.2).Perm (x :: es.flatMap fun e => g e.2) := by
  induction es with
  | nil => simp [upsertEntry, hnone]
  | cons e es ih =>
    obtain ⟨k', v⟩ := e
    rw [upsertEntry]
    by_cases hk : k' = k
    · rw [if_pos hk, List.flatMap_cons, List.flatMap_cons, hsome v (by rw [lookup, if_pos hk]),
        List.append_assoc]
      exact List.perm_middle
    · rw [if_neg hk, List.flatMap_cons, List.flatMap_cons]
      have hrest := ih fun v' hv' => hsome v' (by rw [lookup, if_neg hk, hv'])
      exact (hrest.append_left (g v)).trans List.perm_middle

/-- The groups together are what was grouped. -/
theorem flatten_groupBy (f : β → κ) (xs : List β) : (groupBy f xs).values.flatten.Perm xs := by
  have hflat : ∀ m : OrdMap κ (List β), m.values.flatten = m.entries.flatMap fun e => e.2 :=
    fun m => rfl
  rw [hflat, groupBy]
  induction xs using List.reverseRecOn with
  | nil => exact .refl _
  | append_singleton xs x ih =>
    rw [List.foldl_append]
    refine (flatMap_upsertEntry (fun g => g) _ rfl fun _ _ => rfl).trans ?_
    exact (ih.cons x).trans (List.perm_append_singleton x xs).symm

/-- The entries under one key: one or none. -/
theorem filter_key (m : OrdMap κ α) (k : κ) :
    (m.entries.filter fun e => e.1 = k) = ((m.get? k).map fun v => (k, v)).toList := by
  unfold get?
  have h := m.nodup
  generalize m.entries = es at h ⊢
  induction es with
  | nil => rfl
  | cons e es ih =>
    obtain ⟨k', v⟩ := e
    rw [List.map_cons, List.nodup_cons] at h
    rw [List.filter_cons, lookup, ih h.2]
    by_cases he : k' = k
    · subst he
      simp [lookup_eq_none.mpr h.1]
    · simp [he]

theorem upsert_same {m : OrdMap κ α} {k : κ} {f : Option α → α} {v : α} (hv : m.get? k = some v)
    (hf : f (some v) = v) : m.upsert k f = m := by
  apply eq_of_entries
  change upsertEntry k f m.entries = m.entries
  unfold get? at hv
  generalize m.entries = es at hv ⊢
  induction es with
  | nil => exact absurd hv (Option.some_ne_none v).symm
  | cons e es ih =>
    rw [lookup] at hv
    rw [upsertEntry]
    split_ifs at hv ⊢ with he
    · rw [some.inj hv, hf, ← some.inj hv]
    · rw [ih hv]

theorem mergeWith_same {f : Option α → β → α} {dst : OrdMap κ α} {src : OrdMap κ β}
    (h : ∀ e ∈ src.entries, ∃ v, dst.get? e.1 = some v ∧ f (some v) e.2 = v) :
    mergeWith f dst src = dst := by
  unfold mergeWith
  generalize src.entries = es at h ⊢
  induction es with
  | nil => rfl
  | cons e es ih =>
    obtain ⟨v, hv, hf⟩ := h e List.mem_cons_self
    rw [List.foldl_cons, upsert_same hv hf]
    exact ih fun e' he' => h e' (List.mem_cons_of_mem e he')

theorem figure_of_not_mem {g : α → ℕ} {m : OrdMap κ α} {k : κ} (h : k ∉ m.keys) :
    m.figure g k = 0 := by
  rw [figure, get?_eq_none.mpr h]
  rfl

theorem figure_of_get? {g : α → ℕ} {m : OrdMap κ α} {k : κ} {v : α} (h : m.get? k = some v) :
    m.figure g k = g v := by
  rw [figure, h]
  rfl

theorem figure_filterKeys (g : α → ℕ) (m : OrdMap κ α) (p : κ → Bool) (k : κ) :
    (m.filterKeys p).figure g k = if p k then m.figure g k else 0 := by
  unfold figure
  rw [get?_filterKeys]
  split_ifs <;> rfl

/-- The sum over the entries is the sum over all keys, absent ones counting nothing. -/
theorem sum_entries_key [Fintype κ] (g : κ → α → ℕ) (m : OrdMap κ α) :
    (m.entries.map fun e => g e.1 e.2).sum = ∑ k, ((m.get? k).map (g k)).getD 0 := by
  unfold get?
  have h := m.nodup
  generalize m.entries = es at h ⊢
  induction es with
  | nil => simp [lookup]
  | cons e es ih =>
    rw [List.map_cons, List.nodup_cons] at h
    have hne : lookup e.1 es = none := lookup_eq_none.mpr h.1
    rw [List.map_cons, List.sum_cons, ih h.2, ← Finset.add_sum_erase _ _ (Finset.mem_univ e.1),
      ← Finset.add_sum_erase _ (fun k => ((lookup k (e :: es)).map (g k)).getD 0)
        (Finset.mem_univ e.1), hne]
    simp only [Option.map_none, Option.getD_none, zero_add, lookup, if_true, Option.map_some,
      Option.getD_some]
    congr 1
    apply Finset.sum_congr rfl
    intro k hk
    rw [if_neg fun hek => Finset.ne_of_mem_erase hk hek.symm]

theorem sum_entries [Fintype κ] (g : α → ℕ) (m : OrdMap κ α) :
    (m.entries.map fun e => g e.2).sum = ∑ k, m.figure g k :=
  sum_entries_key (fun _ => g) m

end

/-- What is summed over a list of distinct keys and over the others is the whole sum. -/
theorem sum_list_add_rest [DecidableEq κ] [Fintype κ] {ks : List κ} (h : ks.Nodup) (f : κ → ℕ) :
    (ks.map f).sum + ∑ k, (if k ∈ ks then 0 else f k) = ∑ k, f k := by
  rw [← List.sum_toFinset f h, ← Finset.sum_filter_add_sum_filter_not Finset.univ (· ∈ ks) f]
  congr 1
  · apply Finset.sum_congr
    · ext k
      simp
    · intro k _
      rfl
  · rw [Finset.sum_filter]
    apply Finset.sum_congr rfl
    intro k _
    by_cases hk : k ∈ ks <;> simp [hk]

end OrdMap

end Turma.Lib
