import Turma.Ledger.Merge
import Turma.LedgerStore.Tables

/-! What a write leaves in the tables and what a read makes of them, one token figure at a
time. -/

namespace Turma.LedgerStore

open Turma.Lib Turma.Ledger List Option OrdMap JsString

/-- The figure in `usage_day`, zero where there is no row. -/
def Tables.stored (T : Tables) (h sid : JsString) (day : DayId) (k : TokenKey) : ℕ :=
  T.usageDay.figure id (h, sid, day, k)

/-- The cutoff in `usage_series`. -/
def Tables.cutoff (T : Tables) (h sid : JsString) : Option IsoDay :=
  (T.usageSeries.get? (h, sid)).bind (·.cutoff)

theorem flatten_chunks_aux {α : Type} (n : ℕ) (rows : List α) (i : ℕ) :
    ((List.range i).map fun j => (rows.drop (j * n)).take n).flatten = rows.take (i * n) := by
  induction i with
  | zero => simp
  | succ i ih =>
    rw [range_succ, map_append, flatten_append, ih, Nat.succ_mul, take_add]
    simp

/-- The chunks hold every row once, in order. -/
theorem flatten_chunks {α : Type} (columns : ℕ) (rows : List α) :
    (chunks columns rows).flatten = rows := by
  unfold chunks
  rw [flatten_chunks_aux, take_of_length_le]
  have hpos : 0 < max 1 (maxParams / columns) := by omega
  have hceil := Nat.lt_mul_div_succ (rows.length + max 1 (maxParams / columns) - 1) hpos
  rw [Nat.mul_comm]
  rw [Nat.mul_succ] at hceil
  omega

section

variable {κ α : Type} [DecidableEq κ]

theorem get?_upsertRows (set : α → α → α) (rows : List (κ × α)) (table : OrdMap κ α) (k : κ) :
    (upsertRows set rows table).get? k =
      (rows.filter fun r => r.1 = k).foldl (fun cur r => some (setRow set r.2 cur))
        (table.get? k) := by
  refine run_view _ (v := fun t : OrdMap κ α => t.get? k) (I := fun _ => True)
    (fun _ _ _ => trivial) (fun t r _ => ?_) trivial rows
  by_cases h : r.1 = k
  · simp [h, get?_upsert]
  · have h' : k ≠ r.1 := fun hk => h hk.symm
    simp [h, h', get?_upsert]

theorem figure_upsertRows (rows : List (κ × ℕ)) (table : OrdMap κ ℕ) (k : κ) :
    (upsertRows max rows table).figure id k =
      (rows.filter fun r => r.1 = k).foldl (fun n r => max n r.2) (table.figure id k) := by
  refine run_view _ (v := fun t : OrdMap κ ℕ => t.figure id k) (I := fun _ => True)
    (fun _ _ _ => trivial) (fun t r _ => ?_) trivial rows
  unfold OrdMap.figure
  by_cases h : r.1 = k
  · cases hk : t.get? k <;> simp [h, hk, get?_upsert, setRow]
  · have h' : k ≠ r.1 := fun hk => h hk.symm
    simp [h, h', get?_upsert]

theorem upsertRows_append (set : α → α → α) (rows rows' : List (κ × α)) (table : OrdMap κ α) :
    upsertRows set (rows ++ rows') table = upsertRows set rows' (upsertRows set rows table) :=
  foldl_append

end

theorem foldl_max {α : Type} {xs : List α} {f : α → ℕ} {v : ℕ} (hle : ∀ x ∈ xs, f x = v)
    (hin : v ≠ 0 → ∃ x ∈ xs, f x = v) (n : ℕ) :
    xs.foldl (fun n x => max n (f x)) n = max n v := by
  induction xs generalizing n with
  | nil =>
    have hv : v = 0 := by
      by_contra hv
      obtain ⟨x, hx, -⟩ := hin hv
      exact not_mem_nil hx
    simp [hv]
  | cons x xs ih =>
    rw [foldl_cons, hle x mem_cons_self]
    cases xs with
    | nil => rfl
    | cons y ys =>
      rw [ih (fun z hz => hle z (mem_cons_of_mem x hz))
        fun _ => ⟨y, mem_cons_self, hle y (mem_cons_of_mem x mem_cons_self)⟩]
      rw [max_assoc, max_self]

theorem after_append (T : Tables) (a b : List Statement) :
    T.after (a ++ b) = (T.after a).after b :=
  run_append Statement.apply T a b

/-- Chunked or not, an upsert does the same. -/
theorem after_chunks {α : Type} {stmt : List α → Statement}
    (hnil : ∀ T, (stmt []).apply T = T)
    (happ : ∀ T a b, (stmt (a ++ b)).apply T = (stmt b).apply ((stmt a).apply T))
    (columns : ℕ) (rows : List α) (T : Tables) :
    T.after ((chunks columns rows).map stmt) = (stmt rows).apply T := by
  have hflat : ∀ css : List (List α), ∀ T, T.after (css.map stmt) = (stmt css.flatten).apply T := by
    intro css
    induction css with
    | nil => exact fun T => (hnil T).symm
    | cons c css ih =>
      intro T
      rw [map_cons, flatten_cons, happ, ← ih]
      rfl
  rw [hflat, flatten_chunks]

def deletes (key : JsString) (e : Entry) : List Statement :=
  (entrySeries e).filterMap fun r => r.2.series.cutoff.map fun c => .deleteDays key r.1 c

def Tables.upserted (T : Tables) (key : JsString) (e : Entry) : Tables where
  usageHost := upsertRows setHost (hostRows key e) T.usageHost
  usageSeries := upsertRows setSeries (seriesRows key e) T.usageSeries
  usageDay := upsertRows max ((entrySeries e).flatMap fun r => dayRows key r.1 r.2.series) T.usageDay
  usageModel :=
    upsertRows max ((entrySeries e).flatMap fun r => modelRows key r.1 r.2.series) T.usageModel

theorem after_statements (T : Tables) (key : JsString) (e : Entry) :
    T.after (statements key e) = (T.upserted key e).after (deletes key e) := by
  rw [statements, after_append, after_append, after_append, after_append,
    after_chunks (fun _ => rfl) (fun T a b => by simp only [Statement.apply, upsertRows_append]),
    after_chunks (fun _ => rfl) (fun T a b => by simp only [Statement.apply, upsertRows_append]),
    after_chunks (fun _ => rfl) (fun T a b => by simp only [Statement.apply, upsertRows_append]),
    after_chunks (fun _ => rfl) (fun T a b => by simp only [Statement.apply, upsertRows_append])]
  rfl

def written (e : Entry) (sid : JsString) : Option Series :=
  if sid = ofString "__proto__" then none else e.seriesAt sid

/-- The figure of a series that goes to the row of `day`. -/
def leaf (s : Series) (day : DayId) (k : TokenKey) : ℕ :=
  match day with
  | .date d => s.day k d
  | .pre => s.pre k
  | .sub => (s.subagent.map fun b => b k).getD 0

/-- The figure that a write brings to a row, zero where it brings none. -/
def writes (key : JsString) (e : Entry) (h sid : JsString) (day : DayId) (k : TokenKey) : ℕ :=
  if h = key then ((written e sid).map fun s => leaf s day k).getD 0 else 0

def writesCutoff (key : JsString) (e : Entry) (h sid : JsString) : Option IsoDay :=
  if h = key then (written e sid).bind (·.cutoff) else none

theorem proto_ne_nil : ofString "__proto__" ≠ [] := by decide

section

variable {e : Entry}

theorem written_of_mem (hnamed : [] ∉ e.repos.keys) {sid : JsString} {slot : Slot}
    (h : (sid, slot) ∈ entrySeries e) : written e sid = some slot.series := by
  rcases mem_append.mp h with h | h
  · obtain ⟨s, hs, heq⟩ := map_eq_some_iff.mp (mem_toList.mp h)
    obtain ⟨rfl, rfl⟩ := Prod.mk.inj heq
    rw [written, if_neg proto_ne_nil.symm, Entry.seriesAt, if_pos rfl, hs]
  · obtain ⟨hmem, hproto⟩ := mem_filter.mp h
    have hget := get?_eq_some.mpr ((ownEntries_perm e.repos).mem_iff.mp hmem)
    have hne : sid ≠ [] := by
      rintro rfl
      exact hnamed (OrdMap.mem_keys.mpr ⟨slot, hget⟩)
    rw [written, if_neg (of_decide_eq_true hproto), Entry.seriesAt, if_neg hne, hget]
    rfl

theorem exists_of_written {sid : JsString} {s : Series} (h : written e sid = some s) :
    ∃ slot, (sid, slot) ∈ entrySeries e ∧ slot.series = s := by
  unfold written Entry.seriesAt at h
  split_ifs at h with hproto hhost
  · subst hhost
    refine ⟨⟨[], [], s⟩, mem_append_left _ (mem_toList.mpr ?_), rfl⟩
    rw [h]
    rfl
  · obtain ⟨slot, hget, hs⟩ := map_eq_some_iff.mp h
    refine ⟨slot, mem_append_right _ (mem_filter.mpr ⟨?_, decide_eq_true hproto⟩), hs⟩
    exact (ownEntries_perm e.repos).mem_iff.mpr (get?_eq_some.mp hget)

end

theorem mem_bucketRows {key sid : JsString} {day : DayId} {b : Bucket} {r : DayKey × ℕ} :
    r ∈ bucketRows key sid day b ↔
      ∃ k, b k ≠ 0 ∧ r = ((key, sid, day, k), b k) := by
  constructor
  · intro h
    obtain ⟨k, hk, rfl⟩ := List.mem_map.mp h
    exact ⟨k, of_decide_eq_true (mem_filter.mp hk).2, rfl⟩
  · rintro ⟨k, hk, rfl⟩
    exact List.mem_map.mpr ⟨k, mem_filter.mpr ⟨mem_tokenKeys k, decide_eq_true hk⟩, rfl⟩

/-- A series comes to one row for each figure that is not zero. -/
theorem mem_dayRows {key sid : JsString} {s : Series} {r : DayKey × ℕ} :
    r ∈ dayRows key sid s ↔ ∃ day k, leaf s day k ≠ 0 ∧ r = ((key, sid, day, k), leaf s day k) := by
  simp only [dayRows, mem_append, mem_flatMap, mem_bucketRows, mem_toList]
  constructor
  · rintro ((⟨⟨d, b⟩, he, k, hk, rfl⟩ | ⟨k, hk, rfl⟩) | ⟨b, hb, k, hk, rfl⟩)
    · have hleaf : leaf s (.date d) k = b k :=
        figure_of_get? (get?_eq_some.mpr he)
      exact ⟨.date d, k, by rwa [hleaf], by rw [hleaf]⟩
    · exact ⟨.pre, k, hk, rfl⟩
    · have hleaf : leaf s .sub k = b k := by
        rw [leaf, hb]
        rfl
      exact ⟨.sub, k, by rwa [hleaf], by rw [hleaf]⟩
  · rintro ⟨day, k, hk, rfl⟩
    cases day with
    | date d =>
      left; left
      cases hd : s.days.get? d with
      | none => exact absurd (figure_of_not_mem (get?_eq_none.mp hd)) hk
      | some b =>
        have hleaf : leaf s (.date d) k = b k := figure_of_get? hd
        have hb : b k ≠ 0 := by rwa [← hleaf]
        exact ⟨(d, b), get?_eq_some.mp hd, k, hb, by rw [hleaf]⟩
    | pre => exact Or.inl (Or.inr ⟨k, hk, rfl⟩)
    | sub =>
      right
      cases hb : s.subagent with
      | none => simp [leaf, hb] at hk
      | some b =>
        have hleaf : leaf s .sub k = b k := by
          rw [leaf, hb]
          rfl
        exact ⟨b, rfl, k, by rwa [← hleaf], by rw [hleaf]⟩

section

variable {e : Entry} (hnamed : [] ∉ e.repos.keys) (T : Tables) (key h sid : JsString)

include hnamed

theorem stored_upserted (day : DayId) (k : TokenKey) :
    (T.upserted key e).stored h sid day k =
      max (T.stored h sid day k) (writes key e h sid day k) := by
  refine (figure_upsertRows _ _ _).trans (foldl_max ?_ ?_ _)
  · intro r hr
    obtain ⟨hr, hkey⟩ := mem_filter.mp hr
    obtain ⟨⟨sid', slot⟩, hslot, hr⟩ := mem_flatMap.mp hr
    obtain ⟨day', k', -, rfl⟩ := mem_dayRows.mp hr
    have hkey := of_decide_eq_true hkey
    obtain ⟨rfl, rfl, rfl, rfl⟩ := hkey
    rw [writes, if_pos rfl, written_of_mem hnamed hslot]
    rfl
  · intro hw
    unfold writes at hw ⊢
    split_ifs at hw ⊢ with hh
    · subst hh
      cases hs : written e sid with
      | none => simp [hs] at hw
      | some s =>
        rw [hs] at hw
        obtain ⟨slot, hslot, rfl⟩ := exists_of_written hs
        refine ⟨((h, sid, day, k), leaf slot.series day k), ?_, rfl⟩
        refine mem_filter.mpr ⟨mem_flatMap.mpr ⟨(sid, slot), hslot, ?_⟩, by simp⟩
        exact mem_dayRows.mpr ⟨day, k, hw, rfl⟩
    · exact absurd rfl hw

end

theorem laterCutoff_laterCutoff (a c : Option IsoDay) :
    laterCutoff (laterCutoff a c) c = laterCutoff a c := by
  cases c with
  | none => rfl
  | some c =>
    cases a with
    | none => simp [laterCutoff, later]
    | some a =>
      by_cases h : a < c
      · simp [laterCutoff, later, h]
      · simp [laterCutoff, later, h]

theorem cutoff_setRow (r : SeriesRow) (cur : Option SeriesRow) :
    (setRow setSeries r cur).cutoff = laterCutoff (cur.bind (·.cutoff)) r.cutoff := by
  cases cur with
  | none => cases hr : r.cutoff <;> simp [setRow, laterCutoff, later, hr]
  | some old => rfl

/-- Rows that all bring the same cutoff bring it once. -/
theorem cutoff_foldl {rows : List ((JsString × JsString) × SeriesRow)} {c : Option IsoDay}
    (hc : ∀ r ∈ rows, r.2.cutoff = c) (cur : Option SeriesRow) :
    (rows.foldl (fun cur r => some (setRow setSeries r.2 cur)) cur).bind (·.cutoff) =
      if rows = [] then cur.bind (·.cutoff) else laterCutoff (cur.bind (·.cutoff)) c := by
  induction rows generalizing cur with
  | nil => rfl
  | cons r rows ih =>
    rw [foldl_cons, ih fun r' hr' => hc r' (mem_cons_of_mem r hr'), bind_some,
      cutoff_setRow, hc r mem_cons_self, if_neg (cons_ne_nil r rows)]
    split_ifs
    · rfl
    · exact laterCutoff_laterCutoff _ c

section

variable {e : Entry} (hnamed : [] ∉ e.repos.keys) (T : Tables) (key h sid : JsString)

include hnamed

theorem cutoff_upserted : (T.upserted key e).cutoff h sid =
    laterCutoff (T.cutoff h sid) (writesCutoff key e h sid) := by
  have hrows : ∀ r ∈ (seriesRows key e).filter (fun r => r.1 = (h, sid)),
      r.2.cutoff = writesCutoff key e h sid := by
    intro r hr
    obtain ⟨hr, hkey⟩ := mem_filter.mp hr
    obtain ⟨⟨sid', slot⟩, hslot, rfl⟩ := List.mem_map.mp hr
    obtain ⟨rfl, rfl⟩ := Prod.mk.inj (of_decide_eq_true hkey)
    rw [writesCutoff, if_pos rfl, written_of_mem hnamed hslot]
    rfl
  change ((upsertRows setSeries (seriesRows key e) T.usageSeries).get? (h, sid)).bind
    (·.cutoff) = _
  rw [get?_upsertRows, cutoff_foldl hrows]
  split_ifs with hnil
  · cases hw : writesCutoff key e h sid with
    | none => rfl
    | some c =>
      unfold writesCutoff at hw
      split_ifs at hw with hh
      · subst hh
        obtain ⟨s, hs, -⟩ := bind_eq_some_iff.mp hw
        obtain ⟨slot, hslot, -⟩ := exists_of_written hs
        have hin : ((h, sid), seriesRow slot) ∈ (seriesRows h e).filter fun r => r.1 = (h, sid) :=
          mem_filter.mpr ⟨List.mem_map.mpr ⟨(sid, slot), hslot, rfl⟩, by simp⟩
        rw [hnil] at hin
        exact absurd hin not_mem_nil
  · rfl

end

theorem stored_deleteDays (T : Tables) (key sid' h sid : JsString) (c d : IsoDay) (k : TokenKey) :
    (Statement.apply T (.deleteDays key sid' c)).stored h sid (.date d) k =
      if h = key ∧ sid = sid' ∧ d ≤ c then 0 else T.stored h sid (.date d) k := by
  change OrdMap.figure id (T.usageDay.filterKeys _) _ = _
  rw [figure_filterKeys]
  by_cases hd : h = key ∧ sid = sid' ∧ d ≤ c <;> simp [hd, Tables.stored]

theorem stored_deletes_of (key h sid : JsString) (d : IsoDay) (k : TokenKey)
    (rs : List (JsString × Slot)) (T : Tables) :
    (T.after (rs.filterMap fun r =>
        r.2.series.cutoff.map fun c => .deleteDays key r.1 c)).stored h sid (.date d) k =
      if rs.any (fun r => decide (h = key ∧ sid = r.1) && inPre r.2.series.cutoff d) = true then 0
      else T.stored h sid (.date d) k := by
  induction rs generalizing T with
  | nil => rfl
  | cons r rs ih =>
    rw [filterMap_cons, any_cons]
    cases hc : r.2.series.cutoff with
    | none =>
      rw [map_none, inPre_none, Bool.and_false, Bool.false_or]
      exact ih T
    | some c =>
      rw [map_some, Tables.after, run_cons]
      refine (ih _).trans ?_
      rw [stored_deleteDays]
      by_cases hany : rs.any (fun r => decide (h = key ∧ sid = r.1) &&
          inPre r.2.series.cutoff d) = true
      · rw [if_pos hany, if_pos (by rw [hany, Bool.or_true])]
      · rw [if_neg hany, Bool.eq_false_iff.mpr hany, Bool.or_false]
        apply if_congr ?_ rfl rfl
        rw [show inPre (some c) d = decide (d ≤ c) from rfl]
        simp [and_assoc]

theorem deletes_cutoff (T : Tables) (key h sid : JsString) (e : Entry) :
    (T.after (deletes key e)).cutoff h sid = T.cutoff h sid := by
  unfold deletes
  generalize entrySeries e = rs
  induction rs generalizing T with
  | nil => rfl
  | cons r rs ih =>
    rw [filterMap_cons]
    cases r.2.series.cutoff with
    | none => exact ih T
    | some c => exact ih (Statement.apply T (.deleteDays key r.1 c))

theorem deletes_pre (T : Tables) (key h sid : JsString) (e : Entry) (k : TokenKey) :
    (T.after (deletes key e)).stored h sid .pre k = T.stored h sid .pre k := by
  unfold deletes
  generalize entrySeries e = rs
  induction rs generalizing T with
  | nil => rfl
  | cons r rs ih =>
    rw [filterMap_cons]
    cases r.2.series.cutoff with
    | none => exact ih T
    | some c =>
      refine (ih (Statement.apply T (.deleteDays key r.1 c))).trans ?_
      exact (figure_filterKeys id T.usageDay _ _).trans (if_pos rfl)

/-- The deletes take the days at or below the cutoff that the write brings. -/
theorem stored_deletes {e : Entry} (hnamed : [] ∉ e.repos.keys) (T : Tables)
    (key h sid : JsString) (d : IsoDay) (k : TokenKey) :
    (T.after (deletes key e)).stored h sid (.date d) k =
      if inPre (writesCutoff key e h sid) d = true then 0 else T.stored h sid (.date d) k := by
  have hany : (entrySeries e).any (fun r => decide (h = key ∧ sid = r.1) &&
      inPre r.2.series.cutoff d) = inPre (writesCutoff key e h sid) d := by
    rw [Bool.eq_iff_iff, List.any_eq_true]
    constructor
    · rintro ⟨⟨sid', slot⟩, hslot, hd⟩
      rw [Bool.and_eq_true, decide_eq_true_eq] at hd
      obtain ⟨⟨rfl, rfl⟩, hd⟩ := hd
      rwa [writesCutoff, if_pos rfl, written_of_mem hnamed hslot]
    · intro hd
      unfold writesCutoff at hd
      split_ifs at hd with hh
      · cases hs : written e sid with
        | none => simp [hs, inPre] at hd
        | some s =>
          obtain ⟨slot, hslot, rfl⟩ := exists_of_written hs
          refine ⟨(sid, slot), hslot, ?_⟩
          simpa [hh, hs] using hd
      · exact absurd hd Bool.false_ne_true
  rw [deletes, stored_deletes_of, hany]

section

variable {e : Entry} (hnamed : [] ∉ e.repos.keys) (T : Tables) (key h sid : JsString)

include hnamed

theorem cutoff_after : (T.after (statements key e)).cutoff h sid =
    laterCutoff (T.cutoff h sid) (writesCutoff key e h sid) := by
  rw [after_statements, deletes_cutoff, cutoff_upserted hnamed]

theorem pre_after (k : TokenKey) : (T.after (statements key e)).stored h sid .pre k =
    max (T.stored h sid .pre k) (writes key e h sid .pre k) := by
  rw [after_statements, deletes_pre, stored_upserted hnamed]

theorem date_after (d : IsoDay) (k : TokenKey) :
    (T.after (statements key e)).stored h sid (.date d) k =
      if inPre (writesCutoff key e h sid) d = true then 0
      else max (T.stored h sid (.date d) k) (writes key e h sid (.date d) k) := by
  rw [after_statements, stored_deletes hnamed, stored_upserted hnamed]

end

end Turma.LedgerStore
