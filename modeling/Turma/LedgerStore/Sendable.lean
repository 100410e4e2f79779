import Turma.Ledger.Share
import Turma.LedgerStore.Effects

/-! What the statements of a write bind. `_upsert` chunks its rows for one limit, and
`PgConnection.query` refuses a statement by another. -/

namespace Turma.LedgerStore

open Turma.Lib Turma.Ledger List

/-- `MAX_BIND_PARAMS` of `pgclient.js`. -/
def maxBindParams : ℕ := 32767

inductive Value
  | null
  | text (s : JsString)
  | number (n : ℕ)
  | day (d : DayId)
  | token (k : TokenKey)

def orNull {α : Type} (f : α → Value) : Option α → Value
  | none => .null
  | some a => f a

def hostValues (r : JsString × HostRow) : List Value :=
  [.text r.1, .text r.2.device, .text r.2.siteKey, orNull .number r.2.firstSeen,
    .number r.2.lastSeen]

def seriesValues (r : (JsString × JsString) × SeriesRow) : List Value :=
  [.text r.1.1, .text r.1.2, .text r.2.repo, .text r.2.remote,
    orNull (fun d => .day (.date d)) r.2.cutoff, .number r.2.sessions, orNull .text r.2.lastActivity]

def dayValues (r : DayKey × ℕ) : List Value :=
  [.text r.1.1, .text r.1.2.1, .day r.1.2.2.1, .token r.1.2.2.2, .number r.2]

def modelValues (r : ModelKey × ℕ) : List Value :=
  [.text r.1.1, .text r.1.2.1, .text r.1.2.2.1, .token r.1.2.2.2, .number r.2]

/-- The rows of an upsert, and the one row of a delete's conditions. -/
def Statement.values : Statement → List (List Value)
  | .upsertHost rows => rows.map hostValues
  | .upsertSeries rows => rows.map seriesValues
  | .upsertDay rows => rows.map dayValues
  | .upsertModel rows => rows.map modelValues
  | .deleteDays host series cutoff => [[.text host, .text series, .day (.date cutoff)]]

/-- What is handed to `pool.query`: the number of each placeholder, and the params. -/
structure Sent where
  placeholders : List (List ℕ)
  params : List Value

/-- A value is pushed and its placeholder is the length that `params` has then. -/
def bindRow (params : List Value) : List Value → List ℕ × List Value
  | [] => ([], params)
  | v :: row =>
    let params := params ++ [v]
    let rest := bindRow params row
    (params.length :: rest.1, rest.2)

def bindRows (params : List Value) : List (List Value) → Sent
  | [] => ⟨[], params⟩
  | row :: rows =>
    let bound := bindRow params row
    let rest := bindRows bound.2 rows
    ⟨bound.1 :: rest.placeholders, rest.params⟩

def Statement.sent (s : Statement) : Sent := bindRows [] s.values

/-- The statements in order, up to the first that `query` refuses; whether all of them landed. -/
def sendAll (T : Tables) : List Statement → Tables × Bool
  | [] => (T, true)
  | s :: rest =>
    if maxBindParams < s.sent.params.length then (T, false) else sendAll (s.apply T) rest

theorem bindRow_eq (params row : List Value) :
    bindRow params row = (List.range' (params.length + 1) row.length, params ++ row) := by
  induction row generalizing params with
  | nil => simp [bindRow]
  | cons v row ih => simp [bindRow, ih, range'_succ]

variable (params : List Value) (rows : List (List Value))

theorem bindRows_params :
    (bindRows params rows).params = params ++ rows.flatten := by
  induction rows generalizing params with
  | nil => simp [bindRows]
  | cons row rows ih => simp [bindRows, bindRow_eq, ih]

/-- The placeholders are numbered through, from the first that is free. -/
theorem bindRows_numbered :
    (bindRows params rows).placeholders.flatten =
      List.range' (params.length + 1) rows.flatten.length := by
  induction rows generalizing params with
  | nil => rfl
  | cons row rows ih =>
    rw [bindRows, bindRow_eq]
    rw [flatten_cons, ih, flatten_cons, length_append, length_append,
      ← range'_append_1]
    congr 2
    omega

/-- Each placeholder names the value that stands in its place. -/
theorem bindRows_names {all : List Value}
    (hall : params ++ rows.flatten <+: all) :
    (bindRows params rows).placeholders.map (fun ns => ns.map fun n => all[n - 1]?) =
      rows.map fun row => row.map some := by
  induction rows generalizing params with
  | nil => rfl
  | cons row rows ih =>
    rw [bindRows, bindRow_eq]
    rw [flatten_cons, ← append_assoc] at hall
    rw [map_cons, map_cons, ih (params ++ row) hall]
    congr 1
    obtain ⟨rest, rfl⟩ := hall
    apply ext_getElem?
    intro i
    simp only [getElem?_map]
    by_cases hi : i < row.length
    · simp [hi, getElem?_append_left, getElem?_append_right]
    · simp [hi]

theorem sent_params (s : Statement) : s.sent.params = s.values.flatten := bindRows_params [] s.values

inductive Table
  | usageHost
  | usageSeries
  | usageDay
  | usageModel
deriving DecidableEq

def Statement.table : Statement → Option Table
  | .upsertHost _ => some .usageHost
  | .upsertSeries _ => some .usageSeries
  | .upsertDay _ => some .usageDay
  | .upsertModel _ => some .usageModel
  | .deleteDays .. => none

/-- The rows that `_rowsForEntry` makes for a table. -/
def rowsFor (key : JsString) (e : Entry) : Table → List (List Value)
  | .usageHost => (hostRows key e).map hostValues
  | .usageSeries => (seriesRows key e).map seriesValues
  | .usageDay => ((entrySeries e).flatMap fun r => dayRows key r.1 r.2.series).map dayValues
  | .usageModel => ((entrySeries e).flatMap fun r => modelRows key r.1 r.2.series).map modelValues

/-- The placeholders of a statement count from 1 to `n`, and `$i` stands where the value
`params[i - 1]` belongs. -/
structure Matched (s : Statement) : Prop where
  numbered : s.sent.placeholders.flatten = List.range' 1 s.sent.params.length
  names : s.sent.placeholders.map (fun ns => ns.map fun n => s.sent.params[n - 1]?) =
    s.values.map fun row => row.map some

/-- The write of `e` can be sent. -/
structure Sendable (key : JsString) (e : Entry) : Prop where
  within_limit : ∀ s ∈ statements key e, s.sent.params.length ≤ maxBindParams
  covered : ∀ t, ((statements key e).filter fun s => s.table = some t).flatMap Statement.values =
    rowsFor key e t
  matched : ∀ s ∈ statements key e, Matched s
  lands : ∀ T, sendAll T (statements key e) = (T.after (statements key e), true)

def figures (b : Bucket) : ℕ := tokenKeys.countP fun tk => b tk ≠ 0

def dayFigures (s : Series) : ℕ :=
  (s.days.values.map figures).sum + figures s.pre + (s.subagent.toList.map figures).sum

def modelFigures (s : Series) : ℕ := (s.models.values.map figures).sum

/-- No table takes more rows than one statement may bind. -/
structure FewRows (e : Entry) : Prop where
  series : 7 * (entrySeries e).length ≤ maxBindParams
  days : 5 * ((entrySeries e).map fun r => dayFigures r.2.series).sum ≤ maxBindParams
  models : 5 * ((entrySeries e).map fun r => modelFigures r.2.series).sum ≤ maxBindParams

theorem matched (s : Statement) : Matched s where
  numbered := by
    rw [sent_params]
    exact bindRows_numbered [] s.values
  names := by
    rw [sent_params]
    exact bindRows_names [] s.values (prefix_refl _)

variable (key sid : JsString)

theorem length_bucketRows (day : DayId) (b : Bucket) :
    (bucketRows key sid day b).length = figures b := by
  rw [bucketRows, length_map, figures, countP_eq_length_filter]

theorem length_dayRows (s : Series) :
    (dayRows key sid s).length = dayFigures s := by
  simp only [dayRows, dayFigures, length_append, length_flatMap, length_bucketRows,
    OrdMap.values, map_map]
  rfl

theorem length_modelRows (s : Series) :
    (modelRows key sid s).length = modelFigures s := by
  have hperm := (ownEntries_perm s.models).map fun e => figures e.2
  rw [modelRows, length_flatMap, modelFigures, OrdMap.values, map_map]
  refine Eq.trans ?_ hperm.sum_eq
  congr 1
  apply map_congr_left
  intro e _
  rw [length_map, figures, countP_eq_length_filter]

variable {α : Type}

theorem chunk_length_le {columns : ℕ} {rows chunk : List α}
    (h : chunk ∈ chunks columns rows) : chunk.length ≤ rows.length := by
  obtain ⟨i, -, rfl⟩ := mem_map.mp h
  rw [length_take, length_drop]
  omega

/-- Chunks that may be past the limit are within it only when all rows together are. -/
theorem chunks_within {columns limit : ℕ} {rows : List α}
    (hbig : limit < columns * max 1 (maxParams / columns)) :
    (∀ chunk ∈ chunks columns rows, columns * chunk.length ≤ limit) ↔
      columns * rows.length ≤ limit := by
  constructor
  · intro h
    rcases Nat.eq_zero_or_pos rows.length with hzero | hpos
    · rw [hzero]
      exact Nat.zero_le _
    have hfirst : rows.take (max 1 (maxParams / columns)) ∈ chunks columns rows := by
      refine mem_map.mpr ⟨0, mem_range.mpr (Nat.div_pos ?_ ?_), by simp⟩
      · omega
      · omega
    have hle := h _ hfirst
    rw [length_take] at hle
    rcases Nat.le_total (max 1 (maxParams / columns)) rows.length with hmany | hfew
    · rw [min_eq_left hmany] at hle
      omega
    · rwa [min_eq_right hfew] at hle
  · intro h chunk hchunk
    exact (Nat.mul_le_mul_left columns (chunk_length_le hchunk)).trans h

theorem flatten_length {columns : ℕ} (values : α → List Value)
    (hvalues : ∀ r, (values r).length = columns) (rows : List α) :
    (rows.map values).flatten.length = columns * rows.length := by
  induction rows with
  | nil => rfl
  | cons r rows ih =>
    rw [map_cons, flatten_cons, length_append, hvalues, ih, length_cons]
    ring

/-- Every statement of a write is within the limit exactly when no table has too many rows. -/
theorem within_limit_iff (key : JsString) (e : Entry) :
    (∀ s ∈ statements key e, s.sent.params.length ≤ maxBindParams) ↔ FewRows e := by
  have hseries : ∀ rows, (Statement.upsertSeries rows).sent.params.length = 7 * rows.length := by
    intro rows
    rw [sent_params]
    exact flatten_length seriesValues (fun _ => rfl) rows
  have hday : ∀ rows, (Statement.upsertDay rows).sent.params.length = 5 * rows.length := by
    intro rows
    rw [sent_params]
    exact flatten_length dayValues (fun _ => rfl) rows
  have hmodel : ∀ rows, (Statement.upsertModel rows).sent.params.length = 5 * rows.length := by
    intro rows
    rw [sent_params]
    exact flatten_length modelValues (fun _ => rfl) rows
  have hhost : ∀ rows, (Statement.upsertHost rows).sent.params.length = 5 * rows.length := by
    intro rows
    rw [sent_params]
    exact flatten_length hostValues (fun _ => rfl) rows
  have hfew : FewRows e ↔
      (∀ chunk ∈ chunks 7 (seriesRows key e), 7 * chunk.length ≤ maxBindParams) ∧
      (∀ chunk ∈ chunks 5 ((entrySeries e).flatMap fun r => dayRows key r.1 r.2.series),
        5 * chunk.length ≤ maxBindParams) ∧
      ∀ chunk ∈ chunks 5 ((entrySeries e).flatMap fun r => modelRows key r.1 r.2.series),
        5 * chunk.length ≤ maxBindParams := by
    rw [chunks_within (by decide), chunks_within (by decide), chunks_within (by decide),
      seriesRows, length_map, length_flatMap, length_flatMap]
    simp only [length_dayRows, length_modelRows]
    exact ⟨fun h => ⟨h.series, h.days, h.models⟩, fun h => ⟨h.1, h.2.1, h.2.2⟩⟩
  rw [hfew]
  unfold statements
  constructor
  · intro h
    refine ⟨fun chunk hchunk => ?_, fun chunk hchunk => ?_, fun chunk hchunk => ?_⟩
    · rw [← hseries]
      exact h _ (by simp [hchunk])
    · rw [← hday]
      exact h _ (by simp [hchunk])
    · rw [← hmodel]
      exact h _ (by simp [hchunk])
  · rintro ⟨h₁, h₂, h₃⟩ s hs
    simp only [mem_append, mem_map, mem_filterMap] at hs
    rcases hs with (((⟨chunk, hchunk, rfl⟩ | ⟨chunk, hchunk, rfl⟩) | ⟨chunk, hchunk, rfl⟩) |
      ⟨chunk, hchunk, rfl⟩) | ⟨r, hr, hs⟩
    · rw [hhost]
      have hone : chunk.length ≤ 1 := chunk_length_le hchunk
      unfold maxBindParams
      omega
    · rw [hseries]
      exact h₁ chunk hchunk
    · rw [hday]
      exact h₂ chunk hchunk
    · rw [hmodel]
      exact h₃ chunk hchunk
    · obtain ⟨c, -, rfl⟩ := Option.map_eq_some_iff.mp hs
      rw [sent_params]
      change 3 ≤ maxBindParams
      decide

variable {ss : List Statement}

/-- Statements within the limit all land. -/
theorem sendAll_within (h : ∀ s ∈ ss, s.sent.params.length ≤ maxBindParams)
    (T : Tables) : sendAll T ss = (T.after ss, true) := by
  induction ss generalizing T with
  | nil => rfl
  | cons s ss ih =>
    rw [sendAll, if_neg (not_lt.mpr (h s mem_cons_self)),
      ih fun s' hs' => h s' (mem_cons_of_mem s hs')]
    rfl

theorem flatMap_values {stmt : List α → Statement} {values : α → List Value}
    {t' : Table} (htable : ∀ c, (stmt c).table = some t')
    (hvalues : ∀ c, (stmt c).values = c.map values) (t : Table) (columns : ℕ) (rows : List α) :
    (((chunks columns rows).map stmt).filter fun s => s.table = some t).flatMap Statement.values =
      if t' = t then rows.map values else [] := by
  have hall : ∀ css : List (List α),
      ((css.map stmt).filter fun s => s.table = some t).flatMap Statement.values =
        if t' = t then css.flatten.map values else [] := by
    intro css
    induction css with
    | nil => simp
    | cons c css ih =>
      rw [map_cons, filter_cons, htable]
      by_cases ht : t' = t
      · rw [if_pos (by simp [ht]), flatMap_cons, ih, if_pos ht, if_pos ht, hvalues,
          flatten_cons, map_append]
      · rw [if_neg (by simp [ht]), ih, if_neg ht, if_neg ht]
  rw [hall, flatten_chunks]

theorem covered (key : JsString) (e : Entry) (t : Table) :
    ((statements key e).filter fun s => s.table = some t).flatMap Statement.values =
      rowsFor key e t := by
  have hdeletes : (((entrySeries e).filterMap fun r => r.2.series.cutoff.map fun c =>
      Statement.deleteDays key r.1 c).filter fun s => s.table = some t) = [] := by
    refine filter_eq_nil_iff.mpr fun s hs => ?_
    obtain ⟨r, -, hr⟩ := mem_filterMap.mp hs
    obtain ⟨c, -, rfl⟩ := Option.map_eq_some_iff.mp hr
    simp [Statement.table]
  unfold statements
  simp only [filter_append, flatMap_append, hdeletes, append_nil]
  rw [flatMap_values (fun _ => rfl) fun _ => rfl, flatMap_values (fun _ => rfl) fun _ => rfl,
    flatMap_values (fun _ => rfl) fun _ => rfl, flatMap_values (fun _ => rfl) fun _ => rfl]
  cases t <;> simp [rowsFor]

/-- The write of what `enforceHostShare` leaves of an entry can be sent exactly when each of its
tables takes one statement's worth of rows. -/
theorem sendable_iff (L : Limits) (key : JsString) (e : Entry) :
    Sendable key (enforceHostShare L e) ↔ FewRows (enforceHostShare L e) := by
  refine ⟨fun h => (within_limit_iff key _).mp h.within_limit, fun h => ?_⟩
  have hwithin := (within_limit_iff key _).mpr h
  exact ⟨hwithin, covered key _, fun s _ => matched s, sendAll_within hwithin⟩

/-- A write that has a statement past the limit never lands. -/
theorem sendAll_refused {s : Statement} (hs : s ∈ ss)
    (hbig : maxBindParams < s.sent.params.length) (T : Tables) : (sendAll T ss).2 = false := by
  induction ss generalizing T with
  | nil => exact absurd hs not_mem_nil
  | cons s' ss ih =>
    rw [sendAll]
    split_ifs with hrefused
    · rfl
    · rcases mem_cons.mp hs with rfl | hs
      · exact absurd hbig hrefused
      · exact ih hs _

/-- 120 days of 2026, the first 28 of each month. -/
def busyDays : List IsoDay :=
  (List.range 120).map fun i => Fin.ofNat 100000000 (20260101 + i / 28 * 100 + i % 28)

theorem busyDays_nodup : busyDays.Nodup := by
  decide

def busySeries : Series :=
  { blankSeries with
    days := ⟨busyDays.map fun d => (d, fun _ => 1),
      by rw [map_map]; exact (map_id busyDays).symm ▸ busyDays_nodup⟩ }

def busyRepos : List Char :=
  ['a', 'b', 'c', 'd', 'e', 'f', 'g', 'h', 'i', 'j', 'k', 'l', 'm', 'n']

/-- Fourteen repos of it. -/
def busyHost : Entry where
  device := []
  siteKey := []
  firstSeen := 0
  lastSeen := 0
  augments := false
  host := none
  repos := ⟨busyRepos.map fun c => ([.scalar c], ⟨[], [], busySeries⟩), by decide⟩

theorem jsLength_append (a b : List Char) : jsLength (a ++ b) = jsLength a + jsLength b := by
  simp [jsLength]

theorem jsLength_ascii (c : Char) (t : List Char) (hc : c.toNat < 0x10000) :
    jsLength (c :: t) = 1 + jsLength t := by
  simp [jsLength, hc]

variable (ms : List (List Char × List Char))

theorem jsLength_jsonMembers_le :
    jsLength (jsonMembers ms) ≤ (ms.map fun m => jsLength m.1 + jsLength m.2 + 2).sum := by
  induction ms with
  | nil => exact le_rfl
  | cons m ms ih =>
    cases ms with
    | nil =>
      rw [jsonMembers, jsLength_append, jsLength_ascii ':' _ (by decide)]
      simp only [map_cons, map_nil, sum_cons, sum_nil]
      omega
    | cons m' ms =>
      rw [jsonMembers, jsLength_append, jsLength_append, jsLength_ascii ':' _ (by decide),
        jsLength_ascii ',' _ (by decide), map_cons, sum_cons]
      omega

theorem jsLength_jsonObject_le :
    jsLength (jsonObject ms) ≤ 2 + (ms.map fun m => jsLength m.1 + jsLength m.2 + 2).sum := by
  have hmembers := jsLength_jsonMembers_le ms
  have hclose : jsLength ['}'] = 1 := by decide
  rw [jsonObject, cons_append, jsLength_ascii _ _ (by decide), jsLength_append, hclose]
  omega

theorem jsLength_jsonDay (d : IsoDay) : jsLength (jsonDay d) = 12 := by
  have hdigit : ∀ m, m < 10 → jsLength [m.digitChar] = 1 := by
    decide
  have hdigit' : ∀ n t, jsLength ((n % 10).digitChar :: t) = 1 + jsLength t := by
    intro n t
    rw [← singleton_append, jsLength_append, hdigit _ (Nat.mod_lt n (by decide))]
  simp only [jsonDay, hdigit', jsLength_ascii '"' _ (by decide), jsLength_ascii '-' _ (by decide)]
  rfl

/-- What an object takes, when one of its members is known by a bound alone. -/
theorem jsLength_jsonObject_with {a b : List (List Char × List Char)} {key value : List Char}
    {n k l total : ℕ} (hrest : ((a ++ b).map fun m => jsLength m.1 + jsLength m.2 + 2).sum ≤ n)
    (hkey : jsLength key = k) (hvalue : jsLength value ≤ l) (htotal : n + k + l + 4 ≤ total) :
    jsLength (jsonObject (a ++ (key, value) :: b)) ≤ total := by
  refine (jsLength_jsonObject_le _).trans ?_
  rw [map_append, sum_append] at hrest ⊢
  rw [map_cons, sum_cons]
  dsimp only
  omega

/-- What an object takes, when its members all take as much. -/
theorem jsLength_jsonObject_uniform {ms : List (List Char × List Char)} {n k l total : ℕ}
    (hlength : ms.length = n) (hkey : ∀ m ∈ ms, jsLength m.1 = k)
    (hvalue : ∀ m ∈ ms, jsLength m.2 ≤ l) (htotal : n * (k + l + 2) + 2 ≤ total) :
    jsLength (jsonObject ms) ≤ total := by
  have hsum : (ms.map fun m => jsLength m.1 + jsLength m.2 + 2).sum ≤ ms.length * (k + l + 2) := by
    clear hlength htotal
    induction ms with
    | nil => exact Nat.zero_le _
    | cons m ms ih =>
      have hrest := ih (fun m' hm' => hkey m' (mem_cons_of_mem m hm')) fun m' hm' =>
        hvalue m' (mem_cons_of_mem m hm')
      have hk := hkey m mem_cons_self
      have hv := hvalue m mem_cons_self
      rw [map_cons, sum_cons, length_cons, Nat.succ_mul]
      omega
  have hall := jsLength_jsonObject_le ms
  rw [hlength] at hsum
  omega

theorem busyDays_length : jsLength (jsonObject (busySeries.days.entries.map fun e =>
    (jsonDay e.1, jsonBucket e.2))) ≤ 7850 := by
  have hbucket : jsLength (jsonBucket fun _ => 1) = 51 := by
    decide
  refine jsLength_jsonObject_uniform (n := 120) (k := 12) (l := 51) (by simp [busySeries, busyDays])
    (fun m hm => ?_) (fun m hm => ?_) (by decide)
  · obtain ⟨e, -, rfl⟩ := mem_map.mp hm
    exact jsLength_jsonDay e.1
  · obtain ⟨e, he, rfl⟩ := mem_map.mp hm
    obtain ⟨d, -, rfl⟩ := mem_map.mp he
    exact hbucket.le

theorem busySeries_length : jsLength (jsonSeries busySeries) ≤ 8200 := by
  have hkey : jsLength (jsonKey "days") = 6 := by
    decide
  refine jsLength_jsonObject_with (a := [(jsonKey "pre", jsonBucket busySeries.pre)]) (n := 200)
    ?_ hkey busyDays_length (by decide)
  decide

theorem busySlot_length : jsLength (jsonSlot ⟨[], [], busySeries⟩) ≤ 8300 := by
  have hkey : jsLength (jsonKey "series") = 8 := by
    decide
  refine jsLength_jsonObject_with
    (a := [(jsonKey "repo", jsonString []), (jsonKey "remote", jsonString [])]) (b := []) (n := 50)
    ?_ hkey busySeries_length (by decide)
  decide

theorem busyRepos_length : jsLength (jsonObject ((ownEntries busyHost.repos).map fun r =>
    (jsonString r.1, jsonSlot r.2))) ≤ 116300 := by
  have hkeys : (busyRepos.all fun c => jsLength (jsonString [.scalar c]) = 3) = true := by
    decide
  have hkey : ∀ c ∈ busyRepos, jsLength (jsonString [.scalar c]) = 3 := by
    simpa using hkeys
  have hown : ∀ r ∈ ownEntries busyHost.repos, ∃ c ∈ busyRepos,
      r = ([.scalar c], ⟨[], [], busySeries⟩) := by
    intro r hr
    obtain ⟨c, hc, rfl⟩ := mem_map.mp ((ownEntries_perm busyHost.repos).mem_iff.mp hr)
    exact ⟨c, hc, rfl⟩
  refine jsLength_jsonObject_uniform (n := 14) (k := 3) (l := 8300) ?_ (fun m hm => ?_)
    (fun m hm => ?_) (by decide)
  · rw [length_map]
    exact (ownEntries_perm busyHost.repos).length_eq
  · obtain ⟨r, hr, rfl⟩ := mem_map.mp hm
    obtain ⟨c, hc, rfl⟩ := hown r hr
    exact hkey c hc
  · obtain ⟨r, hr, rfl⟩ := mem_map.mp hm
    obtain ⟨c, -, rfl⟩ := hown r hr
    exact busySlot_length

theorem busyHost_length : entrySize busyHost ≤ 130000 := by
  have hkey : jsLength (jsonKey "repos") = 7 := by
    decide
  rw [entrySize, jsonEntry]
  refine jsLength_jsonObject_with
    (a := [(jsonKey "device", jsonString busyHost.device),
      (jsonKey "siteKey", jsonString busyHost.siteKey),
      (jsonKey "firstSeen", jsonNumber busyHost.firstSeen),
      (jsonKey "lastSeen", jsonNumber busyHost.lastSeen),
      (jsonKey "augments", jsonBool busyHost.augments),
      (jsonKey "host", jsonOption jsonSeries busyHost.host)]) (b := []) (n := 120)
    ?_ hkey busyRepos_length (by decide)
  decide

theorem busyHost_within_share : enforceHostShare shipped busyHost = busyHost := by
  have hfits : overShare shipped busyHost = false := by
    have hlength := busyHost_length
    have hshare : 130000 ≤ hostShare shipped := by decide
    exact decide_eq_false fun h => not_lt.mpr (hlength.trans hshare) h.2
  rw [enforceHostShare_eq, trimDetail, trimRounds_of_fits hfits, trimRounds_of_fits hfits]
  exact dropRepos_of_fits hfits

/-- 6720 rows go to `usage_day`. -/
theorem busyHost_many : ¬FewRows busyHost := by
  have hfigures : dayFigures busySeries = 480 := by
    decide +kernel
  have hslots : ∀ r ∈ entrySeries busyHost, r.2.series = busySeries := by
    intro r hr
    have hown : r ∈ (ownEntries busyHost.repos).filter fun r => r.1 ≠ JsString.ofString "__proto__" :=
      hr
    have hentry := (ownEntries_perm busyHost.repos).mem_iff.mp (mem_of_mem_filter hown)
    obtain ⟨c, -, rfl⟩ := mem_map.mp hentry
    rfl
  have hlength : (entrySeries busyHost).length = 14 := by
    decide
  have hsum : ((entrySeries busyHost).map fun r => dayFigures r.2.series).sum = 14 * 480 := by
    rw [map_congr_left (g := fun _ => 480) fun r hr => by rw [hslots r hr, hfigures]]
    simp [hlength]
  intro h
  have hdays := h.days
  rw [hsum] at hdays
  exact absurd hdays (by decide)

/-- `busyHost` is within its share and is refused in full, over any tables. -/
theorem busyHost_unwritable :
    enforceHostShare shipped busyHost = busyHost ∧ ¬Sendable [] (enforceHostShare shipped busyHost) ∧
      ∀ T, (sendAll T (statements [] busyHost)).2 = false := by
  refine ⟨busyHost_within_share, fun h => ?_, fun T => ?_⟩
  · have hfew := (sendable_iff shipped [] busyHost).mp h
    rw [busyHost_within_share] at hfew
    exact busyHost_many hfew
  · have hover : ∃ s ∈ statements [] busyHost, maxBindParams < s.sent.params.length := by
      by_contra hnone
      refine busyHost_many ((within_limit_iff [] busyHost).mp fun s hs => ?_)
      exact not_lt.mp fun hlt => hnone ⟨s, hs, hlt⟩
    obtain ⟨s, hs, hlt⟩ := hover
    exact sendAll_refused hs hlt T

end Turma.LedgerStore
