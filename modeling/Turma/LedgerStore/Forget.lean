import Turma.Ledger.Share
import Turma.LedgerStore.Read
import Turma.Lib.SumOn

/-! The high-water write against the total that is read back. Every column only rises, and the
rows that a cutoff closes are deleted on the word of that cutoff alone: what `pre` holds of
them is the writer's own figure of those days, and the rows may hold more. -/

namespace Turma.LedgerStore

open Turma.Lib Turma.Ledger List OrdMap JsString

def Tables.total (T : Tables) (h sid : JsString) (k : TokenKey) : ℕ :=
  (slotAt (readAll T T T T) h sid).series.spent k

/-- A write of `_writeEntry`: a host key and the entry that goes under it. -/
abbrev Write := JsString × Entry

def Write.land (L : Limits) (T : Tables) (w : Write) : Tables := writeEntry L T w.1 w.2

/-- The rows that the write's cutoff newly closes hold no more than the write adds to `pre` and
to the rows that stay. -/
def MadeUp (T : Tables) (key : JsString) (e : Entry) (h sid : JsString) (k : TokenKey) : Prop :=
  sumOn (fun d => !inPre (T.cutoff h sid) d && inPre (writesCutoff key e h sid) d)
      (fun d => T.stored h sid (.date d) k) ≤
    (writes key e h sid .pre k - T.stored h sid .pre k) +
      sumOn (fun d => !inPre (T.cutoff h sid) d && !inPre (writesCutoff key e h sid) d)
        fun d => writes key e h sid (.date d) k - T.stored h sid (.date d) k

theorem total_eq (T : Tables) (h sid : JsString) (k : TokenKey) :
    T.total h sid k = T.stored h sid .pre k +
      sumOn (fun d => !inPre (T.cutoff h sid) d) fun d => T.stored h sid (.date d) k := by
  have hdays : ∑ d, (slotAt (readAll T T T T) h sid).series.day k d =
      sumOn (fun d => !inPre (T.cutoff h sid) d) fun d => T.stored h sid (.date d) k := by
    apply Finset.sum_congr rfl
    intro d _
    beta_reduce
    rw [readAll_day]
    cases inPre (T.cutoff h sid) d <;> rfl
  rw [Tables.total, Series.spent_eq, readAll_pre, hdays]

theorem keys_dropRepos (L : Limits) (n : ℕ) {e : Entry} {rk : JsString}
    (h : rk ∈ (dropRepos L n e).repos.keys) : rk ∈ e.repos.keys := by
  induction n generalizing e with
  | zero => exact h
  | succ n ih =>
    rw [dropRepos] at h
    split at h
    · split at h
      · exact h
      · exact (mem_keys_filterKeys.mp (ih h)).2
    · exact h

/-- The share of a host takes repos away and brings in none. -/
theorem keys_enforceHostShare {L : Limits} {e : Entry} {rk : JsString}
    (h : rk ∈ (enforceHostShare L e).repos.keys) : rk ∈ e.repos.keys := by
  have h := keys_dropRepos L _ h
  rwa [keys_trimRounds, keys_trimRounds] at h

section

variable {e : Entry} (hnamed : [] ∉ e.repos.keys) (T : Tables) (key h sid : JsString)
  (k : TokenKey)

include hnamed

/-- The rows that stay are the ones that neither cutoff closes, each at the larger figure. -/
theorem total_after : (T.after (statements key e)).total h sid k =
    max (T.stored h sid .pre k) (writes key e h sid .pre k) +
      sumOn (fun d => !inPre (T.cutoff h sid) d && !inPre (writesCutoff key e h sid) d)
        fun d => max (T.stored h sid (.date d) k) (writes key e h sid (.date d) k) := by
  have hdays : sumOn (fun d => !inPre ((T.after (statements key e)).cutoff h sid) d)
        (fun d => (T.after (statements key e)).stored h sid (.date d) k) =
      sumOn (fun d => !inPre (T.cutoff h sid) d && !inPre (writesCutoff key e h sid) d)
        fun d => max (T.stored h sid (.date d) k) (writes key e h sid (.date d) k) := by
    apply Finset.sum_congr rfl
    intro d _
    beta_reduce
    rw [cutoff_after hnamed, inPre_laterCutoff, date_after hnamed]
    cases inPre (T.cutoff h sid) d <;> cases inPre (writesCutoff key e h sid) d <;> rfl
  rw [total_eq, pre_after hnamed, hdays]

theorem total_after_iff : T.total h sid k ≤ (T.after (statements key e)).total h sid k ↔
    MadeUp T key e h sid k := by
  have hsplit := sumOn_and_add_not (fun d => !inPre (T.cutoff h sid) d)
    (fun d => inPre (writesCutoff key e h sid) d) fun d => T.stored h sid (.date d) k
  have hmax : sumOn (fun d => !inPre (T.cutoff h sid) d && !inPre (writesCutoff key e h sid) d)
        (fun d => max (T.stored h sid (.date d) k) (writes key e h sid (.date d) k)) =
      sumOn (fun d => !inPre (T.cutoff h sid) d && !inPre (writesCutoff key e h sid) d)
        (fun d => T.stored h sid (.date d) k) +
      sumOn (fun d => !inPre (T.cutoff h sid) d && !inPre (writesCutoff key e h sid) d)
        fun d => writes key e h sid (.date d) k - T.stored h sid (.date d) k := by
    rw [← sumOn_add]
    exact sumOn_congr fun d _ => by omega
  rw [total_after hnamed, total_eq, MadeUp, hmax, ← hsplit]
  omega

end

/-- A writer that has folded nothing closes no row. -/
theorem made_up_of_unfolded {T : Tables} {key : JsString} {e : Entry} {h sid : JsString}
    (hc : writesCutoff key e h sid = none) (k : TokenKey) : MadeUp T key e h sid k := by
  have hzero : sumOn (fun d => !inPre (T.cutoff h sid) d && inPre (writesCutoff key e h sid) d)
      (fun d => T.stored h sid (.date d) k) = 0 := by
    apply Finset.sum_eq_zero
    intro d _
    simp [hc]
  rw [MadeUp, hzero]
  exact Nat.zero_le _

/-- Over every run of complete writes, from any tables that writers left: a write leaves a total
where it was or higher exactly when it makes up for the rows that it closes. -/
theorem total_kept_iff_made_up (L : Limits) (T : Tables) (ws : List Write)
    (hnamed : ∀ w ∈ ws, [] ∉ w.2.repos.keys) (h sid : JsString) (k : TokenKey) :
    Along (Write.land L) (fun T w => T.total h sid k ≤ (Write.land L T w).total h sid k) T ws ↔
      Along (Write.land L) (fun T w => MadeUp T w.1 (enforceHostShare L w.2) h sid k) T ws := by
  have hone : ∀ w ∈ ws, ∀ T : Tables, T.total h sid k ≤ (Write.land L T w).total h sid k ↔
      MadeUp T w.1 (enforceHostShare L w.2) h sid k := by
    intro w hw T
    rw [Write.land, writeEntry]
    exact total_after_iff (fun hk => hnamed w hw (keys_enforceHostShare hk)) T w.1 h sid k
  clear hnamed
  induction ws generalizing T with
  | nil => exact iff_of_true trivial trivial
  | cons w ws ih =>
    exact and_congr (hone w mem_cons_self T)
      (ih (Write.land L T w) fun w' hw' => hone w' (mem_cons_of_mem w hw'))

def hostOnly (s : Series) : Entry := ⟨[], [], 0, 0, false, some s, .empty⟩

def firstReplica : List Write :=
  [(ofString "host",
    hostOnly (run (Op.apply shipped) blankSeries [.absorb (inputReport 100 [(20260101, 100)])]))]

/-- A second replica has seen the day grow and another one begin. -/
def grownReplica : Write :=
  (ofString "host", hostOnly (run (Op.apply shipped) blankSeries
    [.absorb (inputReport 150 [(20260101, 130), (20260102, 20)])]))

theorem total_kept_iff_made_up_first :
    (run (Write.land shipped) .empty (firstReplica ++ [grownReplica])).total
        (ofString "host") [] .input = 150 ∧
      Along (Write.land shipped) (fun T w => T.total (ofString "host") [] .input ≤
        (Write.land shipped T w).total (ofString "host") [] .input) .empty
        (firstReplica ++ [grownReplica]) := by
  refine ⟨by decide +kernel, ?_⟩
  refine (total_kept_iff_made_up shipped .empty (firstReplica ++ [grownReplica]) ?_ _ _ _).mpr
    ⟨made_up_of_unfolded (by decide +kernel) _, made_up_of_unfolded (by decide +kernel) _, trivial⟩
  intro w hw
  rcases mem_append.mp hw with hw | hw <;> rw [mem_singleton.mp hw] <;> exact not_mem_nil

/-- Two replicas write one host. The first had the whole of a day, the second an early part of
it, and folded it. -/
def twoReplicas : List Write :=
  firstReplica ++ [(ofString "host", hostOnly (run (Op.apply shipped) blankSeries
    [.absorb (inputReport 10 [(20260101, 10)]), .halveDays]))]

theorem twoReplicas_lower_total : ¬ Along (Write.land shipped)
    (fun T w => T.total (ofString "host") [] .input ≤
      (Write.land shipped T w).total (ofString "host") [] .input) .empty twoReplicas := by
  decide +kernel

end Turma.LedgerStore

/-! The queries that the store sends, those of a forget among them. A query changes the rows of
one host key, and only four kinds of it can lower a total that is read back. -/

namespace Turma.LedgerStore

open Turma.Lib Turma.Ledger OrdMap JsString

inductive TableName
  | usageHost
  | usageSeries
  | usageDay
  | usageModel
deriving DecidableEq

/-- A statement of `_writeEntry`, or a `DELETE` of `_deleteHost`. -/
inductive Query
  | write (s : Statement)
  | delete (table : TableName) (key : JsString)

def Query.apply (T : Tables) : Query → Tables
  | .write s => s.apply T
  | .delete .usageHost key => { T with usageHost := T.usageHost.filterKeys fun k => k ≠ key }
  | .delete .usageSeries key => { T with usageSeries := T.usageSeries.filterKeys fun k => k.1 ≠ key }
  | .delete .usageDay key => { T with usageDay := T.usageDay.filterKeys fun k => k.1 ≠ key }
  | .delete .usageModel key => { T with usageModel := T.usageModel.filterKeys fun k => k.1 ≠ key }

def writeQueries (key : JsString) (e : Entry) : List Query := (statements key e).map .write

def deleteQueries (key : JsString) : List Query :=
  [.delete .usageHost key, .delete .usageSeries key, .delete .usageDay key,
    .delete .usageModel key]

/-- The two tables hold the same of `h`. -/
structure SameUnder (h : JsString) (T T' : Tables) : Prop where
  series : ∀ sid, T.usageSeries.get? (h, sid) = T'.usageSeries.get? (h, sid)
  day : ∀ sid day k, T.usageDay.get? (h, sid, day, k) = T'.usageDay.get? (h, sid, day, k)

theorem SameUnder.refl (h : JsString) (T : Tables) : SameUnder h T T :=
  ⟨fun _ => rfl, fun _ _ _ => rfl⟩

theorem SameUnder.symm {h : JsString} {T T' : Tables} (hs : SameUnder h T T') :
    SameUnder h T' T :=
  ⟨fun sid => (hs.series sid).symm, fun sid day k => (hs.day sid day k).symm⟩

theorem SameUnder.cutoff {h : JsString} {T T' : Tables} (hs : SameUnder h T T')
    (sid : JsString) : T.cutoff h sid = T'.cutoff h sid := by
  rw [Tables.cutoff, Tables.cutoff, hs.series]

theorem SameUnder.stored {h : JsString} {T T' : Tables} (hs : SameUnder h T T')
    (sid : JsString) (day : DayId) (k : TokenKey) :
    T.stored h sid day k = T'.stored h sid day k := by
  rw [Tables.stored, Tables.stored, OrdMap.figure, OrdMap.figure, hs.day]

theorem SameUnder.total {h : JsString} {T T' : Tables} (hs : SameUnder h T T')
    (sid : JsString) (k : TokenKey) : T.total h sid k = T'.total h sid k := by
  rw [total_eq, total_eq, hs.stored, hs.cutoff]
  have hdays : (fun d => T.stored h sid (.date d) k) = fun d => T'.stored h sid (.date d) k :=
    funext fun d => hs.stored sid (.date d) k
  rw [hdays]

/-- A query acts on the rows of `h` by those rows alone. -/
theorem SameUnder.apply {h : JsString} {T T' : Tables} (hs : SameUnder h T T') (q : Query) :
    SameUnder h (q.apply T) (q.apply T') := by
  cases q with
  | write s =>
    cases s with
    | upsertHost rows => exact ⟨hs.series, hs.day⟩
    | upsertModel rows => exact ⟨hs.series, hs.day⟩
    | upsertSeries rows =>
      refine ⟨fun sid => ?_, hs.day⟩
      simp only [Query.apply, Statement.apply, get?_upsertRows, hs.series]
    | upsertDay rows =>
      refine ⟨hs.series, fun sid day k => ?_⟩
      simp only [Query.apply, Statement.apply, get?_upsertRows, hs.day]
    | deleteDays key sid' c =>
      refine ⟨hs.series, fun sid day k => ?_⟩
      simp only [Query.apply, Statement.apply, get?_filterKeys, hs.day]
  | delete table key =>
    cases table with
    | usageHost => exact ⟨hs.series, hs.day⟩
    | usageModel => exact ⟨hs.series, hs.day⟩
    | usageSeries =>
      refine ⟨fun sid => ?_, hs.day⟩
      simp only [Query.apply, get?_filterKeys, hs.series]
    | usageDay =>
      refine ⟨hs.series, fun sid day k => ?_⟩
      simp only [Query.apply, get?_filterKeys, hs.day]

theorem SameUnder.run {h : JsString} (qs : List Query) {T T' : Tables} (hs : SameUnder h T T') :
    SameUnder h (run Query.apply T qs) (run Query.apply T' qs) := by
  induction qs generalizing T T' with
  | nil => exact hs
  | cons q qs ih => exact ih (hs.apply q)

/-- The query names rows of `key` alone. -/
def Query.Of (key : JsString) : Query → Prop
  | .write (.upsertHost rows) => ∀ r ∈ rows, r.1 = key
  | .write (.upsertSeries rows) => ∀ r ∈ rows, r.1.1 = key
  | .write (.upsertDay rows) => ∀ r ∈ rows, r.1.1 = key
  | .write (.upsertModel rows) => ∀ r ∈ rows, r.1.1 = key
  | .write (.deleteDays host _ _) => host = key
  | .delete _ host => host = key

theorem get?_upsertRows_of_ne {κ α : Type} [DecidableEq κ] {set : α → α → α}
    {rows : List (κ × α)} {k : κ} (hne : ∀ r ∈ rows, r.1 ≠ k) (table : OrdMap κ α) :
    (upsertRows set rows table).get? k = table.get? k := by
  have hnone : rows.filter (fun r => r.1 = k) = [] :=
    List.filter_eq_nil_iff.mpr fun r hr => by simp [hne r hr]
  rw [get?_upsertRows, hnone]
  rfl

/-- The rows of the other host keys stay as they are. -/
theorem Query.Of.same {key h : JsString} {q : Query} (hq : q.Of key) (hne : key ≠ h)
    (T : Tables) : SameUnder h (q.apply T) T := by
  cases q with
  | write s =>
    cases s with
    | upsertHost rows => exact ⟨fun _ => rfl, fun _ _ _ => rfl⟩
    | upsertModel rows => exact ⟨fun _ => rfl, fun _ _ _ => rfl⟩
    | upsertSeries rows =>
      refine ⟨fun sid => get?_upsertRows_of_ne (fun r hr heq => hne ?_) _, fun _ _ _ => rfl⟩
      rw [← hq r hr, heq]
    | upsertDay rows =>
      refine ⟨fun _ => rfl, fun sid day k =>
        get?_upsertRows_of_ne (fun r hr heq => hne ?_) _⟩
      rw [← hq r hr, heq]
    | deleteDays host sid' c =>
      refine ⟨fun _ => rfl, fun sid day k => ?_⟩
      have hhost : h ≠ host := fun heq => hne (hq.symm.trans heq.symm)
      simp only [Query.apply, Statement.apply, get?_filterKeys]
      cases day <;> simp [hhost]
  | delete table host =>
    have hhost : h ≠ host := fun heq => hne (hq.symm.trans heq.symm)
    cases table with
    | usageHost => exact ⟨fun _ => rfl, fun _ _ _ => rfl⟩
    | usageModel => exact ⟨fun _ => rfl, fun _ _ _ => rfl⟩
    | usageSeries =>
      exact ⟨fun sid => by simp [Query.apply, get?_filterKeys, hhost], fun _ _ _ => rfl⟩
    | usageDay =>
      exact ⟨fun _ => rfl, fun sid day k => by
        simp [Query.apply, get?_filterKeys, hhost]⟩

theorem mem_of_mem_chunks {α : Type} {columns : ℕ} {rows chunk : List α} {r : α}
    (hchunk : chunk ∈ chunks columns rows) (hr : r ∈ chunk) : r ∈ rows := by
  rw [← flatten_chunks columns rows]
  exact List.mem_flatten.mpr ⟨chunk, hchunk, hr⟩

theorem writeQueries_of {key : JsString} {e : Entry} {q : Query} (hq : q ∈ writeQueries key e) :
    q.Of key := by
  obtain ⟨s, hs, rfl⟩ := List.mem_map.mp hq
  unfold statements at hs
  simp only [List.mem_append, List.mem_map, List.mem_filterMap] at hs
  rcases hs with (((⟨chunk, hchunk, rfl⟩ | ⟨chunk, hchunk, rfl⟩) | ⟨chunk, hchunk, rfl⟩) |
    ⟨chunk, hchunk, rfl⟩) | ⟨r, hr, hs⟩
  · intro r hr
    rw [List.mem_singleton.mp (mem_of_mem_chunks hchunk hr)]
  · intro r hr
    obtain ⟨slot, -, rfl⟩ := List.mem_map.mp (mem_of_mem_chunks hchunk hr)
    rfl
  · intro r hr
    obtain ⟨slot, -, hrow⟩ := List.mem_flatMap.mp (mem_of_mem_chunks hchunk hr)
    obtain ⟨day, k, -, rfl⟩ := mem_dayRows.mp hrow
    rfl
  · intro r hr
    obtain ⟨slot, -, hrow⟩ := List.mem_flatMap.mp (mem_of_mem_chunks hchunk hr)
    obtain ⟨m, -, hrow⟩ := List.mem_flatMap.mp hrow
    obtain ⟨k, -, rfl⟩ := List.mem_map.mp hrow
    rfl
  · obtain ⟨c, -, rfl⟩ := Option.map_eq_some_iff.mp hs
    rfl

theorem deleteQueries_of {key : JsString} {q : Query} (hq : q ∈ deleteQueries key) :
    q.Of key := by
  simp only [deleteQueries, List.mem_cons, List.not_mem_nil, or_false] at hq
  rcases hq with rfl | rfl | rfl | rfl <;> rfl

theorem run_writeQueries (T : Tables) (key : JsString) (e : Entry) :
    run Query.apply T (writeQueries key e) = T.after (statements key e) := by
  unfold writeQueries
  generalize statements key e = ss
  induction ss generalizing T with
  | nil => rfl
  | cons s ss ih => exact ih (s.apply T)

/-- What the query takes out of a total under `h`. A cutoff takes the rows that it newly closes,
a `DELETE` the open rows that it names. -/
def Query.taken (T : Tables) (h sid : JsString) (k : TokenKey) : Query → ℕ
  | .write (.upsertSeries rows) =>
    sumOn (fun d => !inPre (T.cutoff h sid) d &&
      inPre ((Statement.apply T (.upsertSeries rows)).cutoff h sid) d)
      fun d => T.stored h sid (.date d) k
  | .write (.deleteDays host sid' c) =>
    if h = host ∧ sid = sid' then
      sumOn (fun d => !inPre (T.cutoff h sid) d && decide (d ≤ c))
        fun d => T.stored h sid (.date d) k
    else 0
  | .delete .usageDay host => if h = host then T.total h sid k else 0
  | _ => 0

/-- The query takes nothing out of the totals under `h`. -/
def Spares (T : Tables) (q : Query) (h : JsString) : Prop := ∀ sid k, q.taken T h sid k = 0

theorem total_le_of {T T' : Tables} {h sid : JsString} {k : TokenKey} {lost : ℕ}
    (hpre : T.stored h sid .pre k ≤ T'.stored h sid .pre k)
    (hdays : sumOn (fun d => !inPre (T.cutoff h sid) d) (fun d => T.stored h sid (.date d) k) ≤
      lost + sumOn (fun d => !inPre (T'.cutoff h sid) d) fun d => T'.stored h sid (.date d) k) :
    T.total h sid k ≤ T'.total h sid k + lost := by
  rw [total_eq, total_eq]
  omega

theorem total_le_apply (T : Tables) (q : Query) (h sid : JsString) (k : TokenKey) :
    T.total h sid k ≤ (q.apply T).total h sid k + q.taken T h sid k := by
  cases q with
  | write s =>
    cases s with
    | upsertHost rows => exact total_le_of le_rfl (Nat.le_add_left _ _)
    | upsertModel rows => exact total_le_of le_rfl (Nat.le_add_left _ _)
    | upsertSeries rows =>
      refine total_le_of le_rfl ?_
      have hsplit := sumOn_and_add_not (fun d => !inPre (T.cutoff h sid) d)
        (fun d => inPre ((Statement.apply T (.upsertSeries rows)).cutoff h sid) d)
        fun d => T.stored h sid (.date d) k
      rw [← hsplit]
      refine Nat.add_le_add_left (sumOn_mono fun d hd => ?_) _
      exact (Bool.and_eq_true _ _ ▸ hd).2
    | upsertDay rows =>
      have hle : ∀ day, T.stored h sid day k ≤
          (Query.apply T (.write (.upsertDay rows))).stored h sid day k := by
        intro day
        refine le_trans ?_ (le_of_eq (figure_upsertRows rows T.usageDay (h, sid, day, k)).symm)
        generalize rows.filter (fun r => r.1 = (h, sid, day, k)) = rs
        change T.stored h sid day k ≤ rs.foldl _ (T.stored h sid day k)
        generalize T.stored h sid day k = n
        induction rs generalizing n with
        | nil => exact le_rfl
        | cons r rs ih => exact le_trans (le_max_left n r.2) (ih (max n r.2))
      exact total_le_of (hle .pre) (le_add_left (sumOn_le_sumOn fun d _ => hle (.date d)))
    | deleteDays host sid' c =>
      refine total_le_of ?_ ?_
      · exact le_of_eq ((figure_filterKeys id T.usageDay _ _).trans (if_pos rfl)).symm
      · have hstored : ∀ d, ¬(h = host ∧ sid = sid' ∧ d ≤ c) → T.stored h sid (.date d) k =
            (Query.apply T (.write (.deleteDays host sid' c))).stored h sid (.date d) k :=
          fun d hd => ((stored_deleteDays T host sid' h sid c d k).trans (if_neg hd)).symm
        simp only [Query.taken]
        split_ifs with hin
        · rw [← sumOn_and_add_not (fun d => !inPre (T.cutoff h sid) d) (fun d => decide (d ≤ c))]
          apply Nat.add_le_add_left
          rw [sumOn_congr (g := fun d =>
            (Query.apply T (.write (.deleteDays host sid' c))).stored h sid (.date d) k)]
          · exact sumOn_mono fun d hd => (Bool.and_eq_true _ _ ▸ hd).1
          · intro d hd
            simp only [Bool.and_eq_true, Bool.not_eq_true', decide_eq_false_iff_not] at hd
            exact hstored d fun hd' => hd.2 hd'.2.2
        · rw [Nat.zero_add]
          refine sumOn_le_sumOn fun d _ => le_of_eq (hstored d fun hd' => hin ⟨hd'.1, hd'.2.1⟩)
  | delete table host =>
    cases table with
    | usageHost => exact total_le_of le_rfl (Nat.le_add_left _ _)
    | usageModel => exact total_le_of le_rfl (Nat.le_add_left _ _)
    | usageSeries =>
      refine total_le_of le_rfl ?_
      refine le_add_left (sumOn_mono fun d hd => ?_)
      have hcutoff : (Query.apply T (.delete .usageSeries host)).cutoff h sid =
          if h = host then none else T.cutoff h sid := by
        unfold Tables.cutoff Query.apply
        rw [get?_filterKeys]
        split_ifs <;> simp_all
      rw [hcutoff]
      split_ifs
      · rfl
      · exact hd
    | usageDay =>
      by_cases hhost : h = host
      · rw [Query.taken, if_pos hhost]
        exact Nat.le_add_left _ _
      · have hof : (Query.delete .usageDay host).Of host := rfl
        rw [(hof.same (Ne.symm hhost) T).total]
        exact Nat.le_add_right _ _

theorem Spares.total_le {T : Tables} {q : Query} {h : JsString} (hq : Spares T q h)
    (sid : JsString) (k : TokenKey) : T.total h sid k ≤ (q.apply T).total h sid k := by
  have hle := total_le_apply T q h sid k
  rwa [hq sid k] at hle

end Turma.LedgerStore
