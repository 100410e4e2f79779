import Turma.Ledger.MergeLoss

/-! What is served against the newest report. A day at or below `cutoff` is taken to be
inside `pre`; when it was folded before the host was done with it, `pre` holds less of it
than the report says, and nothing else makes up for it. -/

namespace Turma.Ledger

open Turma.Lib List OrdMap

def reportedSum (u : Usage) (k : TokenKey) : ℕ := (u.days.entries.map fun e => e.2 k).sum

/-- The reported days that are taken, each at the larger of what is held and reported. -/
def takenSum (s : Series) (u : Usage) (k : TokenKey) : ℕ :=
  ((openDays s.cutoff u).entries.map fun e => max (s.day k e.1) (e.2 k)).sum

def apartSum (s : Series) (u : Usage) (k : TokenKey) : ℕ :=
  ((heldDays s u).entries.map fun e => e.2 k).sum

/-- Fewer than `LEDGER_DAYS` of the days held or reported are newer than `d`. -/
def newest (L : Limits) (s : Series) (u : Usage) (d : IsoDay) : Bool :=
  decide (((s.days.keys ++ u.days.keys.filter fun d' => d' ∉ s.days.keys).filter
    fun d' => d < d').length < L.ledgerDays)

def comingDays (s : Series) (u : Usage) : List IsoDay :=
  s.days.keys ++ (openDays s.cutoff u).keys.filter fun d => d ∉ s.days.keys

def comingSum (s : Series) (u : Usage) (k : TokenKey) (ds : List IsoDay) : ℕ :=
  (ds.map fun d => max (s.day k d) (u.day k d)).sum

/-- What comes to be in `pre`: the report's remainder, and the days that leave the window. -/
def comingPre (L : Limits) (s : Series) (u : Usage) (k : TokenKey) : ℕ :=
  max (s.pre k) (u.totals k - reportedSum u k - num (apartSum s u k)) +
    comingSum s u k ((comingDays s u).filter fun d => !newest L s u d)

/-- What is served covers the report: its total, and each of its newest days. -/
def Covered (L : Limits) (s : Series) (u : Usage) (k : TokenKey) : Prop :=
  u.totals k ≤ seriesTotals (absorb L s u) k ∧
    ∀ d ∈ u.days.keys, newest L s u d = true → u.day k d ≤ (absorb L s u).day k d

/-- What was folded of the reported days is made up for, and no newest day that the report
spends on was folded. When `pre` is past the safe integers it is read as zero, and the newest
days have to cover the report on their own. -/
def Unharmed (L : Limits) (s : Series) (u : Usage) (k : TokenKey) : Prop :=
  (if comingPre L s u k ≤ maxSafe then
      reportedSum u k ≤ takenSum s u k ∨ u.totals k ≤ s.pre k + takenSum s u k + apartSum s u k
    else u.totals k ≤ comingSum s u k ((comingDays s u).filter fun d => newest L s u d)) ∧
    ∀ d ∈ u.days.keys, newest L s u d = true → inPre s.cutoff d = true → u.day k d = 0

section

variable {L : Limits} {s : Series} (h : s.Sound) (u : Usage) (k : TokenKey)

theorem reportedSum_eq : reportedSum u k = ∑ d, u.day k d := values_sum u.days k

theorem apartSum_eq (s : Series) :
    apartSum s u k = ∑ d, if d ∈ u.days.keys then 0 else s.day k d := by
  rw [apartSum, values_sum]
  exact Finset.sum_congr rfl fun d _ => held_day s u k d

include h in
/-- After a raise each day held is taken from the report or stands apart from it. -/
theorem raise_days_sum : ∑ d, (raise s u).day k d = takenSum s u k + apartSum s u k := by
  rw [takenSum, sum_entries_key fun d (b : Bucket) => max (s.day k d) (b k), apartSum_eq,
    ← Finset.sum_add_distrib]
  apply Finset.sum_congr rfl
  intro d _
  rw [raise_day, openDays_get?]
  by_cases hc : inPre s.cutoff d = true
  · simp [hc, Series.day_of_inPre h hc k]
  · cases hu : u.days.get? d with
    | none =>
      have hd : d ∉ u.days.keys := get?_eq_none.mp hu
      have hday : u.day k d = 0 := figure_of_not_mem hd
      simp [hc, hd, hday]
    | some b =>
      have hd : d ∈ u.days.keys := OrdMap.mem_keys.mpr ⟨b, hu⟩
      have hday : u.day k d = b k := figure_of_get? hu
      simp [hc, hd, hday]

include h in
theorem preR_sums (hu : reportedSum u k ≤ u.totals k) :
    preR s u k = u.totals k - reportedSum u k - num (apartSum s u k) := by
  rw [preR_apply h, ← reportedSum_eq, ← apartSum_eq, num_of_le (hu.trans (u.totals_safe k))]

theorem coming_iff {d : IsoDay} : d ∈ comingDays s u ↔ d ∈ (raise s u).days.keys := by
  rw [raise_keys, comingDays, mem_append, mem_filter]
  have hopen : d ∈ (openDays s.cutoff u).keys ↔ d ∈ u.days.keys ∧ inPre s.cutoff d = false := by
    rw [openDays, mem_keys_filterKeys, Bool.not_eq_true', and_comm]
  rw [hopen, decide_eq_true_eq]
  tauto

/-- A newest day that is taken is not trimmed away: a trimmed day has the whole window after
it. -/
theorem newest_kept {d : IsoDay} (hnew : newest L s u d = true) : d ∉ trimmed L s u := by
  intro hd
  have hf := absorb_folded L s u
  have hsize := hf.size
  have hlen := oldest_length (raise s u) ((raise s u).days.size - L.ledgerDays)
  have hpos : 0 < (trimmed L s u).length := length_pos_of_mem hd
  have hsub : (absorb L s u).days.keys ⊆
      (s.days.keys ++ u.days.keys.filter fun d' => d' ∉ s.days.keys).filter fun d' => d < d' := by
    intro d' hd'
    have hlt := hf.older d hd d' hd'
    refine mem_filter.mpr ⟨mem_append.mpr ?_, decide_eq_true hlt⟩
    by_cases hs : d' ∈ s.days.keys
    · exact Or.inl hs
    · rcases raise_keys.mp ((hf.keys d').mp hd').1 with hin | ⟨hin, -⟩
      · exact absurd hin hs
      · exact Or.inr (mem_filter.mpr ⟨hin, decide_eq_true hs⟩)
  have hcount : (absorb L s u).days.size ≤ _ := calc
    (absorb L s u).days.size = (absorb L s u).days.keys.length := (length_map _).symm
    _ ≤ _ := ((absorb L s u).days.nodup.subperm hsub).length_le
  rw [newest, decide_eq_true_eq] at hnew
  unfold trimmed at hpos hsize
  omega

include h in
/-- Every day that stays is one of the newest: what is newer than it stays as well. -/
theorem kept_newest {d : IsoDay} (hd : d ∈ (absorb L s u).days.keys) : newest L s u d = true := by
  have hf := absorb_folded L s u
  have hopen : inPre s.cutoff d = false := (h.raise u).unfolded d ((hf.keys d).mp hd).1
  have hsub : (s.days.keys ++ u.days.keys.filter fun d' => d' ∉ s.days.keys).filter
      (fun d' => d < d') ⊆ (absorb L s u).days.keys.erase d := by
    intro d' hd'
    obtain ⟨hm, hlt⟩ := mem_filter.mp hd'
    have hlt : d < d' := of_decide_eq_true hlt
    rw [(show (absorb L s u).days.keys.Nodup from (absorb L s u).days.nodup).mem_erase_iff,
      hf.keys, raise_keys]
    refine ⟨hlt.ne', ?_, fun ht => absurd (hf.older d' ht d hd) (not_lt.mpr hlt.le)⟩
    rcases mem_append.mp hm with hs | hu
    · exact Or.inl hs
    · refine Or.inr ⟨(mem_filter.mp hu).1, Bool.eq_false_iff.mpr fun hc => ?_⟩
      exact Bool.false_ne_true (hopen.symm.trans (inPre_of_le hlt.le hc))
  have hnodup : (s.days.keys ++ u.days.keys.filter fun d' => d' ∉ s.days.keys).Nodup :=
    nodup_append.mpr ⟨s.days.nodup, u.days.nodup.filter _, fun a ha b hb hab =>
      of_decide_eq_true (mem_filter.mp hb).2 (hab ▸ ha)⟩
  have hcount := ((hnodup.filter _).subperm hsub).length_le
  have hpos := length_pos_of_mem hd
  have hsize := absorb_size L s u
  rw [length_erase_of_mem hd] at hcount
  rw [newest, decide_eq_true_eq]
  have hkeys : (absorb L s u).days.keys.length = (absorb L s u).days.size := length_map _
  omega

theorem comingDays_perm : (comingDays s u).Perm (raise s u).days.keys := by
  refine (perm_ext_iff_of_nodup ?_ (raise s u).days.nodup).mpr fun d => coming_iff u
  exact nodup_append.mpr ⟨s.days.nodup, (openDays s.cutoff u).nodup.filter _,
    fun a ha b hb hab => of_decide_eq_true (mem_filter.mp hb).2 (hab ▸ ha)⟩

include h in
theorem trimmed_perm :
    ((comingDays s u).filter fun d => !newest L s u d).Perm (trimmed L s u) := by
  have hf := absorb_folded L s u
  have hnodup := (comingDays_perm u).nodup_iff.mpr (raise s u).days.nodup
  refine (perm_ext_iff_of_nodup (hnodup.filter _) hf.nodup).mpr fun d => ?_
  rw [mem_filter, coming_iff, Bool.not_eq_true']
  constructor
  · rintro ⟨hin, hold⟩
    by_contra hd
    have hnew := kept_newest h u ((hf.keys d).mpr ⟨hin, hd⟩)
    exact Bool.false_ne_true (hold.symm.trans hnew)
  · intro hd
    exact ⟨hf.held d hd, Bool.eq_false_iff.mpr fun hnew => newest_kept u hnew hd⟩

include h in
theorem comingSum_eq {ds : List IsoDay} (hds : ∀ d ∈ ds, d ∈ comingDays s u) :
    comingSum s u k ds = (ds.map ((raise s u).day k)).sum := by
  unfold comingSum
  congr 1
  apply map_congr_left
  intro d hd
  have hopen : inPre s.cutoff d = false :=
    (h.raise u).unfolded d ((coming_iff u).mp (hds d hd))
  rw [raise_day, if_neg (Bool.eq_false_iff.mp hopen)]

include h in
theorem older_sum : comingSum s u k ((comingDays s u).filter fun d => !newest L s u d) =
    ((trimmed L s u).map ((raise s u).day k)).sum := by
  rw [comingSum_eq h u k fun d hd => (mem_filter.mp hd).1]
  exact ((trimmed_perm h u).map _).sum_eq

include h in
theorem newer_sum : comingSum s u k ((comingDays s u).filter fun d => newest L s u d) =
    ∑ d, (absorb L s u).day k d := by
  have hsplit : comingSum s u k ((comingDays s u).filter fun d => newest L s u d) +
      comingSum s u k ((comingDays s u).filter fun d => !newest L s u d) =
        ∑ d, (raise s u).day k d := by
    rw [comingSum_eq h u k fun d hd => (mem_filter.mp hd).1,
      comingSum_eq h u k fun d hd => (mem_filter.mp hd).1, ← sum_append,
      ← map_append, ((filter_append_perm _ _).map _).sum_eq,
      ((comingDays_perm u).map _).sum_eq, Series.keys_sum]
  have hfold := (absorb_folded L s u).sum k
  rw [older_sum h] at hsplit
  omega

include h in
/-- The all-time figure once the report is absorbed, before it is rounded. -/
theorem absorb_totals (hu : reportedSum u k ≤ u.totals k) {n : ℕ} (hn : n ≤ maxSafe) :
    n ≤ seriesTotals (absorb L s u) k ↔ n ≤ num (comingPre L s u k) +
      comingSum s u k ((comingDays s u).filter fun d => newest L s u d) := by
  have hmax : maxSafe < 2 ^ 53 := by decide
  have hpre : num ((absorb L s u).pre k) = num (comingPre L s u k) := by
    rw [(absorb_folded L s u).pre (h.raise u).days_safe, num_flSum, raise_pre, preR_sums h u k hu,
      comingPre, older_sum h]
  rw [seriesTotals_apply (h.absorb L u), le_flSum_iff (hn.trans hmax.le), hpre, newer_sum h,
    values_sum]
  rfl

include h in
theorem totals_covered_iff (hu : reportedSum u k ≤ u.totals k) :
    u.totals k ≤ seriesTotals (absorb L s u) k ↔
      if comingPre L s u k ≤ maxSafe then
        reportedSum u k ≤ takenSum s u k ∨ u.totals k ≤ s.pre k + takenSum s u k + apartSum s u k
      else u.totals k ≤ comingSum s u k ((comingDays s u).filter fun d => newest L s u d) := by
  have htot := u.totals_safe k
  rw [absorb_totals h u k hu htot]
  split_ifs with hp
  · have hall := (absorb_folded L s u).sum k
    rw [← older_sum h, ← newer_sum h, raise_days_sum h] at hall
    rw [num_of_le hp, comingPre, Nat.add_assoc, hall]
    rcases Nat.lt_or_ge maxSafe (apartSum s u k) with hbig | hsmall
    · rw [num_of_gt hbig]
      omega
    · rw [num_of_le hsmall]
      omega
  · rw [num_of_gt (not_le.mp hp), Nat.zero_add]

include h in
/-- One newest day of the report: served in full when it is taken, and not at all when it is
inside `pre`. -/
theorem day_covered_iff {d : IsoDay} (hnew : newest L s u d = true) :
    u.day k d ≤ (absorb L s u).day k d ↔ (inPre s.cutoff d = true → u.day k d = 0) := by
  have hf := absorb_folded L s u
  rw [hf.day, if_neg (newest_kept u hnew), raise_day]
  by_cases hc : inPre s.cutoff d = true
  · simp [hc, Series.day_of_inPre h hc k]
  · simp [hc]

end

/-- For every series the ledger comes to and every report whose totals cover its days, what is
served covers the report exactly when folding has not harmed it. -/
theorem covered_iff_unharmed (L : Limits) (ops : List Op) (u : Usage) (k : TokenKey)
    (hu : reportedSum u k ≤ u.totals k) :
    Covered L (run (Op.apply L) blankSeries ops) u k ↔
      Unharmed L (run (Op.apply L) blankSeries ops) u k := by
  have h := runs_sound L blankSeries_sound ops
  exact and_congr (totals_covered_iff h u k hu) (forall_congr' fun d => forall_congr' fun _ =>
    forall_congr' fun hnew => day_covered_iff h u k hnew)

/-- Today was folded at 10 tokens, and the host has spent 100 by its next report. -/
def foldedToday : List Op := [.absorb (inputReport 10 [(20260101, 10)]), .halveDays]

theorem foldedToday_under_states :
    reportedSum (inputReport 100 [(20260101, 100)]) .input ≤
        (inputReport 100 [(20260101, 100)]).totals .input ∧
      seriesTotals (absorb shipped (run (Op.apply shipped) blankSeries foldedToday)
        (inputReport 100 [(20260101, 100)])) .input <
        (inputReport 100 [(20260101, 100)]).totals .input := by
  decide +kernel

/-- The same host after a wipe, reporting a day of its own: everything is covered. -/
theorem covered_iff_unharmed_wiped :
    Covered shipped (run (Op.apply shipped) blankSeries wiped)
      (inputReport 9 [(20260103, 9)]) .input := by
  have hsafe : comingPre shipped (run (Op.apply shipped) blankSeries wiped)
      (inputReport 9 [(20260103, 9)]) .input ≤ maxSafe := by decide +kernel
  refine (covered_iff_unharmed shipped wiped (inputReport 9 [(20260103, 9)]) .input
    (by decide +kernel)).mpr ⟨(if_pos hsafe).mpr (Or.inl (by decide +kernel)), ?_⟩
  intro d hd _ hc
  have hnone : (inputReport 9 [(20260103, 9)]).days.keys.all (fun d =>
      !inPre (run (Op.apply shipped) blankSeries wiped).cutoff d) = true := by decide +kernel
  have hd := all_eq_true.mp hnone d hd
  rw [hc] at hd
  cases hd

end Turma.Ledger
