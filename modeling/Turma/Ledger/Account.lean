import Mathlib.Algebra.Order.BigOperators.Group.Finset
import Turma.Ledger.Series

/-! What the operations on a series come to, one token key at a time. -/

namespace Turma.Ledger

open Turma.Lib List OrdMap

def Series.day (s : Series) (k : TokenKey) (d : IsoDay) : ℕ := s.days.figure (fun b => b k) d

def Usage.day (u : Usage) (k : TokenKey) (d : IsoDay) : ℕ := u.days.figure (fun b => b k) d

def Series.spent (s : Series) (k : TokenKey) : ℕ :=
  s.pre k + (s.days.entries.map fun e => e.2 k).sum

structure Series.Sound (s : Series) : Prop where
  days_safe : ∀ d b, s.days.get? d = some b → Safe b
  unfolded : ∀ d ∈ s.days.keys, inPre s.cutoff d = false

theorem Series.spent_eq (s : Series) (k : TokenKey) : s.spent k = s.pre k + ∑ d, s.day k d := by
  rw [Series.spent, sum_entries fun b : Bucket => b k]
  rfl

theorem figure_le {m : OrdMap IsoDay Bucket} (h : ∀ d b, m.get? d = some b → Safe b)
    (k : TokenKey) (d : IsoDay) : m.figure (fun b => b k) d ≤ maxSafe := by
  cases hb : m.get? d with
  | none =>
    rw [OrdMap.figure, hb]
    exact Nat.zero_le _
  | some b =>
    rw [figure_of_get? hb]
    exact h d b hb k

theorem Series.Sound.day_le {s : Series} (h : s.Sound) (k : TokenKey) (d : IsoDay) :
    s.day k d ≤ maxSafe :=
  figure_le h.days_safe k d

theorem Series.day_of_inPre {s : Series} (h : s.Sound) {d : IsoDay}
    (hd : inPre s.cutoff d = true) (k : TokenKey) : s.day k d = 0 := by
  apply figure_of_not_mem
  intro hm
  exact Bool.false_ne_true ((h.unfolded d hm).symm.trans hd)

/-- A sum of safe figures that a loop of `addBucket`s forms. -/
theorem values_flSum {m : OrdMap IsoDay Bucket} (h : ∀ d b, m.get? d = some b → Safe b)
    (dst : Bucket) (k : TokenKey) :
    m.values.foldl addBucket dst k = flSum (dst k) (m.entries.map fun e => e.2 k) := by
  rw [foldl_addBucket, OrdMap.values, map_map]
  congr 1
  apply map_congr_left
  intro e he
  exact num_of_le (h e.1 e.2 (get?_eq_some.mpr he) k)

theorem values_sum (m : OrdMap IsoDay Bucket) (k : TokenKey) :
    (m.entries.map fun e => e.2 k).sum = ∑ d, m.figure (fun b => b k) d :=
  sum_entries (fun b : Bucket => b k) m

@[simp] theorem inPre_none (d : IsoDay) : inPre none d = false := rfl

theorem inPre_later (cutoff : Option IsoDay) (e d : IsoDay) :
    inPre (later cutoff e) d = (inPre cutoff d || decide (d ≤ e)) := by
  cases cutoff with
  | none => simp [later, inPre]
  | some c =>
    unfold later inPre
    dsimp only
    split_ifs with h
    · by_cases hd : d ≤ c
      · simp [hd, hd.trans h.le]
      · simp [hd]
    · by_cases hd : d ≤ e
      · simp [hd, hd.trans (not_lt.mp h)]
      · simp [hd]

theorem inPre_of_le {cutoff : Option IsoDay} {d d' : IsoDay} (hle : d ≤ d')
    (h : inPre cutoff d' = true) : inPre cutoff d = true := by
  cases cutoff with
  | none => exact h
  | some c => exact decide_eq_true (hle.trans (of_decide_eq_true h))

theorem foldDays_days (ds : List IsoDay) (s : Series) (d : IsoDay) :
    (ds.foldl foldDay s).days.get? d = if d ∈ ds then none else s.days.get? d := by
  induction ds generalizing s with
  | nil => simp
  | cons e ds ih =>
    rw [foldl_cons, ih]
    by_cases hm : d ∈ ds
    · simp [hm]
    · by_cases he : d = e
      · subst he
        simp [foldDay, get?_erase]
      · simp [foldDay, get?_erase, hm, he]

theorem foldDays_inPre (ds : List IsoDay) (s : Series) (d : IsoDay) :
    inPre (ds.foldl foldDay s).cutoff d = (inPre s.cutoff d || ds.any fun e => decide (d ≤ e)) := by
  induction ds generalizing s with
  | nil => simp
  | cons e ds ih =>
    rw [foldl_cons, ih]
    simp only [foldDay, inPre_later, any_cons, Bool.or_assoc]

/-- A fold moves days into `pre` and nothing else. -/
theorem foldDays_rest (ds : List IsoDay) (s : Series) :
    (ds.foldl foldDay s).models = s.models ∧ (ds.foldl foldDay s).subagent = s.subagent ∧
      (ds.foldl foldDay s).sessions = s.sessions ∧
      (ds.foldl foldDay s).lastActivity = s.lastActivity := by
  induction ds generalizing s with
  | nil => exact ⟨rfl, rfl, rfl, rfl⟩
  | cons e ds ih => exact ih (foldDay s e)

theorem foldDays_keys {ds : List IsoDay} {s : Series} {d : IsoDay} :
    d ∈ (ds.foldl foldDay s).days.keys ↔ d ∈ s.days.keys ∧ d ∉ ds := by
  simp only [OrdMap.mem_keys, foldDays_days]
  by_cases h : d ∈ ds <;> simp [h]

theorem foldDays_day (ds : List IsoDay) (s : Series) (k : TokenKey) (d : IsoDay) :
    (ds.foldl foldDay s).day k d = if d ∈ ds then 0 else s.day k d := by
  unfold Series.day OrdMap.figure
  rw [foldDays_days]
  split_ifs <;> rfl

theorem foldDays_pre {ds : List IsoDay} (hn : ds.Nodup) {s : Series}
    (hs : ∀ d b, s.days.get? d = some b → Safe b) (hm : ∀ d ∈ ds, d ∈ s.days.keys)
    (k : TokenKey) : (ds.foldl foldDay s).pre k = flSum (s.pre k) (ds.map (s.day k)) := by
  induction ds generalizing s with
  | nil => rfl
  | cons e ds ih =>
    obtain ⟨he, hn⟩ := nodup_cons.mp hn
    obtain ⟨b, hb⟩ := OrdMap.mem_keys.mp (hm e mem_cons_self)
    have hday : ∀ d ∈ ds, (foldDay s e).day k d = s.day k d := by
      intro d hd
      have hde : d ∉ [e] := by
        rintro (_ | ⟨_, ⟨⟩⟩)
        exact he hd
      exact (foldDays_day [e] s k d).trans (if_neg hde)
    have hpre : (foldDay s e).pre k = fl (s.pre k + s.day k e) := by
      rw [Series.day, figure_of_get? hb, ← num_of_le (hs e b hb k)]
      simp only [foldDay, hb]
      rfl
    rw [foldl_cons, ih hn, hpre, map_congr_left hday]
    · rfl
    · intro d b' hb'
      rw [show foldDay s e = [e].foldl foldDay s from rfl, foldDays_days] at hb'
      split_ifs at hb' with hde
      exact hs d b' hb'
    · intro d hd
      rw [show foldDay s e = [e].foldl foldDay s from rfl, foldDays_keys]
      refine ⟨hm d (mem_cons_of_mem e hd), fun hde => ?_⟩
      rw [mem_singleton.mp hde] at hd
      exact he hd

/-- `s'` is `s` with the days `ds`, its oldest, folded into `pre`. -/
structure Folded (s s' : Series) (ds : List IsoDay) : Prop where
  nodup : ds.Nodup
  held : ∀ d ∈ ds, d ∈ s.days.keys
  older : ∀ e ∈ ds, ∀ d ∈ s'.days.keys, e < d
  keys : ∀ d, d ∈ s'.days.keys ↔ d ∈ s.days.keys ∧ d ∉ ds
  days : ∀ d, s'.days.get? d = if d ∈ ds then none else s.days.get? d
  size : s'.days.size + ds.length = s.days.size
  inPre : ∀ d, inPre s'.cutoff d = (inPre s.cutoff d || ds.any fun e => decide (d ≤ e))
  pre : (∀ d b, s.days.get? d = some b → Safe b) →
    ∀ k, s'.pre k = flSum (s.pre k) (ds.map (s.day k))

theorem oldest_split (s : Series) (n : ℕ) : ∃ newer : List IsoDay,
    (oldest s n ++ newer).Perm s.days.keys ∧ (oldest s n ++ newer).Pairwise (· ≤ ·) := by
  refine ⟨(s.days.keys.insertionSort fun a b => a ≤ b).drop n, ?_, ?_⟩
  · rw [oldest, take_append_drop]
    exact perm_insertionSort _ _
  · rw [oldest, take_append_drop]
    exact pairwise_insertionSort _ _

theorem foldOldest_folded (n : ℕ) (s : Series) : Folded s (foldOldest n s) (oldest s n) := by
  obtain ⟨newer, hperm, hsorted⟩ := oldest_split s n
  have hnodup : (oldest s n ++ newer).Nodup := hperm.nodup_iff.mpr s.days.nodup
  have hmem : ∀ d ∈ oldest s n, d ∈ s.days.keys := fun d hd =>
    hperm.mem_iff.mp (mem_append_left _ hd)
  have hn : (oldest s n).Nodup := hnodup.of_append_left
  have kept : ∀ d, d ∈ (foldOldest n s).days.keys ↔ d ∈ newer := by
    intro d
    rw [foldOldest, foldDays_keys, ← hperm.mem_iff, mem_append]
    constructor
    · rintro ⟨hd, hnot⟩
      exact hd.resolve_left hnot
    · intro hd
      exact ⟨Or.inr hd, fun ho => (nodup_append.mp hnodup).2.2 d ho d hd rfl⟩
  refine ⟨hn, hmem, fun e he d hd => ?_, fun d => foldDays_keys, fun d => foldDays_days _ s d, ?_,
    fun d => foldDays_inPre _ s d, fun hs k => foldDays_pre hn hs hmem k⟩
  · have hle : e ≤ d := (pairwise_append.mp hsorted).2.2 e he d ((kept d).mp hd)
    exact lt_of_le_of_ne hle fun h => (foldDays_keys.mp hd).2 (h ▸ he)
  · have hlen := ((perm_ext_iff_of_nodup (foldOldest n s).days.nodup
      hnodup.of_append_right).mpr kept).length_eq
    have htotal := hperm.length_eq
    simp only [OrdMap.keys, length_map, length_append] at hlen htotal
    rw [OrdMap.size, OrdMap.size, hlen]
    omega

theorem oldest_length (s : Series) (n : ℕ) : (oldest s n).length = min n s.days.size := by
  rw [oldest, length_take, length_insertionSort, OrdMap.keys, length_map]
  rfl

section

variable {s s' : Series} {ds : List IsoDay}

theorem Folded.day (h : Folded s s' ds) (k : TokenKey) (d : IsoDay) :
    s'.day k d = if d ∈ ds then 0 else s.day k d := by
  unfold Series.day OrdMap.figure
  rw [h.days]
  split_ifs <;> rfl

theorem Folded.sound (h : Folded s s' ds) (hs : s.Sound) : s'.Sound where
  days_safe d b hb := by
    rw [h.days] at hb
    split_ifs at hb
    exact hs.days_safe d b hb
  unfolded d hd := by
    rw [h.inPre, hs.unfolded d ((h.keys d).mp hd).1, Bool.false_or, any_eq_false]
    intro e he
    simpa using h.older e he d hd

/-- The days folded and the days kept are the days there were. -/
theorem Folded.sum (h : Folded s s' ds) (k : TokenKey) :
    (ds.map (s.day k)).sum + ∑ d, s'.day k d = ∑ d, s.day k d := by
  simp only [h.day]
  exact sum_list_add_rest h.nodup (s.day k)

/-- Folding keeps the all-time figure while it is a safe integer. -/
theorem Folded.spent (h : Folded s s' ds) (hs : s.Sound) {k : TokenKey}
    (hk : s.spent k ≤ 2 ^ 53) : s'.spent k = s.spent k := by
  have hsum := h.sum k
  rw [Series.spent_eq] at hk
  rw [Series.spent_eq, Series.spent_eq, h.pre hs.days_safe k, flSum_of_le (by omega)]
  omega

theorem Folded.min_le_spent (h : Folded s s' ds) (hs : s.Sound) (k : TokenKey) :
    min (s.spent k) (2 ^ 53) ≤ s'.spent k := by
  have hsum := h.sum k
  have hmin := min_le_flSum (s.pre k) (ds.map (s.day k))
  rw [Series.spent_eq, Series.spent_eq, h.pre hs.days_safe k]
  omega

end

theorem openDays_get? (cutoff : Option IsoDay) (u : Usage) (d : IsoDay) :
    (openDays cutoff u).get? d = if inPre cutoff d then none else u.days.get? d := by
  rw [openDays, get?_filterKeys]
  cases inPre cutoff d <;> rfl

theorem raise_get? (s : Series) (u : Usage) (d : IsoDay) :
    (raise s u).days.get? d =
      match (openDays s.cutoff u).get? d with
      | none => s.days.get? d
      | some b => some (raised (s.days.get? d) b) := by
  rw [raise, raiseDays, get?_mergeWith]
  cases (openDays s.cutoff u).get? d <;> rfl

theorem raised_apply {cur : Option Bucket} {b : Bucket} (hb : Safe b) (k : TokenKey) :
    raised cur b k = max ((cur.map fun b => b k).getD 0) (b k) := by
  rw [raised, raiseBucket_apply, num_of_le (hb k)]
  cases cur <;> rfl

/-- A reported day that is not inside `pre` is raised, every other day stands. -/
theorem raise_day (s : Series) (u : Usage) (k : TokenKey) (d : IsoDay) :
    (raise s u).day k d =
      if inPre s.cutoff d then s.day k d else max (s.day k d) (u.day k d) := by
  unfold Series.day Usage.day OrdMap.figure
  rw [raise_get?, openDays_get?]
  by_cases hc : inPre s.cutoff d = true
  · simp [hc]
  · cases hu : u.days.get? d with
    | none => simp [hc]
    | some b => simp [hc, raised_apply (u.days_safe d b hu)]

theorem raise_keys {s : Series} {u : Usage} {d : IsoDay} :
    d ∈ (raise s u).days.keys ↔ d ∈ s.days.keys ∨ d ∈ u.days.keys ∧ inPre s.cutoff d = false := by
  simp only [OrdMap.mem_keys, raise_get?, openDays_get?]
  by_cases hc : inPre s.cutoff d = true
  · simp [hc]
  · cases u.days.get? d <;> simp [hc]

/-- The days of a series, summed over its keys. -/
theorem Series.keys_sum (s : Series) (k : TokenKey) :
    (s.days.keys.map (s.day k)).sum = ∑ d, s.day k d := by
  rw [← sum_list_add_rest s.days.nodup, Finset.sum_eq_zero, Nat.add_zero]
  · rfl
  · intro d _
    split_ifs with hd
    · rfl
    · exact figure_of_not_mem hd

theorem Series.Sound.raise {s : Series} (h : s.Sound) (u : Usage) : (raise s u).Sound where
  days_safe d b hb := by
    rw [raise_get?] at hb
    cases ho : (openDays s.cutoff u).get? d with
    | none =>
      rw [ho] at hb
      exact h.days_safe d b hb
    | some b' =>
      rw [ho] at hb
      cases hb
      apply safe_raiseBucket
      cases hd : s.days.get? d with
      | none => exact safe_blankBucket
      | some b'' => exact h.days_safe d b'' hd
  unfolded d hd := by
    rcases raise_keys.mp hd with hd | ⟨-, hc⟩
    · exact h.unfolded d hd
    · exact hc

theorem num_reportedDays (u : Usage) (k : TokenKey) :
    num (reportedDays u k) = num (∑ d, u.day k d) := by
  rw [reportedDays, values_flSum u.days_safe, blankBucket, num_flSum, Nat.zero_add, values_sum]
  rfl

theorem held_day (s : Series) (u : Usage) (k : TokenKey) (d : IsoDay) :
    (heldDays s u).figure (fun b => b k) d = if d ∈ u.days.keys then 0 else s.day k d := by
  rw [heldDays, figure_filterKeys]
  by_cases h : d ∈ u.days.keys <;> simp [h, Series.day]

theorem num_held {s : Series} (h : s.Sound) (u : Usage) (k : TokenKey) :
    num (held s u k) = num (∑ d, if d ∈ u.days.keys then 0 else s.day k d) := by
  have hsafe : ∀ d b, (heldDays s u).get? d = some b → Safe b := by
    intro d b hb
    rw [heldDays, get?_filterKeys] at hb
    split_ifs at hb
    exact h.days_safe d b hb
  rw [held, values_flSum hsafe, blankBucket, num_flSum, Nat.zero_add, values_sum]
  simp only [held_day]

theorem preR_le (s : Series) (u : Usage) (k : TokenKey) : preR s u k ≤ maxSafe := by
  have h : subBucket (bucketOf u.totals) (reportedDays u) k ≤ maxSafe := by
    rw [subBucket_apply (num_le _)]
    exact (Nat.sub_le _ _).trans (num_le _)
  rw [preR, subBucket_apply h]
  exact (Nat.sub_le _ _).trans h

theorem preR_apply {s : Series} (h : s.Sound) (u : Usage) (k : TokenKey) :
    preR s u k = u.totals k - num (∑ d, u.day k d) -
      num (∑ d, if d ∈ u.days.keys then 0 else s.day k d) := by
  have htot : bucketOf u.totals k = u.totals k := num_of_le (u.totals_safe k)
  have hsub : subBucket (bucketOf u.totals) (reportedDays u) k =
      u.totals k - num (∑ d, u.day k d) := by
    rw [subBucket_apply (num_le _), num_reportedDays, htot]
  rw [preR, subBucket_apply (by rw [hsub]; exact (Nat.sub_le _ _).trans (u.totals_safe k)),
    num_held h, hsub]

theorem raise_pre (s : Series) (u : Usage) (k : TokenKey) :
    (raise s u).pre k = max (s.pre k) (preR s u k) := by
  change raiseBucket s.pre (preR s u) k = _
  rw [raiseBucket_apply, num_of_le (preR_le s u k)]

theorem raise_spent_le (s : Series) (u : Usage) (k : TokenKey) :
    s.spent k ≤ (raise s u).spent k := by
  rw [Series.spent_eq, Series.spent_eq]
  apply Nat.add_le_add
  · rw [raise_pre]
    exact le_max_left _ _
  · apply Finset.sum_le_sum
    intro d _
    rw [raise_day]
    split_ifs
    · exact le_rfl
    · exact le_max_left _ _

def trimmed (L : Limits) (s : Series) (u : Usage) : List IsoDay :=
  oldest (raise s u) ((raise s u).days.size - L.ledgerDays)

/-- `absorb` raises, then folds what is over the window. -/
theorem absorb_folded (L : Limits) (s : Series) (u : Usage) :
    Folded (raise s u) (absorb L s u) (trimmed L s u) := by
  have h := foldOldest_folded ((raise s u).days.size - L.ledgerDays) (raise s u)
  exact ⟨h.nodup, h.held, h.older, h.keys, h.days, h.size, h.inPre, h.pre⟩

theorem absorb_rest (L : Limits) (s : Series) (u : Usage) :
    (absorb L s u).subagent = raiseSubagent s.subagent u.subagent ∧
      (absorb L s u).sessions = (if s.sessions < u.sessions then u.sessions else s.sessions) ∧
      (absorb L s u).lastActivity = latestActivity s.lastActivity u.lastActivity := by
  obtain ⟨-, hsub, hses, hlast⟩ := foldDays_rest (trimmed L s u) (raise s u)
  refine ⟨?_, ?_, ?_⟩
  · exact congrArg (raiseSubagent · u.subagent) hsub
  · exact congrArg (fun n => if n < u.sessions then u.sessions else n) hses
  · exact congrArg (latestActivity · u.lastActivity) hlast

theorem Series.Sound.absorb {s : Series} (h : s.Sound) (L : Limits) (u : Usage) :
    (absorb L s u).Sound :=
  (absorb_folded L s u).sound (h.raise u)

theorem blankSeries_sound : blankSeries.Sound :=
  ⟨fun _ _ hb => absurd hb (Option.some_ne_none _).symm, fun _ hd => absurd hd not_mem_nil⟩

theorem seriesTotals_apply {s : Series} (h : s.Sound) (k : TokenKey) :
    seriesTotals s k = flSum (num (s.pre k)) (s.days.entries.map fun e => e.2 k) :=
  values_flSum h.days_safe (bucketOf s.pre) k

/-- What is served is the all-time figure while that is a safe integer. -/
theorem seriesTotals_eq {s : Series} (h : s.Sound) {k : TokenKey} (hk : s.spent k ≤ maxSafe) :
    seriesTotals s k = s.spent k := by
  have hpre : s.pre k ≤ maxSafe := (Nat.le_add_right _ _).trans hk
  have hmax : maxSafe < 2 ^ 53 := by decide
  rw [seriesTotals_apply h, num_of_le hpre]
  exact flSum_of_le (hk.trans hmax.le)

end Turma.Ledger
