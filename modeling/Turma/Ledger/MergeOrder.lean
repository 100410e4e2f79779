import Turma.Ledger.Merge
import Turma.Ledger.MergeLoss

/-! The order in which series are merged. A series is read here as its figures: `pre`, the days that
stand and the cutoff. Without a trim a merge gathers the figures of its sides, whichever way they
come; a trim in between adds days to `pre` that a later maximum treats as one figure. -/

namespace Turma.Ledger

open Turma.Lib List OrdMap

structure SameFigures (a b : Series) : Prop where
  pre : a.pre = b.pre
  days : ∀ d, a.days.get? d = b.days.get? d
  cutoff : a.cutoff = b.cutoff

structure Stored (L : Limits) (s : Series) : Prop extends s.Sound where
  pre_safe : Safe s.pre
  window : s.days.size ≤ L.ledgerDays

instance (b : Bucket) : Decidable (Safe b) :=
  decidable_of_iff (∀ k ∈ tokenKeys, b k ≤ maxSafe)
    ⟨fun h k => h k (mem_tokenKeys k), fun h k _ => h k⟩

inductive Merges
  | one (s : Series)
  | both (a b : Merges)

def Merges.series : Merges → List Series
  | one s => [s]
  | both a b => a.series ++ b.series

def Merges.fold (L : Limits) : Merges → Series
  | one s => s
  | both a b => mergeSeries L (a.fold L) (b.fold L)

def allDays (ss : List Series) : List IsoDay := (ss.flatMap fun s => s.days.keys).dedup

theorem cutoff_ext {a b : Option IsoDay} (h : ∀ d, inPre a d = inPre b d) : a = b := by
  have hle : ∀ {c c' : IsoDay}, inPre (some c) c = inPre (some c') c → c ≤ c' := by
    intro c c' hc
    simpa [inPre] using hc
  rcases a with _ | a <;> rcases b with _ | b
  · rfl
  · have hb := h b
    simp [inPre] at hb
  · have ha := h a
    simp [inPre] at ha
  · exact congrArg some (le_antisymm (hle (h a)) (hle (h b).symm))

variable {a b : Series}

theorem days_ext (hkeys : ∀ d, d ∈ a.days.keys ↔ d ∈ b.days.keys)
    (hday : ∀ k d, a.day k d = b.day k d) (d : IsoDay) : a.days.get? d = b.days.get? d := by
  cases ha : a.days.get? d with
  | none =>
    have hb := (hkeys d).not.mp (get?_eq_none.mp ha)
    exact (get?_eq_none.mpr hb).symm
  | some x =>
    obtain ⟨y, hb⟩ := OrdMap.mem_keys.mp ((hkeys d).mp (OrdMap.mem_keys.mpr ⟨x, ha⟩))
    rw [hb]
    refine congrArg some (funext fun k => ?_)
    have hk := hday k d
    rwa [Series.day, Series.day, figure_of_get? ha, figure_of_get? hb] at hk

theorem SameFigures.keys (h : SameFigures a b) (d : IsoDay) :
    d ∈ a.days.keys ↔ d ∈ b.days.keys := by
  rw [OrdMap.mem_keys, OrdMap.mem_keys, h.days]

theorem SameFigures.day (h : SameFigures a b) (k : TokenKey) (d : IsoDay) :
    a.day k d = b.day k d := by
  rw [Series.day, Series.day, OrdMap.figure, OrdMap.figure, h.days]

theorem SameFigures.keys_perm (h : SameFigures a b) :
    a.days.keys.Perm b.days.keys :=
  (perm_ext_iff_of_nodup a.days.nodup b.days.nodup).mpr h.keys

/-- The days come out in one order, however they were filed. -/
theorem SameFigures.oldest (h : SameFigures a b) (n : ℕ) :
    oldest a n = oldest b n := by
  have hperm : (a.days.keys.insertionSort fun x y => x ≤ y).Perm
      (b.days.keys.insertionSort fun x y => x ≤ y) :=
    (perm_insertionSort _ _).trans (h.keys_perm.trans (perm_insertionSort _ _).symm)
  rw [Ledger.oldest, Ledger.oldest, hperm.eq_of_pairwise' (pairwise_insertionSort _ _)
    (pairwise_insertionSort _ _)]

theorem SameFigures.trimmed {a b a' b' : Series} (h : SameFigures a b) (ha : a.Sound)
    (hb : b.Sound) {ds : List IsoDay} (hfa : Folded a a' ds) (hfb : Folded b b' ds) :
    SameFigures a' b' where
  pre := by
    funext k
    rw [hfa.pre ha.days_safe, hfb.pre hb.days_safe, h.pre]
    congr 1
    exact map_congr_left fun d _ => h.day k d
  days d := by rw [hfa.days, hfb.days, h.days]
  cutoff := cutoff_ext fun d => by rw [hfa.inPre, hfb.inPre, h.cutoff]

theorem mergeSeries_same (L : Limits) {a b c d : Series} (ha : a.Sound) (hc : c.Sound)
    (h : SameFigures (joined a b) (joined c d)) :
    SameFigures (mergeSeries L a b) (mergeSeries L c d) := by
  have hsize : (joined a b).days.size = (joined c d).days.size := by
    have hlen := h.keys_perm.length_eq
    simpa [OrdMap.keys, OrdMap.size] using hlen
  have hds : trimmedDays L (joined a b) = trimmedDays L (joined c d) := by
    rw [trimmedDays, trimmedDays, hsize, h.oldest]
  exact h.trimmed (joined_sound ha b) (joined_sound hc d) (mergeSeries_folded L a b)
    (hds ▸ mergeSeries_folded L c d)

theorem joined_comm (ha : a.Sound) (hb : b.Sound) (hpa : Safe a.pre)
    (hpb : Safe b.pre) : SameFigures (joined a b) (joined b a) where
  pre := by
    funext k
    rw [joined_pre, joined_pre, num_of_le (hpa k), num_of_le (hpb k), max_comm]
  days := by
    apply days_ext
    · intro d
      rw [joined_keys, joined_keys, or_comm, Bool.or_comm]
    · intro k d
      rw [joined_day, joined_day, num_of_le (ha.day_le k d), num_of_le (hb.day_le k d),
        Bool.or_comm, max_comm]
  cutoff := cutoff_ext fun d => by
    change inPre (laterCutoff a.cutoff b.cutoff) d = inPre (laterCutoff b.cutoff a.cutoff) d
    rw [inPre_laterCutoff, inPre_laterCutoff, Bool.or_comm]

/-- `t` holds the largest figures of the series, of the days that none of them has closed. -/
structure Gathers (ss : List Series) (t : Series) : Prop where
  sound : t.Sound
  pre_safe : Safe t.pre
  pre : ∀ k n, t.pre k ≤ n ↔ ∀ s ∈ ss, s.pre k ≤ n
  closed : ∀ d, inPre t.cutoff d = true ↔ ∃ s ∈ ss, inPre s.cutoff d = true
  keys : ∀ d, d ∈ t.days.keys ↔ (∃ s ∈ ss, d ∈ s.days.keys) ∧ inPre t.cutoff d = false
  day : ∀ k d, inPre t.cutoff d = false → ∀ n, t.day k d ≤ n ↔ ∀ s ∈ ss, s.day k d ≤ n

variable {L : Limits}

theorem gathers_one {s : Series} (h : Stored L s) : Gathers [s] s where
  sound := h.toSound
  pre_safe := h.pre_safe
  pre k n := by simp
  closed d := by simp
  keys d := by
    simp only [mem_singleton, exists_eq_left]
    exact ⟨fun hd => ⟨hd, h.unfolded d hd⟩, And.left⟩
  day k d _ n := by simp

theorem Gathers.keys_sub {ss : List Series} {t : Series} (h : Gathers ss t) :
    t.days.keys ⊆ allDays ss := by
  intro d hd
  obtain ⟨s, hs, hmem⟩ := ((h.keys d).mp hd).1
  exact mem_dedup.mpr (mem_flatMap.mpr ⟨s, hs, hmem⟩)

/-- A merge within the window folds nothing. -/
theorem mergeSeries_joined (ha : a.Sound)
    (hsize : (joined a b).days.size ≤ L.ledgerDays) :
    SameFigures (mergeSeries L a b) (joined a b) := by
  have hds : trimmedDays L (joined a b) = [] := by
    rw [trimmedDays, Nat.sub_eq_zero_of_le hsize]
    rfl
  have hf := mergeSeries_folded L a b
  rw [hds] at hf
  refine ⟨funext fun k => hf.pre (joined_sound ha b).days_safe k, hf.days, ?_⟩
  exact cutoff_ext fun d => (hf.inPre d).trans (Bool.or_false _)

theorem Gathers.congr {ss : List Series} {t t' : Series} (h : Gathers ss t)
    (hs : SameFigures t' t) (hsound : t'.Sound) : Gathers ss t' where
  sound := hsound
  pre_safe := hs.pre ▸ h.pre_safe
  pre := hs.pre ▸ h.pre
  closed := hs.cutoff ▸ h.closed
  keys d := by
    rw [hs.keys, h.keys, hs.cutoff]
  day k d hd := by
    rw [hs.day]
    exact h.day k d (hs.cutoff ▸ hd)

variable {xs ys : List Series}

theorem Gathers.joined (ha : Gathers xs a)
    (hb : Gathers ys b) : Gathers (xs ++ ys) (joined a b) where
  sound := joined_sound ha.sound b
  pre_safe k := by
    rw [joined_pre]
    exact max_le (ha.pre_safe k) (num_le _)
  pre k n := by
    rw [joined_pre, num_of_le (hb.pre_safe k), max_le_iff, ha.pre, hb.pre, forall_mem_append]
  closed d := by
    change inPre (laterCutoff a.cutoff b.cutoff) d = true ↔ _
    rw [inPre_laterCutoff, Bool.or_eq_true, ha.closed, hb.closed]
    simp only [mem_append, or_and_right, exists_or]
  keys d := by
    change _ ↔ _ ∧ inPre (laterCutoff a.cutoff b.cutoff) d = false
    rw [joined_keys, inPre_laterCutoff, ha.keys, hb.keys]
    apply and_congr_left
    intro hopen
    obtain ⟨h1, h2⟩ := Bool.or_eq_false_iff.mp hopen
    simp only [h1, h2, and_true, mem_append, or_and_right, exists_or]
  day k d hd n := by
    change inPre (laterCutoff a.cutoff b.cutoff) d = false at hd
    rw [inPre_laterCutoff] at hd
    obtain ⟨h1, h2⟩ := Bool.or_eq_false_iff.mp hd
    rw [joined_day, hd, if_neg Bool.false_ne_true, num_of_le (hb.sound.day_le k d), max_le_iff,
      ha.day k d h1, hb.day k d h2, forall_mem_append]

theorem Gathers.merge (ha : Gathers xs a)
    (hb : Gathers ys b) (hall : (allDays (xs ++ ys)).length ≤ L.ledgerDays) :
    Gathers (xs ++ ys) (mergeSeries L a b) := by
  have hj := ha.joined hb
  have hsize : (Ledger.joined a b).days.size ≤ L.ledgerDays := by
    have hnodup : (Ledger.joined a b).days.keys.Nodup := (Ledger.joined a b).days.nodup
    have hlen := (hnodup.subperm hj.keys_sub).length_le
    rw [OrdMap.keys, length_map] at hlen
    exact hlen.trans hall
  exact hj.congr (mergeSeries_joined ha.sound hsize) (mergeSeries_sound L ha.sound b)

theorem allDays_length_mono (h : xs ⊆ ys) :
    (allDays xs).length ≤ (allDays ys).length := by
  refine ((nodup_dedup _).subperm fun d hd => ?_).length_le
  obtain ⟨s, hs, hmem⟩ := mem_flatMap.mp (mem_dedup.mp hd)
  exact mem_dedup.mpr (mem_flatMap.mpr ⟨s, h hs, hmem⟩)

theorem gathers_fold (m : Merges) (hstored : ∀ s ∈ m.series, Stored L s)
    (hall : (allDays m.series).length ≤ L.ledgerDays) : Gathers m.series (m.fold L) := by
  induction m with
  | one s => exact gathers_one (hstored s (mem_singleton_self s))
  | both a b iha ihb =>
    obtain ⟨ha, hb⟩ := forall_mem_append.mp hstored
    have hca := (allDays_length_mono (subset_append_left a.series b.series)).trans hall
    have hcb := (allDays_length_mono (subset_append_right a.series b.series)).trans hall
    exact (iha ha hca).merge (ihb hb hcb) hall

/-- What gathers one set of series has one set of figures. -/
theorem Gathers.unique (ha : Gathers xs a)
    (hb : Gathers ys b) (hxy : ∀ s, s ∈ xs ↔ s ∈ ys) : SameFigures a b := by
  have hcut : ∀ d, inPre a.cutoff d = inPre b.cutoff d := by
    intro d
    rw [Bool.eq_iff_iff, ha.closed, hb.closed]
    simp only [hxy]
  refine ⟨funext fun k => ?_, days_ext (fun d => ?_) fun k d => ?_, cutoff_ext hcut⟩
  · refine eq_of_forall_ge_iff fun n => ?_
    rw [ha.pre, hb.pre]
    simp only [hxy]
  · rw [ha.keys, hb.keys, hcut]
    simp only [hxy]
  · cases hd : inPre b.cutoff d with
    | true =>
      rw [Series.day_of_inPre ha.sound ((hcut d).trans hd), Series.day_of_inPre hb.sound hd]
    | false =>
      refine eq_of_forall_ge_iff fun n => ?_
      rw [ha.day k d ((hcut d).trans hd), hb.day k d hd]
      simp only [hxy]

/-- Merging is commutative and idempotent, and any two bracketings and orders of one collection of
series come to the same figures when all their days together fit the window. -/
theorem merge_order_free (L : Limits) :
    (∀ a b, Stored L a → Stored L b → SameFigures (mergeSeries L a b) (mergeSeries L b a)) ∧
    (∀ a, Stored L a → SameFigures (mergeSeries L a a) a) ∧
    ∀ m m' : Merges, (∀ s ∈ m.series, Stored L s) → (∀ s, s ∈ m.series ↔ s ∈ m'.series) →
      (allDays m.series).length ≤ L.ledgerDays → SameFigures (m.fold L) (m'.fold L) := by
  refine ⟨fun a b ha hb => ?_, fun a ha => ?_, fun m m' hstored hsame hall => ?_⟩
  · exact mergeSeries_same L ha.toSound hb.toSound
      (joined_comm ha.toSound hb.toSound ha.pre_safe hb.pre_safe)
  · have hone : allDays ([a] ++ [a]) ⊆ a.days.keys := by
      intro d hd
      simpa [allDays] using hd
    have hlen := ((nodup_dedup _).subperm hone).length_le
    rw [OrdMap.keys, length_map] at hlen
    have hboth := (gathers_one ha).merge (gathers_one ha) (hlen.trans ha.window)
    exact hboth.unique (gathers_one ha) (by simp)
  · have hall' : (allDays m'.series).length ≤ L.ledgerDays :=
      (allDays_length_mono fun s hs => (hsame s).mpr hs).trans hall
    have h' := gathers_fold m' (fun s hs => hstored s ((hsame s).mpr hs)) hall'
    exact (gathers_fold m hstored hall).unique h' hsame

/-- A window of one day, and series that hold one day each. -/
def oneDayWindow : Limits := { shipped with ledgerDays := 1 }

def dayOnly (L : Limits) (d : IsoDay) : Series :=
  run (Op.apply L) blankSeries [.absorb (inputReport 1 [(d, 1)])]

theorem dayOnly_stored (L : Limits) (d : IsoDay) (hpre : Safe (dayOnly L d).pre) :
    Stored L (dayOnly L d) where
  toSound := runs_sound L blankSeries_sound _
  pre_safe := hpre
  window := absorb_size L _ _

/-- Three days under a window that holds them, merged from either end. -/
theorem merge_order_free_days :
    SameFigures
      ((Merges.both (.both (.one (dayOnly shipped 20260101)) (.one (dayOnly shipped 20260102)))
        (.one (dayOnly shipped 20260103))).fold shipped)
      ((Merges.both (.one (dayOnly shipped 20260103))
        (.both (.one (dayOnly shipped 20260102)) (.one (dayOnly shipped 20260101)))).fold shipped) :=
  (merge_order_free shipped).2.2 _ _
    (by
      intro s hs
      simp only [Merges.series, mem_append, mem_singleton] at hs
      rcases hs with (rfl | rfl) | rfl <;> exact dayOnly_stored _ _ (by decide +kernel))
    (by
      intro s
      simp only [Merges.series, mem_append, mem_singleton]
      tauto)
    (by decide +kernel)

/-- Folding the second day first closes the first one, whose token is then nowhere. -/
theorem merge_order_matters :
    Stored oneDayWindow (dayOnly oneDayWindow 20260101) ∧
      Stored oneDayWindow (dayOnly oneDayWindow 20260102) ∧
      Stored oneDayWindow (dayOnly oneDayWindow 20260103) ∧
    ((Merges.both (.both (.one (dayOnly oneDayWindow 20260101)) (.one (dayOnly oneDayWindow 20260102)))
        (.one (dayOnly oneDayWindow 20260103))).fold oneDayWindow).pre .input = 2 ∧
      ((Merges.both (.one (dayOnly oneDayWindow 20260101))
        (.both (.one (dayOnly oneDayWindow 20260102))
          (.one (dayOnly oneDayWindow 20260103)))).fold oneDayWindow).pre .input = 1 :=
  ⟨dayOnly_stored _ _ (by decide +kernel), dayOnly_stored _ _ (by decide +kernel),
    dayOnly_stored _ _ (by decide +kernel), by decide +kernel, by decide +kernel⟩

end Turma.Ledger
