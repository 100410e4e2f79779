import Mathlib.Algebra.BigOperators.Group.Finset.Piecewise
import Turma.Lib.SumOn
import Turma.Ledger.MergeLoss

/-! A host that reports honestly and the ledger of one of its series. The host keeps some of
the items it ever spent and reports those; the ledger absorbs the reports and folds days as
it likes. A day is closed once the report window or the ledger has moved past it: its spend
can only reach `pre` now, and `pre` with the closed days held never exceeds it. -/

namespace Turma.Ledger

open Turma.Lib List OrdMap

structure Item where
  day : IsoDay
  tokens : Bucket

/-- `first` is the first day of the report window, `items` is everything spent so far. -/
structure Honest where
  first : IsoDay
  items : List Item
  series : Series

inductive Beat
  | spend (item : Item)
  | advance (first : IsoDay)
  | report (survives : List Bool) (rest : Report)
  | trimDays
  | halveDays

def surviving (items : List Item) (survives : List Bool) : List Item :=
  (items.zip survives).filterMap fun p => if p.2 then some p.1 else none

def tokensOf (items : List Item) : Bucket := fun k => (items.map fun it => it.tokens k).sum

def tokensOn (items : List Item) (d : IsoDay) : Bucket :=
  tokensOf (items.filter fun it => it.day = d)

/-- One bucket for each day of the window that an item is left of. -/
def daysOf (first : IsoDay) (items : List Item) : OrdMap IsoDay Bucket :=
  (items.filter fun it => first ≤ it.day).foldl
    (fun m it => m.upsert it.day fun _ => tokensOn items it.day) .empty

def honestReport (L : Limits) (first : IsoDay) (items : List Item) (rest : Report) : Usage :=
  usageOf L { rest with totals := tokensOf items, days := daysOf first items }

def Beat.apply (L : Limits) (h : Honest) : Beat → Honest
  | .spend item => if h.first ≤ item.day then { h with items := item :: h.items } else h
  | .advance first => { h with first := max h.first first }
  | .report survives rest =>
    { h with
      series := absorb L h.series (honestReport L h.first (surviving h.items survives) rest) }
  | .trimDays => { h with series := Ledger.trimDays L h.series }
  | .halveDays => { h with series := Ledger.halveDays h.series }

def Honest.start (first : IsoDay) : Honest := ⟨first, [], blankSeries⟩

theorem surviving_sublist (items : List Item) (survives : List Bool) :
    (surviving items survives).Sublist items := by
  induction items generalizing survives with
  | nil => exact Sublist.refl _
  | cons it items ih =>
    cases survives with
    | nil => exact nil_sublist _
    | cons b survives =>
      cases b with
      | true => exact (ih survives).cons_cons it
      | false => exact (ih survives).cons it

theorem tokensOf_mono {a b : List Item} (h : a.Sublist b) (k : TokenKey) :
    tokensOf a k ≤ tokensOf b k :=
  Sublist.sum_le_sum (h.map fun it => it.tokens k) fun _ _ => Nat.zero_le _

theorem tokensOn_mono {a b : List Item} (h : a.Sublist b) (d : IsoDay) (k : TokenKey) :
    tokensOn a d k ≤ tokensOn b d k :=
  tokensOf_mono (h.filter _) k

theorem tokensOn_cons (it : Item) (items : List Item) (d : IsoDay) (k : TokenKey) :
    tokensOn (it :: items) d k = (if it.day = d then it.tokens k else 0) + tokensOn items d k := by
  unfold tokensOn tokensOf
  by_cases h : it.day = d <;> simp [h]

/-- Every item is on its day. -/
theorem sum_tokensOn (items : List Item) (k : TokenKey) :
    ∑ d, tokensOn items d k = tokensOf items k := by
  induction items with
  | nil => exact Finset.sum_const_zero
  | cons it items ih =>
    simp only [tokensOn_cons, Finset.sum_add_distrib, ih]
    rw [Finset.sum_ite_eq, if_pos (Finset.mem_univ _)]
    exact (sum_cons (l := items.map fun it => it.tokens k)).symm

theorem tokensOn_le (items : List Item) (d : IsoDay) (k : TokenKey) :
    tokensOn items d k ≤ tokensOf items k :=
  tokensOf_mono filter_sublist k

theorem get?_daysOf (first : IsoDay) (items : List Item) (d : IsoDay) :
    (daysOf first items).get? d =
      if first ≤ d ∧ ∃ it ∈ items, it.day = d then some (tokensOn items d) else none := by
  have loop : ∀ (l : List Item) (m : OrdMap IsoDay Bucket),
      (l.foldl (fun m it => m.upsert it.day fun _ => tokensOn items it.day) m).get? d =
        if ∃ it ∈ l, it.day = d then some (tokensOn items d) else m.get? d := by
    intro l
    induction l with
    | nil => simp
    | cons it l ih =>
      intro m
      rw [foldl_cons, ih, get?_upsert]
      by_cases hl : ∃ it ∈ l, it.day = d
      · simp [hl]
      · by_cases hd : it.day = d
        · simp [hd]
        · have hd' : d ≠ it.day := fun h => hd h.symm
          simp [hl, hd, hd']
  have hiff : (∃ it ∈ items.filter fun it => first ≤ it.day, it.day = d) ↔
      first ≤ d ∧ ∃ it ∈ items, it.day = d := by
    constructor
    · rintro ⟨it, hmem, rfl⟩
      obtain ⟨hm, hf⟩ := mem_filter.mp hmem
      exact ⟨of_decide_eq_true hf, it, hm, rfl⟩
    · rintro ⟨hf, it, hm, rfl⟩
      exact ⟨it, mem_filter.mpr ⟨hm, decide_eq_true hf⟩, rfl⟩
  rw [daysOf, loop]
  by_cases h : first ≤ d ∧ ∃ it ∈ items, it.day = d
  · rw [if_pos (hiff.mpr h), if_pos h]
  · rw [if_neg fun hc => h (hiff.mp hc), if_neg h]
    rfl

theorem tokensOn_of_none {items : List Item} {d : IsoDay} (h : ¬ ∃ it ∈ items, it.day = d)
    (k : TokenKey) : tokensOn items d k = 0 := by
  have hnil : items.filter (fun it => it.day = d) = [] := by
    rw [filter_eq_nil_iff]
    intro it hm hd
    exact h ⟨it, hm, of_decide_eq_true hd⟩
  rw [tokensOn, hnil]
  rfl

section

variable (L : Limits) (first : IsoDay) (items : List Item) (rest : Report)

theorem honestReport_days (d : IsoDay) :
    (honestReport L first items rest).days.get? d =
      ((daysOf first items).get? d).map bucketOf :=
  get?_mapValues (daysOf first items) bucketOf d

theorem honestReport_first {d : IsoDay} (h : d ∈ (honestReport L first items rest).days.keys) :
    first ≤ d := by
  obtain ⟨b, hb⟩ := OrdMap.mem_keys.mp h
  rw [honestReport_days, get?_daysOf] at hb
  by_contra hd
  rw [if_neg fun hc => hd hc.1] at hb
  exact Option.some_ne_none b hb.symm

theorem honestReport_day {k : TokenKey} (hsafe : tokensOf items k ≤ maxSafe) (d : IsoDay) :
    (honestReport L first items rest).day k d =
      if first ≤ d then tokensOn items d k else 0 := by
  have hle := (tokensOn_le items d k).trans hsafe
  unfold Usage.day OrdMap.figure
  rw [honestReport_days, get?_daysOf]
  by_cases hf : first ≤ d
  · by_cases hm : ∃ it ∈ items, it.day = d
    · rw [if_pos ⟨hf, hm⟩, if_pos hf]
      exact num_of_le hle
    · rw [if_neg fun hc => hm hc.2, if_pos hf, tokensOn_of_none hm]
      rfl
  · rw [if_neg fun hc => hf hc.1, if_neg hf]
    rfl

theorem honestReport_totals {k : TokenKey} (hsafe : tokensOf items k ≤ maxSafe) :
    (honestReport L first items rest).totals k = tokensOf items k :=
  num_of_le hsafe

end

/-- Neither the host's window nor the ledger's days take spend on `d` any more. -/
def closed (h : Honest) (d : IsoDay) : Bool := decide (d < h.first) || inPre h.series.cutoff d

structure Bounded (h : Honest) (k : TokenKey) : Prop where
  days : ∀ d, h.series.day k d ≤ tokensOn h.items d k
  pre : h.series.pre k + sumOn (closed h) (h.series.day k) ≤
    sumOn (closed h) fun d => tokensOn h.items d k

section

variable {h : Honest} {k : TokenKey}

theorem Bounded.spent_le (hb : Bounded h k) : h.series.spent k ≤ tokensOf h.items k := by
  have hopen : sumOn (fun d => !closed h d) (h.series.day k) ≤
      sumOn (fun d => !closed h d) fun d => tokensOn h.items d k :=
    sumOn_le_sumOn fun d _ => hb.days d
  have hclosed := hb.pre
  have hday := sumOn_add_not (closed h) (h.series.day k)
  have hall := sumOn_add_not (closed h) fun d => tokensOn h.items d k
  rw [sum_tokensOn] at hall
  rw [Series.spent_eq]
  omega

theorem Bounded.folded (hb : Bounded h k) (hs : h.series.Sound)
    (hsafe : tokensOf h.items k ≤ maxSafe) {s' : Series} {ds : List IsoDay}
    (hf : Folded h.series s' ds) : Bounded { h with series := s' } k where
  days d := by
    rw [hf.day]
    split_ifs
    · exact Nat.zero_le _
    · exact hb.days d
  pre := by
    have hclosed : ∀ d, closed { h with series := s' } d =
        (closed h d || ds.any fun e => decide (d ≤ e)) := by
      intro d
      change (decide (d < h.first) || inPre s'.cutoff d) = _
      rw [hf.inPre, closed, Bool.or_assoc]
    have hin : ∀ d ∈ ds, closed { h with series := s' } d = true := by
      intro d hd
      rw [hclosed, Bool.or_eq_true, any_eq_true]
      exact Or.inr ⟨d, hd, decide_eq_true le_rfl⟩
    have hgrow := sumOn_grow (q := closed { h with series := s' })
      (fun d hd => by rw [hclosed, hd, Bool.true_or]) hb.days hb.pre
    -- the folded days leave the held side and reach `pre`
    have hmoved := sum_list_add_rest hf.nodup fun d =>
      if closed { h with series := s' } d then h.series.day k d else 0
    have hlist : ds.map (fun d =>
        if closed { h with series := s' } d then h.series.day k d else 0) =
        ds.map (h.series.day k) :=
      map_congr_left fun d hd => if_pos (hin d hd)
    have hrest : (∑ d, if d ∈ ds then 0
        else if closed { h with series := s' } d then h.series.day k d else 0) =
        sumOn (closed { h with series := s' }) (s'.day k) := by
      apply Finset.sum_congr rfl
      intro d _
      rw [hf.day]
      by_cases hd : d ∈ ds <;> simp [hd]
    rw [hlist, hrest] at hmoved
    change _ = sumOn (closed { h with series := s' }) (h.series.day k) at hmoved
    have hmax : maxSafe < 2 ^ 53 := by decide
    have hspent := hb.spent_le
    have hsum := hf.sum k
    rw [Series.spent_eq] at hspent
    change s'.pre k + sumOn (closed { h with series := s' }) (s'.day k) ≤
      sumOn (closed { h with series := s' }) fun d => tokensOn h.items d k
    rw [hf.pre hs.days_safe, flSum_of_le (by omega)]
    omega

/-- A report's remainder is what is left of the days before its window, and the ledger takes
from it all that it holds of those. -/
theorem Bounded.preR_le (hb : Bounded h k) (hs : h.series.Sound)
    (hsafe : tokensOf h.items k ≤ maxSafe) (L : Limits) {alive : List Item}
    (halive : alive.Sublist h.items) (rest : Report) :
    preR h.series (honestReport L h.first alive rest) k +
      sumOn (fun d => decide (d < h.first)) (h.series.day k) ≤
      sumOn (fun d => decide (d < h.first)) fun d => tokensOn h.items d k := by
  have halive_safe : tokensOf alive k ≤ maxSafe := (tokensOf_mono halive k).trans hsafe
  have hreported : ∑ d, (honestReport L h.first alive rest).day k d =
      sumOn (fun d => !decide (d < h.first)) fun d => tokensOn alive d k := by
    apply Finset.sum_congr rfl
    intro d _
    rw [honestReport_day L h.first alive rest halive_safe]
    by_cases hd : h.first ≤ d
    · simp [hd, not_lt.mpr hd]
    · simp [hd, not_le.mp hd]
  have hsplit := sumOn_add_not (fun d => decide (d < h.first)) fun d => tokensOn alive d k
  rw [sum_tokensOn, ← hreported] at hsplit
  have hold : sumOn (fun d => decide (d < h.first)) (fun d => tokensOn alive d k) ≤
      sumOn (fun d => decide (d < h.first)) fun d => tokensOn h.items d k :=
    sumOn_le_sumOn fun d _ => tokensOn_mono halive d k
  have hheld : sumOn (fun d => decide (d < h.first)) (h.series.day k) ≤
      sumOn (fun d => decide (d < h.first)) fun d => tokensOn h.items d k :=
    sumOn_le_sumOn fun d _ => hb.days d
  -- a day before the window is not among the reported ones
  have hapart : sumOn (fun d => decide (d < h.first)) (h.series.day k) ≤
      ∑ d, if d ∈ (honestReport L h.first alive rest).days.keys then 0 else h.series.day k d := by
    apply Finset.sum_le_sum
    intro d _
    by_cases hd : d < h.first
    · have hnot : d ∉ (honestReport L h.first alive rest).days.keys := fun hm =>
        absurd (honestReport_first L h.first alive rest hm) (not_le.mpr hd)
      simp [hd, hnot]
    · simp [hd]
  have hless : (∑ d, if d ∈ (honestReport L h.first alive rest).days.keys then 0
      else h.series.day k d) ≤ ∑ d, h.series.day k d := by
    apply Finset.sum_le_sum
    intro d _
    split_ifs
    · exact Nat.zero_le _
    · exact le_rfl
  have hspent := hb.spent_le
  rw [Series.spent_eq] at hspent
  rw [preR_apply hs, honestReport_totals L h.first alive rest halive_safe,
    num_of_le (by omega), num_of_le (by omega)]
  omega

theorem Bounded.raised (hb : Bounded h k) (hs : h.series.Sound)
    (hsafe : tokensOf h.items k ≤ maxSafe) (L : Limits) {alive : List Item}
    (halive : alive.Sublist h.items) (rest : Report) :
    Bounded { h with series := raise h.series (honestReport L h.first alive rest) } k where
  days d := by
    rw [raise_day]
    split_ifs
    · exact hb.days d
    · apply max_le (hb.days d)
      rw [honestReport_day L h.first alive rest ((tokensOf_mono halive k).trans hsafe)]
      split_ifs
      · exact tokensOn_mono halive d k
      · exact Nat.zero_le _
  pre := by
    have hsame : sumOn (closed h) ((raise h.series (honestReport L h.first alive rest)).day k) =
        sumOn (closed h) (h.series.day k) := by
      apply sumOn_congr
      intro d hd
      rw [raise_day, honestReport_day L h.first alive rest ((tokensOf_mono halive k).trans hsafe)]
      rcases (Bool.or_eq_true _ _).mp hd with hd | hd
      · rw [if_neg (not_le.mpr (of_decide_eq_true hd)), max_eq_left (Nat.zero_le _)]
        split_ifs <;> rfl
      · rw [if_pos hd]
    have hgrow := sumOn_grow (q := closed h) (fun d hd => by rw [closed, hd, Bool.true_or])
      hb.days (hb.preR_le hs hsafe L halive rest)
    have hpre := hb.pre
    change (raise h.series _).pre k +
      sumOn (closed h) ((raise h.series (honestReport L h.first alive rest)).day k) ≤
      sumOn (closed h) fun d => tokensOn h.items d k
    rw [hsame, raise_pre]
    omega

theorem Bounded.spend (hb : Bounded h k) (item : Item) :
    Bounded { h with items := item :: h.items } k where
  days d := (hb.days d).trans (tokensOn_mono (sublist_cons_self item h.items) d k)
  pre := hb.pre.trans (sumOn_le_sumOn fun d _ =>
    tokensOn_mono (sublist_cons_self item h.items) d k)

theorem Bounded.advance (hb : Bounded h k) (first : IsoDay) :
    Bounded { h with first := max h.first first } k where
  days := hb.days
  pre := by
    refine sumOn_grow (fun d hd => ?_) hb.days hb.pre
    rcases (Bool.or_eq_true _ _).mp hd with hd | hd
    · have hlt := lt_of_lt_of_le (of_decide_eq_true hd) (le_max_left h.first first)
      rw [closed, Bool.or_eq_true]
      exact Or.inl (decide_eq_true hlt)
    · rw [closed, Bool.or_eq_true]
      exact Or.inr hd

end

theorem start_bounded (first : IsoDay) (k : TokenKey) : Bounded (Honest.start first) k where
  days _ := Nat.zero_le _
  pre := by
    change 0 + sumOn (closed (Honest.start first)) (fun _ => 0) ≤ _
    rw [Nat.zero_add]
    exact sumOn_le_sumOn fun _ _ => Nat.zero_le _

theorem Beat.sound (L : Limits) {h : Honest} (hs : h.series.Sound) (b : Beat) :
    (b.apply L h).series.Sound := by
  cases b with
  | spend item =>
    simp only [Beat.apply]
    split_ifs <;> exact hs
  | advance first => exact hs
  | report survives rest => exact hs.absorb L _
  | trimDays => exact (foldOldest_folded _ h.series).sound hs
  | halveDays => exact (foldOldest_folded _ h.series).sound hs

theorem Beat.items (L : Limits) (h : Honest) (b : Beat) : h.items.Sublist (b.apply L h).items := by
  cases b with
  | spend item =>
    simp only [Beat.apply]
    split_ifs
    · exact sublist_cons_self item h.items
    · exact Sublist.refl _
  | _ => exact Sublist.refl _

theorem Beat.bounded (L : Limits) {h : Honest} (hs : h.series.Sound) (b : Beat) {k : TokenKey}
    (hb : Bounded h k) (hsafe : tokensOf h.items k ≤ maxSafe) : Bounded (b.apply L h) k := by
  cases b with
  | spend item =>
    simp only [Beat.apply]
    split_ifs
    · exact hb.spend item
    · exact hb
  | advance first => exact hb.advance first
  | report survives rest =>
    have halive := surviving_sublist h.items survives
    exact (hb.raised hs hsafe L halive rest).folded (hs.raise _) hsafe (absorb_folded L h.series _)
  | trimDays => exact hb.folded hs hsafe (foldOldest_folded _ h.series)
  | halveDays => exact hb.folded hs hsafe (foldOldest_folded _ h.series)

/-- The ledger of an honest host holds at most what the host spent, for each token key whose
true total is a safe integer. -/
theorem honest_never_over_counted (L : Limits) (first : IsoDay) (beats : List Beat)
    (k : TokenKey)
    (hsafe : tokensOf (run (Beat.apply L) (Honest.start first) beats).items k ≤ maxSafe) :
    seriesTotals (run (Beat.apply L) (Honest.start first) beats).series k ≤
      tokensOf (run (Beat.apply L) (Honest.start first) beats).items k := by
  have hall : Along (Beat.apply L) (fun _ _ => True) (Honest.start first) beats :=
    along_of_forall (Beat.apply L) fun _ _ => trivial
  have hrun := run_inv (Beat.apply L)
    (P := fun h => h.series.Sound ∧ (tokensOf h.items k ≤ maxSafe → Bounded h k))
    (fun h b ⟨hs, hb⟩ _ => ⟨b.sound L hs, fun hsafe =>
      have hbefore := (tokensOf_mono (b.items L h) k).trans hsafe
      b.bounded L hs (hb hbefore) hbefore⟩)
    ⟨blankSeries_sound, fun _ => start_bounded first k⟩ hall
  have hspent := (hrun.2 hsafe).spent_le
  rw [seriesTotals_eq hrun.1 (hspent.trans hsafe)]
  exact hspent

def blankReport : Report := ⟨blankBucket, .empty, [], none, 0, none⟩

/-- Two days spent and reported, the window moved past the first one, its transcripts half
gone, a fold, and another report. -/
def honestMonth : List Beat :=
  [.spend ⟨20260101, inputOnly 10⟩, .spend ⟨20260101, inputOnly 7⟩, .spend ⟨20260102, inputOnly 20⟩,
    .report [true, true, true] blankReport, .advance 20260102, .report [true, false, true] blankReport,
    .halveDays, .spend ⟨20260103, inputOnly 4⟩, .report [true, true, false, false] blankReport]

theorem honest_never_over_counted_month :
    seriesTotals (run (Beat.apply shipped) (Honest.start 20260101) honestMonth).series .input = 41 ∧
      seriesTotals (run (Beat.apply shipped) (Honest.start 20260101) honestMonth).series .input ≤
        tokensOf (run (Beat.apply shipped) (Honest.start 20260101) honestMonth).items .input :=
  ⟨by decide +kernel,
    honest_never_over_counted shipped 20260101 honestMonth .input (by decide)⟩

/-- Both days leave the window with more held of them than `num` lets through, so nothing is
subtracted from the remainder that still counts what is left of them. -/
def overflowingDays : List Beat :=
  [.spend ⟨20260101, inputOnly 1⟩, .spend ⟨20260101, inputOnly (maxSafe - 1)⟩,
    .spend ⟨20260102, inputOnly 5⟩, .report [true, true, true] blankReport, .advance 20260103,
    .report [true, false, true] blankReport]

theorem overflow_over_counts :
    tokensOf (run (Beat.apply shipped) (Honest.start 20260101) overflowingDays).items .input <
      seriesTotals (run (Beat.apply shipped) (Honest.start 20260101) overflowingDays).series
        .input := by
  decide +kernel

end Turma.Ledger
