import Turma.Lib.Run
import Turma.Ledger.Merge
import Turma.Lib.SumOn

/-! A recorded series over any run of reports, trims and file round trips: what it has
recorded is not lowered, and a folded day does not come back. -/

namespace Turma.Ledger

open Turma.Lib List OrdMap

inductive Op
  | absorb (u : Usage)
  | trimDays
  | halveDays
  | halveModels
  | reload

def Op.apply (L : Limits) (s : Series) : Op → Series
  | .absorb u => Ledger.absorb L s u
  | .trimDays => Ledger.trimDays L s
  | .halveDays => Ledger.halveDays s
  | .halveModels => Ledger.halveModels s
  | .reload => seriesOf L s

/-- `a <= b` of two cutoffs, no cutoff being the least. -/
def cutoffLe (a b : Option IsoDay) : Prop := ∀ d, inPre a d = true → inPre b d = true

theorem Folded.cutoff_mono {s s' : Series} {ds : List IsoDay} (h : Folded s s' ds) :
    cutoffLe s.cutoff s'.cutoff := by
  intro d hd
  rw [h.inPre, hd, Bool.true_or]

theorem reread_get? {s : Series} (h : s.Sound) (L : Limits) (d : IsoDay) :
    (reread L s).days.get? d = s.days.get? d := by
  change (s.days.mapValues bucketOf).get? d = _
  rw [get?_mapValues]
  cases hb : s.days.get? d with
  | none => rfl
  | some b => exact congrArg some (bucketOf_of_safe (h.days_safe d b hb))

theorem Series.Sound.reread {s : Series} (h : s.Sound) (L : Limits) : (reread L s).Sound where
  days_safe d b hb := h.days_safe d b ((reread_get? h L d).symm.trans hb)
  unfolded d hd := by
    apply h.unfolded d
    rw [OrdMap.mem_keys] at hd ⊢
    rwa [← reread_get? h L d]

theorem reread_spent {s : Series} (h : s.Sound) (L : Limits) {k : TokenKey}
    (hk : s.spent k ≤ maxSafe) : (reread L s).spent k = s.spent k := by
  have hpre : (reread L s).pre k = s.pre k := num_of_le ((Nat.le_add_right _ _).trans hk)
  have hday : ∀ d, (reread L s).day k d = s.day k d := by
    intro d
    unfold Series.day OrdMap.figure
    rw [reread_get? h]
  rw [Series.spent_eq, Series.spent_eq, hpre, Finset.sum_congr rfl fun d _ => hday d]

theorem Op.sound (L : Limits) {s : Series} (h : s.Sound) (o : Op) : (o.apply L s).Sound := by
  cases o with
  | absorb u => exact h.absorb L u
  | trimDays => exact (foldOldest_folded _ s).sound h
  | halveDays => exact (foldOldest_folded _ s).sound h
  | halveModels => exact ⟨h.days_safe, h.unfolded⟩
  | reload => exact (seriesOf_folded L s).sound (h.reread L)

theorem Op.cutoff_mono (L : Limits) (s : Series) (o : Op) : cutoffLe s.cutoff (o.apply L s).cutoff := by
  cases o with
  | absorb u => exact (absorb_folded L s u).cutoff_mono
  | trimDays => exact (foldOldest_folded _ s).cutoff_mono
  | halveDays => exact (foldOldest_folded _ s).cutoff_mono
  | halveModels => exact fun _ h => h
  | reload => exact (seriesOf_folded L s).cutoff_mono

/-- No step lowers the all-time figure, as long as it is a safe integer. -/
theorem Op.spent_le (L : Limits) {s : Series} (h : s.Sound) (o : Op) {k : TokenKey}
    (hs : s.spent k ≤ maxSafe) (hs' : (o.apply L s).spent k ≤ maxSafe) :
    s.spent k ≤ (o.apply L s).spent k := by
  have hmax : maxSafe < 2 ^ 53 := by decide
  have fold : ∀ {t t' : Series} {ds : List IsoDay}, Folded t t' ds → t.Sound →
      s.spent k ≤ t.spent k → t'.spent k ≤ maxSafe → s.spent k ≤ t'.spent k := by
    intro t t' ds hf ht hst ht'
    have hmin := hf.min_le_spent ht k
    omega
  cases o with
  | absorb u => exact fold (absorb_folded L s u) (h.raise u) (raise_spent_le s u k) hs'
  | trimDays => exact fold (foldOldest_folded _ s) h le_rfl hs'
  | halveDays => exact fold (foldOldest_folded _ s) h le_rfl hs'
  | halveModels => exact le_rfl
  | reload =>
    exact fold (seriesOf_folded L s) (h.reread L) (reread_spent h L hs).ge hs'

section

variable (L : Limits) (s : Series) (u : Usage)

theorem absorb_size : (absorb L s u).days.size ≤ L.ledgerDays := by
  have hsize := (absorb_folded L s u).size
  have hlen := oldest_length (raise s u) ((raise s u).days.size - L.ledgerDays)
  change (absorb L s u).days.size +
    (oldest (raise s u) ((raise s u).days.size - L.ledgerDays)).length = _ at hsize
  omega

theorem raise_day_unreported {d : IsoDay} (k : TokenKey) (hd : d ∉ u.days.keys) :
    (raise s u).day k d = s.day k d := by
  rw [raise_day, show u.day k d = 0 from figure_of_not_mem hd, max_eq_left (Nat.zero_le _)]
  split_ifs <;> rfl

/-- What is held apart from a report, the days trimmed since among it. -/
theorem held_trimmed (k : TokenKey) :
    ((trimmed L s u).map fun d => if d ∈ u.days.keys then 0 else s.day k d).sum +
        ∑ d, (if d ∈ u.days.keys then 0 else (absorb L s u).day k d) =
      ∑ d, if d ∈ u.days.keys then 0 else s.day k d := by
  have hf := absorb_folded L s u
  rw [← sum_list_add_rest hf.nodup fun d => if d ∈ u.days.keys then 0 else s.day k d]
  refine congrArg _ (Finset.sum_congr rfl fun d _ => ?_)
  by_cases hd : d ∈ u.days.keys
  · simp [hd]
  · rw [if_neg hd, if_neg hd, hf.day, raise_day_unreported s u k hd]

/-- A second absorption finds less held, so a larger remainder, but no more than the days
trimmed in between have added to `pre`. -/
theorem preR_again_le (h : s.Sound) (k : TokenKey) :
    preR (absorb L s u) u k ≤ (absorb L s u).pre k := by
  have hf := absorb_folded L s u
  have hheld := held_trimmed L s u k
  have htrim : ((trimmed L s u).map fun d => if d ∈ u.days.keys then 0 else s.day k d).sum ≤
      ((trimmed L s u).map ((raise s u).day k)).sum := by
    apply sum_le_sum
    intro d _
    by_cases hd : d ∈ u.days.keys
    · simp [hd]
    · rw [if_neg hd, raise_day_unreported s u k hd]
  have hpre := min_le_flSum ((raise s u).pre k) ((trimmed L s u).map ((raise s u).day k))
  rw [← hf.pre (h.raise u).days_safe k, raise_pre] at hpre
  have hmax : maxSafe < 2 ^ 53 := by decide
  have hle := preR_le (absorb L s u) u k
  have hfirst := preR_apply h u k
  have hagain := preR_apply (h.absorb L u) u k
  rcases Nat.lt_or_ge maxSafe (∑ d, if d ∈ u.days.keys then 0 else s.day k d) with hbig | hsmall
  · rw [num_of_gt hbig] at hfirst
    omega
  · have hless := le_of_add_le_right hheld.le
    rw [num_of_le hsmall] at hfirst
    rw [num_of_le (hless.trans hsmall)] at hagain
    omega

theorem raise_again_pre (h : s.Sound) :
    (raise (absorb L s u) u).pre = (absorb L s u).pre := by
  funext k
  rw [raise_pre]
  exact max_eq_left (preR_again_le L s u h k)

/-- A reported day that is still open was raised to the report the first time. -/
theorem raise_again_days : (raise (absorb L s u) u).days = (absorb L s u).days := by
  have hf := absorb_folded L s u
  apply mergeWith_same
  intro e he
  have hopen := get?_eq_some.mpr he
  rw [openDays_get?] at hopen
  split_ifs at hopen with hc
  rw [hf.inPre, Bool.or_eq_true, not_or] at hc
  have hnot : e.1 ∉ trimmed L s u := by
    intro hm
    exact hc.2 (any_eq_true.mpr ⟨e.1, hm, decide_eq_true le_rfl⟩)
  refine ⟨raised (s.days.get? e.1) e.2, ?_, ?_⟩
  · have hc' : ¬ inPre s.cutoff e.1 = true := hc.1
    rw [hf.days, if_neg hnot, raise_get?, openDays_get?, if_neg hc', hopen]
  · funext k
    simp only [raised, Option.getD_some, raiseBucket_apply]
    rw [max_assoc, max_self]

theorem trim_again : trimmed L (absorb L s u) u = [] := by
  have hsize := absorb_size L s u
  unfold trimmed oldest
  rw [OrdMap.size, raise_again_days L s u]
  change List.take ((absorb L s u).days.size - L.ledgerDays) _ = []
  rw [show (absorb L s u).days.size - L.ledgerDays = 0 by omega, take_zero]

/-- Two series that agree on all but their model breakdown. -/
structure SameAccount (a b : Series) : Prop where
  pre : a.pre = b.pre
  days : a.days = b.days
  cutoff : a.cutoff = b.cutoff
  subagent : a.subagent = b.subagent
  sessions : a.sessions = b.sessions
  lastActivity : a.lastActivity = b.lastActivity

theorem raiseSubagent_again (cur src : Option Bucket) :
    raiseSubagent (raiseSubagent cur src) src = raiseSubagent cur src := by
  cases src with
  | none => rfl
  | some b =>
    refine congrArg some (funext fun k => ?_)
    simp only [raised, raiseSubagent, Option.getD_some, raiseBucket_apply]
    rw [max_assoc, max_self]

theorem before_irrefl (a : JsString) : a.before a = false := by
  exact decide_eq_false (lt_irrefl _)

theorem latestActivity_again (cur src : Option JsString) :
    latestActivity (latestActivity cur src) src = latestActivity cur src := by
  cases src with
  | none => rfl
  | some a =>
    by_cases ha : a = []
    · simp [latestActivity, ha]
    · cases cur with
      | none => simp [latestActivity, ha, before_irrefl]
      | some c =>
        by_cases hc : c = [] ∨ c.before a = true
        · simp [latestActivity, ha, hc, before_irrefl]
        · simp [latestActivity, ha, hc]

theorem absorb_again (h : s.Sound) : SameAccount (absorb L (absorb L s u) u) (absorb L s u) := by
  have hraise : (oldest (raise (absorb L s u) u)
      ((raise (absorb L s u) u).days.size - L.ledgerDays)).foldl foldDay
        (raise (absorb L s u) u) = raise (absorb L s u) u := by
    have ht := trim_again L s u
    rw [trimmed] at ht
    rw [ht]
    rfl
  have htrim : trimDays L (raise (absorb L s u) u) = raise (absorb L s u) u := hraise
  obtain ⟨hsub, hses, hlast⟩ := absorb_rest L s u
  obtain ⟨hsub', hses', hlast'⟩ := absorb_rest L (absorb L s u) u
  refine ⟨?_, ?_, ?_, ?_, ?_, ?_⟩
  · change (trimDays L (raise (absorb L s u) u)).pre = _
    rw [htrim, raise_again_pre L s u h]
  · change (trimDays L (raise (absorb L s u) u)).days = _
    rw [htrim, raise_again_days]
  · change (trimDays L (raise (absorb L s u) u)).cutoff = _
    rw [htrim]
    rfl
  · rw [hsub', hsub, raiseSubagent_again]
  · rw [hses', hses, if_neg]
    split_ifs with hlt
    · exact lt_irrefl _
    · exact hlt
  · rw [hlast', hlast, latestActivity_again]

end

theorem runs_sound (L : Limits) {s : Series} (h : s.Sound) (ops : List Op) :
    (run (Op.apply L) s ops).Sound :=
  run_inv (Op.apply L) (P := Series.Sound) (fun _ o ht _ => Op.sound L ht o) h
    (along_of_forall (p := fun _ => True) (Op.apply L) fun _ _ => trivial)

theorem run_cutoff (L : Limits) (s : Series) (ops : List Op) :
    cutoffLe s.cutoff (run (Op.apply L) s ops).cutoff :=
  run_rel (Op.apply L) (P := fun _ => True) (R := fun a b => cutoffLe a.cutoff b.cutoff)
    (fun _ _ hd => hd) (fun _ _ _ hab hbc d hd => hbc d (hab d hd))
    (fun t o _ _ => ⟨trivial, Op.cutoff_mono L t o⟩) trivial
    (along_of_forall (p := fun _ => True) (Op.apply L) fun _ _ => trivial)

theorem run_spent (L : Limits) {s : Series} (h : s.Sound) (ops : List Op) {k : TokenKey}
    (hk : Throughout (Op.apply L) (fun t => t.spent k ≤ maxSafe) s ops) :
    s.spent k ≤ (run (Op.apply L) s ops).spent k :=
  run_rel (Op.apply L) (P := Series.Sound) (R := fun a b => a.spent k ≤ b.spent k)
    (fun _ => le_rfl) (fun _ _ _ => le_trans)
    (fun _ o ht hok => ⟨Op.sound L ht o, Op.spent_le L ht o hok.1 hok.2⟩) h (hk.along (Op.apply L))

/-- A recorded series never shrinks, as long as its all-time figure is a safe integer, and
never takes a folded day back; a report absorbed twice is absorbed once. -/
theorem recorded_never_shrinks (L : Limits) {s : Series} (h : s.Sound) (ops : List Op) :
    (∀ k, Throughout (Op.apply L) (fun t => t.spent k ≤ maxSafe) s ops →
      seriesTotals s k ≤ seriesTotals (run (Op.apply L) s ops) k) ∧
    cutoffLe s.cutoff (run (Op.apply L) s ops).cutoff ∧
    (∀ d ∈ (run (Op.apply L) s ops).days.keys,
      inPre (run (Op.apply L) s ops).cutoff d = false) ∧
    ∀ u, (absorb L (run (Op.apply L) s ops) u).days.size ≤ L.ledgerDays ∧
      SameAccount (absorb L (absorb L (run (Op.apply L) s ops) u) u)
        (absorb L (run (Op.apply L) s ops) u) := by
  have hrun := runs_sound L h ops
  refine ⟨fun k hk => ?_, run_cutoff L s ops, hrun.unfolded, fun u =>
    ⟨absorb_size L _ u, absorb_again L _ u hrun⟩⟩
  have hstart : s.spent k ≤ maxSafe := hk [] List.nil_prefix
  have hend : (run (Op.apply L) s ops).spent k ≤ maxSafe := hk ops (prefix_refl _)
  rw [seriesTotals_eq h hstart, seriesTotals_eq hrun hend]
  exact run_spent L h ops hk

/-- The settings a hub of 256 MiB starts with. -/
def shipped : Limits := ⟨120, 100, 32, 64, 200, 8388608⟩

def inputOnly (n : ℕ) : Bucket := fun k => if k = .input then n else 0

def inputReport (total : ℕ) (days : List (IsoDay × ℕ)) : Usage :=
  usageOf shipped ⟨inputOnly total,
    days.foldl (fun m e => m.upsert e.1 fun _ => inputOnly e.2) .empty, [], none, 0, none⟩

/-- A report, a fold, a restart and a wiped disk. -/
def wiped : List Op :=
  [.absorb (inputReport 30 [(20260101, 10), (20260102, 20)]), .halveDays, .reload,
    .absorb (inputReport 5 [(20260103, 5)])]

/-- The recorded total at the largest safe integer and a day more. -/
def overflowed : Series := run (Op.apply shipped) blankSeries
  [.absorb (inputReport maxSafe []), .absorb (inputReport 1 [(20260101, 1)])]

theorem recorded_computed :
    (seriesTotals (run (Op.apply shipped) blankSeries wiped) .input = 35 ∧
      Throughout (Op.apply shipped) (fun t => t.spent .input ≤ maxSafe) blankSeries wiped) ∧
    seriesTotals overflowed .input = 2 ^ 53 ∧ seriesTotals (halveDays overflowed) .input = 0 := by
  decide +kernel

theorem recorded_never_shrinks_wiped :
    seriesTotals (run (Op.apply shipped) blankSeries wiped) .input = 35 ∧
      seriesTotals blankSeries .input ≤
        seriesTotals (run (Op.apply shipped) blankSeries wiped) .input :=
  ⟨recorded_computed.1.1,
    (recorded_never_shrinks shipped blankSeries_sound wiped).1 .input recorded_computed.1.2⟩

/-- `pre` at the largest safe integer, a day more, and the day folded: `pre` is read as 0. -/
theorem overflow_shrinks :
    let s := run (Op.apply shipped) blankSeries
      [.absorb (inputReport maxSafe []), .absorb (inputReport 1 [(20260101, 1)])]
    seriesTotals s .input = 2 ^ 53 ∧ seriesTotals (halveDays s) .input = 0 :=
  recorded_computed.2

end Turma.Ledger

/-! What a merge of two series of one host makes of their totals. The later cutoff takes days away
from the side with the earlier one, and `pre` comes to the larger of two figures that need not hold
them. -/

namespace Turma.Ledger

open Turma.Lib OrdMap

def openIn (own other : Series) (d : IsoDay) : Bool := !(inPre own.cutoff d || inPre other.cutoff d)

def daysLeft (s src : Series) : List IsoDay :=
  (s.days.keys ++ src.days.keys.filter fun d => d ∉ s.days.keys).filter (openIn s src)

/-- What is left in `days` of what the merge leaves are all the days with tokens of `k`. -/
def InWindow (L : Limits) (s src : Series) (k : TokenKey) : Prop :=
  ∀ d ∈ daysLeft s src, pastWindow L (daysLeft s src) d = true → s.day k d = 0 ∧ src.day k d = 0

instance (L : Limits) (s src : Series) (k : TokenKey) : Decidable (InWindow L s src k) :=
  List.decidableBAll (fun d => pastWindow L (daysLeft s src) d = true → s.day k d = 0 ∧ src.day k d = 0)
    (daysLeft s src)

def preAfter (s src : Series) (k : TokenKey) : ℕ := num (max (s.pre k) (num (src.pre k)))

/-- What a side has in `pre` and in the days that the other one's cutoff closes is made up for by
`pre` and by what the other side has more of the days that stay open. -/
def MadeUp (pre : ℕ) (own other : Series) (k : TokenKey) : Prop :=
  num (own.pre k) + sumOn (inPre other.cutoff) (own.day k) ≤
    pre + sumOn (openIn own other) fun d => other.day k d - own.day k d

section

variable {L : Limits} {s src : Series} {k : TokenKey}

theorem openIn_comm (s src : Series) : openIn s src = openIn src s := by
  funext d
  rw [openIn, openIn, Bool.or_comm]

theorem mem_daysLeft {d : IsoDay} : d ∈ daysLeft s src ↔
    (d ∈ s.days.keys ∨ d ∈ src.days.keys) ∧ openIn s src d = true := by
  rw [daysLeft, List.mem_filter, List.mem_append, List.mem_filter, decide_eq_true_eq]
  tauto

theorem daysLeft_perm (s src : Series) : (daysLeft s src).Perm (joined s src).days.keys := by
  have hall : (s.days.keys ++ src.days.keys.filter fun d => d ∉ s.days.keys).Nodup :=
    List.nodup_append.mpr ⟨s.days.nodup, List.Nodup.filter _ src.days.nodup, fun a ha b hb hab =>
      of_decide_eq_true (List.mem_filter.mp hb).2 (hab ▸ ha)⟩
  refine (List.perm_ext_iff_of_nodup (hall.filter _) (joined s src).days.nodup).mpr fun d => ?_
  refine mem_daysLeft.trans (Iff.trans ?_ joined_keys.symm)
  rw [openIn, Bool.not_eq_true']

/-- Every open day stands at the larger figure, and no other day stands at all. -/
theorem joined_day_open (hsrc : src.Sound) (k : TokenKey) (d : IsoDay) :
    (joined s src).day k d = if openIn s src d = true then max (s.day k d) (src.day k d) else 0 := by
  rw [joined_day, num_of_le (hsrc.day_le k d), openIn]
  cases inPre s.cutoff d || inPre src.cutoff d <;> rfl

/-- The days of a side: those that the other one's cutoff closes, and those that stay open. -/
theorem own_days {own : Series} (hown : own.Sound) (other : Series) (k : TokenKey) :
    ∑ d, own.day k d =
    sumOn (inPre other.cutoff) (own.day k) + sumOn (openIn own other) (own.day k) := by
  have hopen : sumOn (fun d => !inPre other.cutoff d) (own.day k) =
      sumOn (openIn own other) (own.day k) := by
    apply sumOn_congr_test
    intro d hd
    rw [openIn, Bool.eq_false_iff.mpr fun hc => hd (Series.day_of_inPre hown hc k), Bool.false_or]
  rw [← hopen, sumOn_add_not]

/-- The open days of the merge, from either side. -/
theorem open_sum {own other : Series} (k : TokenKey)
    (hday : ∀ d, (joined s src).day k d =
      if openIn own other d = true then max (own.day k d) (other.day k d) else 0) :
    ∑ d, (joined s src).day k d = sumOn (openIn own other) (own.day k) +
      sumOn (openIn own other) fun d => other.day k d - own.day k d := by
  rw [← sumOn_add]
  apply Finset.sum_congr rfl
  intro d _
  rw [hday]
  dsimp only
  split_ifs <;> omega

/-- With all its tokens in the window, the merge falls short of a side or not by what it takes from
that side. -/
theorem le_merged_iff_madeUp (hs : s.Sound) (hw : ∀ d ∈ daysLeft s src,
      pastWindow L (daysLeft s src) d = true → (joined s src).day k d = 0)
    {own other : Series} (hown : own.Sound) (hk : seriesTotals own k ≤ maxSafe)
    (hday : ∀ d, (joined s src).day k d =
      if openIn own other d = true then max (own.day k d) (other.day k d) else 0) :
    seriesTotals own k ≤ seriesTotals (mergeSeries L s src) k ↔
      MadeUp (preAfter s src k) own other k := by
  have hmax : maxSafe < 2 ^ 53 := by decide
  have hgone : (((daysLeft s src).filter (pastWindow L (daysLeft s src))).map
      ((joined s src).day k)).sum = 0 := by
    rw [List.sum_eq_zero_iff]
    intro n hn
    obtain ⟨d, hd, rfl⟩ := List.mem_map.mp hn
    exact hw d (List.mem_filter.mp hd).1 (List.mem_filter.mp hd).2
  have hall : (((daysLeft s src).filter fun d => !pastWindow L (daysLeft s src) d).map
      ((joined s src).day k)).sum = ∑ d, (joined s src).day k d := by
    have hsplit := ((List.filter_append_perm (pastWindow L (daysLeft s src)) (daysLeft s src)).map
      ((joined s src).day k)).sum_eq
    rw [List.map_append, List.sum_append, hgone, Nat.zero_add] at hsplit
    rw [hsplit, ((daysLeft_perm s src).map _).sum_eq, Series.keys_sum]
  have htotal : seriesTotals own k = num (own.pre k) + ∑ d, own.day k d := by
    rw [seriesTotals_apply hown] at hk ⊢
    rw [flSum_exact (hk.trans_lt hmax), values_sum]
    rfl
  have hpre : num ((joined s src).pre k) = preAfter s src k := by
    rw [joined_pre, preAfter]
  rw [le_merged_iff L hs src (daysLeft_perm s src) k hk, hgone, hall, Nat.add_zero, hpre, htotal,
    own_days hown other k, open_sum k hday, MadeUp]
  omega

end

/-- A merge loses nothing of a token key exactly when the days that the later cutoff takes from a
side are made up for, and no day with tokens falls out of the window. -/
theorem merge_keeps_iff (L : Limits) {s src : Series} (hs : s.Sound) (hsrc : src.Sound)
    (k : TokenKey) (hk : seriesTotals s k ≤ maxSafe) (hk' : seriesTotals src k ≤ maxSafe) :
    (seriesTotals s k ≤ seriesTotals (mergeSeries L s src) k ∧
      seriesTotals src k ≤ seriesTotals (mergeSeries L s src) k ∧
      ∀ d, inPre s.cutoff d = false → inPre src.cutoff d = false →
        (mergeSeries L s src).day k d = max (s.day k d) (src.day k d)) ↔
    InWindow L s src k ∧ MadeUp (preAfter s src k) s src k ∧
      MadeUp (preAfter s src k) src s k := by
  have hf := mergeSeries_folded L s src
  have hperm := trimmedDays_perm L (daysLeft_perm s src)
  have hopen : ∀ d, openIn s src d = true ↔ inPre s.cutoff d = false ∧ inPre src.cutoff d = false := by
    intro d
    rw [openIn, Bool.not_eq_true', Bool.or_eq_false_iff]
  have hday : (∀ d, inPre s.cutoff d = false → inPre src.cutoff d = false →
      (mergeSeries L s src).day k d = max (s.day k d) (src.day k d)) ↔ InWindow L s src k := by
    constructor
    · intro h d hd hpast
      have hd' := (mem_daysLeft.mp hd).2
      have hmax := h d ((hopen d).mp hd').1 ((hopen d).mp hd').2
      rw [hf.day, if_pos (hperm.mem_iff.mpr (List.mem_filter.mpr ⟨hd, hpast⟩))] at hmax
      omega
    · intro h d h1 h2
      rw [hf.day, joined_day_open hsrc, if_pos ((hopen d).mpr ⟨h1, h2⟩)]
      split_ifs with hgone
      · obtain ⟨hd, hpast⟩ := List.mem_filter.mp (hperm.mem_iff.mp hgone)
        obtain ⟨hd1, hd2⟩ := h d hd hpast
        omega
      · rfl
  rw [hday, ← and_assoc, and_comm]
  apply and_congr_right
  intro hw
  have hzero : ∀ d ∈ daysLeft s src, pastWindow L (daysLeft s src) d = true →
      (joined s src).day k d = 0 := by
    intro d hd hpast
    obtain ⟨hd1, hd2⟩ := hw d hd hpast
    rw [joined_day_open hsrc, hd1, hd2]
    exact ite_self 0
  refine and_congr (le_merged_iff_madeUp hs hzero hs hk (joined_day_open hsrc k))
    (le_merged_iff_madeUp hs hzero hsrc hk' fun d => ?_)
  rw [joined_day_open hsrc, openIn_comm, max_comm]

/-- A side none of whose days are taken away has lost nothing. -/
theorem madeUp_of_no_cutoff {pre : ℕ} {own other : Series} {k : TokenKey}
    (hc : other.cutoff = none) (hpre : num (own.pre k) ≤ pre) : MadeUp pre own other k := by
  have hnone : sumOn (inPre other.cutoff) (own.day k) = 0 := by
    rw [hc]
    simp [sumOn, inPre]
  rw [MadeUp, hnone]
  exact hpre.trans (Nat.le_add_right _ _)

/-- A machine under one name, and under another that saw a day more and less of the first one. -/
def oneName : Series := run (Op.apply shipped) blankSeries [.absorb (inputReport 100 [(20260101, 100)])]

def otherName : Series := run (Op.apply shipped) blankSeries
  [.absorb (inputReport 40 [(20260101, 10), (20260102, 30)])]

/-- The second name folded the day while it was still growing: its cutoff takes the whole day from
the first. -/
def foldedName : Series := run (Op.apply shipped) blankSeries
  [.absorb (inputReport 10 [(20260101, 10)]), .halveDays]

theorem names_computed :
    (seriesTotals oneName .input ≤ maxSafe ∧ seriesTotals otherName .input ≤ maxSafe) ∧
    (InWindow shipped oneName otherName .input ∧
      num (oneName.pre .input) ≤ preAfter oneName otherName .input ∧
      num (otherName.pre .input) ≤ preAfter oneName otherName .input) ∧
    seriesTotals oneName .input = 100 ∧
      seriesTotals (mergeSeries shipped oneName foldedName) .input = 10 := by
  decide +kernel

theorem merge_keeps_iff_names :
    seriesTotals oneName .input ≤ seriesTotals (mergeSeries shipped oneName otherName) .input ∧
      seriesTotals otherName .input ≤ seriesTotals (mergeSeries shipped oneName otherName) .input ∧
      ∀ d, inPre oneName.cutoff d = false → inPre otherName.cutoff d = false →
        (mergeSeries shipped oneName otherName).day .input d =
          max (oneName.day .input d) (otherName.day .input d) :=
  (merge_keeps_iff shipped (runs_sound shipped blankSeries_sound _)
    (runs_sound shipped blankSeries_sound _) .input names_computed.1.1 names_computed.1.2).mpr
    ⟨names_computed.2.1.1, madeUp_of_no_cutoff rfl names_computed.2.1.2.1,
      madeUp_of_no_cutoff rfl names_computed.2.1.2.2⟩

theorem merge_loses_day : oneName.Sound ∧ foldedName.Sound ∧
    seriesTotals oneName .input = 100 ∧
      seriesTotals (mergeSeries shipped oneName foldedName) .input = 10 :=
  ⟨runs_sound shipped blankSeries_sound _, runs_sound shipped blankSeries_sound _,
    names_computed.2.2.1, names_computed.2.2.2⟩

end Turma.Ledger
