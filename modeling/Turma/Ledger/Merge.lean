import Turma.Ledger.Account

/-! What a merge of two series and the coercion of a raw one come to, one token key at a
time. -/

namespace Turma.Ledger

open Turma.Lib List Option OrdMap

def pastWindow (L : Limits) (ds : List IsoDay) (d : IsoDay) : Bool :=
  decide (L.ledgerDays ≤ (ds.filter fun d' => d < d').length)

variable (L : Limits)

theorem pastWindow_perm {ds ds' : List IsoDay} (h : ds.Perm ds') (d : IsoDay) :
    pastWindow L ds d = pastWindow L ds' d := by
  rw [pastWindow, (h.filter _).length_eq]
  rfl

def trimmedDays (L : Limits) (s : Series) : List IsoDay := oldest s (s.days.size - L.ledgerDays)

theorem trimDays_folded (s : Series) :
    Folded s (trimDays L s) (trimmedDays L s) :=
  foldOldest_folded (s.days.size - L.ledgerDays) s

theorem mem_trimmedDays {L : Limits} {s : Series} {d : IsoDay} :
    d ∈ trimmedDays L s ↔ d ∈ s.days.keys ∧ pastWindow L s.days.keys d = true := by
  have hf := trimDays_folded L s
  have hsize : (trimDays L s).days.keys.length + (trimmedDays L s).length = s.days.size := by
    rw [← hf.size, OrdMap.keys, length_map, OrdMap.size]
  have hlen : (trimmedDays L s).length = min (s.days.size - L.ledgerDays) s.days.size :=
    oldest_length s _
  have hkept : (trimDays L s).days.keys.Nodup := (trimDays L s).days.nodup
  rw [pastWindow, decide_eq_true_eq]
  constructor
  · intro hd
    refine ⟨hf.held d hd, ?_⟩
    have hsub : (trimDays L s).days.keys ⊆ s.days.keys.filter fun d' => d < d' := fun d' hd' =>
      mem_filter.mpr ⟨((hf.keys d').mp hd').1, decide_eq_true (hf.older d hd d' hd')⟩
    have hcount := (hkept.subperm hsub).length_le
    have hpos := length_pos_of_mem hd
    omega
  · rintro ⟨hin, hafter⟩
    by_contra hd
    have hdk : d ∈ (trimDays L s).days.keys := (hf.keys d).mpr ⟨hin, hd⟩
    have hsub : (s.days.keys.filter fun d' => d < d') ⊆ (trimDays L s).days.keys.erase d := by
      intro d' hd'
      obtain ⟨hin', hlt⟩ := mem_filter.mp hd'
      have hlt : d < d' := of_decide_eq_true hlt
      refine hkept.mem_erase_iff.mpr ⟨hlt.ne', (hf.keys d').mpr ⟨hin', fun ho => ?_⟩⟩
      exact absurd (hf.older d' ho d hdk) (not_lt.mpr hlt.le)
    have hnodup : (s.days.keys.filter fun d' => d < d').Nodup :=
      List.Nodup.filter _ s.days.nodup
    have hcount := (hnodup.subperm hsub).length_le
    have hpos := length_pos_of_mem hdk
    rw [length_erase_of_mem hdk] at hcount
    omega

/-- The days folded, out of any listing of the days held. -/
theorem trimmedDays_perm {s : Series} {ds : List IsoDay}
    (h : ds.Perm s.days.keys) : (trimmedDays L s).Perm (ds.filter (pastWindow L ds)) := by
  have hnodup : ds.Nodup := h.nodup_iff.mpr s.days.nodup
  refine (perm_ext_iff_of_nodup (trimDays_folded L s).nodup (hnodup.filter _)).mpr fun d => ?_
  rw [mem_trimmedDays, mem_filter, h.mem_iff, pastWindow_perm L h]

theorem trimDays_size (s : Series) : (trimDays L s).days.size ≤ L.ledgerDays := by
  have hsize := (trimDays_folded L s).size
  have hlen : (trimmedDays L s).length = min (s.days.size - L.ledgerDays) s.days.size :=
    oldest_length s _
  omega

variable (s src : Series) (x : Series) (k : TokenKey) (d : IsoDay)

theorem reread_day :
    (reread L x).day k d = num (x.day k d) := by
  unfold Series.day OrdMap.figure reread
  rw [get?_mapValues]
  cases x.days.get? d with
  | none => exact (num_of_le (Nat.zero_le _)).symm
  | some b => rfl

theorem reread_keys : (reread L x).days.keys = x.days.keys := by
  unfold reread OrdMap.keys OrdMap.mapValues
  rw [List.map_map]
  rfl

theorem reread_safe {L : Limits} {x : Series} {d : IsoDay} {b : Bucket}
    (hb : (reread L x).days.get? d = some b) : Safe b := by
  unfold reread at hb
  rw [get?_mapValues, map_eq_some_iff] at hb
  obtain ⟨b', -, rfl⟩ := hb
  exact safe_bucketOf b'

theorem seriesOf_folded :
    Folded (reread L x) (seriesOf L x) (trimmedDays L (reread L x)) := by
  have h := trimDays_folded L (trimModels L (reread L x))
  exact ⟨h.nodup, h.held, h.older, h.keys, h.days, h.size, h.inPre, h.pre⟩

theorem seriesOf_size : (seriesOf L x).days.size ≤ L.ledgerDays :=
  trimDays_size L (trimModels L (reread L x))

/-- A series whose days are all past its cutoff is coerced into a sound one. -/
theorem seriesOf_sound {x : Series}
    (hx : ∀ d ∈ x.days.keys, inPre x.cutoff d = false) : (seriesOf L x).Sound := by
  refine (seriesOf_folded L x).sound ⟨fun d b hb => reread_safe hb, fun d hd => ?_⟩
  rw [reread_keys] at hd
  exact hx d hd

def joined (s src : Series) : Series :=
  { s with
    cutoff := laterCutoff s.cutoff src.cutoff
    pre := raiseBucket s.pre src.pre
    days := (OrdMap.mergeWith raised s.days src.days).filterKeys
      fun d => !inPre (laterCutoff s.cutoff src.cutoff) d }

theorem mergeSeries_folded :
    Folded (joined s src) (mergeSeries L s src) (trimmedDays L (joined s src)) := by
  have h := trimDays_folded L (trimModels L { joined s src with
    models := raiseModels s.models src.models
    subagent := raiseSubagent s.subagent src.subagent
    sessions := if s.sessions < src.sessions then src.sessions else s.sessions
    lastActivity := latestActivity s.lastActivity src.lastActivity })
  exact ⟨h.nodup, h.held, h.older, h.keys, h.days, h.size, h.inPre, h.pre⟩

theorem mergeSeries_size :
    (mergeSeries L s src).days.size ≤ L.ledgerDays :=
  trimDays_size L _

theorem joined_pre :
    (joined s src).pre k = max (s.pre k) (num (src.pre k)) :=
  raiseBucket_apply s.pre src.pre k

theorem joined_get? : (joined s src).days.get? d =
    if inPre (laterCutoff s.cutoff src.cutoff) d = true then none
    else match src.days.get? d with
      | none => s.days.get? d
      | some b => some (raised (s.days.get? d) b) := by
  unfold joined
  rw [get?_filterKeys, get?_mergeWith]
  cases inPre (laterCutoff s.cutoff src.cutoff) d <;> cases src.days.get? d <;> rfl

theorem inPre_laterCutoff (a c : Option IsoDay) (d : IsoDay) :
    inPre (laterCutoff a c) d = (inPre a d || inPre c d) := by
  cases c with
  | none => exact (Bool.or_false _).symm
  | some c => exact inPre_later a c d

/-- Neither cutoff closes a day that stays, and it stands at the larger figure. -/
theorem joined_day : (joined s src).day k d =
    if (inPre s.cutoff d || inPre src.cutoff d) = true then 0
    else max (s.day k d) (num (src.day k d)) := by
  have hzero : num 0 = 0 := num_of_le (Nat.zero_le _)
  rw [Series.day, OrdMap.figure, joined_get?, inPre_laterCutoff]
  split_ifs with hc
  · rfl
  · unfold Series.day OrdMap.figure
    cases src.days.get? d with
    | none => simp [hzero]
    | some b =>
      rw [map_some, getD_some, raised, raiseBucket_apply]
      cases s.days.get? d <;> rfl

theorem joined_keys {s src : Series} {d : IsoDay} : d ∈ (joined s src).days.keys ↔
    (d ∈ s.days.keys ∨ d ∈ src.days.keys) ∧
      (inPre s.cutoff d || inPre src.cutoff d) = false := by
  unfold joined
  rw [mem_keys_filterKeys, mem_keys_mergeWith, inPre_laterCutoff,
    Bool.not_eq_true', and_comm]

theorem joined_sound {s : Series} (h : s.Sound) (src : Series) : (joined s src).Sound where
  days_safe d b hb := by
    rw [joined_get?] at hb
    split_ifs at hb
    cases hsrc : src.days.get? d with
    | none =>
      rw [hsrc] at hb
      exact h.days_safe d b hb
    | some b' =>
      rw [hsrc] at hb
      cases hb
      apply safe_raiseBucket
      cases hd : s.days.get? d with
      | none => exact safe_blankBucket
      | some b'' => exact h.days_safe d b'' hd
  unfolded d hd := by
    rw [show (joined s src).cutoff = laterCutoff s.cutoff src.cutoff from rfl, inPre_laterCutoff]
    exact (joined_keys.mp hd).2

theorem mergeSeries_sound {s : Series} (h : s.Sound) (src : Series) :
    (mergeSeries L s src).Sound :=
  (mergeSeries_folded L s src).sound (joined_sound h src)

/-- What is served after a merge, against a figure that is a safe integer. `ds` lists the days
that stay. -/
theorem le_merged_iff {s : Series} (h : s.Sound) (src : Series) {ds : List IsoDay}
    (hds : ds.Perm (joined s src).days.keys) (k : TokenKey) {n : ℕ} (hn : n ≤ maxSafe) :
    n ≤ seriesTotals (mergeSeries L s src) k ↔
      n ≤ num ((joined s src).pre k +
          ((ds.filter (pastWindow L ds)).map ((joined s src).day k)).sum) +
        ((ds.filter fun d => !pastWindow L ds d).map ((joined s src).day k)).sum := by
  have hmax : maxSafe < 2 ^ 53 := by decide
  have hf := mergeSeries_folded L s src
  have hsound := joined_sound h src
  have hgone : ((trimmedDays L (joined s src)).map ((joined s src).day k)).sum =
      ((ds.filter (pastWindow L ds)).map ((joined s src).day k)).sum :=
    ((trimmedDays_perm L hds).map _).sum_eq
  have hkept : ∑ d, (mergeSeries L s src).day k d =
      ((ds.filter fun d => !pastWindow L ds d).map ((joined s src).day k)).sum := by
    have hall : ((ds.filter (pastWindow L ds)).map ((joined s src).day k)).sum +
        ((ds.filter fun d => !pastWindow L ds d).map ((joined s src).day k)).sum =
          ∑ d, (joined s src).day k d := by
      rw [← sum_append, ← map_append, ((filter_append_perm _ _).map _).sum_eq,
        (hds.map _).sum_eq, Series.keys_sum]
    have hsum := hf.sum k
    omega
  rw [seriesTotals_apply (mergeSeries_sound L h src), le_flSum_iff (hn.trans hmax.le),
    hf.pre hsound.days_safe, num_flSum, hgone, values_sum]
  rw [← hkept]
  rfl

end Turma.Ledger
