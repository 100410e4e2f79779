import Turma.LedgerStore.Forget

/-! A scan against the served model, with the statements of other replicas between its four
`SELECT`s. The cutoff that it reads closes local days, and what it reads of `pre` need not
hold them: the two come from different tables at different times. -/

namespace Turma.LedgerStore

open Turma.Lib Turma.Ledger List Option OrdMap JsString

/-- A scan with statements that land between its `SELECT`s. -/
def racedScan (L : Limits) (hosts : Hosts) (T : Tables) (w₁ w₂ w₃ : List Statement) : Hosts :=
  scan L hosts (readAll T (T.after w₁) ((T.after w₁).after w₂) (((T.after w₁).after w₂).after w₃))

def localSeries (hosts : Hosts) (h sid : JsString) : Option Series :=
  (hosts.get? h).bind fun e => e.seriesAt sid

def servedTotal (hosts : Hosts) (h sid : JsString) (k : TokenKey) : ℕ :=
  ((localSeries hosts h sid).map fun s => seriesTotals s k).getD 0

structure Kept (L : Limits) (s : Series) : Prop extends s.Sound where
  window : s.days.size ≤ L.ledgerDays

theorem kept_apply {L : Limits} {s : Series} (hs : Kept L s) (o : Op) : Kept L (o.apply L s) where
  toSound := o.sound L hs.toSound
  window := by
    cases o with
    | absorb u => exact absorb_size L s u
    | trimDays => exact trimDays_size L s
    | halveDays =>
      have hsize := (foldOldest_folded (max 1 ((s.days.size + 1) / 2)) s).size
      exact (Nat.le.intro hsize).trans hs.window
    | halveModels => exact hs.window
    | reload => exact seriesOf_size L s

/-- A series that the ledger builds keeps to its bounds. -/
theorem run_kept (L : Limits) (ops : List Op) : Kept L (run (Op.apply L) blankSeries ops) :=
  run_inv (Op.apply L) (P := Kept L) (fun _ o hs _ => kept_apply hs o)
    ⟨blankSeries_sound, Nat.zero_le _⟩
    (along_of_forall (p := fun _ => True) (Op.apply L) fun _ _ => trivial)

section

variable (L : Limits) (T₂ T₃ : Tables) (h sid : JsString)

/-- The read closes the day: it is at or below the cutoff read, or below a day that falls out of
the window. -/
def closed (d : IsoDay) : Bool :=
  inPre (T₂.cutoff h sid) d ||
    ((datesRead T₂ T₃ h sid).filter (pastWindow L (datesRead T₂ T₃ h sid))).any
      fun e => decide (d ≤ e)

/-- `pre` as it was read, with the days that fall out of the window. -/
def preRead (k : TokenKey) : ℕ :=
  num (num (T₃.stored h sid .pre k) +
    (((datesRead T₂ T₃ h sid).filter (pastWindow L (datesRead T₂ T₃ h sid))).map
      fun d => num (T₃.stored h sid (.date d) k)).sum)

variable (s : Series)

def openBoth : List IsoDay :=
  (s.days.keys ++ (datesRead T₂ T₃ h sid).filter fun d => d ∉ s.days.keys).filter
    fun d => !(inPre s.cutoff d || closed L T₂ T₃ h sid d)

def raisedDay (k : TokenKey) (d : IsoDay) : ℕ := max (s.day k d) (num (T₃.stored h sid (.date d) k))

/-- What comes to be in `pre`: the larger one, and the open days that fall out of the window. -/
def raisedPre (k : TokenKey) : ℕ :=
  max (s.pre k) (preRead L T₂ T₃ h sid k) +
    (((openBoth L T₂ T₃ h sid s).filter (pastWindow L (openBoth L T₂ T₃ h sid s))).map
      (raisedDay T₃ h sid s k)).sum

/-- The local days that the read closes hold no more than the read adds to `pre` and to the days
that stay open. When `pre` comes to be past the safe integers it is read as zero, and the days
in the window have to make up for it. -/
def Raises (k : TokenKey) : Prop :=
  (raisedPre L T₂ T₃ h sid s k ≤ maxSafe →
    sumOn (closed L T₂ T₃ h sid) (s.day k) ≤ (preRead L T₂ T₃ h sid k - s.pre k) +
      sumOn (fun d => !(inPre s.cutoff d || closed L T₂ T₃ h sid d))
        fun d => num (T₃.stored h sid (.date d) k) - s.day k d) ∧
  (maxSafe < raisedPre L T₂ T₃ h sid s k → seriesTotals s k ≤
    (((openBoth L T₂ T₃ h sid s).filter fun d => !pastWindow L (openBoth L T₂ T₃ h sid s) d).map
      (raisedDay T₃ h sid s k)).sum)

end

variable {d : IsoDay}

section

variable {L : Limits} {T₂ T₃ : Tables} {h sid : JsString} {x : Series}

/-- `x` is the series that the read has under `h` and `sid`. -/
structure ReadAs (T₂ T₃ : Tables) (h sid : JsString) (x : Series) : Prop where
  cutoff : x.cutoff = T₂.cutoff h sid
  pre : ∀ k, x.pre k = T₃.stored h sid .pre k
  day : ∀ k d, x.day k d = if inPre (T₂.cutoff h sid) d = true then 0
    else T₃.stored h sid (.date d) k
  keys : ∀ d, d ∈ x.days.keys ↔ d ∈ datesRead T₂ T₃ h sid

theorem readAs_readAll (T₁ T₂ T₃ T₄ : Tables) (h sid : JsString) :
    ReadAs T₂ T₃ h sid (slotAt (readAll T₁ T₂ T₃ T₄) h sid).series :=
  ⟨readAll_cutoff T₁ T₂ T₃ T₄ h sid, fun k => readAll_pre k T₁ T₂ T₃ T₄ h sid,
    fun k d => readAll_day k T₁ T₂ T₃ T₄ h sid d, fun _ => readAll_keys⟩

theorem datesRead_open (hd : d ∈ datesRead T₂ T₃ h sid) :
    inPre (T₂.cutoff h sid) d = false :=
  ((mem_datesRead T₂ T₃ h sid).mp hd).1

theorem ReadAs.sound (hx : ReadAs T₂ T₃ h sid x) (L : Limits) : (seriesOf L x).Sound := by
  apply seriesOf_sound
  intro d hd
  rw [hx.cutoff]
  exact datesRead_open ((hx.keys d).mp hd)

theorem ReadAs.keys_perm (hx : ReadAs T₂ T₃ h sid x) (L : Limits) :
    (datesRead T₂ T₃ h sid).Perm (reread L x).days.keys := by
  have hnodup : (datesRead T₂ T₃ h sid).Nodup := nodup_dedup _
  refine (perm_ext_iff_of_nodup hnodup (reread L x).days.nodup).mpr fun d => ?_
  rw [← OrdMap.keys, reread_keys, hx.keys]

theorem ReadAs.closed (hx : ReadAs T₂ T₃ h sid x) (d : IsoDay) :
    inPre (seriesOf L x).cutoff d = closed L T₂ T₃ h sid d := by
  have hperm := trimmedDays_perm L (hx.keys_perm L)
  rw [(seriesOf_folded L x).inPre, LedgerStore.closed, show (reread L x).cutoff = x.cutoff from rfl,
    hx.cutoff, hperm.any_eq]

theorem ReadAs.preRead (hx : ReadAs T₂ T₃ h sid x) (k : TokenKey) :
    num ((seriesOf L x).pre k) = preRead L T₂ T₃ h sid k := by
  have hperm := trimmedDays_perm L (hx.keys_perm L)
  have hdays : ((trimmedDays L (reread L x)).map ((reread L x).day k)).sum =
      (((datesRead T₂ T₃ h sid).filter (pastWindow L (datesRead T₂ T₃ h sid))).map
        fun d => num (T₃.stored h sid (.date d) k)).sum := by
    rw [(hperm.map _).sum_eq]
    congr 1
    apply map_congr_left
    intro d hd
    rw [reread_day, hx.day, datesRead_open (mem_filter.mp hd).1, if_neg Bool.false_ne_true]
  rw [(seriesOf_folded L x).pre (fun d b hb => reread_safe hb), num_flSum, hdays,
    LedgerStore.preRead, ← hx.pre]
  rfl

theorem ReadAs.day_open (hx : ReadAs T₂ T₃ h sid x) (k : TokenKey)
    (hd : LedgerStore.closed L T₂ T₃ h sid d = false) :
    (seriesOf L x).day k d = num (T₃.stored h sid (.date d) k) := by
  have hperm := trimmedDays_perm L (hx.keys_perm L)
  obtain ⟨hc, hany⟩ := Bool.or_eq_false_iff.mp hd
  have hin : d ∉ trimmedDays L (reread L x) := fun ht =>
    absurd (List.any_eq_false.mp hany d (hperm.mem_iff.mp ht)) (by simp)
  rw [(seriesOf_folded L x).day, if_neg hin, reread_day, hx.day, hc, if_neg Bool.false_ne_true]

variable {s : Series}

theorem mem_openBoth : d ∈ openBoth L T₂ T₃ h sid s ↔
    (d ∈ s.days.keys ∨ d ∈ datesRead T₂ T₃ h sid) ∧
      (inPre s.cutoff d || LedgerStore.closed L T₂ T₃ h sid d) = false := by
  rw [openBoth, mem_filter, mem_append, mem_filter, Bool.not_eq_true',
    decide_eq_true_eq]
  tauto

/-- The days that a merge with the series read leaves. -/
theorem ReadAs.openBoth_perm (hx : ReadAs T₂ T₃ h sid x) :
    (openBoth L T₂ T₃ h sid s).Perm (joined s (seriesOf L x)).days.keys := by
  have hdates : (datesRead T₂ T₃ h sid).Nodup := nodup_dedup _
  have hall : (s.days.keys ++ (datesRead T₂ T₃ h sid).filter fun d => d ∉ s.days.keys).Nodup :=
    nodup_append.mpr ⟨s.days.nodup, hdates.filter _, fun a ha b hb hab =>
      of_decide_eq_true (mem_filter.mp hb).2 (hab ▸ ha)⟩
  refine (perm_ext_iff_of_nodup (hall.filter _)
    (joined s (seriesOf L x)).days.nodup).mpr fun d => ?_
  refine mem_openBoth.trans (Iff.trans ?_ joined_keys.symm)
  rw [hx.closed]
  apply and_congr_left
  intro hopen
  obtain ⟨-, hc⟩ := Bool.or_eq_false_iff.mp hopen
  have hkept : d ∈ (seriesOf L x).days.keys ↔ d ∈ datesRead T₂ T₃ h sid := by
    rw [(seriesOf_folded L x).keys, reread_keys, hx.keys, and_iff_left]
    intro ht
    have hd : inPre (seriesOf L x).cutoff d = true := by
      rw [(seriesOf_folded L x).inPre, Bool.or_eq_true, List.any_eq_true]
      exact Or.inr ⟨d, ht, decide_eq_true le_rfl⟩
    rw [hx.closed, hc] at hd
    exact Bool.false_ne_true hd
  rw [hkept]

theorem ReadAs.raisedDay (hx : ReadAs T₂ T₃ h sid x) (k : TokenKey)
    (hd : (inPre s.cutoff d || LedgerStore.closed L T₂ T₃ h sid d) = false) :
    (joined s (seriesOf L x)).day k d = raisedDay T₃ h sid s k d := by
  rw [joined_day, hx.closed, hd, if_neg Bool.false_ne_true,
    hx.day_open k (Bool.or_eq_false_iff.mp hd).2, num_of_le (num_le _)]
  rfl

/-- The local days that a read closes, and those that it leaves open. -/
theorem local_days (hs : s.Sound) (closes : IsoDay → Bool) (k : TokenKey) : ∑ d, s.day k d =
    sumOn closes (s.day k) + sumOn (fun d => !(inPre s.cutoff d || closes d)) (s.day k) := by
  have hopen : sumOn (fun d => !closes d) (s.day k) =
      sumOn (fun d => !(inPre s.cutoff d || closes d)) (s.day k) := by
    apply sumOn_congr_test
    intro d hd
    rw [Bool.eq_false_iff.mpr fun hc => hd (Series.day_of_inPre hs hc k), Bool.false_or]
  rw [← hopen, sumOn_add_not]

/-- A merge with the series read raises a local figure exactly when it makes up for the days that
it closes. -/
theorem ReadAs.le_merged_iff (hx : ReadAs T₂ T₃ h sid x) (hs : s.Sound) (k : TokenKey)
    (hk : seriesTotals s k ≤ maxSafe) :
    seriesTotals s k ≤ seriesTotals (mergeSeries L s (seriesOf L x)) k ↔
      Raises L T₂ T₃ h sid s k := by
  have hmap : ∀ p : IsoDay → Bool,
      (((openBoth L T₂ T₃ h sid s).filter p).map ((joined s (seriesOf L x)).day k)).sum =
        (((openBoth L T₂ T₃ h sid s).filter p).map (LedgerStore.raisedDay T₃ h sid s k)).sum := by
    intro p
    congr 1
    apply map_congr_left
    intro d hd
    exact hx.raisedDay k (mem_openBoth.mp (mem_filter.mp hd).1).2
  rw [Ledger.le_merged_iff L hs _ hx.openBoth_perm k hk, joined_pre, hx.preRead, hmap, hmap]
  change _ ≤ num (raisedPre L T₂ T₃ h sid s k) + _ ↔ _
  unfold Raises
  rcases Nat.lt_or_ge maxSafe (raisedPre L T₂ T₃ h sid s k) with hover | hsafe
  · rw [num_of_gt hover, Nat.zero_add, and_iff_right fun hle => absurd hover (not_lt.mpr hle)]
    exact ⟨fun hle _ => hle, fun hle => hle hover⟩
  · have hlocal : seriesTotals s k = s.spent k := by
      have hmax : maxSafe < 2 ^ 53 := by decide
      have hpre : s.pre k ≤ maxSafe := ((le_max_left _ _).trans (Nat.le_add_right _ _)).trans hsafe
      rw [seriesTotals_apply hs] at hk ⊢
      rw [flSum_exact (hk.trans_lt hmax), num_of_le hpre]
      rfl
    have hwindow : raisedPre L T₂ T₃ h sid s k +
        (((openBoth L T₂ T₃ h sid s).filter fun d =>
          !pastWindow L (openBoth L T₂ T₃ h sid s) d).map
            (LedgerStore.raisedDay T₃ h sid s k)).sum =
        max (s.pre k) (LedgerStore.preRead L T₂ T₃ h sid k) +
          ((openBoth L T₂ T₃ h sid s).map ((joined s (seriesOf L x)).day k)).sum := by
      rw [raisedPre, ← hmap, ← hmap, Nat.add_assoc, ← sum_append, ← map_append,
        ((filter_append_perm _ _).map _).sum_eq]
    have hopen : ((openBoth L T₂ T₃ h sid s).map ((joined s (seriesOf L x)).day k)).sum =
        sumOn (fun d => !(inPre s.cutoff d || LedgerStore.closed L T₂ T₃ h sid d)) (s.day k) +
          sumOn (fun d => !(inPre s.cutoff d || LedgerStore.closed L T₂ T₃ h sid d))
            fun d => num (T₃.stored h sid (.date d) k) - s.day k d := by
      rw [(hx.openBoth_perm.map _).sum_eq, Series.keys_sum, ← sumOn_add]
      apply Finset.sum_congr rfl
      intro d _
      cases hd : inPre s.cutoff d || LedgerStore.closed L T₂ T₃ h sid d with
      | true => rw [joined_day, hx.closed, if_pos hd]; simp [hd]
      | false => rw [hx.raisedDay k hd]; simp [hd, LedgerStore.raisedDay]; omega
    have hdays := local_days hs (LedgerStore.closed L T₂ T₃ h sid) k
    rw [num_of_le hsafe, hwindow, hopen, hlocal, Series.spent_eq, hdays,
      and_iff_left fun hlt => absurd hlt (not_lt.mpr hsafe), forall_prop_of_true hsafe]
    omega

/-- A read that closes no day lowers nothing. -/
theorem raises_of_open (hclosed : ∀ d, LedgerStore.closed L T₂ T₃ h sid d = false) {k : TokenKey}
    (hsafe : raisedPre L T₂ T₃ h sid s k ≤ maxSafe) : Raises L T₂ T₃ h sid s k := by
  have hnone : sumOn (LedgerStore.closed L T₂ T₃ h sid) (s.day k) = 0 := by
    apply Finset.sum_eq_zero
    intro d _
    rw [hclosed, if_neg Bool.false_ne_true]
  refine ⟨fun _ => ?_, fun hover => absurd hover (not_lt.mpr hsafe)⟩
  rw [hnone]
  exact Nat.zero_le _

theorem raises_of_no_row (hs : Kept L s) (hx : ReadAs T₂ T₃ h sid blankSeries)
    (k : TokenKey) (hk : seriesTotals s k ≤ maxSafe) : Raises L T₂ T₃ h sid s k := by
  have hdates : datesRead T₂ T₃ h sid = [] :=
    eq_nil_iff_forall_not_mem.mpr fun d hd => not_mem_nil ((hx.keys d).mpr hd)
  have hclosed : ∀ d, LedgerStore.closed L T₂ T₃ h sid d = false := by
    intro d
    rw [LedgerStore.closed, hdates, ← hx.cutoff]
    rfl
  have hzero : num 0 = 0 := num_of_le (Nat.zero_le _)
  have hpre : LedgerStore.preRead L T₂ T₃ h sid k = 0 := by
    rw [LedgerStore.preRead, hdates, ← hx.pre]
    simp [blankSeries, blankBucket, hzero]
  have hopen : openBoth L T₂ T₃ h sid s = s.days.keys := by
    rw [openBoth, hdates, filter_nil, append_nil, filter_eq_self]
    intro d hd
    rw [hclosed, hs.unfolded d hd]
    rfl
  have hnil : s.days.keys.filter (pastWindow L s.days.keys) = [] := by
    have hperm := trimmedDays_perm L (Perm.refl s.days.keys)
    rw [trimmedDays, Nat.sub_eq_zero_of_le hs.window] at hperm
    exact nil_perm.mp hperm
  by_cases hsafe : raisedPre L T₂ T₃ h sid s k ≤ maxSafe
  · exact raises_of_open hclosed hsafe
  · have hmax : maxSafe < 2 ^ 53 := by decide
    refine ⟨fun hle => absurd hle hsafe, fun _ => ?_⟩
    rw [raisedPre, hopen, hnil, hpre] at hsafe
    have hover : maxSafe < s.pre k := by simpa using hsafe
    have hall : (s.days.keys.filter fun d => !pastWindow L s.days.keys d) = s.days.keys := by
      rw [filter_eq_self]
      intro d hd
      rw [Bool.not_eq_true', Bool.eq_false_iff]
      exact filter_eq_nil_iff.mp hnil d hd
    rw [seriesTotals_apply hs.toSound, num_of_gt hover] at hk ⊢
    rw [flSum_exact (hk.trans_lt hmax), hopen, hall, Nat.zero_add, values_sum]
    refine (Series.keys_sum s k).symm.le.trans (sum_le_sum fun d _ => ?_)
    exact le_max_left _ _

end

variable {raw : OrdMap JsString HostRead}

section

variable (L : Limits)

theorem rawEntry_seriesAt (e : HostRead) (sid : JsString) :
    (rawEntry e).seriesAt sid = (e.series.get? sid).map (·.series) := by
  unfold Entry.seriesAt rawEntry
  split_ifs with hsid
  · rw [hsid]
  · rw [get?_filterKeys, if_pos (decide_eq_true hsid)]

/-- An entry is coerced series by series, and dropped when there are none. -/
theorem entryOf_seriesAt {sid : JsString} (hproto : sid ≠ ofString "__proto__")
    (raw : Entry) :
    (entryOf L raw).bind (fun e => e.seriesAt sid) = (raw.seriesAt sid).map (seriesOf L) := by
  have hrepo : sid ≠ [] → ((raw.repos.filterKeys fun k =>
      k ≠ [] ∧ k ≠ ofString "__proto__").mapValues fun r =>
        ({ r with series := seriesOf L r.series } : Slot)).get? sid =
      (raw.repos.get? sid).map fun r => { r with series := seriesOf L r.series } := by
    intro hsid
    rw [get?_mapValues, get?_filterKeys, if_pos (decide_eq_true ⟨hsid, hproto⟩)]
  unfold entryOf
  dsimp only
  split_ifs with hnone
  · obtain ⟨hhost, hsize⟩ := hnone
    unfold Entry.seriesAt
    split_ifs with hsid
    · rw [isNone_iff_eq_none.mp hhost]
      rfl
    · have hget := hrepo hsid
      rw [get?_eq_none.mpr (size_eq_zero.mp hsize sid)] at hget
      cases hr : raw.repos.get? sid with
      | none => rfl
      | some r =>
        rw [hr] at hget
        exact absurd hget.symm (some_ne_none _)
  · rw [bind_some]
    unfold Entry.seriesAt
    split_ifs with hsid
    · rfl
    · rw [hrepo hsid]
      cases raw.repos.get? sid <;> rfl

theorem mergeTwoEntries_seriesAt {sid : JsString} (hproto : sid ≠ ofString "__proto__")
    (dst src : Entry) :
    (mergeTwoEntries L dst src).seriesAt sid =
      mergeHost L (dst.seriesAt sid) (src.seriesAt sid) := by
  have hhost : (mergeTwoEntries L dst src).host = mergeHost L dst.host src.host := by
    unfold mergeTwoEntries
    dsimp only
    split_ifs <;> rfl
  have hrepos : (mergeTwoEntries L dst src).repos = OrdMap.mergeWith (mergeTwoSlots L) dst.repos
      (src.repos.filterKeys fun rk => rk ≠ ofString "__proto__") := by
    unfold mergeTwoEntries
    dsimp only
    split_ifs <;> rfl
  unfold Entry.seriesAt
  split_ifs with hsid
  · exact hhost
  · rw [hrepos, get?_mergeWith, get?_filterKeys, if_pos (decide_eq_true hproto)]
    cases src.repos.get? sid with
    | none => rfl
    | some r => cases dst.repos.get? sid <;> rfl

def scanned (cur : Option Entry) (e : HostRead) : Option Entry :=
  (entryOf L (rawEntry e)).elim cur fun peer =>
    some (cur.elim peer fun entry => mergeTwoEntries L entry peer)

/-- The scan changes a host by the row set of that host alone. -/
theorem scan_get? (hosts : Hosts) (raw : OrdMap JsString HostRead) (h : JsString) :
    (scan L hosts raw).get? h = (raw.get? h).elim (hosts.get? h) (scanned L (hosts.get? h)) := by
  have hview := run_view (scanHost L) (s := hosts) (v := fun m : Hosts => m.get? h)
    (I := fun _ => True) (p := fun r => decide (r.1 = h)) (t := fun cur r => scanned L cur r.2)
    (fun _ _ _ => trivial) (fun m r _ => ?_) trivial raw.entries
  · refine hview.trans ?_
    rw [filter_key]
    cases raw.get? h <;> rfl
  · unfold scanHost scanned
    cases hpeer : entryOf L (rawEntry r.2) with
    | none => simp
    | some peer =>
      by_cases hr : r.1 = h
      · subst hr
        cases hcur : m.get? r.1 <;> simp [get?_upsert, hcur]
      · have hr' : h ≠ r.1 := fun e => hr e.symm
        simp [get?_upsert, hr, hr']

/-- One local series: merged with what was read of it. -/
theorem scan_localSeries {hosts : Hosts} (raw : OrdMap JsString HostRead) {h sid : JsString}
    (hproto : sid ≠ ofString "__proto__") {s : Series}
    (hs : localSeries hosts h sid = some s) : localSeries (scan L hosts raw) h sid =
      some (((raw.get? h).bind fun e => e.series.get? sid).elim s
        fun slot => mergeSeries L s (seriesOf L slot.series)) := by
  obtain ⟨entry, hentry, hs⟩ := bind_eq_some_iff.mp hs
  rw [localSeries, scan_get?, hentry]
  cases hraw : raw.get? h with
  | none => exact hs
  | some e =>
    have hpeer := entryOf_seriesAt L hproto (rawEntry e)
    rw [rawEntry_seriesAt, Option.map_map] at hpeer
    rw [elim_some, scanned, bind_some]
    cases hcoerced : entryOf L (rawEntry e) with
    | none =>
      rw [hcoerced, bind_none] at hpeer
      rw [map_eq_none_iff.mp hpeer.symm]
      exact hs
    | some peer =>
      rw [hcoerced, bind_some] at hpeer
      rw [elim_some, elim_some, bind_some,
        mergeTwoEntries_seriesAt L hproto, hs, hpeer]
      cases e.series.get? sid <;> rfl

theorem slotAt_of_get? {h sid : JsString} {slot : Slot}
    (hslot : ((raw.get? h).bind fun e => e.series.get? sid) = some slot) :
    slotAt raw h sid = slot := by
  obtain ⟨e, he, hslot⟩ := bind_eq_some_iff.mp hslot
  rw [slotAt, he, getD_some, hslot]
  rfl

theorem slotAt_of_none {h sid : JsString}
    (hnone : ((raw.get? h).bind fun e => e.series.get? sid) = none) :
    slotAt raw h sid = blankSlot := by
  unfold slotAt
  cases he : raw.get? h with
  | none => rfl
  | some e =>
    rw [he, bind_some] at hnone
    rw [getD_some, hnone]
    rfl

end

theorem cloneSeries_kept {L : Limits} {s : Series} (hs : Kept L s) : Kept L (cloneSeries s) where
  days_safe d b hb := by
    unfold cloneSeries at hb
    rw [get?_mapValues, map_eq_some_iff] at hb
    obtain ⟨b', -, rfl⟩ := hb
    exact safe_bucketOf b'
  unfolded d hd := by
    apply hs.unfolded d
    unfold cloneSeries at hd
    rw [OrdMap.mem_keys] at hd ⊢
    obtain ⟨b, hb⟩ := hd
    rw [get?_mapValues, map_eq_some_iff] at hb
    obtain ⟨b', hb', -⟩ := hb
    exact ⟨b', hb'⟩
  window := by
    refine le_trans (le_of_eq ?_) hs.window
    exact length_map _

/-- A scan keeps every series of the model within its bounds. -/
theorem scan_kept (L : Limits) {hosts : Hosts} (T : Tables) (w₁ w₂ w₃ : List Statement)
    {h sid : JsString} (hproto : sid ≠ ofString "__proto__")
    (hkept : ∀ s, localSeries hosts h sid = some s → Kept L s) :
    ∀ s, localSeries (racedScan L hosts T w₁ w₂ w₃) h sid = some s → Kept L s := by
  intro s hs
  have hread := readAs_readAll T (T.after w₁) ((T.after w₁).after w₂)
    (((T.after w₁).after w₂).after w₃) h sid
  rw [racedScan, localSeries, scan_get?] at hs
  generalize readAll T (T.after w₁) ((T.after w₁).after w₂)
    (((T.after w₁).after w₂).after w₃) = raw at hread hs
  cases he : raw.get? h with
  | none =>
    rw [he] at hs
    exact hkept s hs
  | some e =>
  rw [he, elim_some, scanned] at hs
  cases hcoerced : entryOf L (rawEntry e) with
  | none =>
    rw [hcoerced] at hs
    exact hkept s hs
  | some peer =>
    rw [hcoerced, elim_some, bind_some] at hs
    have hpeerKept : ∀ p, peer.seriesAt sid = some p → Kept L p := by
      intro p hp
      have hseries := entryOf_seriesAt L hproto (rawEntry e)
      rw [hcoerced, bind_some, hp, rawEntry_seriesAt, Option.map_map] at hseries
      obtain ⟨slot, hslot, rfl⟩ := map_eq_some_iff.mp hseries.symm
      have hget : ((raw.get? h).bind fun e => e.series.get? sid) = some slot := by
        rw [he]
        exact hslot
      rw [slotAt_of_get? hget] at hread
      exact ⟨hread.sound L, seriesOf_size L slot.series⟩
    cases hlocal : hosts.get? h with
    | none =>
      rw [hlocal] at hs
      exact hpeerKept s hs
    | some entry =>
      rw [hlocal, elim_some, mergeTwoEntries_seriesAt L hproto] at hs
      cases hp : peer.seriesAt sid with
      | none =>
        rw [hp] at hs
        exact hkept s (by rw [localSeries, hlocal]; exact hs)
      | some p =>
        rw [hp] at hs
        cases hcur : entry.seriesAt sid with
        | none =>
          rw [hcur] at hs
          rw [← some.inj hs]
          exact cloneSeries_kept (hpeerKept p hp)
        | some c =>
          rw [hcur] at hs
          rw [← some.inj hs]
          have hc := hkept c (by rw [localSeries, hlocal]; exact hcur)
          exact ⟨mergeSeries_sound L hc.toSound p, mergeSeries_size L c p⟩

/-- For every local model and every tables, and whatever statements land between the `SELECT`s: a
scan leaves a served total where it was or higher exactly when the rows read make up for the
local days that they close. -/
theorem scan_raises_iff (L : Limits) (hosts : Hosts) (T : Tables) (w₁ w₂ w₃ : List Statement)
    {h sid : JsString} (hproto : sid ≠ ofString "__proto__") {k : TokenKey}
    (hkept : ∀ s, localSeries hosts h sid = some s → Kept L s)
    (hsafe : servedTotal hosts h sid k ≤ maxSafe) :
    servedTotal hosts h sid k ≤ servedTotal (racedScan L hosts T w₁ w₂ w₃) h sid k ↔
      ∀ s, localSeries hosts h sid = some s →
        Raises L (T.after w₁) ((T.after w₁).after w₂) h sid s k := by
  unfold servedTotal at hsafe ⊢
  cases hs : localSeries hosts h sid with
  | none => simp
  | some s =>
    rw [hs, map_some, getD_some] at hsafe
    have hread := readAs_readAll T (T.after w₁) ((T.after w₁).after w₂)
      (((T.after w₁).after w₂).after w₃) h sid
    rw [racedScan, scan_localSeries L _ hproto hs, map_some, map_some,
      getD_some, getD_some]
    simp only [some.injEq, forall_eq']
    cases hslot : ((readAll T (T.after w₁) ((T.after w₁).after w₂)
        (((T.after w₁).after w₂).after w₃)).get? h).bind fun e => e.series.get? sid with
    | none =>
      rw [slotAt_of_none hslot] at hread
      exact iff_of_true le_rfl (raises_of_no_row (hkept s hs) hread k hsafe)
    | some slot =>
      rw [slotAt_of_get? hslot] at hread
      exact hread.le_merged_iff (hkept s hs).toSound k hsafe

def rescanned : Hosts := OrdMap.empty.upsert (ofString "host") fun _ =>
  hostOnly (run (Op.apply shipped) blankSeries [.absorb (inputReport 100 [(20260101, 100)])])

def writtenOnce : Tables := run (Write.land shipped) .empty firstReplica

/-- What another replica writes that has seen the day grow. -/
def growingWrite : List Statement :=
  statements (ofString "host") (enforceHostShare shipped grownReplica.2)

theorem scan_raises_iff_raced :
    servedTotal rescanned (ofString "host") [] .input = 100 ∧
      servedTotal rescanned (ofString "host") [] .input ≤
        servedTotal (racedScan shipped rescanned writtenOnce (growingWrite.take 2)
          (growingWrite.drop 2) []) (ofString "host") [] .input := by
  refine ⟨by decide +kernel, ?_⟩
  have hlocal : localSeries rescanned (ofString "host") [] =
      some (run (Op.apply shipped) blankSeries [.absorb (inputReport 100 [(20260101, 100)])]) :=
    rfl
  generalize hT₂ : writtenOnce.after (growingWrite.take 2) = T₂
  generalize hT₃ : T₂.after (growingWrite.drop 2) = T₃
  have hclosed : ∀ d, closed shipped T₂ T₃ (ofString "host") [] d = false := by
    have hcutoff : T₂.cutoff (ofString "host") [] = none := by
      rw [← hT₂]
      decide +kernel
    have hgone : (datesRead T₂ T₃ (ofString "host") []).filter
        (pastWindow shipped (datesRead T₂ T₃ (ofString "host") [])) = [] := by
      rw [← hT₃, ← hT₂]
      decide +kernel
    intro d
    rw [closed, hcutoff, hgone]
    rfl
  have hsafe : raisedPre shipped T₂ T₃ (ofString "host") []
      (run (Op.apply shipped) blankSeries [.absorb (inputReport 100 [(20260101, 100)])]) .input ≤
        maxSafe := by
    rw [← hT₃, ← hT₂]
    decide +kernel
  refine (scan_raises_iff shipped rescanned writtenOnce (growingWrite.take 2)
    (growingWrite.drop 2) [] (by decide +kernel) ?_ (by decide +kernel)).mpr ?_
  · intro s hs
    rw [← some.inj (hlocal.symm.trans hs)]
    exact run_kept shipped _
  · intro s hs
    rw [← some.inj (hlocal.symm.trans hs), hT₂, hT₃]
    exact raises_of_open hclosed hsafe

/-- What another replica writes that has folded the day since. -/
def foldingWrite : List Statement :=
  statements (ofString "host") (enforceHostShare shipped (hostOnly
    (run (Op.apply shipped) blankSeries
      [.absorb (inputReport 100 [(20260101, 100)]), .halveDays])))

/-- The cutoff is read when `usage_series` is written, `pre` before `usage_day` is. -/
theorem raced_scan_lowers :
    servedTotal (racedScan shipped rescanned writtenOnce (foldingWrite.take 2) []
        (foldingWrite.drop 2)) (ofString "host") [] .input <
      servedTotal rescanned (ofString "host") [] .input := by
  decide +kernel

end Turma.LedgerStore
