import Turma.Ledger.Account
import Turma.LedgerStore.Effects

/-! What `_readAll` makes of the tables, series by series. -/

namespace Turma.LedgerStore

open Turma.Lib Turma.Ledger List Option OrdMap

/-- The series that the read has under `h` and `sid`, a blank one where it has none. -/
def slotAt (hosts : OrdMap JsString HostRead) (h sid : JsString) : Slot :=
  (((hosts.get? h).getD blankHost).series.get? sid).getD blankSlot

theorem slotAt_empty (h sid : JsString) : slotAt .empty h sid = blankSlot := rfl

theorem slotAt_atSeries (hosts : OrdMap JsString HostRead) (h' sid' h sid : JsString)
    (f : Slot → Slot) :
    slotAt (atSeries h' sid' f hosts) h sid =
      if (h', sid') = (h, sid) then f (slotAt hosts h sid) else slotAt hosts h sid := by
  unfold slotAt atSeries atHost
  rw [get?_upsert]
  by_cases hh : h = h'
  · subst hh
    rw [if_pos rfl, getD_some]
    rw [get?_upsert]
    by_cases hs : sid = sid'
    · simp [hs]
    · have hs' : sid' ≠ sid := fun h => hs h.symm
      simp [hs, hs']
  · have hh' : h' ≠ h := fun e => hh e.symm
    simp [hh, hh']

theorem slotAt_readHostRow (hosts : OrdMap JsString HostRead) (r : JsString × HostRow)
    (h sid : JsString) : slotAt (readHostRow hosts r) h sid = slotAt hosts h sid := by
  unfold slotAt readHostRow atHost
  rw [get?_upsert]
  by_cases hh : h = r.1 <;> simp [hh]

section

variable {ε τ : Type} (place : ε → JsString × JsString) (f : ε → Slot → Slot) (h sid : JsString)

/-- The rows of one series are the ones that its slot sees. `I` is an invariant of the slot. -/
theorem slotAt_rows {I : Slot → Prop} {v : Slot → τ} {p : ε → Bool} {t : τ → ε → τ}
    (hp : ∀ r, p r = true → place r = (h, sid)) (hinv : ∀ r sr, I sr → I (f r sr))
    (hview : ∀ r sr, I sr → place r = (h, sid) → v (f r sr) = if p r then t (v sr) r else v sr)
    (hosts : OrdMap JsString HostRead) (hI : I (slotAt hosts h sid)) (rows : List ε) :
    v (slotAt (rows.foldl (fun m r => atSeries (place r).1 (place r).2 (f r) m) hosts) h sid) =
      (rows.filter p).foldl t (v (slotAt hosts h sid)) := by
  refine run_view _ (v := fun m => v (slotAt m h sid)) (I := fun m => I (slotAt m h sid))
    (fun m r hm => ?_) (fun m r hm => ?_) hI rows
  · rw [slotAt_atSeries]
    split_ifs
    · exact hinv r _ hm
    · exact hm
  · rw [slotAt_atSeries]
    split_ifs with hr hpr hpr
    · rw [hview r _ hm hr, if_pos hpr]
    · rw [hview r _ hm hr, if_neg hpr]
    · exact absurd (hp r hpr) hr
    · rfl

end

theorem foldl_filter_key {κ α τ : Type} [DecidableEq κ] (m : OrdMap κ α) (k : κ)
    (t : τ → κ × α → τ) (x : τ) :
    (m.entries.filter fun e => e.1 = k).foldl t x =
      match m.get? k with
      | none => x
      | some v => t x (k, v) := by
  rw [filter_key]
  cases m.get? k <;> rfl

variable {d : IsoDay} (m : JsString) (day : DayId) (tk : TokenKey) (n : ℕ) (sr : Slot)
  (k : TokenKey)

section

variable (T₁ T₂ T₃ T₄ : Tables) (h sid : JsString)

/-- The hosts when the rows of the first two tables are in. -/
def readSeriesRows : OrdMap JsString HostRead :=
  T₂.usageSeries.entries.foldl readSeriesRow (T₁.usageHost.entries.foldl readHostRow .empty)

theorem slotAt_hostRows (rows : List (JsString × HostRow)) (hosts : OrdMap JsString HostRead) :
    slotAt (rows.foldl readHostRow hosts) h sid = slotAt hosts h sid := by
  induction rows generalizing hosts with
  | nil => rfl
  | cons r rows ih => exact (ih (readHostRow hosts r)).trans (slotAt_readHostRow hosts r h sid)

theorem slotAt_seriesRows : slotAt (readSeriesRows T₁ T₂) h sid =
    match T₂.usageSeries.get? (h, sid) with
    | none => blankSlot
    | some r => readSeries r blankSlot := by
  have hrows := slotAt_rows (fun r : (JsString × JsString) × SeriesRow => r.1)
    (fun r => readSeries r.2) h sid (I := fun _ => True) (v := id)
    (p := fun r => decide (r.1 = (h, sid))) (t := fun sr r => readSeries r.2 sr)
    (fun r hr => of_decide_eq_true hr) (fun _ _ _ => trivial)
    (fun r sr _ hr => by rw [if_pos (decide_eq_true hr)]; rfl)
    (T₁.usageHost.entries.foldl readHostRow .empty) trivial T₂.usageSeries.entries
  rw [foldl_filter_key, slotAt_hostRows, slotAt_empty] at hrows
  refine hrows.trans ?_
  cases T₂.usageSeries.get? (h, sid) <;> rfl

theorem seriesRows_cutoff :
    (slotAt (readSeriesRows T₁ T₂) h sid).series.cutoff = T₂.cutoff h sid := by
  rw [slotAt_seriesRows, Tables.cutoff]
  cases T₂.usageSeries.get? (h, sid) <;> rfl

theorem seriesRows_pre :
    (slotAt (readSeriesRows T₁ T₂) h sid).series.pre k = 0 := by
  rw [slotAt_seriesRows]
  cases T₂.usageSeries.get? (h, sid) <;> rfl

theorem seriesRows_days :
    (slotAt (readSeriesRows T₁ T₂) h sid).series.days = .empty := by
  rw [slotAt_seriesRows]
  cases T₂.usageSeries.get? (h, sid) <;> rfl

/-- The rows of `usage_model` leave the rest of a slot alone. -/
theorem slotAt_modelRows {τ : Type} {v : Slot → τ}
    (hv : ∀ m tk n sr, v (readModel m tk n sr) = v sr) :
    v (slotAt (readAll T₁ T₂ T₃ T₄) h sid) =
      v (slotAt (T₃.usageDay.entries.foldl readDayRow (readSeriesRows T₁ T₂)) h sid) := by
  have hrows := slotAt_rows (fun r : ModelKey × ℕ => (r.1.1, r.1.2.1))
    (fun r => readModel r.1.2.2.1 r.1.2.2.2 r.2) h sid (I := fun _ => True) (v := v)
    (p := fun _ => false) (t := fun x _ => x)
    (fun r hr => absurd hr Bool.false_ne_true) (fun _ _ _ => trivial)
    (fun r sr _ _ => hv _ _ _ sr) (T₃.usageDay.entries.foldl readDayRow (readSeriesRows T₁ T₂))
    trivial T₄.usageModel.entries
  rwa [filter_false] at hrows

theorem cutoff_readModel :
    (readModel m tk n sr).series.cutoff = sr.series.cutoff := by
  unfold readModel
  split_ifs <;> rfl

theorem pre_readModel :
    (readModel m tk n sr).series.pre = sr.series.pre := by
  unfold readModel
  split_ifs <;> rfl

theorem days_readModel :
    (readModel m tk n sr).series.days = sr.series.days := by
  unfold readModel
  split_ifs <;> rfl

theorem cutoff_readDay :
    (readDay day tk n sr).series.cutoff = sr.series.cutoff := by
  cases day with
  | date d =>
    unfold readDay
    dsimp only
    split_ifs <;> rfl
  | pre => rfl
  | sub => rfl

theorem pre_readDay :
    (readDay day tk n sr).series.pre k =
      if day = .pre ∧ tk = k then sr.series.pre k + n else sr.series.pre k := by
  cases day with
  | date d =>
    unfold readDay
    dsimp only
    split_ifs <;> simp_all
  | pre =>
    by_cases hk : tk = k
    · simp [readDay, setToken, hk]
    · have hk' : k ≠ tk := fun h => hk h.symm
      simp [readDay, setToken, hk, hk']
  | sub => simp [readDay]

theorem day_readDay (d : IsoDay)
    (k : TokenKey) :
    (readDay day tk n sr).series.day k d =
      if day = .date d ∧ tk = k then
        if inPre sr.series.cutoff d = true then sr.series.day k d else n
      else sr.series.day k d := by
  cases day with
  | date d' =>
    unfold readDay Series.day OrdMap.figure
    dsimp only
    by_cases hd : d' = d
    · subst hd
      by_cases hc : inPre sr.series.cutoff d' = true
      · simp [hc]
      · rw [if_neg hc, if_neg hc, get?_upsert, if_pos rfl]
        by_cases hk : tk = k
        · simp [setToken, hk]
        · have hk' : k ≠ tk := fun h => hk h.symm
          cases sr.series.days.get? d' <;> simp [setToken, hk, hk', blankBucket]
    · have hd' : d ≠ d' := fun h => hd h.symm
      split_ifs <;> simp_all [get?_upsert]
  | pre => simp [readDay, Series.day]
  | sub => simp [readDay, Series.day]

theorem readAll_cutoff :
    (slotAt (readAll T₁ T₂ T₃ T₄) h sid).series.cutoff = T₂.cutoff h sid := by
  rw [slotAt_modelRows T₁ T₂ T₃ T₄ h sid (v := fun sr => sr.series.cutoff) cutoff_readModel,
    ← seriesRows_cutoff T₁ T₂ h sid]
  have hrows := slotAt_rows (fun r : DayKey × ℕ => (r.1.1, r.1.2.1))
    (fun r => readDay r.1.2.2.1 r.1.2.2.2 r.2) h sid (I := fun _ => True)
    (v := fun sr => sr.series.cutoff) (p := fun _ => false) (t := fun x _ => x)
    (fun r hr => absurd hr Bool.false_ne_true) (fun _ _ _ => trivial)
    (fun r sr _ _ => cutoff_readDay _ _ _ sr) (readSeriesRows T₁ T₂) trivial
    T₃.usageDay.entries
  rwa [filter_false] at hrows

/-- `pre` comes from the sentinel row of the third `SELECT`. -/
theorem readAll_pre :
    (slotAt (readAll T₁ T₂ T₃ T₄) h sid).series.pre k = T₃.stored h sid .pre k := by
  rw [slotAt_modelRows T₁ T₂ T₃ T₄ h sid (v := fun sr => sr.series.pre k)
    fun m tk n sr => congrFun (pre_readModel m tk n sr) k]
  have hrows := slotAt_rows (fun r : DayKey × ℕ => (r.1.1, r.1.2.1))
    (fun r => readDay r.1.2.2.1 r.1.2.2.2 r.2) h sid (I := fun _ => True)
    (v := fun sr => sr.series.pre k)
    (p := fun r => decide (r.1 = (h, sid, .pre, k))) (t := fun n r => n + r.2)
    (fun r hr => by rw [of_decide_eq_true hr]) (fun _ _ _ => trivial)
    (fun r sr _ hr => by
      obtain ⟨⟨h', sid', day, tk⟩, n⟩ := r
      obtain ⟨rfl, rfl⟩ := Prod.mk.inj hr
      simp [pre_readDay])
    (readSeriesRows T₁ T₂) trivial T₃.usageDay.entries
  refine hrows.trans ?_
  rw [foldl_filter_key, seriesRows_pre, Tables.stored, OrdMap.figure]
  cases T₃.usageDay.get? (h, sid, .pre, k) <;> simp

/-- A day comes from its row in the third `SELECT`, past the cutoff of the second. -/
theorem readAll_day (d : IsoDay) :
    (slotAt (readAll T₁ T₂ T₃ T₄) h sid).series.day k d =
      if inPre (T₂.cutoff h sid) d = true then 0 else T₃.stored h sid (.date d) k := by
  rw [slotAt_modelRows T₁ T₂ T₃ T₄ h sid (v := fun sr => sr.series.day k d)
    fun m tk n sr => by rw [Series.day, Series.day, days_readModel]]
  have hrows := slotAt_rows (fun r : DayKey × ℕ => (r.1.1, r.1.2.1))
    (fun r => readDay r.1.2.2.1 r.1.2.2.2 r.2) h sid
    (I := fun sr => sr.series.cutoff = T₂.cutoff h sid) (v := fun sr => sr.series.day k d)
    (p := fun r => decide (r.1 = (h, sid, .date d, k)))
    (t := fun n r => if inPre (T₂.cutoff h sid) d = true then n else r.2)
    (fun r hr => by rw [of_decide_eq_true hr])
    (fun r sr hc => (cutoff_readDay _ _ _ sr).trans hc)
    (fun r sr hc hr => by
      obtain ⟨⟨h', sid', day, tk⟩, n⟩ := r
      obtain ⟨rfl, rfl⟩ := Prod.mk.inj hr
      simp [day_readDay, hc])
    (readSeriesRows T₁ T₂) (seriesRows_cutoff T₁ T₂ h sid) T₃.usageDay.entries
  refine hrows.trans ?_
  rw [foldl_filter_key, Series.day, seriesRows_days, Tables.stored, OrdMap.figure, OrdMap.figure]
  cases T₃.usageDay.get? (h, sid, .date d, k) <;> simp

/-- The days that the read holds: those with a row, past the cutoff. -/
def datesRead (T₂ T₃ : Tables) (h sid : JsString) : List IsoDay :=
  ((T₃.usageDay.entries.filterMap fun r =>
    match r.1.2.2.1 with
    | .date d => if r.1.1 = h ∧ r.1.2.1 = sid ∧ inPre (T₂.cutoff h sid) d = false then some d
      else none
    | _ => none)).dedup

theorem mem_datesRead : d ∈ datesRead T₂ T₃ h sid ↔
    inPre (T₂.cutoff h sid) d = false ∧
      ∃ r ∈ T₃.usageDay.entries, r.1.1 = h ∧ r.1.2.1 = sid ∧ r.1.2.2.1 = .date d := by
  rw [datesRead, mem_dedup, mem_filterMap]
  constructor
  · rintro ⟨⟨⟨h', sid', day, tk⟩, n⟩, hr, hd⟩
    cases day with
    | date d' =>
      dsimp only at hd
      split_ifs at hd with hc
      cases hd
      exact ⟨hc.2.2, _, hr, hc.1, hc.2.1, rfl⟩
    | pre => exact absurd hd (some_ne_none _).symm
    | sub => exact absurd hd (some_ne_none _).symm
  · rintro ⟨hc, ⟨⟨h', sid', day, tk⟩, n⟩, hr, rfl, rfl, rfl⟩
    exact ⟨_, hr, if_pos ⟨rfl, rfl, hc⟩⟩

end

theorem keys_readDay {day : DayId} {tk : TokenKey} {n : ℕ} {sr : Slot} :
    d ∈ (readDay day tk n sr).series.days.keys ↔
      d ∈ sr.series.days.keys ∨ inPre sr.series.cutoff d = false ∧ day = .date d := by
  cases day with
  | date d' =>
    unfold readDay
    dsimp only
    by_cases hd : d' = d
    · subst hd
      by_cases hc : inPre sr.series.cutoff d' = true
      · simp [hc]
      · simp [hc, mem_keys_upsert]
    · have hd' : d ≠ d' := fun h => hd h.symm
      split_ifs <;> simp [hd, hd', mem_keys_upsert]
  | pre => simp [readDay]
  | sub => simp [readDay]

/-- A row of `usage_day` with a date opens that day in its series. -/
theorem keys_dayRows {h sid : JsString} {c : Option IsoDay}
    (rows : List (DayKey × ℕ)) {hosts : OrdMap JsString HostRead}
    (hc : (slotAt hosts h sid).series.cutoff = c) :
    d ∈ (slotAt (rows.foldl readDayRow hosts) h sid).series.days.keys ↔
      d ∈ (slotAt hosts h sid).series.days.keys ∨
        inPre c d = false ∧ ∃ r ∈ rows, r.1.1 = h ∧ r.1.2.1 = sid ∧ r.1.2.2.1 = .date d := by
  induction rows generalizing hosts with
  | nil => simp
  | cons r rows ih =>
    have hstep : slotAt (readDayRow hosts r) h sid =
        if (r.1.1, r.1.2.1) = (h, sid) then
          readDay r.1.2.2.1 r.1.2.2.2 r.2 (slotAt hosts h sid)
        else slotAt hosts h sid := slotAt_atSeries hosts _ _ h sid _
    rw [foldl_cons, ih (by rw [hstep]; split_ifs; exacts [(cutoff_readDay _ _ _ _).trans hc, hc]),
      hstep]
    by_cases hr : (r.1.1, r.1.2.1) = (h, sid)
    · obtain ⟨hh, hs⟩ := Prod.mk.inj hr
      rw [if_pos hr, keys_readDay, hc]
      simp only [mem_cons, exists_eq_or_imp, hh, hs, true_and]
      tauto
    · have hne : ¬(r.1.1 = h ∧ r.1.2.1 = sid ∧ r.1.2.2.1 = .date d) := by
        rintro ⟨hh, hs, -⟩
        exact hr (by rw [hh, hs])
      rw [if_neg hr]
      simp only [mem_cons, exists_eq_or_imp, hne, false_or]

theorem readAll_keys {T₁ T₂ T₃ T₄ : Tables} {h sid : JsString} :
    d ∈ (slotAt (readAll T₁ T₂ T₃ T₄) h sid).series.days.keys ↔ d ∈ datesRead T₂ T₃ h sid := by
  rw [slotAt_modelRows T₁ T₂ T₃ T₄ h sid (v := fun sr => sr.series.days) days_readModel,
    keys_dayRows _ (seriesRows_cutoff T₁ T₂ h sid), mem_datesRead, seriesRows_days]
  exact or_iff_right not_mem_nil

end Turma.LedgerStore
