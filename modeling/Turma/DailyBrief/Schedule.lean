import Turma.DailyBrief.Brief
import Turma.Lib.ZoneClock
import Mathlib.Data.Int.LeastGreatest
import Mathlib.Data.List.Dedup
import Mathlib.Data.List.Sort
import Mathlib.Order.Bounds.Defs
import Mathlib.Order.Monotone.Defs

/-! The schedule of an org's meeting: the next brief after an instant, and the window it covers.
Dates are numbered from the epoch; the fields of the calendar are only read and put back. -/

namespace Turma.DailyBrief

open Turma.Lib List
open Option hiding max_eq_left max_eq_right

-- Of the orders on the integers, the one that computes.
local instance preorderInt : Preorder ℤ := Int.instLinearOrder.toPreorder

inductive Model
  | auto | haiku | sonnet
deriving DecidableEq

/-- A schedule from outside; what has not the type of its field is `none`, and so is the absent
lead or model, whose default is inside. -/
structure RawSchedule where
  enabled : Option Bool
  time : Option Units
  timeZone : Option Units
  weekdays : Option (List (Option ℤ))
  leadMinutes : Option (Option ℤ)
  model : Option (Option Units)
  updatedAt : Option ℤ

abbrev Weekdays := {days : List ℕ // days ≠ [] ∧ ∀ d ∈ days, d ≤ 6}

abbrev Lead := {minutes : ℕ // 1 ≤ minutes ∧ minutes ≤ 30}

abbrev ClockTime := {time : ℕ × ℕ // time.1 < 24 ∧ time.2 < 60}

structure Schedule where
  enabled : Bool
  time : ClockTime
  timeZone : Zone
  weekdays : Weekdays
  leadMinutes : Lead
  model : Model
  updatedAt : Option ℤ

/-- `/^([01]\d|2[0-3]):[0-5]\d$/`, and the numbers on the two sides of the colon. -/
def readTime : Units → Option ClockTime
  | [a, b, colon, c, d] =>
    if h : 48 ≤ a ∧ 48 ≤ b ∧ 48 ≤ c ∧ 48 ≤ d ∧ (a ≤ 49 ∧ b ≤ 57 ∨ a = 50 ∧ b ≤ 51) ∧ colon = 58 ∧
        c ≤ 53 ∧ d ≤ 57 then
      some ⟨(10 * (a - 48) + (b - 48), 10 * (c - 48) + (d - 48)), by dsimp only; omega⟩
    else none
  | _ => none

def letter (c : ℕ) : Bool := (65 ≤ c && c ≤ 90) || (97 ≤ c && c ≤ 122)

def readDay (v : Option ℤ) : Option ℕ :=
  v.bind fun d => if 0 ≤ d ∧ d ≤ 6 then some d.toNat else none

/-- `[...new Set(days)].sort((a, b) => a - b)`. -/
def sortDays (days : List ℕ) : List ℕ := days.dedup.insertionSort (· ≤ ·)

theorem mem_sortDays {days : List ℕ} {d : ℕ} : d ∈ sortDays days ↔ d ∈ days := by
  rw [sortDays, (perm_insertionSort _ _).mem_iff, mem_dedup]

theorem readDay_le {v : Option ℤ} {d : ℕ} (h : readDay v = some d) : d ≤ 6 := by
  obtain ⟨n, -, hn⟩ := bind_eq_some_iff.mp h
  split_ifs at hn with hd
  have := some.inj hn
  omega

theorem sortDays_ok {vs : List (Option ℤ)} (hne : vs ≠ [])
    (hall : vs.all (fun v => (readDay v).isSome) = true) :
    sortDays (vs.filterMap readDay) ≠ [] ∧ ∀ d ∈ sortDays (vs.filterMap readDay), d ≤ 6 := by
  refine ⟨fun hnil => ?_, fun d hd => ?_⟩
  · obtain ⟨v, rest, rfl⟩ := exists_cons_of_ne_nil hne
    obtain ⟨d, hd⟩ := isSome_iff_exists.mp (List.all_eq_true.mp hall v mem_cons_self)
    have hmem : d ∈ sortDays ((v :: rest).filterMap readDay) :=
      mem_sortDays.mpr (mem_filterMap.mpr ⟨v, mem_cons_self, hd⟩)
    rw [hnil] at hmem
    cases hmem
  · obtain ⟨v, -, hv⟩ := mem_filterMap.mp (mem_sortDays.mp hd)
    exact readDay_le hv

def readWeekdays : Option (List (Option ℤ)) → Option Weekdays
  | none => none
  | some vs =>
    if h : vs ≠ [] ∧ vs.length ≤ 7 ∧ vs.all (fun v => (readDay v).isSome) = true then
      some ⟨sortDays (vs.filterMap readDay), sortDays_ok h.1 h.2.2⟩
    else none

def readLead (v : Option (Option ℤ)) : Option Lead :=
  (v.getD (some 5)).bind fun n =>
    if h : 1 ≤ n.toNat ∧ n.toNat ≤ 30 then some ⟨n.toNat, h⟩ else none

def readModel (v : Option (Option Units)) : Option Model :=
  (v.getD (some (text "auto"))).bind fun m =>
    if m = text "auto" then some .auto
    else if m = text "haiku" then some .haiku
    else if m = text "sonnet" then some .sonnet
    else none

section

variable (intl : Units → Option Zone)

/-- The clock of a zone that `Intl` knows by this name. -/
def canonicalTimeZone (tz : Option Units) : Option Zone :=
  tz.bind fun tz => if tz.head?.any letter = true ∧ tz.length ≤ 64 then intl tz else none

def validateDailyBriefSchedule : Option RawSchedule → Except String Schedule
  | none => .error "schedule must be an object"
  | some v =>
    match v.enabled with
    | none => .error "enabled must be true or false"
    | some enabled =>
    match v.time.bind readTime with
    | none => .error "time must be HH:MM on a 24-hour clock"
    | some time =>
    match canonicalTimeZone intl v.timeZone with
    | none => .error "timeZone must be an IANA time zone, e.g. America/New_York"
    | some timeZone =>
    match readWeekdays v.weekdays with
    | none => .error "weekdays must list at least one day, 0 (Sunday) to 6 (Saturday)"
    | some weekdays =>
    match readLead v.leadMinutes with
    | none => .error "leadMinutes must be a whole number from 1 to 30"
    | some leadMinutes =>
    match readModel v.model with
    | none => .error "model must be auto, haiku or sonnet"
    | some model =>
      .ok ⟨enabled, time, timeZone, weekdays, leadMinutes, model,
        v.updatedAt.filter fun n => 0 < n ∧ n ≤ MAX_SAFE_INTEGER⟩

def sanitizeDailyBriefSchedule (v : Option RawSchedule) : Option Schedule :=
  (validateDailyBriefSchedule intl v).toOption

end

/-- The wall clock in `timeZone`, as the milliseconds of the same fields in UTC. -/
def zonedWall (timeZone : Zone) (ms : ℤ) : ℤ := 1000 * timeZone.clock (ms / 1000)

/-- `Date.UTC` of a date at `hh:mm`. -/
def utc (date : ℤ) (hh mm : ℕ) : ℤ := 86400000 * date + 3600000 * hh + 60000 * mm

def zonedInstant (timeZone : Zone) (date : ℤ) (hh mm : ℕ) : ℤ :=
  let wall := utc date hh mm
  let offsetAt := fun ms : ℤ => zonedWall timeZone ms - ms / 1000 * 1000
  let before := wall - offsetAt (wall - 36 * 3600000)
  let after := wall - offsetAt (wall + 36 * 3600000)
  match [before, after].filter fun t => zonedWall timeZone t = wall with
  | [] => before
  | t :: hits => hits.foldl min t

/-- `getUTCDay` of a date. -/
def weekday (date : ℤ) : ℕ := ((date + 4) % 7).toNat

def localDate (timeZone : Zone) (ms : ℤ) : ℤ := zonedWall timeZone ms / 86400000

section

variable (s : Schedule)

def Schedule.meeting (date : ℤ) : ℤ := zonedInstant s.timeZone date s.time.1.1 s.time.1.2

def Schedule.On (date : ℤ) : Prop := weekday date ∈ s.weekdays.1

instance (date : ℤ) : Decidable (s.On date) := inferInstanceAs (Decidable (_ ∈ _))

def Schedule.lead : ℤ := s.leadMinutes.1 * 60000

def dailyBriefMeetings (ms fromDay step : ℤ) (days : ℕ) : List ℤ :=
  (List.range days).filterMap fun i : ℕ =>
    let date := localDate s.timeZone ms + fromDay + step * i
    if s.On date then some (s.meeting date) else none

end

structure Run where
  runAt : ℤ
  meetingAt : ℤ
deriving DecidableEq

structure Window where
  dayFrom : ℤ
  weekFrom : ℤ
  untilAt : ℤ
  meetingAt : Option ℤ
deriving DecidableEq

section

variable (intl : Units → Option Zone)

def nextDailyBriefRun (schedule : Option RawSchedule) (now : ℤ) : Option Run :=
  match sanitizeDailyBriefSchedule intl schedule with
  | none => none
  | some s =>
    if s.enabled then
      ((dailyBriefMeetings s now (-1) 1 10).find? fun meetingAt => now < meetingAt - s.lead).map
        fun meetingAt => ⟨meetingAt - s.lead, meetingAt⟩
    else none

def dailyBriefWindow (schedule : Option RawSchedule) (now : ℤ) (lastRunAt : Option ℤ) :
    Option Window :=
  match sanitizeDailyBriefSchedule intl schedule with
  | none => none
  | some s =>
    let weekFrom := now - 7 * 86400000
    let meetingAt := (dailyBriefMeetings s now (-1) 1 10).find? fun t => now ≤ t
    let prev := (dailyBriefMeetings s now 0 (-1) 9).find? fun t => t < now
    let dayFrom := prev.getD (now - 86400000)
    let dayFrom := ((lastRunAt.filter fun n => 0 < n ∧ n ≤ MAX_SAFE_INTEGER ∧ n < dayFrom).getD
      dayFrom)
    some ⟨max dayFrom weekFrom, weekFrom, now, meetingAt⟩

end

/-- The instant of a wall time: the earliest at which the clock reads it, and in a gap the one that
the offset before the gap names. -/
def Names (timeZone : Zone) (wall t : ℤ) : Prop :=
  IsLeast {n | zonedWall timeZone n = wall} t ∨
    (∀ n, zonedWall timeZone n ≠ wall) ∧ ∃ c, 1000 * timeZone.clock (c - 1) < wall ∧
      wall < 1000 * timeZone.clock c ∧ t = wall - 1000 * timeZone.off (c - 1)

def seconds (date : ℤ) (hh mm : ℕ) : ℤ := 86400 * date + 3600 * hh + 60 * mm

variable (timeZone : Zone) (date : ℤ)

theorem utc_eq (hh mm : ℕ) : utc date hh mm = 1000 * seconds date hh mm := by
  unfold utc seconds
  omega

theorem zonedWall_seconds (n : ℤ) :
    zonedWall timeZone (1000 * n) = 1000 * timeZone.clock n := by
  rw [zonedWall, Int.mul_ediv_cancel_left n (by decide)]

theorem zonedInstant_eq (hh mm : ℕ) :
    zonedInstant timeZone date hh mm = 1000 * timeZone.instant (seconds date hh mm) := by
  have hprobe : ∀ n, 1000 * seconds date hh mm -
      (zonedWall timeZone (1000 * n) - 1000 * n / 1000 * 1000) =
        1000 * (seconds date hh mm - timeZone.off n) := fun n => by
    rw [zonedWall_seconds, Zone.clock, Int.mul_ediv_cancel_left n (by decide)]
    omega
  have hbefore : 1000 * seconds date hh mm - 36 * 3600000 =
      1000 * (seconds date hh mm - 129600) := by omega
  have hafter : 1000 * seconds date hh mm + 36 * 3600000 =
      1000 * (seconds date hh mm + 129600) := by omega
  have hhit : ∀ n, decide (zonedWall timeZone (1000 * n) = 1000 * seconds date hh mm) =
      decide (timeZone.clock n = seconds date hh mm) := fun n => by
    rw [zonedWall_seconds]
    exact decide_eq_decide.mpr ⟨fun h => by omega, fun h => by omega⟩
  unfold zonedInstant Zone.instant
  rw [utc_eq]
  dsimp only
  rw [hbefore, hafter, hprobe, hprobe, filter_cons, filter_cons, filter_nil, hhit,
    hhit]
  simp only [decide_eq_true_eq]
  split_ifs
  · simp only [foldl_cons, foldl_nil]
    omega
  · rfl
  · rfl
  · rfl

theorem zonedInstant_names (hh mm : ℕ) :
    Names timeZone (utc date hh mm) (zonedInstant timeZone date hh mm) := by
  rw [zonedInstant_eq, utc_eq]
  by_cases hread : ∃ n, timeZone.clock n = seconds date hh mm
  · obtain ⟨n, hn⟩ := hread
    left
    refine ⟨?_, fun ms hms => ?_⟩
    · rw [Set.mem_ofPred_eq, zonedWall_seconds, (Zone.instant_clock hn).1]
    · rw [Set.mem_ofPred_eq, zonedWall] at hms
      have := (Zone.instant_clock (z := timeZone) (n := ms / 1000) (w := seconds date hh mm)
        (by omega)).2
      omega
  · rw [not_exists] at hread
    obtain ⟨c, hlast, hfirst, heq⟩ := Zone.instant_gap hread
    refine .inr ⟨fun ms hms => hread (ms / 1000) ?_, c, by omega, by omega, by omega⟩
    rw [zonedWall] at hms
    omega

variable {t : ℤ}

section

variable {s : Schedule} {now : ℤ}

theorem meeting_eq (s : Schedule) (date : ℤ) : s.meeting date =
    1000 * s.timeZone.instant (seconds date s.time.1.1 s.time.1.2) :=
  zonedInstant_eq ..

theorem seconds_succ (hh mm : ℕ) : seconds (date + 1) hh mm = seconds date hh mm + 86400 := by
  unfold seconds
  omega

theorem meeting_le_succ (s : Schedule) (date : ℤ) : s.meeting date ≤ s.meeting (date + 1) := by
  rw [meeting_eq, meeting_eq, seconds_succ]
  rcases s.timeZone.instant_next (seconds date s.time.1.1 s.time.1.2) with h | ⟨h, -⟩ <;> omega

theorem meeting_mono {date date' : ℤ} (h : date ≤ date') : s.meeting date ≤ s.meeting date' := by
  induction date', h using Int.leInduction with
  | base => exact le_rfl
  | succ date' _ ih => exact ih.trans (meeting_le_succ s date')

/-- The dates have instants of their own unless the zone skips a whole day. -/
theorem meeting_strictMono_iff (s : Schedule) :
    StrictMono s.meeting ↔ ∀ c, s.timeZone.off c ≠ s.timeZone.off (c - 1) + 86400 := by
  refine ⟨fun h c hc => ?_, fun h => strictMono_int_of_lt_succ fun date => ?_⟩
  · have hskip := Zone.instant_skip (w := seconds ((s.timeZone.clock c - 1 -
      seconds 0 s.time.1.1 s.time.1.2) / 86400) s.time.1.1 s.time.1.2) hc
      (by unfold seconds; omega) (by unfold seconds; omega)
    have hlt := h (Int.lt_succ ((s.timeZone.clock c - 1 - seconds 0 s.time.1.1 s.time.1.2) / 86400))
    rw [meeting_eq, meeting_eq, seconds_succ, hskip] at hlt
    exact absurd hlt (lt_irrefl _)
  · rw [meeting_eq, meeting_eq, seconds_succ]
    rcases s.timeZone.instant_next (seconds date s.time.1.1 s.time.1.2) with hlt | ⟨-, c, hc⟩
    · omega
    · exact absurd hc (h c)

theorem mem_meetings {ms fromDay step : ℤ} {days : ℕ} :
    t ∈ dailyBriefMeetings s ms fromDay step days ↔ ∃ i < days,
      s.On (localDate s.timeZone ms + fromDay + step * i) ∧
        s.meeting (localDate s.timeZone ms + fromDay + step * i) = t := by
  simp only [dailyBriefMeetings, mem_filterMap, mem_range]
  refine exists_congr fun i => and_congr_right fun _ => ?_
  split_ifs with hon
  · simp [hon]
  · simp [hon]

theorem meetings_sorted (s : Schedule) (ms fromDay : ℤ) (days : ℕ) :
    (dailyBriefMeetings s ms fromDay 1 days).Pairwise (· ≤ ·) := by
  rw [dailyBriefMeetings, pairwise_filterMap]
  refine pairwise_lt_range.imp fun {i j} hij t ht t' ht' => ?_
  dsimp only at ht ht'
  split_ifs at ht ht'
  rw [← some.inj ht, ← some.inj ht']
  exact meeting_mono (by omega)

theorem find?_least {p : ℤ → Bool} {l : List ℤ} (hl : l.Pairwise (· ≤ ·))
    (h : l.find? p = some t) {t' : ℤ} (ht' : t' ∈ l) (hp : p t' = true) : t ≤ t' := by
  induction l with
  | nil => cases ht'
  | cons x l ih =>
    rw [find?_cons] at h
    obtain ⟨hx, hl⟩ := pairwise_cons.mp hl
    split at h
    · rw [← some.inj h]
      rcases mem_cons.mp ht' with rfl | ht'
      · exact le_rfl
      · exact hx t' ht'
    · rename_i hpx
      rcases mem_cons.mp ht' with rfl | ht'
      · rw [hp] at hpx
        cases hpx
      · exact ih hl h ht'

/-- Of the weekdays one is among any seven dates. -/
theorem exists_on {day : ℕ} (hday : day ∈ s.weekdays.1) (date : ℤ) :
    ∃ i : ℕ, i < 7 ∧ weekday (date + i) = day := by
  have hle := s.weekdays.2.2 day hday
  refine ⟨((day - (date + 4)) % 7).toNat, by omega, ?_⟩
  unfold weekday
  omega

theorem clock_bounds (s : Schedule) (now : ℤ) :
    86400 * localDate s.timeZone now ≤ s.timeZone.clock (now / 1000) ∧
      s.timeZone.clock (now / 1000) < 86400 * localDate s.timeZone now + 86400 := by
  unfold localDate zonedWall
  omega

theorem lead_bounds (s : Schedule) : 0 < s.lead ∧ s.lead ≤ 1800000 ∧ s.lead % 1000 = 0 := by
  have := s.leadMinutes.2
  unfold Schedule.lead
  omega

/-- The meetings of the dates before yesterday are over. -/
theorem meeting_lt {date : ℤ} (h : date ≤ localDate s.timeZone now - 2) : s.meeting date < now := by
  have htime := s.time.2
  have hclock := clock_bounds s now
  have hlt := Zone.instant_lt (z := s.timeZone) (n := now / 1000)
    (w := seconds date s.time.1.1 s.time.1.2) (by unfold seconds; omega)
  rw [meeting_eq]
  omega

/-- Those of the dates after the second one from now are ahead by more than any lead. -/
theorem lt_meeting {date : ℤ} (h : localDate s.timeZone now + 3 ≤ date) :
    now < s.meeting date - s.lead := by
  have hlead := lead_bounds s
  have hclock := clock_bounds s now
  have hlt := Zone.lt_instant (z := s.timeZone) (n := now / 1000)
    (w := seconds date s.time.1.1 s.time.1.2) (by unfold seconds; omega)
  rw [meeting_eq]
  omega

/-- The only weekday is that of the second date from now, and by the end of the lead the clock has
read that date's meeting. -/
def Overtaken (s : Schedule) (now : ℤ) : Prop :=
  (∀ day ∈ s.weekdays.1, day = weekday (localDate s.timeZone now + 2)) ∧
    ∃ t, t ≤ now + s.lead ∧
      zonedWall s.timeZone t = utc (localDate s.timeZone now + 2) s.time.1.1 s.time.1.2

theorem overtaken_read (hread : ∃ t, t ≤ now + s.lead ∧
    zonedWall s.timeZone t = utc (localDate s.timeZone now + 2) s.time.1.1 s.time.1.2) :
    s.meeting (localDate s.timeZone now + 2) - s.lead ≤ now := by
  obtain ⟨t, ht, hwall⟩ := hread
  rw [zonedWall, utc_eq] at hwall
  have := (Zone.instant_clock (z := s.timeZone) (n := t / 1000)
    (w := seconds (localDate s.timeZone now + 2) s.time.1.1 s.time.1.2) (by omega)).2
  rw [meeting_eq]
  omega

theorem read_overtaken (h : s.meeting (localDate s.timeZone now + 2) - s.lead ≤ now) :
    ∃ t, t ≤ now + s.lead ∧
      zonedWall s.timeZone t = utc (localDate s.timeZone now + 2) s.time.1.1 s.time.1.2 := by
  have hlead := lead_bounds s
  have hclock := clock_bounds s now
  have heq := meeting_eq s (localDate s.timeZone now + 2)
  refine ⟨s.meeting (localDate s.timeZone now + 2), by omega, ?_⟩
  rw [heq, zonedWall_seconds, utc_eq, Zone.read_of_near (n := now / 1000)]
  · unfold seconds
    omega
  · omega

/-- The scan finds a brief unless its only date is overtaken. -/
theorem found_iff : (∃ t ∈ dailyBriefMeetings s now (-1) 1 10, now < t - s.lead) ↔
    ¬ Overtaken s now := by
  refine ⟨fun ⟨t, ht, hnow⟩ ⟨hdays, hread⟩ => ?_, fun h => ?_⟩
  · obtain ⟨i, hi, hon, rfl⟩ := mem_meetings.mp ht
    have hsame := hdays _ hon
    have hdate : localDate s.timeZone now + -1 + 1 * (i : ℤ) = localDate s.timeZone now + 2 := by
      unfold weekday at hsame
      omega
    rw [hdate] at hnow
    have := overtaken_read hread
    omega
  · by_contra hnone
    have hpast : ∀ i : ℕ, i < 10 → s.On (localDate s.timeZone now + -1 + 1 * (i : ℤ)) →
        s.meeting (localDate s.timeZone now + -1 + 1 * (i : ℤ)) - s.lead ≤ now := fun i hi hon => by
      by_contra hnow
      exact hnone ⟨_, mem_meetings.mpr ⟨i, hi, hon, rfl⟩, by omega⟩
    have hsecond : ∀ day ∈ s.weekdays.1, day = weekday (localDate s.timeZone now + 2) := by
      intro day hday
      obtain ⟨i, hi, hon⟩ := exists_on hday (localDate s.timeZone now + 2)
      by_contra hne
      have hpos : i ≠ 0 := fun hzero => hne (by rw [← hon, hzero, Nat.cast_zero, add_zero])
      have hdate : localDate s.timeZone now + -1 + 1 * ((i + 3 : ℕ) : ℤ) =
          localDate s.timeZone now + 2 + i := by omega
      have hle := hpast (i + 3) (by omega) (by rw [hdate, Schedule.On, hon]; exact hday)
      have hlt : now < s.meeting (localDate s.timeZone now + 2 + i) - s.lead :=
        lt_meeting (by omega)
      rw [hdate] at hle
      omega
    refine h ⟨hsecond, read_overtaken ?_⟩
    obtain ⟨day, hday⟩ := exists_mem_of_ne_nil _ s.weekdays.2.1
    have hdate : localDate s.timeZone now + -1 + 1 * ((3 : ℕ) : ℤ) = localDate s.timeZone now + 2 := by
      omega
    have hle := hpast 3 (by omega) (by rw [hdate, Schedule.On, ← hsecond day hday]; exact hday)
    rwa [hdate] at hle

/-- The instants of the briefs to come. -/
def Ahead (s : Schedule) (now runAt : ℤ) : Prop :=
  ∃ date, s.On date ∧ runAt = s.meeting date - s.lead ∧ now < runAt

/-- What the scan finds is the first of all dates. -/
theorem found_least (h : (dailyBriefMeetings s now (-1) 1 10).find?
    (fun meetingAt => now < meetingAt - s.lead) = some t) :
    IsLeast {runAt | Ahead s now runAt} (t - s.lead) := by
  have hmem := mem_of_find?_eq_some h
  have hnow : now < t - s.lead := by simpa using find?_some h
  obtain ⟨i, hi, hon, heq⟩ := mem_meetings.mp hmem
  refine ⟨⟨_, hon, by rw [heq], hnow⟩, ?_⟩
  rintro runAt ⟨date, hdate, rfl, hahead⟩
  have hlead := lead_bounds s
  by_cases hpast : date ≤ localDate s.timeZone now - 2
  · have := meeting_lt hpast
    omega
  · by_cases hlate : localDate s.timeZone now + 9 ≤ date
    · have hle : s.meeting (localDate s.timeZone now + -1 + 1 * (i : ℤ)) ≤ s.meeting date :=
        meeting_mono (by omega)
      omega
    · have hin : s.meeting date ∈ dailyBriefMeetings s now (-1) 1 10 := by
        refine mem_meetings.mpr ⟨(date - localDate s.timeZone now + 1).toNat, by omega, ?_⟩
        have heq : localDate s.timeZone now + -1 +
            1 * ((date - localDate s.timeZone now + 1).toNat : ℤ) = date := by omega
        rw [heq]
        exact ⟨hdate, rfl⟩
      have := find?_least (meetings_sorted s now (-1) 10) h hin (decide_eq_true hahead)
      omega

/-- The scan back finds a meeting that is over. -/
theorem exists_past (s : Schedule) (now : ℤ) :
    ∃ t ∈ dailyBriefMeetings s now 0 (-1) 9, t < now := by
  obtain ⟨day, hday⟩ := exists_mem_of_ne_nil _ s.weekdays.2.1
  obtain ⟨i, hi, hon⟩ := exists_on hday (localDate s.timeZone now - 8)
  have hdate : localDate s.timeZone now + 0 + -1 * ((8 - i : ℕ) : ℤ) =
      localDate s.timeZone now - 8 + i := by omega
  refine ⟨s.meeting (localDate s.timeZone now - 8 + i), mem_meetings.mpr ⟨8 - i, by omega, ?_⟩,
    meeting_lt (by omega)⟩
  rw [hdate]
  exact ⟨by rw [Schedule.On, hon]; exact hday, rfl⟩

end

/-- The brief that is next, and the window of one that is run now. -/
structure TrueNext (intl : Units → Option Zone) (schedule : Option RawSchedule) (s : Schedule)
    (now : ℤ) (lastRunAt : Option ℤ) : Prop where
  instants : ∀ date hh mm, Names s.timeZone (utc date hh mm) (zonedInstant s.timeZone date hh mm)
  increasing : StrictMono s.meeting
  next : ∃ run, nextDailyBriefRun intl schedule now = some run ∧
    IsLeast {runAt | Ahead s now runAt} run.runAt ∧ run.meetingAt = run.runAt + s.lead
  window : ∃ w last, dailyBriefWindow intl schedule now lastRunAt = some w ∧
    IsGreatest {t | t < now ∧ ∃ date, s.On date ∧ s.meeting date = t} last ∧
      (w.dayFrom ≤ last ∨ w.dayFrom = w.weekFrom)

section

variable {intl : Units → Option Zone} {schedule : Option RawSchedule} {s : Schedule}

theorem window_holds (hs : sanitizeDailyBriefSchedule intl schedule = some s) (now : ℤ)
    (lastRunAt : Option ℤ) : ∃ w last, dailyBriefWindow intl schedule now lastRunAt = some w ∧
      IsGreatest {t | t < now ∧ ∃ date, s.On date ∧ s.meeting date = t} last ∧
        (w.dayFrom ≤ last ∨ w.dayFrom = w.weekFrom) := by
  have hfound : ((dailyBriefMeetings s now 0 (-1) 9).find? fun t => t < now).isSome = true := by
    rw [find?_isSome]
    simpa using exists_past s now
  obtain ⟨prev, hprev⟩ := isSome_iff_exists.mp hfound
  have hlt : prev < now := by simpa using find?_some hprev
  obtain ⟨i, -, hon, heq⟩ := mem_meetings.mp (mem_of_find?_eq_some hprev)
  obtain ⟨last, hlast, hgreatest⟩ := Int.exists_greatest_of_bdd
    (P := fun t => t < now ∧ ∃ date, s.On date ∧ s.meeting date = t)
    ⟨now, fun t ht => ht.1.le⟩ ⟨prev, hlt, _, hon, heq⟩
  rw [dailyBriefWindow, hs]
  refine ⟨_, last, rfl, ⟨hlast, fun t ht => hgreatest t ht⟩, ?_⟩
  have hle := hgreatest prev ⟨hlt, _, hon, heq⟩
  rw [hprev, getD_some]
  rcases le_total (now - 7 * 86400000) ((lastRunAt.filter fun n =>
    0 < n ∧ n ≤ MAX_SAFE_INTEGER ∧ n < prev).getD prev) with hclip | hclip
  · left
    rw [max_eq_left hclip]
    cases hrun : lastRunAt.filter fun n => 0 < n ∧ n ≤ MAX_SAFE_INTEGER ∧ n < prev with
    | none => exact hle
    | some n =>
      have hn := of_decide_eq_true (filter_eq_some_iff.mp hrun).2
      exact (hn.2.2.le).trans hle
  · exact .inr (max_eq_right hclip)

/-- The next brief is the true next one just where the zone skips no whole day and the one date of
the scan is not overtaken. -/
theorem next_brief_iff (hs : sanitizeDailyBriefSchedule intl schedule = some s)
    (henabled : s.enabled = true) (now : ℤ) (lastRunAt : Option ℤ) :
    TrueNext intl schedule s now lastRunAt ↔
      (∀ c, s.timeZone.off c ≠ s.timeZone.off (c - 1) + 86400) ∧ ¬ Overtaken s now := by
  rw [← meeting_strictMono_iff, ← found_iff]
  have hnext : nextDailyBriefRun intl schedule now =
      ((dailyBriefMeetings s now (-1) 1 10).find? fun meetingAt => now < meetingAt - s.lead).map
        fun meetingAt => ⟨meetingAt - s.lead, meetingAt⟩ := by
    rw [nextDailyBriefRun, hs]
    exact if_pos henabled
  refine ⟨fun h => ⟨h.increasing, ?_⟩, fun ⟨hmono, hfound⟩ => ?_⟩
  · obtain ⟨run, hrun, -, -⟩ := h.next
    rw [hnext] at hrun
    obtain ⟨t, ht, -⟩ := map_eq_some_iff.mp hrun
    exact ⟨t, mem_of_find?_eq_some ht, by simpa using find?_some ht⟩
  · refine ⟨zonedInstant_names s.timeZone, hmono, ?_, window_holds hs now lastRunAt⟩
    have hsome : ((dailyBriefMeetings s now (-1) 1 10).find?
        fun meetingAt => now < meetingAt - s.lead).isSome = true := by
      rw [find?_isSome]
      simpa using hfound
    obtain ⟨t, ht⟩ := isSome_iff_exists.mp hsome
    refine ⟨⟨t - s.lead, t⟩, by rw [hnext, ht]; rfl, found_least ht, ?_⟩
    exact (Int.sub_add_cancel t s.lead).symm

end

/-- An hour ahead of UTC, and two from March to October 2026. -/
def summerZone : Zone where
  off t := if 1774746000 ≤ t ∧ t < 1792890000 then 7200 else 3600
  low t := by split_ifs <;> decide
  high t := by split_ifs <;> decide
  forth t := by split_ifs <;> omega
  back t := by split_ifs <;> omega
  rare s t hlt hs ht := by
    split_ifs at hs ht <;> omega

/-- A zone that went from ten hours behind UTC to fourteen ahead. -/
def skipZone : Zone where
  off t := if t < 1325239200 then -36000 else 50400
  low t := by split_ifs <;> decide
  high t := by split_ifs <;> decide
  forth t := by split_ifs <;> omega
  back t := by split_ifs <;> omega
  rare s t hlt hs ht := by
    split_ifs at hs ht <;> omega

def knownZones (tz : Units) : Option Zone :=
  if tz = text "Europe/Berlin" then some summerZone
  else if tz = text "Pacific/Apia" then some skipZone
  else none

/-- A meeting at midnight before Saturday. -/
def saturdays (tz : String) : RawSchedule where
  enabled := some true
  time := some (text "00:00")
  timeZone := some (text tz)
  weekdays := some [some 6]
  leadMinutes := none
  model := none
  updatedAt := none

def saturdaysIn (timeZone : Zone) : Schedule where
  enabled := true
  time := ⟨(0, 0), by decide⟩
  timeZone := timeZone
  weekdays := ⟨[6], by decide⟩
  leadMinutes := ⟨5, by decide⟩
  model := .auto
  updatedAt := none

/-- A meeting every day, at an hour that a day in March skips and one in October repeats. -/
def nightly : RawSchedule where
  enabled := some true
  time := some (text "02:30")
  timeZone := some (text "Europe/Berlin")
  weekdays := some ((List.range 7).map some)
  leadMinutes := none
  model := none
  updatedAt := none

def nightlyIn : Schedule where
  enabled := true
  time := ⟨(2, 30), by decide⟩
  timeZone := summerZone
  weekdays := ⟨List.range 7, by decide⟩
  leadMinutes := ⟨5, by decide⟩
  model := .auto
  updatedAt := none

/-- The eve of the day without the hour, and the half hour before it comes for the first time. -/
theorem next_brief_summer : TrueNext knownZones (some nightly) nightlyIn 1774728000000 none ∧
    TrueNext knownZones (some nightly) nightlyIn 1792886400000 none := by
  have hskips : ∀ c, summerZone.off c ≠ summerZone.off (c - 1) + 86400 := by
    intro c
    dsimp only [summerZone]
    split_ifs <;> omega
  have hnot : ∀ now, ¬ Overtaken nightlyIn now := fun now ⟨h, _⟩ =>
    absurd ((h 0 (by decide)).trans (h 1 (by decide)).symm) (by decide)
  exact ⟨(next_brief_iff rfl rfl _ _).mpr ⟨hskips, hnot _⟩,
    (next_brief_iff rfl rfl _ _).mpr ⟨hskips, hnot _⟩⟩

/-- A minute before the skip, the only Saturday of the scan starts too soon for its lead. -/
theorem next_brief_skipped : ¬ TrueNext knownZones (some (saturdays "Pacific/Apia"))
    (saturdaysIn skipZone) 1325239140000 none := fun h => by
  obtain ⟨run, hrun, -⟩ := h.next
  revert hrun
  have hnone : nextDailyBriefRun knownZones (some (saturdays "Pacific/Apia")) 1325239140000 = none := by
    decide
  rw [hnone]
  exact fun hrun => nomatch hrun

end Turma.DailyBrief
