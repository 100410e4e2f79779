import Turma.DailyBrief.Narrative

/-! The whitelist of a brief's row: what it keeps of any value, and that it keeps a kept row as it
is. -/

namespace Turma.DailyBrief

open Turma.Lib Turma.Lib.Units List Option

inductive Field
  | runId | status | trigger | meetingAt | dayFrom | weekFrom | untilAt | startedAt | model | host
  | cmdId | sentAt | attempt | tried | generatedAt | day | week | next | error
deriving DecidableEq

/-- A value as far as the whitelist looks into it; a number is `num` where it is whole. -/
inductive Value
  | str (s : Units)
  | num (n : ℤ)
  | arr (vs : List Value)
  | other

def Value.str? : Value → Option Units
  | str s => some s
  | _ => none

/-- An object by its keys; an absent one reads as `other`. -/
abbrev Raw := Field → Value

inductive Trigger
  | scheduled | manual
deriving DecidableEq

/-- What a row holds by its status; an empty section is one that is absent. -/
inductive Outcome
  | running (cmdId : Units) (sentAt attempt : ℤ) (tried : List Units)
  | ok (generatedAt : Option ℤ) (day week next : Units)
  | failed (generatedAt : Option ℤ) (error : Units)
deriving DecidableEq

structure Row where
  runId : Units
  trigger : Trigger
  meetingAt : ℤ
  dayFrom : ℤ
  weekFrom : ℤ
  untilAt : ℤ
  startedAt : ℤ
  model : Units
  host : Option Units
  outcome : Outcome
deriving DecidableEq

def text (s : String) : Units := s.toList.map Char.toNat

def DAILY_BRIEF_TEXT_MAX : ℕ := 2000

def DAILY_BRIEF_ERROR_MAX : ℕ := 300

def MAX_SAFE_INTEGER : ℤ := 2 ^ 53 - 1

/-- `/^[0-9a-f]{1,32}$/`, the form of run and command ids. -/
def hexId (s : Units) : Bool :=
  1 ≤ s.length && s.length ≤ 32 && s.all fun c => (48 ≤ c && c ≤ 57) || (97 ≤ c && c ≤ 102)

def hostOk (s : Units) : Bool := s ≠ [] && s.length ≤ 200

def dbTime : Value → Option ℤ
  | .num n => if 0 < n ∧ n ≤ MAX_SAFE_INTEGER then some n else none
  | _ => none

def triggerOf (v : Value) : Option Trigger :=
  if v.str? = some (text "scheduled") then some .scheduled
  else if v.str? = some (text "manual") then some .manual
  else none

/-- `cleanBriefNarrative` of any value. -/
def narrativeOf (v : Value) (max : ℕ) : Units := cleanBriefNarrative (v.str?.getD []) max

def triedOf : Value → List Units
  | .arr vs => ((vs.filterMap Value.str?).filter hostOk).take 2
  | _ => []

def runningOf (v : Raw) (host : Option Units) (startedAt : ℤ) : Option Outcome :=
  if host = none then none
  else some (.running (((v .cmdId).str?.filter hexId).getD [])
    ((dbTime (v .sentAt)).getD startedAt)
    (match v .attempt with | .num 2 => 2 | _ => 1) (triedOf (v .tried)))

def okOf (v : Raw) : Option Outcome :=
  let day := narrativeOf (v .day) DAILY_BRIEF_TEXT_MAX
  let week := narrativeOf (v .week) DAILY_BRIEF_TEXT_MAX
  let next := narrativeOf (v .next) DAILY_BRIEF_TEXT_MAX
  if day = [] ∧ week = [] ∧ next = [] then none
  else some (.ok (dbTime (v .generatedAt)) day week next)

def noError : Units := text "the brief could not be written"

def failedOf (v : Raw) : Outcome :=
  let error := narrativeOf (v .error) DAILY_BRIEF_ERROR_MAX
  .failed (dbTime (v .generatedAt)) (if error = [] then noError else error)

def outcomeOf (v : Raw) (host : Option Units) (startedAt : ℤ) : Option Outcome :=
  if (v .status).str? = some (text "running") then runningOf v host startedAt
  else if (v .status).str? = some (text "ok") then okOf v
  else if (v .status).str? = some (text "failed") then some (failedOf v)
  else none

def hostOf (v : Raw) : Option Units := (v .host).str?.filter hostOk

def sanitizeDailyBrief (v : Raw) : Option Row := do
  let runId ← (v .runId).str?.filter hexId
  let trigger ← triggerOf (v .trigger)
  let meetingAt ← dbTime (v .meetingAt)
  let dayFrom ← dbTime (v .dayFrom)
  let weekFrom ← dbTime (v .weekFrom)
  let untilAt ← dbTime (v .untilAt)
  let startedAt ← dbTime (v .startedAt)
  let model ← (some (narrativeOf (v .model) 40)).filter (· ≠ [])
  let outcome ← outcomeOf v (hostOf v) startedAt
  return ⟨runId, trigger, meetingAt, dayFrom, weekFrom, untilAt, startedAt, model, hostOf v, outcome⟩

def Trigger.value : Trigger → Value
  | scheduled => .str (text "scheduled")
  | manual => .str (text "manual")

def Outcome.status : Outcome → Value
  | running .. => .str (text "running")
  | ok .. => .str (text "ok")
  | failed .. => .str (text "failed")

def optional (k : Field) : Option Value → List (Field × Value)
  | some v => [(k, v)]
  | none => []

def sectionOf (k : Field) (t : Units) : List (Field × Value) :=
  if t = [] then [] else [(k, .str t)]

def Outcome.members : Outcome → List (Field × Value)
  | running cmdId sentAt attempt tried =>
    [(.cmdId, .str cmdId), (.sentAt, .num sentAt), (.attempt, .num attempt),
      (.tried, .arr (tried.map .str))]
  | ok generatedAt day week next =>
    optional .generatedAt (generatedAt.map .num) ++ sectionOf .day day ++ sectionOf .week week ++
      sectionOf .next next
  | failed generatedAt error =>
    optional .generatedAt (generatedAt.map .num) ++ [(.error, .str error)]

/-- The members of a row in the order in which the whitelist sets them. -/
def Row.members (r : Row) : List (Field × Value) :=
  [(.runId, .str r.runId), (.status, r.outcome.status), (.trigger, r.trigger.value),
    (.meetingAt, .num r.meetingAt), (.dayFrom, .num r.dayFrom), (.weekFrom, .num r.weekFrom),
    (.untilAt, .num r.untilAt), (.startedAt, .num r.startedAt), (.model, .str r.model)] ++
    optional .host (r.host.map .str) ++ r.outcome.members

def Row.raw (r : Row) : Raw := fun k =>
  ((r.members.find? fun m => m.1 = k).map Prod.snd).getD .other

def Time (n : ℤ) : Prop := 0 < n ∧ n ≤ MAX_SAFE_INTEGER

/-- A text that cleaning to `max` leaves as it is. -/
def Cleaned (max : ℕ) (s : Units) : Prop := cleanBriefNarrative s max = s

def Outcome.Kept (host : Option Units) : Outcome → Prop
  | running cmdId sentAt attempt tried =>
    host ≠ none ∧ (cmdId = [] ∨ hexId cmdId = true) ∧ Time sentAt ∧
      (attempt = 1 ∨ attempt = 2) ∧ tried.length ≤ 2 ∧ ∀ h ∈ tried, hostOk h = true
  | ok generatedAt day week next =>
    (∀ t ∈ generatedAt, Time t) ∧ ¬ (day = [] ∧ week = [] ∧ next = []) ∧
      Cleaned DAILY_BRIEF_TEXT_MAX day ∧ Cleaned DAILY_BRIEF_TEXT_MAX week ∧
      Cleaned DAILY_BRIEF_TEXT_MAX next
  | failed generatedAt error =>
    (∀ t ∈ generatedAt, Time t) ∧ error ≠ [] ∧ Cleaned DAILY_BRIEF_ERROR_MAX error

structure Row.Kept (r : Row) : Prop where
  runId : hexId r.runId = true
  meetingAt : Time r.meetingAt
  dayFrom : Time r.dayFrom
  weekFrom : Time r.weekFrom
  untilAt : Time r.untilAt
  startedAt : Time r.startedAt
  model : r.model ≠ [] ∧ Cleaned 40 r.model
  host : ∀ h ∈ r.host, hostOk h = true
  outcome : r.outcome.Kept r.host

theorem dbTime_time {v : Value} {n : ℤ} (h : dbTime v = some n) : Time n := by
  unfold dbTime at h
  split at h
  · split_ifs at h with htime
    rw [← some.inj h]
    exact htime
  · cases h

theorem dbTime_num {n : ℤ} (h : Time n) : dbTime (.num n) = some n := if_pos h

theorem cleaned_narrative (v : Value) {max : ℕ} (hmax : 2 ≤ max) : Cleaned max (narrativeOf v max) :=
  (clean_fixed _ max hmax).1

theorem cleaned_noError : Cleaned DAILY_BRIEF_ERROR_MAX noError := by
  unfold Cleaned
  decide

theorem narrativeOf_str {s : Units} {max : ℕ} (h : Cleaned max s) :
    narrativeOf (.str s) max = s := h

theorem triedOf_kept (v : Value) :
    (triedOf v).length ≤ 2 ∧ ∀ h ∈ triedOf v, hostOk h = true := by
  cases v with
  | arr vs =>
    refine ⟨length_take_le _ _, fun h hh => ?_⟩
    exact (mem_filter.mp (mem_of_mem_take hh)).2
  | _ => exact ⟨Nat.zero_le _, fun h hh => absurd hh (by simp [triedOf])⟩

theorem triedOf_arr {tried : List Units} (hlen : tried.length ≤ 2)
    (hok : ∀ h ∈ tried, hostOk h = true) : triedOf (.arr (tried.map .str)) = tried := by
  have hstr : (tried.map Value.str).filterMap Value.str? = tried := by
    rw [filterMap_map]
    exact filterMap_some
  rw [triedOf, hstr, filter_eq_self.mpr hok, take_of_length_le hlen]

theorem outcomeOf_kept {v : Raw} {startedAt : ℤ} (hstart : Time startedAt) {o : Outcome}
    (h : outcomeOf v (hostOf v) startedAt = some o) : o.Kept (hostOf v) := by
  rw [outcomeOf] at h
  split_ifs at h
  · rw [runningOf] at h
    split_ifs at h with hhost
    cases h
    refine ⟨hhost, ?_, ?_, ?_, triedOf_kept _⟩
    · cases hc : (v .cmdId).str?.filter hexId with
      | none => exact .inl rfl
      | some c => exact .inr (filter_eq_some_iff.mp hc).2
    · cases hs : dbTime (v .sentAt) with
      | none => exact hstart
      | some t => exact dbTime_time hs
    · split
      · exact .inr rfl
      · exact .inl rfl
  · rw [okOf] at h
    split_ifs at h with hany
    cases h
    exact ⟨fun t ht => dbTime_time ht, hany, cleaned_narrative _ (by decide),
      cleaned_narrative _ (by decide), cleaned_narrative _ (by decide)⟩
  · cases h
    refine ⟨fun t ht => dbTime_time ht, ?_, ?_⟩
    · split_ifs with hnone
      · decide
      · exact hnone
    · split_ifs
      · exact cleaned_noError
      · exact cleaned_narrative _ (by decide)

theorem sanitize_kept {v : Raw} {r : Row} (h : sanitizeDailyBrief v = some r) : r.Kept := by
  simp only [sanitizeDailyBrief, bind_eq_bind, bind_eq_some_iff, Option.pure_def,
    some.injEq] at h
  obtain ⟨runId, hrun, trigger, -, meetingAt, hmeeting, dayFrom, hday, weekFrom, hweek, untilAt,
    huntil, startedAt, hstarted, model, hmodel, outcome, houtcome, rfl⟩ := h
  obtain ⟨hmodel, hne⟩ := filter_eq_some_iff.mp hmodel
  refine ⟨(filter_eq_some_iff.mp hrun).2, dbTime_time hmeeting, dbTime_time hday,
    dbTime_time hweek, dbTime_time huntil, dbTime_time hstarted,
    ⟨of_decide_eq_true hne, ?_⟩, fun x hx => (filter_eq_some_iff.mp hx).2,
    outcomeOf_kept (dbTime_time hstarted) houtcome⟩
  rw [← some.inj hmodel]
  exact cleaned_narrative _ (by decide)

section

variable {r : Row}

/-- The value an outcome's members have under a key. -/
def Outcome.value (o : Outcome) (k : Field) : Value :=
  ((o.members.find? fun m => m.1 = k).map Prod.snd).getD .other

theorem raw_host : r.raw .host = (r.host.map Value.str).getD .other := by
  obtain ⟨_, _, _, _, _, _, _, _, host, outcome⟩ := r
  have hnone : outcome.value .host = .other := by
    rcases outcome with _ | ⟨_ | _, day, week, next⟩ | ⟨_ | _, _⟩
    · rfl
    · by_cases hd : day = [] <;> by_cases hw : week = [] <;> by_cases hn : next = [] <;>
        simp [Outcome.value, Outcome.members, optional, sectionOf, hd, hw, hn]
    · by_cases hd : day = [] <;> by_cases hw : week = [] <;> by_cases hn : next = [] <;>
        simp [Outcome.value, Outcome.members, optional, sectionOf, hd, hw, hn]
    · rfl
    · rfl
  cases host with
  | none => exact hnone
  | some x => rfl

/-- Under a key of no common member an object reads as its outcome. -/
theorem raw_outcome {k : Field} (hk : k ∈ [.cmdId, .sentAt, .attempt, .tried, .generatedAt, .day,
    .week, .next, Field.error]) : r.raw k = r.outcome.value k := by
  obtain ⟨_, _, _, _, _, _, _, _, host, outcome⟩ := r
  simp only [mem_cons, not_mem_nil, or_false] at hk
  rcases hk with rfl | rfl | rfl | rfl | rfl | rfl | rfl | rfl | rfl <;> cases host <;> rfl

theorem ok_value (generatedAt : Option ℤ) (day week next : Units) :
    (Outcome.ok generatedAt day week next).value .generatedAt =
        (generatedAt.map Value.num).getD .other ∧
      narrativeOf ((Outcome.ok generatedAt day week next).value .day) DAILY_BRIEF_TEXT_MAX =
        cleanBriefNarrative day DAILY_BRIEF_TEXT_MAX ∧
      narrativeOf ((Outcome.ok generatedAt day week next).value .week) DAILY_BRIEF_TEXT_MAX =
        cleanBriefNarrative week DAILY_BRIEF_TEXT_MAX ∧
      narrativeOf ((Outcome.ok generatedAt day week next).value .next) DAILY_BRIEF_TEXT_MAX =
        cleanBriefNarrative next DAILY_BRIEF_TEXT_MAX := by
  cases generatedAt <;> by_cases hd : day = [] <;> by_cases hw : week = [] <;>
    by_cases hn : next = [] <;>
    simp [Outcome.value, Outcome.members, optional, sectionOf, narrativeOf, Value.str?, hd, hw, hn]

theorem hostOf_raw (h : r.Kept) : hostOf r.raw = r.host := by
  rw [hostOf, raw_host]
  cases hhost : r.host with
  | none => rfl
  | some x => exact filter_eq_some_iff.mpr ⟨rfl, h.host x hhost⟩

theorem dbTime_optional {t : Option ℤ} (h : ∀ n ∈ t, Time n) :
    dbTime ((t.map Value.num).getD .other) = t := by
  cases t with
  | none => rfl
  | some n => exact dbTime_num (h n rfl)

theorem outcomeOf_raw (h : r.Kept) : outcomeOf r.raw r.host r.startedAt = some r.outcome := by
  have hkept := h.outcome
  have hstatus : r.raw .status = r.outcome.status := rfl
  rw [outcomeOf, hstatus]
  cases houtcome : r.outcome with
  | running cmdId sentAt attempt tried =>
    rw [houtcome] at hkept
    obtain ⟨hhost, hcmd, hsent, hattempt, hlen, htried⟩ := hkept
    have hvalue : ∀ k ∈ [.cmdId, .sentAt, .attempt, Field.tried],
        r.raw k = (Outcome.running cmdId sentAt attempt tried).value k := fun k hk => by
      rw [raw_outcome (by revert hk; revert k; decide), houtcome]
    have hid : ((Value.str cmdId).str?.filter hexId).getD [] = cmdId := by
      rcases hcmd with rfl | hcmd
      · rfl
      · exact congrArg (Option.getD · []) (filter_eq_some_iff.mpr ⟨rfl, hcmd⟩)
    have hstr : (Outcome.running cmdId sentAt attempt tried).status.str? =
        some (text "running") := rfl
    rw [hstr, if_pos rfl, runningOf, if_neg hhost, hvalue .cmdId (by simp), hvalue .sentAt (by simp),
      hvalue .attempt (by simp), hvalue .tried (by simp)]
    change some (Outcome.running (((Value.str cmdId).str?.filter hexId).getD [])
      ((dbTime (.num sentAt)).getD r.startedAt) _ (triedOf (.arr (tried.map .str)))) = _
    rw [hid, dbTime_num hsent, triedOf_arr hlen htried]
    rcases hattempt with rfl | rfl <;> rfl
  | ok generatedAt day week next =>
    rw [houtcome] at hkept
    obtain ⟨htime, hany, hday, hweek, hnext⟩ := hkept
    obtain ⟨hg, hd, hw, hn⟩ := ok_value generatedAt day week next
    have hstr : (Outcome.ok generatedAt day week next).status.str? = some (text "ok") := rfl
    rw [hstr, if_neg (by decide), if_pos rfl, okOf, raw_outcome (by decide), raw_outcome (by decide),
      raw_outcome (by decide), raw_outcome (by decide), houtcome, hg, hd, hw, hn,
      dbTime_optional htime, hday, hweek, hnext, if_neg hany]
  | failed generatedAt error =>
    rw [houtcome] at hkept
    obtain ⟨htime, hne, herror⟩ := hkept
    have hstr : (Outcome.failed generatedAt error).status.str? = some (text "failed") := rfl
    have hg : (Outcome.failed generatedAt error).value .generatedAt =
        (generatedAt.map Value.num).getD .other := by cases generatedAt <;> rfl
    have he : (Outcome.failed generatedAt error).value .error = .str error := by
      cases generatedAt <;> rfl
    rw [hstr, if_neg (by decide), if_neg (by decide), if_pos rfl, failedOf, raw_outcome (by decide),
      raw_outcome (by decide), houtcome, hg, he, dbTime_optional htime, narrativeOf_str herror,
      if_neg hne]

theorem triggerOf_value (t : Trigger) : triggerOf t.value = some t := by cases t <;> rfl

/-- A kept row is kept as it is. -/
theorem sanitize_raw (h : r.Kept) : sanitizeDailyBrief r.raw = some r := by
  have hmodel : (some (narrativeOf (r.raw .model) 40)).filter (· ≠ []) = some r.model :=
    filter_eq_some_iff.mpr ⟨congrArg some h.model.2, decide_eq_true h.model.1⟩
  have hrun : (r.raw .runId).str?.filter hexId = some r.runId :=
    filter_eq_some_iff.mpr ⟨rfl, h.runId⟩
  have htime : ∀ {n : ℤ}, Time n → dbTime (.num n) = some n := dbTime_num
  simp only [sanitizeDailyBrief, bind_eq_bind, Option.pure_def]
  rw [hrun, bind_some, show r.raw .trigger = r.trigger.value from rfl, triggerOf_value,
    bind_some, show r.raw .meetingAt = .num r.meetingAt from rfl, htime h.meetingAt,
    bind_some, show r.raw .dayFrom = .num r.dayFrom from rfl, htime h.dayFrom,
    bind_some, show r.raw .weekFrom = .num r.weekFrom from rfl, htime h.weekFrom,
    bind_some, show r.raw .untilAt = .num r.untilAt from rfl, htime h.untilAt,
    bind_some, show r.raw .startedAt = .num r.startedAt from rfl, htime h.startedAt,
    bind_some, hmodel, bind_some, hostOf_raw h, outcomeOf_raw h, bind_some]

end

end Turma.DailyBrief
