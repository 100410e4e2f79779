import Turma.Lib.Run
import Turma.Ledger.Store

/-! The four Postgres tables of `usage-ledger-store.js`, the statements that `_writeEntry`
sends to them and the read that `_scan` makes of them. A token column holds the number that
its text reads back as. -/

namespace Turma.LedgerStore

open Turma.Lib Turma.Ledger

/-- The `day` column: a date, or one of the sentinels `__pre__` and `__sub__`. -/
inductive DayId
  | date (d : IsoDay)
  | pre
  | sub
deriving DecidableEq

structure HostRow where
  device : JsString
  siteKey : JsString
  firstSeen : Option ℕ
  lastSeen : ℕ

structure SeriesRow where
  repo : JsString
  remote : JsString
  cutoff : Option IsoDay
  sessions : ℕ
  lastActivity : Option JsString

abbrev DayKey := JsString × JsString × DayId × TokenKey

abbrev ModelKey := JsString × JsString × JsString × TokenKey

structure Tables where
  usageHost : OrdMap JsString HostRow
  usageSeries : OrdMap (JsString × JsString) SeriesRow
  usageDay : OrdMap DayKey ℕ
  usageModel : OrdMap ModelKey ℕ

def Tables.empty : Tables := ⟨.empty, .empty, .empty, .empty⟩

inductive Statement
  | upsertHost (rows : List (JsString × HostRow))
  | upsertSeries (rows : List ((JsString × JsString) × SeriesRow))
  | upsertDay (rows : List (DayKey × ℕ))
  | upsertModel (rows : List (ModelKey × ℕ))
  | deleteDays (host series : JsString) (cutoff : IsoDay)

def setRow {α : Type} (set : α → α → α) (new : α) : Option α → α
  | none => new
  | some old => set old new

/-- `INSERT … ON CONFLICT DO UPDATE SET`. -/
def upsertRows {κ α : Type} [DecidableEq κ] (set : α → α → α) (rows : List (κ × α))
    (table : OrdMap κ α) : OrdMap κ α :=
  rows.foldl (fun t r => t.upsert r.1 (setRow set r.2)) table

/-- `GREATEST` of two texts, a null counting as nothing. -/
def greatestText (a b : Option JsString) : Option JsString :=
  match a, b with
  | none, b => b
  | a, none => a
  | some a, some b => some (if a.before b = true then b else a)

/-- `LEAST(NULLIF(a, 0), NULLIF(b, 0))`. -/
def leastNonzero (a b : Option ℕ) : Option ℕ :=
  match a.filter fun n => n ≠ 0, b.filter fun n => n ≠ 0 with
  | none, b => b
  | a, none => a
  | some a, some b => some (min a b)

/-- `COALESCE(NULLIF(b, ''), a)`. -/
def label (a b : JsString) : JsString := if b = [] then a else b

def setHost (old new : HostRow) : HostRow where
  device := label old.device new.device
  siteKey := label old.siteKey new.siteKey
  firstSeen := leastNonzero old.firstSeen new.firstSeen
  lastSeen := max old.lastSeen new.lastSeen

def setSeries (old new : SeriesRow) : SeriesRow where
  repo := label old.repo new.repo
  remote := label old.remote new.remote
  cutoff := laterCutoff old.cutoff new.cutoff
  sessions := max old.sessions new.sessions
  lastActivity := greatestText old.lastActivity new.lastActivity

def Statement.apply (T : Tables) : Statement → Tables
  | .upsertHost rows => { T with usageHost := upsertRows setHost rows T.usageHost }
  | .upsertSeries rows => { T with usageSeries := upsertRows setSeries rows T.usageSeries }
  | .upsertDay rows => { T with usageDay := upsertRows max rows T.usageDay }
  | .upsertModel rows => { T with usageModel := upsertRows max rows T.usageModel }
  | .deleteDays host series cutoff => { T with
      usageDay := T.usageDay.filterKeys fun k =>
        match k.2.2.1 with
        | .date d => !(decide (k.1 = host ∧ k.2.1 = series ∧ d ≤ cutoff))
        | _ => true }

def Tables.after (T : Tables) (statements : List Statement) : Tables :=
  run Statement.apply T statements

/-- The series that `addSeries` is called for. -/
def entrySeries (e : Entry) : List (JsString × Slot) :=
  (e.host.map fun s => (([] : JsString), (⟨[], [], s⟩ : Slot))).toList ++
    (ownEntries e.repos).filter fun r => r.1 ≠ JsString.ofString "__proto__"

def bucketRows (key sid : JsString) (day : DayId) (b : Bucket) : List (DayKey × ℕ) :=
  (tokenKeys.filter fun tk => b tk ≠ 0).map fun tk => ((key, sid, day, tk), b tk)

def dayRows (key sid : JsString) (s : Series) : List (DayKey × ℕ) :=
  s.days.entries.flatMap (fun e => bucketRows key sid (.date e.1) e.2) ++
    bucketRows key sid .pre s.pre ++ s.subagent.toList.flatMap (bucketRows key sid .sub)

def modelRows (key sid : JsString) (s : Series) : List (ModelKey × ℕ) :=
  (ownEntries s.models).flatMap fun e =>
    (tokenKeys.filter fun tk => e.2 tk ≠ 0).map fun tk => ((key, sid, e.1, tk), e.2 tk)

def hostRows (key : JsString) (e : Entry) : List (JsString × HostRow) :=
  [(key, ⟨e.device, e.siteKey, some e.firstSeen, e.lastSeen⟩)]

def seriesRow (r : Slot) : SeriesRow :=
  ⟨r.repo, r.remote, r.series.cutoff, r.series.sessions, r.series.lastActivity.filter (· ≠ [])⟩

def seriesRows (key : JsString) (e : Entry) : List ((JsString × JsString) × SeriesRow) :=
  (entrySeries e).map fun r => ((key, r.1), seriesRow r.2)

def maxParams : ℕ := 60000

/-- The chunks of `_upsert`, for rows of `columns` columns. -/
def chunks {α : Type} (columns : ℕ) (rows : List α) : List (List α) :=
  let perChunk := max 1 (maxParams / columns)
  (List.range ((rows.length + perChunk - 1) / perChunk)).map fun i =>
    (rows.drop (i * perChunk)).take perChunk

/-- What `_writeEntry` sends, one statement after another. -/
def statements (key : JsString) (e : Entry) : List Statement :=
  (chunks 5 (hostRows key e)).map .upsertHost ++
    (chunks 7 (seriesRows key e)).map .upsertSeries ++
    (chunks 5 ((entrySeries e).flatMap fun r => dayRows key r.1 r.2.series)).map .upsertDay ++
    (chunks 5 ((entrySeries e).flatMap fun r => modelRows key r.1 r.2.series)).map .upsertModel ++
    (entrySeries e).filterMap fun r => r.2.series.cutoff.map fun c => .deleteDays key r.1 c

/-- A complete `_writeEntry`. -/
def writeEntry (L : Limits) (T : Tables) (key : JsString) (e : Entry) : Tables :=
  T.after (statements key (enforceHostShare L e))

structure HostRead where
  device : JsString
  siteKey : JsString
  firstSeen : ℕ
  lastSeen : ℕ
  series : OrdMap JsString Slot

def blankHost : HostRead := ⟨[], [], 0, 0, .empty⟩

def blankSlot : Slot := ⟨[], [], blankSeries⟩

/-- `f(ensureHost(h))`. -/
def atHost (h : JsString) (f : HostRead → HostRead) (hosts : OrdMap JsString HostRead) :
    OrdMap JsString HostRead :=
  hosts.upsert h fun e => f (e.getD blankHost)

/-- `f(ensureSeries(ensureHost(h), sid))`. -/
def atSeries (h sid : JsString) (f : Slot → Slot) (hosts : OrdMap JsString HostRead) :
    OrdMap JsString HostRead :=
  atHost h (fun e => { e with series := e.series.upsert sid fun sr => f (sr.getD blankSlot) }) hosts

def readHostRow (hosts : OrdMap JsString HostRead) (r : JsString × HostRow) :
    OrdMap JsString HostRead :=
  atHost r.1 (fun e => { e with
    device := r.2.device
    siteKey := r.2.siteKey
    firstSeen := r.2.firstSeen.getD 0
    lastSeen := r.2.lastSeen }) hosts

def readSeries (r : SeriesRow) (sr : Slot) : Slot :=
  ⟨r.repo, r.remote, { sr.series with
    cutoff := r.cutoff
    sessions := r.sessions
    lastActivity := r.lastActivity.filter (· ≠ []) }⟩

def readSeriesRow (hosts : OrdMap JsString HostRead) (r : (JsString × JsString) × SeriesRow) :
    OrdMap JsString HostRead :=
  atSeries r.1.1 r.1.2 (readSeries r.2) hosts

def setToken (b : Bucket) (tk : TokenKey) (tokens : ℕ) : Bucket :=
  fun k => if k = tk then tokens else b k

def readDay (day : DayId) (tk : TokenKey) (tokens : ℕ) (sr : Slot) : Slot :=
  match day with
  | .pre => { sr with series := { sr.series with
      pre := setToken sr.series.pre tk (sr.series.pre tk + tokens) } }
  | .sub => { sr with series := { sr.series with
      subagent := some (setToken (sr.series.subagent.getD blankBucket) tk tokens) } }
  | .date d =>
    if inPre sr.series.cutoff d = true then sr
    else { sr with series := { sr.series with
      days := sr.series.days.upsert d fun b => setToken (b.getD blankBucket) tk tokens } }

def readDayRow (hosts : OrdMap JsString HostRead) (r : DayKey × ℕ) : OrdMap JsString HostRead :=
  atSeries r.1.1 r.1.2.1 (readDay r.1.2.2.1 r.1.2.2.2 r.2) hosts

def readModel (m : JsString) (tk : TokenKey) (tokens : ℕ) (sr : Slot) : Slot :=
  if m ∈ inherited then sr
  else { sr with series := { sr.series with
    models := sr.series.models.upsert m fun b => setToken (b.getD blankBucket) tk tokens } }

def readModelRow (hosts : OrdMap JsString HostRead) (r : ModelKey × ℕ) : OrdMap JsString HostRead :=
  atSeries r.1.1 r.1.2.1 (readModel r.1.2.2.1 r.1.2.2.2 r.2) hosts

/-- The four `SELECT`s, each of them of the tables as it found them. -/
def readAll (T₁ T₂ T₃ T₄ : Tables) : OrdMap JsString HostRead :=
  let hosts := T₁.usageHost.entries.foldl readHostRow .empty
  let hosts := T₂.usageSeries.entries.foldl readSeriesRow hosts
  let hosts := T₃.usageDay.entries.foldl readDayRow hosts
  T₄.usageModel.entries.foldl readModelRow hosts

def rawEntry (e : HostRead) : Entry :=
  ⟨e.device, e.siteKey, e.firstSeen, e.lastSeen, false, (e.series.get? []).map (·.series),
    e.series.filterKeys fun s => s ≠ []⟩

/-- One host of the scan: its row set coerced, and merged into the entry that is there. -/
def scanHost (L : Limits) (hosts : Hosts) (r : JsString × HostRead) : Hosts :=
  match entryOf L (rawEntry r.2) with
  | none => hosts
  | some peer => hosts.upsert r.1 fun cur =>
    match cur with
    | none => peer
    | some entry => mergeTwoEntries L entry peer

def scan (L : Limits) (hosts : Hosts) (rawByHost : OrdMap JsString HostRead) : Hosts :=
  rawByHost.entries.foldl (scanHost L) hosts

end Turma.LedgerStore
