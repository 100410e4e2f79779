import Turma.Lib.JsonValue
import Turma.Lib.OrdMap
import Turma.Tenancy.HostKey

/-! The rows of the outcome ledger: one for each ticket session, live or shadow. -/

namespace Turma.OutcomeLedger

open Turma.Lib

inductive PrState
  | opened
  | merged
  | closed
  | draft
deriving DecidableEq

structure Pr where
  url : JsString
  state : Option PrState
  mergedAt : Option ℕ
  closedAt : Option ℕ
  mergeCommit : Option JsString
  ciRounds : Option ℕ
  changesRequested : Option ℕ
deriving DecidableEq

structure Qa where
  runs : ℕ
  pass : ℕ
  partials : ℕ
  fail : ℕ
  incomplete : Bool
deriving DecidableEq

inductive CloseKind
  | done
  | notReproducible
  | alreadyFixed
deriving DecidableEq

inductive DefectKind
  | bug
  | revert
deriving DecidableEq

structure Defect where
  fix : JsString
  kind : DefectKind
  time : ℕ
  prs : List JsString
deriving DecidableEq

inductive ShadowState
  | running
  | grading
  | graded
  | failed
deriving DecidableEq

inductive Verdict
  | good
  | bad
deriving DecidableEq

inductive TestsGrade
  | pass
  | fail
  | none
deriving DecidableEq

inductive QaGrade
  | pass
  | partly
  | fail
  | none
deriving DecidableEq

inductive DesignGrade
  | better
  | same
  | worse
deriving DecidableEq

structure Grade where
  verdict : Verdict
  tests : Option TestsGrade
  qa : Option QaGrade
  design : Option DesignGrade
  note : JsString
  time : Option ℕ
deriving DecidableEq

inductive ShadowDecision
  | skipped (time : ℕ)
  | sampled (time : ℕ) (id model host : JsString)
deriving DecidableEq

inductive RowKind
  | live (shadow : Option ShadowDecision)
  | shadow (pairOf : JsString) (state : Option ShadowState) (grade : Option Grade)
deriving DecidableEq

/-- An empty `repo` or `runtime` stands for none. -/
structure Row where
  site : JsString
  issue : JsString
  host : JsString
  sid : JsString
  cls : JsString
  model : JsString
  firstSeen : ℕ
  updatedAt : ℕ
  modelKnown : Bool
  modelGuess : Bool
  repo : JsString
  runtime : JsString
  startedAt : Option ℕ
  endedAt : Option ℕ
  doneAt : Option ℕ
  reopenedAt : Option ℕ
  closeKind : Option CloseKind
  prs : List Pr
  qa : Option Qa
  defects : List Defect
  kind : RowKind
deriving DecidableEq

def rowKey (site issue host sid : JsString) : JsString :=
  (stringify (.arr (.cons (.str site) (.cons (.str issue) (.cons (.str host)
    (.cons (.str sid) .nil)))))).map .scalar

def Row.key (r : Row) : JsString := rowKey r.site r.issue r.host r.sid

/-! Eviction from the outcome ledger: rows past retention, rows of a host over its share, and then
units, a live row with its shadows, of whichever org holds the most. -/

/-- `MAX_ROWS`, `HOST_MAX_ROWS` and `RETAIN_DAYS`. -/
structure Limits where
  maxRows : ℕ
  hostMaxRows : ℕ
  retainDays : ℕ

def dayMs : ℕ := 86400000

/-- The map `rows`, in which every row stands under its own key. -/
structure RowMap where
  list : List Row
  nodup : (list.map Row.key).Nodup

/-- The keys of the rows that were reported in this sweep, and of those created in it. -/
structure Sweep where
  reported : List JsString
  created : List JsString

def rowTenant (r : Row) : JsString := Tenancy.tenantOfHostKey r.host

def Row.isShadow (r : Row) : Bool :=
  match r.kind with
  | .live _ => false
  | .shadow .. => true

/-- The key of the live row that a shadow is paired with; a live row has none. -/
def Row.pairOf (r : Row) : JsString :=
  match r.kind with
  | .live _ => []
  | .shadow pairOf .. => pairOf

def keep (sweep : Option Sweep) (r : Row) : ℕ :=
  match sweep with
  | none => 0
  | some sweep =>
    if r.isShadow = true then 2
    else if r.key ∉ sweep.reported then 0
    else if r.key ∈ sweep.created then 1
    else 2

/-- `victimFirst(a, b) <= 0`. -/
def victimFirst (sweep : Option Sweep) (a b : Row) : Bool :=
  keep sweep a < keep sweep b || (keep sweep a = keep sweep b && a.updatedAt ≤ b.updatedAt)

structure HostPass where
  dropped : List JsString
  goneLive : List JsString

def without (rows : List Row) (ks : List JsString) : List Row := rows.filter fun r => r.key ∉ ks

def bereft (s : HostPass) (e : (Bool × JsString) × List Row) : List Row :=
  if e.1.1 = true ∧ s.goneLive ≠ [] then
    (without e.2 s.dropped).filter fun r => r.pairOf ∈ s.goneLive
  else []

def overShare (L : Limits) (sweep : Option Sweep) (list : List Row) : List Row :=
  (list.mergeSort (victimFirst sweep)).take (list.length - L.hostMaxRows)

/-- One list of `byHost`. -/
def capHost (L : Limits) (sweep : Option Sweep) (s : HostPass)
    (e : (Bool × JsString) × List Row) : HostPass :=
  let dropped := s.dropped ++ (bereft s e).map Row.key
  let list := without e.2 dropped
  if list.length ≤ L.hostMaxRows then { s with dropped := dropped }
  else
    let victims := overShare L sweep list
    { dropped := dropped ++ victims.map Row.key
      goneLive := s.goneLive ++ (victims.filter fun r => !r.isShadow).map Row.key }

def expired (L : Limits) (now : ℕ) (r : Row) : Bool := r.updatedAt + L.retainDays * dayMs < now

/-- `byHost`, its live lists before its shadow lists. -/
def hostLists (rows : List Row) : List ((Bool × JsString) × List Row) :=
  let byHost := (OrdMap.groupBy (fun r => (r.isShadow, r.host)) rows).entries
  (byHost.filter fun e => !e.1.1) ++ byHost.filter fun e => e.1.1

def hostPass (L : Limits) (now : ℕ) (sweep : Option Sweep) (rows : List Row) : HostPass :=
  let old := (rows.filter (expired L now)).map Row.key
  (hostLists (rows.filter fun r => !expired L now r)).foldl (capHost L sweep) ⟨old, old⟩

structure Draft where
  head : Option Row
  rows : List Row
  orphan : Bool

structure Unit where
  head : Row
  rows : List Row
  orphan : Bool
deriving DecidableEq

def paired (rows : List Row) (r : Row) : Bool := rows.any fun q => q.key = r.pairOf && !q.isShadow

def addToUnits (rows : List Row) (units : OrdMap JsString Draft) (r : Row) : OrdMap JsString Draft :=
  if r.isShadow = false then
    units.upsert r.key fun u =>
      u.elim ⟨some r, [r], false⟩ fun u => { u with head := some r, rows := u.rows ++ [r] }
  else if paired rows r = true then
    units.upsert r.pairOf fun u =>
      u.elim ⟨none, [r], false⟩ fun u => { u with rows := u.rows ++ [r] }
  else units.upsert r.key fun _ => ⟨some r, [r], true⟩

def draftsOf (rows : List Row) : OrdMap JsString Draft := rows.foldl (addToUnits rows) .empty

/-- Reading `u.head.site` throws where there is no head. -/
def Draft.unit (d : Draft) : Option Unit := d.head.map fun head => ⟨head, d.rows, d.orphan⟩

structure Org where
  tenant : JsString
  site : JsString
  units : List Unit
  n : ℕ
deriving DecidableEq

/-- `unitVictimFirst(a, b) <= 0`. -/
def unitVictimFirst (sweep : Option Sweep) (a b : Unit) : Bool :=
  if a.orphan = b.orphan then victimFirst sweep a.head b.head else a.orphan

def unitRows (units : List Unit) : List Row := units.flatMap Unit.rows

def orgsOf (sweep : Option Sweep) (units : List Unit) : List Org :=
  (OrdMap.groupBy (fun u => (rowTenant u.head, u.head.site)) units).entries.map fun e =>
    { tenant := e.1.1
      site := e.1.2
      units := e.2.mergeSort fun a b => unitVictimFirst sweep b a
      n := (unitRows e.2).length }

def tenantRowsOf (units : List Unit) (t : JsString) : ℕ :=
  (unitRows (units.filter fun u => rowTenant u.head = t)).length

def Org.next (sweep : Option Sweep) (org : Org) : ℕ :=
  (org.units.getLast?.map fun u => keep sweep u.head).getD 0

/-- The loop that looks for `big`. -/
def bigOrg (sweep : Option Sweep) (tenantRows : JsString → ℕ) (orgs : List Org) : Option Org :=
  orgs.foldl (fun big org =>
    if org.units = [] then big
    else
      match big with
      | none => some org
      | some b =>
        let t := tenantRows org.tenant
        let bt := tenantRows b.tenant
        if bt < t ∨ (t = bt ∧ (b.n < org.n ∨
            (org.n = b.n ∧ org.next sweep < b.next sweep))) then some org
        else some b) none

def Org.pop (org : Org) (u : Unit) : Org :=
  { org with units := org.units.dropLast, n := org.n - u.rows.length }

/-- The `while` of the org pass: the keys that it drops, and `none` where it would throw or has not
come to its end. -/
def shed (sweep : Option Sweep) : ℕ → ℕ → List Org → (JsString → ℕ) → Option (List JsString)
  | _, 0, _, _ => some []
  | 0, _ + 1, _, _ => none
  | fuel + 1, n + 1, orgs, tenantRows =>
    (bigOrg sweep tenantRows orgs).bind fun big =>
      big.units.getLast?.bind fun u =>
        (shed sweep fuel (n + 1 - u.rows.length)
          (orgs.map fun org =>
            if org.tenant = big.tenant ∧ org.site = big.site then org.pop u else org)
          (Function.update tenantRows big.tenant (tenantRows big.tenant - u.rows.length))).map
            (u.rows.map Row.key ++ ·)

def orgPass (L : Limits) (sweep : Option Sweep) (rows : List Row) : Option (List JsString) :=
  if rows.length ≤ L.maxRows then some []
  else
    ((draftsOf rows).values.mapM Draft.unit).bind fun units =>
      shed sweep rows.length (rows.length - L.maxRows) (orgsOf sweep units) (tenantRowsOf units)

def RowMap.without (m : RowMap) (ks : List JsString) : RowMap where
  list := OutcomeLedger.without m.list ks
  nodup := m.nodup.sublist (List.filter_sublist.map _)

/-- The map that is left and the keys returned, or `none` where the call throws. -/
def evict (L : Limits) (now : ℕ) (sweep : Option Sweep) (m : RowMap) :
    Option (RowMap × List JsString) :=
  let dropped := (hostPass L now sweep m.list).dropped
  (orgPass L sweep (m.without dropped).list).map fun ks => (m.without (dropped ++ ks), dropped ++ ks)

end Turma.OutcomeLedger
