import Turma.Ledger.Series

/-! The hosts map of `usage-ledger.js`, the key that groups the names of one machine, and
several entries merged into one. -/

namespace Turma.Ledger

open Turma.Lib JsString

structure Slot where
  repo : JsString
  remote : JsString
  series : Series

structure Entry where
  device : JsString
  siteKey : JsString
  firstSeen : ℕ
  lastSeen : ℕ
  augments : Bool
  host : Option Series
  repos : OrdMap JsString Slot

abbrev Hosts := OrdMap JsString Entry

structure RepoReport where
  repo : JsString
  remote : JsString
  remoteKey : JsString
  usage : Option Report

structure Record where
  device : JsString
  siteKey : JsString
  usage : Option Report
  repoUsage : List RepoReport

structure ReportedRepo where
  repo : JsString
  remote : JsString
  remoteKey : JsString
  usage : Usage

def reposOf (L : Limits) (list : List RepoReport) : List ReportedRepo :=
  list.filterMap fun r =>
    match r.usage with
    | none => none
    | some u =>
      let repo := boundedName L r.repo
      let remoteKey := if boundedName L r.remoteKey = [] then repo else boundedName L r.remoteKey
      if remoteKey = [] then none
      else some ⟨repo, boundedName L r.remote, remoteKey, usageOf L u⟩

def isHex : CodePoint → Bool
  | .scalar c => decide ('0' ≤ c ∧ c ≤ '9' ∨ 'a' ≤ c ∧ c ≤ 'f')
  | .lone _ => false

/-- The match of `/@([0-9a-f]{32})$/`, empty when there is none. -/
def tenantOfHostKey (key : JsString) : JsString :=
  match key.drop (key.length - 33) with
  | [] => []
  | c :: hex => if c = .scalar '@' ∧ hex.length = 32 ∧ hex.all isHex = true then hex else []

def staticHostAliases : List (JsString × JsString) :=
  [("k8x", "k8x-01"), ("maxai", "maxai-win")].map fun p =>
    (ofString p.1, ofString p.2)

/-- The loop of `find`: from a name to its parent until a name is its own. -/
def findFrom (parent : OrdMap JsString JsString) : ℕ → JsString → JsString
  | 0, x => x
  | n + 1, x =>
    match parent.get? x with
    | none => x
    | some y => if y = x then x else findFrom parent n y

/-- A parent is a smaller name, so the loop passes each name at most once. -/
def find (parent : OrdMap JsString JsString) (x : JsString) : JsString :=
  findFrom parent parent.size x

def union (parent : OrdMap JsString JsString) (a b : JsString) : OrdMap JsString JsString :=
  let ra := find parent a
  let rb := find parent b
  let own (x : JsString) (p : OrdMap JsString JsString) := p.upsert x fun cur => cur.getD x
  if ra = rb then parent
  else if ra.before rb = true then own rb (own ra (parent.upsert rb fun _ => ra))
  else own rb (own ra (parent.upsert ra fun _ => rb))

section

-- `lower` stands for `String.prototype.toLowerCase`.
variable (lower : JsString → JsString)

def setHostAliases (pairs : List (JsString × JsString)) : OrdMap JsString JsString :=
  let parent := (staticHostAliases ++ pairs).foldl (fun p e =>
    if e.1 = [] ∨ e.2 = [] ∨ tenantOfHostKey e.1 ≠ tenantOfHostKey e.2 then p
    else union p (lower e.1) (lower e.2)) .empty
  parent.keys.foldl (fun roots name =>
    if find parent name = name then roots else roots.upsert name fun _ => find parent name) .empty

def foldKey (hostAliasRoots : OrdMap JsString JsString) (raw : JsString) : JsString :=
  let f := lower raw
  let root := match hostAliasRoots.get? f with
    | none => f
    | some r => if r = [] then f else r
  if tenantOfHostKey raw = [] then root
  else tenantOfHostKey raw ++ .scalar '\u0000' :: root

end

structure Merged where
  host : Option Series
  repos : OrdMap JsString Slot
  device : JsString
  siteKey : JsString
  lastSeen : ℤ
  key : JsString

section

variable (L : Limits)

def mergeHost (cur src : Option Series) : Option Series :=
  match src with
  | none => cur
  | some s => some (match cur with
    | none => cloneSeries s
    | some h => mergeSeries L h s)

def mergeSlot (cur : Option Slot) (r : Slot) : Slot :=
  match cur with
  | none => { r with series := cloneSeries r.series }
  | some c =>
    { c with
      series := mergeSeries L c.series r.series
      repo := if r.repo ≠ [] ∧ c.repo = [] then r.repo else c.repo }

def mergeIn (m : Merged) (k : JsString) (e : Entry) : Merged :=
  let m := { m with
    host := mergeHost L m.host e.host
    repos := OrdMap.mergeWith (mergeSlot L) m.repos
      (e.repos.filterKeys fun rk => rk ≠ ofString "__proto__") }
  if m.lastSeen ≤ (e.lastSeen : ℤ) then
    { m with
      lastSeen := e.lastSeen
      device := if e.device = [] then m.device else e.device
      key := k
      siteKey := if e.siteKey = [] then m.siteKey else e.siteKey }
  else if m.siteKey = [] ∧ e.siteKey ≠ [] then { m with siteKey := e.siteKey }
  else m

def mergeKey (hosts : Hosts) (m : Merged) (k : JsString) : Merged :=
  match hosts.get? k with
  | none => m
  | some e => mergeIn L m k e

def mergeEntries (hosts : Hosts) (keys : List JsString) : Merged :=
  let m := keys.foldl (mergeKey L hosts) ⟨none, .empty, [], [], -1, keys.headD []⟩
  { m with lastSeen := max 0 m.lastSeen }

def entryOf (raw : Entry) : Option Entry :=
  let repos := (raw.repos.filterKeys fun k => k ≠ [] ∧ k ≠ ofString "__proto__").mapValues
    fun r => { r with series := seriesOf L r.series }
  let host := raw.host.map (seriesOf L)
  if host.isNone ∧ repos.size = 0 then none
  else some { raw with
    firstSeen := num raw.firstSeen
    lastSeen := num raw.lastSeen
    augments := true
    host := host
    repos := repos }

def mergeTwoSlots (cur : Option Slot) (r : Slot) : Slot :=
  match cur with
  | none => { r with series := cloneSeries r.series }
  | some c => {
    repo := if r.repo ≠ [] ∧ c.repo = [] then r.repo else c.repo
    remote := if r.remote ≠ [] ∧ c.remote = [] then r.remote else c.remote
    series := mergeSeries L c.series r.series }

def earliest (a b : ℕ) : ℕ := if a = 0 then b else if b = 0 then a else min a b

def mergeTwoEntries (dst src : Entry) : Entry :=
  let dst := { dst with
    host := mergeHost L dst.host src.host
    repos := OrdMap.mergeWith (mergeTwoSlots L) dst.repos
      (src.repos.filterKeys fun rk => rk ≠ ofString "__proto__") }
  let dst :=
    if dst.lastSeen ≤ src.lastSeen then
      { dst with
        lastSeen := src.lastSeen
        device := if src.device = [] then dst.device else src.device
        siteKey := if src.siteKey = [] then dst.siteKey else src.siteKey }
    else if dst.siteKey = [] then { dst with siteKey := src.siteKey }
    else dst
  { dst with firstSeen := earliest dst.firstSeen src.firstSeen }

/-- The series of an entry: the host's own under the empty name, a repo's under its key. -/
def Entry.seriesAt (e : Entry) (sid : JsString) : Option Series :=
  if sid = [] then e.host else (e.repos.get? sid).map (·.series)

end

end Turma.Ledger

/-! What is served of the hosts map: a card for each live host, a row for each group of
retired names. -/

namespace Turma.Ledger

open Turma.Lib JsString

/-- A block of history as served, before `render` takes its windows. `merges` lists the ledger
keys whose entries went into it. -/
structure Block where
  merges : List JsString
  usage : Option Series
  repoUsage : OrdMap JsString Slot

section

variable (L : Limits)

def servedSeries (stored : Series) (live : Option Usage) : Series :=
  match live with
  | none => stored
  | some u => absorb L (cloneSeries stored) u

/-- `new Map(reposOf(…).map((r) => [r.remoteKey, r]))`. -/
def liveReposOf (record : Record) : OrdMap JsString ReportedRepo :=
  (reposOf L record.repoUsage).foldl (fun m r => m.upsert r.remoteKey fun _ => r) .empty

def repoBlocks (repos : OrdMap JsString Slot) (liveRepos : OrdMap JsString ReportedRepo) :
    OrdMap JsString Slot :=
  let stored : OrdMap JsString Slot := ⟨repos.entries.map fun e =>
    (e.1, { e.2 with series := servedSeries L e.2.series ((liveRepos.get? e.1).map (·.usage)) }),
    by
      rw [List.map_map]
      exact repos.nodup⟩
  OrdMap.mergeWith (fun _ (r : ReportedRepo) => ⟨r.repo, r.remote, absorb L blankSeries r.usage⟩)
    stored (liveRepos.filterKeys fun k => k ∉ repos.keys)

end

section

variable (lower : JsString → JsString) (hostAliasRoots : OrdMap JsString JsString)
variable (L : Limits) (hosts : Hosts)

def liveTwin (live : List JsString) (key : JsString) : Bool :=
  live.any fun k => decide (k ≠ key ∧
    foldKey lower hostAliasRoots k = foldKey lower hostAliasRoots key)

def foldGroup (live : List JsString) (key : JsString) : List JsString :=
  key :: if liveTwin lower hostAliasRoots live key then []
    else (ownKeys hosts).filter fun k =>
      k ≠ key ∧ foldKey lower hostAliasRoots k = foldKey lower hostAliasRoots key ∧ k ∉ live

def fold (key : JsString) (record : Record) (live : List JsString) : Option Block :=
  match hosts.get? key with
  | none => none
  | some entry =>
    let group := foldGroup lower hostAliasRoots hosts live key
    if group.length = 1 ∧ entry.augments = false then none
    else
      let merged := mergeEntries L hosts group
      let host := if 1 < group.length then merged.host else entry.host
      let repos := if 1 < group.length then merged.repos else entry.repos
      let liveUsage := record.usage.map (usageOf L)
      some ⟨group, host.map fun s => servedSeries L s liveUsage,
        repoBlocks L repos (liveReposOf L record)⟩

end

end Turma.Ledger
