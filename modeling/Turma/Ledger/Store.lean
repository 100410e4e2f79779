import Turma.Lib.Json
import Turma.Ledger.Entry

/-! The file of `usage-ledger.js`: how the hosts map is serialized, held to its bounds, grown
by a beat and written. -/

namespace Turma.Ledger

open Turma.Lib

def jsonKey (s : String) : List Char := jsonString (JsString.ofString s)

def jsonOption {α : Type*} (f : α → List Char) : Option α → List Char
  | none => jsonNull
  | some a => f a

def jsonDay (d : IsoDay) : List Char :=
  let digit (n : ℕ) : Char := (d.val / 10 ^ n % 10).digitChar
  ['"', digit 7, digit 6, digit 5, digit 4, '-', digit 3, digit 2, '-', digit 1, digit 0, '"']

def jsonBucket (b : Bucket) : List Char :=
  jsonObject [(jsonKey "input", jsonNumber (b .input)), (jsonKey "output", jsonNumber (b .output)),
    (jsonKey "cacheWrite", jsonNumber (b .cacheWrite)),
    (jsonKey "cacheRead", jsonNumber (b .cacheRead))]

def jsonSeries (s : Series) : List Char :=
  jsonObject [(jsonKey "pre", jsonBucket s.pre),
    (jsonKey "days", jsonObject (s.days.entries.map fun e => (jsonDay e.1, jsonBucket e.2))),
    (jsonKey "models",
      jsonObject ((ownEntries s.models).map fun e => (jsonString e.1, jsonBucket e.2))),
    (jsonKey "cutoff", jsonOption jsonDay s.cutoff),
    (jsonKey "subagent", jsonOption jsonBucket s.subagent),
    (jsonKey "sessions", jsonNumber s.sessions),
    (jsonKey "lastActivity", jsonOption jsonString s.lastActivity)]

def jsonSlot (r : Slot) : List Char :=
  jsonObject [(jsonKey "repo", jsonString r.repo), (jsonKey "remote", jsonString r.remote),
    (jsonKey "series", jsonSeries r.series)]

def jsonEntry (e : Entry) : List Char :=
  jsonObject [(jsonKey "device", jsonString e.device), (jsonKey "siteKey", jsonString e.siteKey),
    (jsonKey "firstSeen", jsonNumber e.firstSeen), (jsonKey "lastSeen", jsonNumber e.lastSeen),
    (jsonKey "augments", jsonBool e.augments), (jsonKey "host", jsonOption jsonSeries e.host),
    (jsonKey "repos", jsonObject ((ownEntries e.repos).map fun r => (jsonString r.1, jsonSlot r.2)))]

@[irreducible] def serialize (hosts : Hosts) : List Char :=
  jsonObject [(jsonKey "version", jsonNumber 1),
    (jsonKey "hosts",
      jsonObject ((ownEntries hosts).map fun e => (jsonString e.1, jsonEntry e.2)))]

@[irreducible] def entrySize (e : Entry) : ℕ := jsLength (jsonEntry e)

def sizeOf (hosts : Hosts) (key : JsString) : ℕ :=
  match hosts.get? key with
  | none => 0
  | some e => entrySize e

def hostShare (L : Limits) : ℕ :=
  max 65536 (floorDiv (fl (L.ledgerMax * 8106479329266893)) (2 ^ 53 * L.ledgerHosts))

/-- `now > share`. With no hosts allowed the share is infinite. -/
def overShare (L : Limits) (e : Entry) : Bool :=
  decide (L.ledgerHosts ≠ 0 ∧ hostShare L < entrySize e)

def allSeries (e : Entry) : List Series := e.host.toList ++ e.repos.values.map (·.series)

def mapSeries (f : Series → Series) (e : Entry) : Entry :=
  { e with
    host := e.host.map f
    repos := e.repos.mapValues fun r => { r with series := f r.series } }

def trimRounds (L : Limits) (left : Series → Bool) (round : Series → Series) : ℕ → Entry → Entry
  | 0, e => e
  | guard + 1, e =>
    if overShare L e = true ∧ (allSeries e).any left = true then
      trimRounds L left round guard (mapSeries round e)
    else e

def repoTokens (r : Slot) : ℕ := bucketTokens (seriesTotals r.series)

def tokensAt (e : Entry) (k : JsString) : ℕ := ((e.repos.get? k).map repoTokens).getD 0

def dropRepos (L : Limits) : ℕ → Entry → Entry
  | 0, e => e
  | n + 1, e =>
    if overShare L e = true then
      match (ownKeys e.repos).insertionSort fun a b => tokensAt e a ≤ tokensAt e b with
      | [] => e
      | k :: _ => dropRepos L n { e with repos := e.repos.erase k }
    else e

def enforceHostShare (L : Limits) (e : Entry) : Entry :=
  let e := trimRounds L (fun s => decide (0 < s.days.size)) halveDays 40 e
  let e := trimRounds L (fun s => decide (0 < s.models.size)) halveModels 40 e
  dropRepos L e.repos.size e

def trimRepos (L : Limits) (e : Entry) : Entry :=
  let gone := ((ownKeys e.repos).insertionSort fun a b => tokensAt e b ≤ tokensAt e a).drop
    L.ledgerRepos
  { e with repos := e.repos.filterKeys fun k => k ∉ gone }

/-- The entry a beat is raising, and what is known of the beat so far. -/
structure Ingesting where
  entry : Entry
  augments : Bool
  grew : Bool

def ingestHost (L : Limits) (i : Ingesting) (u : Usage) : Ingesting :=
  let s := i.entry.host.getD blankSeries
  { entry := { i.entry with host := some (absorb L s u) }
    augments := i.augments || augments s u
    grew := i.grew || grew s u }

def ingestRepo (L : Limits) (i : Ingesting) (r : ReportedRepo) : Ingesting :=
  let slot := (i.entry.repos.get? r.remoteKey).getD ⟨r.repo, r.remote, blankSeries⟩
  let slot' : Slot := {
    repo := if r.repo = [] then slot.repo else r.repo
    remote := if r.remote = [] then slot.remote else r.remote
    series := absorb L slot.series r.usage }
  { entry := { i.entry with repos := i.entry.repos.upsert r.remoteKey fun _ => slot' }
    augments := i.augments || augments slot.series r.usage
    grew := i.grew || (i.entry.repos.get? r.remoteKey).isNone || grew slot.series r.usage }

def ingestEntry (L : Limits) (entry : Entry) (fresh : Bool) (record : Record) (now : ℕ) : Entry :=
  let repos := reposOf L record.repoUsage
  let entry := { entry with
    lastSeen := now
    device := if record.device = [] then entry.device else record.device
    siteKey := if record.siteKey = [] then entry.siteKey else record.siteKey }
  let i : Ingesting := ⟨entry, false, fresh⟩
  let i := match record.usage with
    | none => i
    | some u => ingestHost L i (usageOf L u)
  let i := repos.foldl (ingestRepo L) i
  let unreported := i.entry.repos.keys.any fun k => decide (k ∉ repos.map (·.remoteKey))
  let entry := trimRepos L i.entry
  let entry := if i.grew = true then enforceHostShare L entry else entry
  { entry with augments := i.augments || unreported }

def ingest (L : Limits) (hosts : Hosts) (key : JsString) (record : Record) (now : ℕ) : Hosts :=
  if key = [] then hosts
  else match hosts.get? key with
    | some entry => hosts.upsert key fun _ => ingestEntry L entry false record now
    | none =>
      if record.usage.isNone ∧ reposOf L record.repoUsage = [] then hosts
      else hosts.upsert key fun _ =>
        ingestEntry L ⟨[], [], now, now, false, none, .empty⟩ true record now

def fromBiggestTenant (hosts : Hosts) (weight : JsString → ℕ)
    (victimFirst : JsString → JsString → Prop) [DecidableRel victimFirst]
    (eligible : JsString → Bool) : Option JsString :=
  let tenants := ((OrdMap.groupBy tenantOfHostKey (ownKeys hosts)).values.map fun held =>
    (held.filter eligible, (held.map weight).sum))
  let big := tenants.foldl (fun (big : Option (List JsString × ℕ)) held =>
    if held.1 = [] then big
    else match big with
      | none => some held
      | some b => if b.2 < held.2 then some held else some b) none
  big.bind fun b => (b.1.insertionSort victimFirst).head?

def liveMs : ℕ := 3600000

def lastSeenOf (hosts : Hosts) (k : JsString) : ℕ := ((hosts.get? k).map (·.lastSeen)).getD 0

def quiet (hosts : Hosts) (now : ℕ) (k : JsString) : Bool :=
  decide (lastSeenOf hosts k + liveMs ≤ now)

def stalest (hosts : Hosts) (now : ℕ) : Option JsString :=
  fromBiggestTenant hosts (fun _ => 1)
    (fun a b => lastSeenOf hosts a ≤ lastSeenOf hosts b)
    (fun k => quiet hosts now k || !(ownKeys hosts).any (quiet hosts now))

def biggest (hosts : Hosts) : Option JsString :=
  fromBiggestTenant hosts (sizeOf hosts) (fun a b => sizeOf hosts b ≤ sizeOf hosts a) fun _ => true

def evict (hosts : Hosts) (victim : Option JsString) : Hosts :=
  match victim with
  | none => hosts
  | some k => hosts.erase k

def evictCount (now : ℕ) : ℕ → Hosts → Hosts
  | 0, hosts => hosts
  | count + 1, hosts => evictCount now count (evict hosts (stalest hosts now))

def fits (L : Limits) (hosts : Hosts) : Bool := decide (jsLength (serialize hosts) ≤ L.ledgerMax)

/-- The biggest hosts trimmed first, until the store fits. -/
def trimBiggest (L : Limits) : List JsString → Hosts → Hosts
  | [], hosts => hosts
  | k :: ks, hosts =>
    let hosts := hosts.adjust k (enforceHostShare L)
    if fits L hosts = true then hosts else trimBiggest L ks hosts

def evictBytes (L : Limits) : ℕ → Hosts → Hosts
  | 0, hosts => hosts
  | n + 1, hosts =>
    if fits L hosts = false ∧ 1 < hosts.size then evictBytes L n (evict hosts (biggest hosts))
    else hosts

def keptHosts (ledgerHosts now : ℕ) (hosts : Hosts) : Hosts :=
  evictCount now (hosts.size - ledgerHosts) hosts

/-- What is done to a store over the byte ceiling: the last host is trimmed once more rather
than a file written that the next boot will refuse. -/
def squeeze (L : Limits) (hosts : Hosts) : Hosts :=
  let hosts := trimBiggest L
    ((ownKeys hosts).insertionSort fun a b => sizeOf hosts b ≤ sizeOf hosts a) hosts
  let hosts := evictBytes L hosts.size hosts
  match ownKeys hosts with
  | [last] => if fits L hosts = true then hosts else hosts.adjust last (enforceHostShare L)
  | _ => hosts

/-- What `evictOverflow` leaves of the hosts; `serialize` of it is the blob it returns. -/
def evictOverflow (L : Limits) (now : ℕ) (hosts : Hosts) : Hosts :=
  if fits L (keptHosts L.ledgerHosts now hosts) = true then keptHosts L.ledgerHosts now hosts
  else squeeze L (keptHosts L.ledgerHosts now hosts)

/-- The gate of `load` on the size of the file: an oversized file is set aside and the ledger
starts empty. -/
def setAside (L : Limits) (file : List Char) : Bool := decide (L.ledgerMax < utf8Length file)

end Turma.Ledger
