import Turma.Archive.Index

/-! The state of the archive: its files, its index and what it keeps in memory; and the entries of
a transcript as they are pushed, filed and searched. -/

namespace Turma.Archive

open Turma.Lib Turma.Tenancy JsString

structure Sidecar where
  transcriptId : JsString
  host : Option JsString
  siteKey : Option JsString
  data : Meta
  msgCount : ℕ
  bytesStored : ℚ
  archiveBytes : ℕ
  updatedAt : Option JsString
  cursorUnverified : Bool
  dedupPending : Bool
  dedupChecked : Option ℕ
  dedupKeying : Option ℕ
deriving DecidableEq

/-- A line of a `.jsonl`, with the transcript it was pushed for, which no function reads. -/
structure Line where
  record : Json
  pushedFor : JsString
deriving DecidableEq

/-- A file of the raw layer: the canonical file it is beside, its transcript and its path. -/
abbrev RawKey := JsString × JsString × JsString

inductive IndexOp
  | session (row : Row)
  | entries (transcriptId : JsString) (list : List SearchEntry) (startSeq : ℕ)
  | seat (transcriptId : JsString) (list : List SearchEntry) (trim : Bool)
  | repair (transcriptId : JsString) (list : List SearchEntry) (msgCount archiveBytes : ℕ)
  | remove (transcriptId : JsString)
deriving DecidableEq

/-- What is queued for the bucket: a written file, or a path to remove with all below it. -/
inductive BlobOp
  | write (path : JsString)
  | remove (path : JsString)
deriving DecidableEq

structure TotalCache where
  measuredAt : ℕ
  bytes : ℕ
deriving DecidableEq

structure State where
  index : Index
  files : OrdMap JsString (List Line)
  sidecars : OrdMap JsString Sidecar
  raw : OrdMap RawKey (List UInt8)
  unverifiedCursors : List JsString
  dedupPendingIds : List JsString
  dedupRepairGen : OrdMap JsString ℕ
  totalCache : TotalCache
  writtenSinceWalk : ℕ
  tenantCache : OrdMap JsString ℕ
  tenantWritten : OrdMap JsString ℕ
  lastReclaimAt : ℕ
  indexOps : List IndexOp
  blobOps : List BlobOp

/-- The limits that the environment sets, and what the archive leaves to the platform. -/
structure Config where
  lower : JsString → JsString
  realText : JsNumber → JsString
  transcriptMax : ℕ
  totalMax : ℕ
  tenantMax : ℕ
  rawTranscriptMax : ℕ
  manifestMax : ℕ
  reclaimMinGap : ℕ

/-- What a call finds around it: the clock, the purged tenants, and under HA what is still in the
bucket only. -/
structure Env where
  now : ℕ
  nowIso : JsString
  purged : JsString → Bool
  renderedGate : Option (JsString → Bool)
  rawPending : RawKey → Bool
  rawPendingBytes : JsString → ℕ

def maxTranscriptBytes : ℕ := 1024 ^ 4

def isTenantPurged (env : Env) (tenant : JsString) : Bool := tenant ≠ [] && env.purged tenant

mutual

/-- `String(v)`. -/
def jsString : Json → JsString
  | .null => ofString "null"
  | .bool b => ofString (if b = true then "true" else "false")
  | .num n => n.text.map .scalar
  | .str s => s
  | .arr .nil => []
  | .arr (.cons v vs) => elementString v ++ elementStrings vs
  | .obj _ => ofString "[object Object]"

/-- An element, as `join` writes it. -/
def elementString : Json → JsString
  | .null => []
  | .bool b => ofString (if b = true then "true" else "false")
  | .num n => n.text.map .scalar
  | .str s => s
  | .arr .nil => []
  | .arr (.cons v vs) => elementString v ++ elementStrings vs
  | .obj _ => ofString "[object Object]"

def elementStrings : JsonElements → JsString
  | .nil => []
  | .cons v vs => .scalar ',' :: elementString v ++ elementStrings vs

end

mutual

/-- Whether `String(v)` returns. It throws on an object with a `toString` of its own, which JSON
cannot make a function. -/
def stringable : Json → Bool
  | .obj ms => ms.toList.all fun m => m.1 ≠ ofString "toString"
  | .arr vs => allStringable vs
  | _ => true

def allStringable : JsonElements → Bool
  | .nil => true
  | .cons v vs => stringable v && allStringable vs

end

/-- `e[k] || null`. -/
def fieldOrNull (e : Json) (k : String) : Json :=
  orNull ((e.field (ofString k)).getD .null)

/-- `String(e.text || "")`, where it returns. -/
def entryText (e : Json) : JsString :=
  match fieldOrNull e "text" with
  | .null => []
  | v => jsString v

/-- `entryKey`, without its `JSON.stringify`. -/
def entryKey (e : Json) : List Json :=
  match fieldOrNull e "uuid" with
  | .null => [.null, fieldOrNull e "role", fieldOrNull e "ts", .str (entryText e)]
  | uuid => [uuid, fieldOrNull e "role", fieldOrNull e "ts"]

def recordOf (e : Json) : Json :=
  let rec' := [(ofString "uuid", fieldOrNull e "uuid"),
    (ofString "role", fieldOrNull e "role"), (ofString "ts", fieldOrNull e "ts"),
    (ofString "text", .str (entryText e))]
  match e.field (ofString "blocks") with
  | some (.arr (.cons v vs)) =>
    .obj (JsonMembers.ofList (rec' ++ [(ofString "blocks", .arr (.cons v vs))]))
  | _ => .obj (JsonMembers.ofList rec')

/-- `o[k] = v`. -/
def setMember (k : String) (v : Json) (ms : List (JsString × Json)) : List (JsString × Json) :=
  OrdMap.upsertEntry (ofString k) (fun _ => v) ms

/-- One file of a block without the payload it has under `k`. -/
def shedPayload (k : String) (ms : List (JsString × Json)) : List (JsString × Json) :=
  match OrdMap.lookup (ofString k) ms with
  | some (.str (_ :: _)) =>
    setMember "shed" (.bool true) (setMember "kind" (.str (ofString "file"))
      (ms.filter fun m => m.1 ≠ ofString k))
  | _ => ms

def shedFile : Json → Json
  | .obj ms => .obj (JsonMembers.ofList (shedPayload "html" (shedPayload "src" ms.toList)))
  | v => v

/-- The member `k`, where it is an array, with `f` done to its elements. -/
def mapElements (k : String) (f : Json → Json) : Json → Json
  | .obj ms => .obj (JsonMembers.ofList (ms.toList.map fun m =>
      if m.1 = ofString k then
        (m.1, match m.2 with
          | .arr vs => .arr (JsonElements.ofList (vs.toList.map f))
          | v => v)
      else m))
  | v => v

def shedFilePayloads (record : Json) : Json :=
  mapElements "blocks" (mapElements "files" shedFile) record

def lineBytes (record : Json) : ℕ := utf8Length (stringify record) + 1

def fileBytes (lines : List Line) : ℕ := (lines.map fun l => lineBytes l.record).sum

/-- What `node:sqlite` can bind. -/
def bindable : Json → Bool
  | .null => true
  | .str _ => true
  | .num _ => true
  | _ => false

/-- The row of `entries_fts` of an entry. -/
def searchEntry (e : Json) : SearchEntry where
  text := entryText e
  uuid := fieldOrNull e "uuid"
  role := fieldOrNull e "role"
  ts := fieldOrNull e "ts"

def SearchEntry.bindable (e : SearchEntry) : Bool :=
  Archive.bindable e.uuid && Archive.bindable e.role && Archive.bindable e.ts

def SearchEntry.stringable (e : SearchEntry) : Bool :=
  Archive.stringable e.uuid && Archive.stringable e.role && Archive.stringable e.ts

def dropNul (s : JsString) : JsString := s.filter fun c => c ≠ .scalar (Char.ofNat 0)

def mirrorStr (v : Json) : Json :=
  if v.truthy = true then .str (dropNul (jsString v)) else .null

def mirrorEntry (e : SearchEntry) : SearchEntry where
  text := dropNul e.text
  uuid := mirrorStr e.uuid
  role := mirrorStr e.role
  ts := mirrorStr e.ts

def mirrorMeta : Json → Json
  | .str s => .str (dropNul s)
  | v => v

def mirrorRow (row : Row) : Row :=
  { row with
    transcriptId := dropNul row.transcriptId
    host := row.host.map dropNul
    siteKey := row.siteKey.map dropNul
    data := row.data.map mirrorMeta
    filePath := row.filePath.map dropNul
    updatedAt := row.updatedAt.map dropNul }

/-- What `dedupLines` keeps: the first copy of each line. -/
def firstCopies (seen : List Json) : List Line → List Line
  | [] => []
  | l :: ls =>
    if l.record ∈ seen then firstCopies seen ls else l :: firstCopies (l.record :: seen) ls

/-- What a chunk has that the held keys do not account for, each of them for one entry. -/
def freshEntries (held : List (List Json)) : List Json → List Json
  | [] => []
  | e :: es =>
    if entryKey e ∈ held then freshEntries (held.erase (entryKey e)) es
    else e :: freshEntries held es

namespace State

/-- The lines of a `.jsonl`, none where it is not there. -/
def linesAt (s : State) (relPath : JsString) : List Line := (s.files.get? relPath).getD []

def sizeAt (s : State) (relPath : JsString) : ℕ := fileBytes (s.linesAt relPath)

/-- `mirrorSession`: the row as it stands now goes to Postgres. -/
def mirrorSession (s : State) (transcriptId : JsString) : State :=
  match s.index.get transcriptId with
  | some row => { s with indexOps := s.indexOps ++ [.session (mirrorRow row)] }
  | none => s

/-- `writeSidecar`, with the note for the bucket unless it is a local one. -/
def writeSidecar (s : State) (relPath : JsString) (sc : Sidecar) (isLocal : Bool) : State :=
  { s with
    sidecars := s.sidecars.upsert relPath fun _ => sc
    blobOps := if isLocal = true then s.blobOps
      else s.blobOps ++ [.write (relPath ++ ofString ".meta")] }

/-- `rawLayerBytes` of the raw directory beside a canonical file. -/
def rawLayerBytes (env : Env) (s : State) (relPath : JsString) : ℕ :=
  ((s.raw.entries.filter fun e => e.1.1 = relPath).map fun e => e.2.length).sum +
    env.rawPendingBytes relPath

end State

/-! The byte ceilings: the walk of the store that they are measured with, what is charged between
two walks, and the index that a walk over a wiped store rebuilds. -/

def tenantOfHost (host : Option JsString) : JsString := tenantOfHostKey (host.getD [])

def sidecarCursor (sc : Sidecar) (fileSize : ℕ) : ℚ :=
  if fileSize < sc.archiveBytes then 0 else sc.bytesStored

def inPurged (env : Env) (relPath : JsString) : Bool := isTenantPurged env (tenantOfRel relPath)

def walkJsonl (env : Env) (s : State) : List JsString :=
  s.files.keys.filter fun p => !inPurged env p

/-- The row that `rebuildIndex` makes of a file. -/
def rebuiltRow (env : Env) (s : State) (relPath : JsString) (sc : Sidecar) : Row where
  transcriptId := sc.transcriptId
  host := sc.host.filter fun h => h ≠ []
  siteKey := sc.siteKey
  data := sc.data.map orNull
  msgCount := (s.linesAt relPath).length
  bytesStored := sidecarCursor sc (s.sizeAt relPath)
  archiveBytes := s.sizeAt relPath
  rawBytes := s.rawLayerBytes env relPath
  filePath := some relPath
  updatedAt := sc.updatedAt.filter fun t => t ≠ []

/-- The suspicion of a transcript as its sidecar and its file have it. -/
def rebuiltSuspicion (s : State) (relPath : JsString) (sc : Sidecar) : List JsString :=
  let others := s.unverifiedCursors.filter fun id => id ≠ sc.transcriptId
  if sc.cursorUnverified = true ∨ sc.archiveBytes ≠ s.sizeAt relPath then
    sc.transcriptId :: others
  else others

/-- The transaction of one file, `none` where a value does not bind. -/
def rebuildEntry (C : Config) (env : Env) (s : State) (relPath : JsString) (sc : Sidecar) :
    Option Index :=
  let entries := (s.linesAt relPath).map fun l => searchEntry l.record
  if entries.all SearchEntry.bindable = true then
    (s.index.mode.stored C.realText (rebuiltRow env s relPath sc)).map fun row =>
      { s.index with
        fts := s.index.fts ++ entries.map fun e => (sc.transcriptId.toWellFormed, e)
        rows := (s.index.rows.erase row.transcriptId).upsert row.transcriptId fun _ => row }
  else none

/-- One file of `rebuildIndex`, and whether the next one is tried. -/
def rebuildFile (C : Config) (env : Env) (s : State) (relPath : JsString) : State × Bool :=
  match s.sidecars.get? relPath with
  | none => (s, true)
  | some sc =>
    if sc.transcriptId = [] ∨ isTenantPurged env (tenantOfHost sc.host) = true then (s, true)
    else
      let s' := { s with unverifiedCursors := rebuiltSuspicion s relPath sc }
      match rebuildEntry C env s relPath sc with
      | some index => ({ s' with index := index }, true)
      | none => (s', false)

/-- The files in turn, as far as they bind. -/
def rebuildFiles (C : Config) (env : Env) : List JsString → State → State
  | [], s => s
  | p :: ps, s =>
    let r := rebuildFile C env s p
    if r.2 = true then rebuildFiles C env ps r.1 else r.1

def rebuildIndex (C : Config) (env : Env) (s : State) : State :=
  match s.index.mode with
  | .pg => s
  | .sqlite =>
    rebuildFiles C env (walkJsonl env s)
      { s with index := { s.index with rows := OrdMap.empty, fts := [] } }

def totalCacheMs : ℕ := 5 * 60 * 1000
def fullRecheckMs : ℕ := 30 * 1000
def reclaimMinIntervalMs : ℕ := 60 * 1000

/-- Whether a walk that found so many files takes the index for one of a wiped store. -/
def reclaimDue (C : Config) (env : Env) (s : State) (files : ℕ) : Bool :=
  let filedRows := s.index.rows.values.countP fun r => r.filePath.isSome
  s.index.mode = .sqlite && s.lastReclaimAt + reclaimMinIntervalMs ≤ env.now &&
    files + C.reclaimMinGap ≤ filedRows && files * 2 < filedRows

def maybeReclaimIndex (C : Config) (env : Env) (s : State) (files : ℕ) : State :=
  if reclaimDue C env s files = true then rebuildIndex C env { s with lastReclaimAt := env.now }
  else s

/-- The tenant rows whose files sit outside their partition, by file and by transcript. -/
structure Legacy where
  files : OrdMap JsString JsString
  ids : OrdMap JsString JsString

def legacyTenantFiles (x : Index) : Legacy :=
  x.rows.values.foldl (fun l r =>
    match r.filePath with
    | none => l
    | some p =>
      if tenantOfHost r.host = [] ∨ tenantOfRel p ≠ [] then l
      else ⟨l.files.upsert p fun _ => tenantOfHost r.host,
        l.ids.upsert r.transcriptId fun _ => tenantOfHost r.host⟩) ⟨.empty, .empty⟩

/-- The tenant that the walk attributes a canonical file to, empty for none. -/
def Legacy.ofFile (l : Legacy) (relPath : JsString) : JsString :=
  if tenantOfRel relPath ≠ [] then tenantOfRel relPath else (l.files.get? relPath).getD []

def Legacy.ofRaw (l : Legacy) (k : RawKey) : JsString :=
  if tenantOfRel k.1 ≠ [] then tenantOfRel k.1 else (l.ids.get? k.2.1).getD []

/-- `m.set(t, (m.get(t) || 0) + n)`, unless there is no tenant. -/
def addTo (m : OrdMap JsString ℕ) (tenant : JsString) (n : ℕ) : OrdMap JsString ℕ :=
  if tenant = [] then m else m.upsert tenant fun old => old.getD 0 + n

def reapPurged (env : Env) (s : State) : State :=
  { s with
    files := s.files.filterKeys fun p => !inPurged env p
    sidecars := s.sidecars.filterKeys fun p => !inPurged env p
    raw := s.raw.filterKeys fun k => !inPurged env k.1 }

def State.storedBytes (s : State) : ℕ :=
  (s.files.values.map fileBytes).sum + (s.raw.values.map List.length).sum

def bytesByTenant (l : Legacy) (s : State) : OrdMap JsString ℕ :=
  s.raw.entries.foldl (fun m e => addTo m (l.ofRaw e.1) e.2.length)
    (s.files.entries.foldl (fun m e => addTo m (l.ofFile e.1) (fileBytes e.2)) OrdMap.empty)

/-- The walk of the store: what it finds is the new baseline. -/
def walked (env : Env) (s : State) : State :=
  let reaped := reapPurged env s
  { reaped with
    totalCache := ⟨env.now, reaped.storedBytes⟩
    writtenSinceWalk := 0
    tenantCache := bytesByTenant (legacyTenantFiles s.index) reaped
    tenantWritten := OrdMap.empty }

/-- `totalArchiveBytes` once the cache is too old. -/
def walkStore (C : Config) (env : Env) (s : State) : State :=
  maybeReclaimIndex C env (walked env s) (walked env s).files.size

def totalArchiveBytes (C : Config) (env : Env) (maxAge : ℕ) (s : State) : State :=
  if env.now < s.totalCache.measuredAt + maxAge then s else walkStore C env s

def State.total (s : State) : ℕ := s.totalCache.bytes + s.writtenSinceWalk

def State.tenantBytes (s : State) (tenant : JsString) : ℕ :=
  s.tenantCache.figure id tenant + s.tenantWritten.figure id tenant

def tenantFull (C : Config) (s : State) (tenant : JsString) : Bool :=
  tenant ≠ [] && 0 < C.tenantMax && C.tenantMax ≤ s.tenantBytes tenant

def totalFull (C : Config) (s : State) : Bool := 0 < C.totalMax && C.totalMax ≤ s.total

def ceilingAge (C : Config) (tenant : JsString) (s : State) : ℕ :=
  if totalFull C s = true ∨ tenantFull C s tenant = true then fullRecheckMs else totalCacheMs

def totalForCeiling (C : Config) (env : Env) (tenant : JsString) (s : State) : State :=
  totalArchiveBytes C env (ceilingAge C tenant s) s

/-- `ceilingRefuses`: the state after the walk that it may take, and its answer. -/
def ceilingRefuses (C : Config) (env : Env) (tenant : JsString) (s : State) : State × Bool :=
  let s := totalForCeiling C env tenant s
  (s, totalFull C s || tenantFull C s tenant)

/-- `chargeTenant`, with the store total. -/
def State.charge (s : State) (tenant : JsString) (n : ℕ) : State :=
  { s with
    writtenSinceWalk := s.writtenSinceWalk + n
    tenantWritten := addTo s.tenantWritten tenant n }

end Turma.Archive
