import Turma.Archive.Store

/-! One delta of a transcript: the gates it has to pass, the name of a new transcript's file, the
check of the cursor against the file, and the four writes. -/

namespace Turma.Archive

open Turma.Lib Turma.Tenancy JsString

/-- A pushed chunk. A bound that is not a finite number is `none`. -/
structure Chunk where
  host : JsString
  transcriptId : JsString
  data : Json
  startOffset : Option ℚ
  endOffset : Option ℚ
  entries : List Json
  siteKey : JsString

structure ChunkReply where
  bytesStored : ℚ
  full : Bool
  shed : Bool
deriving DecidableEq

def metaTextMax : ℕ := 500

def metaText : Json → Json
  | .null => .null
  | .arr _ => .null
  | .obj _ => .null
  | v => if jsString v = [] then .null else .str ((jsString v).slice metaTextMax)

def normalizeMeta (data : Json) : Meta :=
  let text := fun k => metaText ((data.field (ofString k)).getD .null)
  { remoteKey := text "remoteKey"
    repo := text "repo"
    worktree := text "worktree"
    slug := text "slug"
    createdAt := text "createdAt"
    endedTs := text "endedTs"
    summary := text "summary" }

def nameParts (m : Meta) (host : JsString) : NameParts where
  remoteKey := text? m.remoteKey
  repo := text? m.repo
  createdAt := text? m.createdAt
  endedTs := text? m.endedTs
  summary := text? m.summary
  host := host

def metaPath (relPath : JsString) : JsString := relPath ++ ofString ".meta"

def filesMissing (s : State) (row : Row) (relPath : JsString) : Bool :=
  (0 < row.archiveBytes && (s.files.get? relPath).isNone) ||
    (0 < row.bytesStored && (s.sidecars.get? relPath).isNone)

def renderedBlocked (env : Env) (s : State) (row : Option Row) : Bool :=
  match env.renderedGate, row.bind fun r => r.filePath.map fun p => (r, p) with
  | some gate, some (r, p) => gate p || filesMissing s r p
  | _, _ => false

/-- `relPathOwner`, and whether there is one. -/
def ownedByOther (env : Env) (s : State) (transcriptId relPath : JsString) : Bool :=
  (match s.index.pathOwner relPath with
    | some id => id ≠ [] && id ≠ transcriptId
    | none => false) ||
  (match s.sidecars.get? relPath with
    | some sc => sc.transcriptId ≠ [] && sc.transcriptId ≠ transcriptId
    | none => false) ||
  (match env.renderedGate with
    | some gate => gate relPath
    | none => false)

def relPathProbeMax : ℕ := 1000

def numbered (stem : JsString) (n : ℕ) : JsString :=
  stem ++ .scalar '-' :: (Nat.toDigits 10 n).map .scalar ++ ofString ".jsonl"

def candidates (C : Config) (transcriptId : JsString) (m : NameParts) : List JsString :=
  let base := archiveRelPath C.lower transcriptId m
  let stem := base.take (base.length - 6)
  let idStem := stem ++ .scalar '-' :: slugify C.lower transcriptId (ofString "x")
  base :: (List.range' 2 (relPathProbeMax - 1)).map (numbered stem) ++
    (idStem ++ ofString ".jsonl") ::
      (List.range' 1 relPathProbeMax).map (numbered idStem)

def resolveNewRelPath (C : Config) (env : Env) (s : State) (transcriptId : JsString)
    (m : NameParts) : Option JsString :=
  (candidates C transcriptId m).find? fun p => !ownedByOther env s transcriptId p

def rePoint (row : Option Row) (host : JsString) : Bool :=
  match row.bind Row.host with
  | some h => h ≠ [] && h ≠ host
  | none => false

/-- The org gate: a re-point within one org, or of a row from before there were orgs. -/
def orgGate (row : Option Row) (host pushOrg : JsString) : Bool :=
  match row with
  | none => true
  | some r => !rePoint row host || r.siteKey.isNone ||
      (pushOrg ≠ [] && r.siteKey.getD (ofString "null") = pushOrg)

def tenantGate (row : Option Row) (host : JsString) : Bool :=
  match row.bind Row.host with
  | some h => h = [] || tenantOfHostKey h = tenantOfHostKey host
  | none => true

/-- What a chunk comes down to once it is placed and checked against its file. -/
structure Delta where
  relPath : JsString
  list : List Json
  prevCount : ℕ
  archiveBytes : ℕ

/-- A call of the mirror is best-effort: one that throws on an entry sends nothing. -/
def State.mirror (s : State) (entries : List SearchEntry) (op : IndexOp) : State :=
  if entries.all SearchEntry.stringable = true then { s with indexOps := s.indexOps ++ [op] } else s

/-- `reindexHeld`: the search entries as the file holds them, `none` where one does not bind. -/
def reindexHeld (s : State) (transcriptId : JsString) (lines : List Line) (trim : Bool) :
    Option State :=
  let entries := lines.map fun l => searchEntry l.record
  let s' := s.mirror entries (.seat transcriptId (entries.map mirrorEntry) trim)
  match s.index.mode with
  | .pg => some s'
  | .sqlite =>
    if entries.all SearchEntry.bindable = true then
      some { s' with index := { s.index with
        fts := (s.index.fts.filter fun e => e.1 ≠ transcriptId.toWellFormed) ++
          entries.map fun e => (transcriptId.toWellFormed, e) } }
    else none

def recallSuspicion (s : State) (transcriptId relPath : JsString) : State :=
  if transcriptId ∉ s.unverifiedCursors ∧ 0 < s.sizeAt relPath ∧
      ((s.sidecars.get? relPath).map Sidecar.cursorUnverified).getD false = true then
    { s with unverifiedCursors := transcriptId :: s.unverifiedCursors }
  else s

/-- `entryKey` throws on an entry that is known by a text with no string. -/
def keyThrows (e : Json) : Bool :=
  fieldOrNull e "uuid" = .null && !stringable (fieldOrNull e "text")

/-- The check of the cursor against the file: a chunk for a suspect cursor, or for a file that is
longer than the row knows, loses what the file holds. -/
def checkCursor (s : State) (row : Option Row) (transcriptId relPath : JsString)
    (entries : List Json) : State × Option Delta :=
  let s := recallSuspicion s transcriptId relPath
  let fileSize := s.sizeAt relPath
  let archiveBytes := (row.map Row.archiveBytes).getD 0
  let wasSuspect := decide (transcriptId ∈ s.unverifiedCursors)
  if wasSuspect = true ∨ archiveBytes < fileSize then
    let lines := s.linesAt relPath
    let seated := firstCopies [] lines
    match if wasSuspect = true then some s else reindexHeld s transcriptId seated true with
    | none => (s, none)
    | some s =>
      if entries.any keyThrows = true then (s, none) else
      let fresh := freshEntries (lines.map fun l => entryKey l.record) entries
      let others := s.unverifiedCursors.filter fun id => id ≠ transcriptId
      ({ s with unverifiedCursors := if fresh = [] then transcriptId :: others else others },
        some ⟨relPath, fresh, seated.length, fileSize⟩)
  else (s, some ⟨relPath, entries, (row.map Row.msgCount).getD 0, archiveBytes⟩)

/-- The records of a list, each without its payloads once the budget of the transcript is spent;
with the bytes and the spent budget after them. -/
def shedList (C : Config) : Bool → ℕ → List Json → List Json × ℕ × Bool
  | shed, archiveBytes, [] => ([], archiveBytes, shed)
  | shed, archiveBytes, e :: es =>
    let record := if shed = true then shedFilePayloads (recordOf e) else recordOf e
    let archiveBytes := archiveBytes + lineBytes record
    let shed := shed || (0 < C.transcriptMax && C.transcriptMax ≤ archiveBytes)
    let (records, rest) := shedList C shed archiveBytes es
    (record :: records, rest)

def coalesce (a b : Json) : Json := if a = .null then b else a

/-- The row that a chunk leaves, by the table's upsert or by the map's. -/
def chunkRow (mode : Mode) (prev : Option Row) (c : Chunk) (m : Meta) (pushOrg : JsString)
    (relPath : JsString) (msgCount : ℕ) (bytesStored : ℚ) (archiveBytes : ℕ) (nowIso : JsString) :
    Row where
  transcriptId := c.transcriptId
  host := some c.host
  siteKey := some pushOrg
  data := match mode, prev with
    | _, none => m
    | .sqlite, some p =>
      { m with
        createdAt := coalesce m.createdAt p.data.createdAt
        summary := coalesce m.summary p.data.summary }
    | .pg, some p =>
      { m with
        createdAt := orElse m.createdAt (orNull p.data.createdAt)
        summary := orElse m.summary (orNull p.data.summary) }
  msgCount := msgCount
  bytesStored := bytesStored
  archiveBytes := archiveBytes
  rawBytes := (prev.map Row.rawBytes).getD 0
  filePath := some relPath
  updatedAt := some nowIso

def appendLines (s : State) (c : Chunk) (relPath : JsString) (records : List Json) : State :=
  if records = [] then s
  else
    { s.charge (tenantOfHostKey c.host) (records.map lineBytes).sum with
      files := s.files.upsert relPath fun old =>
        old.getD [] ++ records.map fun r => ⟨r, c.transcriptId⟩
      blobOps := s.blobOps ++ [.write relPath] }

def Index.commitChunk (C : Config) (x : Index) (row : Row) (list : List Json) : Index :=
  match x.mode.stored C.realText row with
  | none => x
  | some row => { x.put row with
      fts := match x.mode with
        | .pg => x.fts
        | .sqlite => x.fts ++ list.map fun e => (row.transcriptId, searchEntry e) }

def chunkSidecar (s : State) (row : Row) (m : Meta) : Sidecar where
  transcriptId := row.transcriptId
  host := row.host
  siteKey := row.siteKey
  data := m
  msgCount := row.msgCount
  bytesStored := row.bytesStored
  archiveBytes := row.archiveBytes
  updatedAt := row.updatedAt
  cursorUnverified := row.transcriptId ∈ s.unverifiedCursors
  dedupPending := row.transcriptId ∈ s.dedupPendingIds
  dedupChecked := none
  dedupKeying := none

def mirrorEntries (s : State) (transcriptId : JsString) (list : List Json) (startSeq : ℕ) : State :=
  if list = [] then s
  else s.mirror (list.map searchEntry)
    (.entries transcriptId (list.map fun e => mirrorEntry (searchEntry e)) startSeq)

def writeChunk (C : Config) (env : Env) (s : State) (c : Chunk) (m : Meta) (pushOrg : JsString)
    (endOffset : ℚ) (d : Delta) : State × Except Unit ChunkReply :=
  let (records, archiveBytes, shed) :=
    shedList C (0 < C.transcriptMax && C.transcriptMax ≤ d.archiveBytes) d.archiveBytes d.list
  -- an entry that is not there throws, and so does one without a string or that does not bind
  if Json.null ∈ d.list ∨ d.list.any (fun e => !stringable (fieldOrNull e "text")) = true ∨
      (s.index.mode = .sqlite ∧ d.list.any (fun e => !(searchEntry e).bindable) = true) then
    (s, .error ())
  else
    let row := chunkRow s.index.mode (s.index.get c.transcriptId) c m pushOrg d.relPath
      (d.prevCount + d.list.length) endOffset archiveBytes env.nowIso
    let sc := chunkSidecar s row m
    let s := appendLines s c d.relPath records
    let s := { s with index := s.index.commitChunk C row d.list }
    let s := s.writeSidecar d.relPath sc false
    let s := s.mirrorSession c.transcriptId
    let s := mirrorEntries s c.transcriptId d.list d.prevCount
    (s, .ok ⟨endOffset, false, shed⟩)

def placeOf (C : Config) (env : Env) (s : State) (row : Option Row) (c : Chunk) (m : Meta) :
    Option JsString :=
  match row.bind Row.filePath with
  | some p => some p
  | none => resolveNewRelPath C env s c.transcriptId (nameParts m c.host)

def storeChunk (C : Config) (env : Env) (s : State) (row : Option Row) (c : Chunk) (m : Meta)
    (endOffset : ℚ) (relPath : JsString) : State × Except Unit ChunkReply :=
  match checkCursor s row c.transcriptId relPath c.entries with
  | (s, none) => (s, .error ())
  | (s, some d) => writeChunk C env s c m (c.siteKey.slice metaTextMax) endOffset d

def cursorOf (row : Option Row) : ℚ := (row.map Row.bytesStored).getD 0

def ingestChunk (C : Config) (env : Env) (s : State) (c : Chunk) : State × Except Unit ChunkReply :=
  let m := (normalizeMeta c.data).map orNull
  let row := s.index.get c.transcriptId
  let refused : Except Unit ChunkReply := .ok ⟨cursorOf row, false, false⟩
  if orgGate row c.host (c.siteKey.slice metaTextMax) = false then (s, refused)
  else if tenantGate row c.host = false then (s, refused)
  else if isTenantPurged env (tenantOfHostKey c.host) = true then (s, refused)
  else if renderedBlocked env s row = true then (s, refused)
  else
    let (s, full) := ceilingRefuses C env (tenantOfHostKey c.host) s
    if full = true then (s, .ok ⟨cursorOf row, true, false⟩)
    else if c.startOffset ≠ some (cursorOf row) then (s, refused)
    else match c.endOffset with
      | none => (s, refused)
      | some endOffset =>
        if endOffset < cursorOf row ∨ maxTranscriptBytes < endOffset then (s, refused)
        else match placeOf C env s row c m with
          | none => (s, refused)
          | some relPath => storeChunk C env s row c m endOffset relPath

end Turma.Archive
