import Turma.Archive.Ingest
import Turma.Lib.Run

/-! The other calls of the archive: the raw layer, the placeholders of manifests and inventories,
the two changes of owner and the purge of a tenant; and the archive taking one call after the
other. -/

namespace Turma.Archive

open Turma.Lib Turma.Tenancy

structure RawPush where
  host : JsString
  transcriptId : JsString
  rel : JsString
  start : Option ℚ
  buf : List UInt8

structure RawReply where
  stored : ℕ
  full : Bool
  skip : Bool
deriving DecidableEq

def State.rawSize (s : State) (k : RawKey) : ℕ := ((s.raw.get? k).map List.length).getD 0

def Index.countRaw (x : Index) (row : Row) (transcriptId : JsString) (rawBytes : ℕ)
    (nowIso : JsString) : Index :=
  let counted := fun r : Row => { r with rawBytes := rawBytes, updatedAt := some nowIso }
  match x.mode with
  | .pg => x.put (counted row)
  -- the `UPDATE` finds no row where the walk has dropped it
  | .sqlite => { x with rows := x.rows.adjust transcriptId.toWellFormed counted }

/-- The write of `ingestRaw`: the file, the charge and the row. -/
def writeRaw (env : Env) (s : State) (row : Row) (k : RawKey) (path : JsString)
    (buf : List UInt8) (rawBytes : ℕ) : State :=
  let s : State := { s.charge (tenantOfHost row.host) buf.length with
    raw := s.raw.upsert k fun old => old.getD [] ++ buf
    blobOps := s.blobOps ++ [BlobOp.write path] }
  let s := { s with
    index := s.index.countRaw row k.2.1 (rawBytes + buf.length) env.nowIso }
  s.mirrorSession k.2.1

def ingestRaw (C : Config) (env : Env) (s : State) (p : RawPush) : State × RawReply :=
  match s.index.get p.transcriptId with
  | none => (s, ⟨0, false, true⟩)
  | some row =>
    match row.filePath with
    | none => (s, ⟨0, false, true⟩)
    | some relPath =>
      if row.host = none ∨ row.host = some [] ∨ row.host ≠ some p.host then (s, ⟨0, false, true⟩)
      else match rawFilePath relPath p.transcriptId p.rel with
        | none => (s, ⟨0, false, true⟩)
        | some path =>
          let k : RawKey := (relPath, p.transcriptId, p.rel)
          let stored := s.rawSize k
          if env.rawPending k = true then (s, ⟨0, false, true⟩)
          else if p.start ≠ some (stored : ℚ) then (s, ⟨stored, false, false⟩)
          else if p.buf = [] then (s, ⟨stored, false, false⟩)
          else if maxTranscriptBytes < stored + p.buf.length then (s, ⟨stored, false, true⟩)
          else
            let (s, full) := ceilingRefuses C env (tenantOfHostKey p.host) s
            if full = true then (s, ⟨stored, true, false⟩)
            else
              let rawBytes := s.rawLayerBytes env relPath
              if 0 < C.rawTranscriptMax ∧ C.rawTranscriptMax ≤ rawBytes then (s, ⟨stored, false, true⟩)
              else (writeRaw env s row k path p.buf rawBytes, ⟨stored + p.buf.length, false, false⟩)

structure Offer where
  transcriptId : JsString
  data : Meta

/-- An entry of an inventory: its rendered size and its raw total, `none` where they are not
finite numbers. -/
structure Held where
  i : JsString
  s : Option ℚ
  r : Option ℚ

/-- `newSessionRow` of a placeholder. -/
def placeholder (transcriptId host pushOrg : JsString) (data : Meta) (nowIso : JsString) : Row where
  transcriptId := transcriptId
  host := some host
  siteKey := some pushOrg
  data := data
  msgCount := 0
  bytesStored := 0
  archiveBytes := 0
  rawBytes := 0
  filePath := none
  updatedAt := some nowIso

/-- The index with the rows of a list that were not there, the cursors of the list and the new
ids; `none` where a value does not bind. -/
structure Cursors where
  index : Index
  have' : OrdMap JsString ℚ
  created : List JsString

def Cursors.report (k : Cursors) (id : JsString) (cursor : ℚ) : Cursors :=
  { k with have' := k.have'.upsert id fun _ => cursor }

def Cursors.create (C : Config) (k : Cursors) (row : Row) : Option Cursors :=
  (k.index.mode.stored C.realText row).map fun stored =>
    { k with index := k.index.put stored, created := k.created ++ [row.transcriptId] }

def offerStep (C : Config) (env : Env) (host pushOrg : JsString) (k : Cursors) (m : Offer) :
    Option Cursors :=
  if m.transcriptId = [] then some k
  else match k.index.get m.transcriptId with
    | some row => some (k.report m.transcriptId row.bytesStored)
    | none => (k.report m.transcriptId 0).create C
        (placeholder m.transcriptId host pushOrg (m.data.map orNull) env.nowIso)

def behind (size : Option ℚ) (stored : ℚ) : Bool :=
  match size with
  | some n => 0 < n && stored < n
  | none => false

def heldStep (C : Config) (env : Env) (s : State) (host pushOrg : JsString) (k : Cursors) (m : Held) :
    Option Cursors :=
  let row := k.index.get m.i
  if m.i = [] ∨ rePoint row host = true ∨ renderedBlocked env s row = true then some k
  else if behind m.s (cursorOf row) = false ∧
      behind m.r ((row.map fun r => (r.rawBytes : ℚ)).getD 0) = false then some k
  else match row with
    | some r => some (k.report m.i r.bytesStored)
    | none => (k.create C (placeholder m.i host pushOrg Meta.none env.nowIso)).map fun k =>
        k.report m.i 0

/-- The rows of a list of offers, in one transaction: `node:sqlite` takes all of them back when one
throws, and the session map keeps what it has. -/
def offerAll {α : Type} (f : Cursors → α → Option Cursors) : Cursors → List α → Cursors × Bool
  | k, [] => (k, true)
  | k, m :: ms => match f k m with
    | some k => offerAll f k ms
    | none => (k, false)

def withCursors (s : State) (r : Cursors × Bool) :
    State × Except Unit (OrdMap JsString ℚ) :=
  if r.2 = true then
    (r.1.created.foldl State.mirrorSession { s with index := r.1.index }, .ok r.1.have')
  else match s.index.mode with
    | .sqlite => (s, .error ())
    | .pg => ({ s with index := r.1.index }, .error ())

def manifestCursors (C : Config) (env : Env) (s : State) (host : JsString) (manifest : List Offer)
    (siteKey : JsString) : State × Except Unit (OrdMap JsString ℚ) :=
  if isTenantPurged env (tenantOfHostKey host) = true then (s, .ok .empty)
  else withCursors s (offerAll (offerStep C env host (siteKey.slice metaTextMax))
    ⟨s.index, .empty, []⟩ (manifest.take C.manifestMax))

def inventoryCursors (C : Config) (env : Env) (s : State) (host : JsString) (inventory : List Held)
    (siteKey : JsString) : State × Except Unit (OrdMap JsString ℚ) :=
  if isTenantPurged env (tenantOfHostKey host) = true then (s, .ok .empty)
  else withCursors s (offerAll (heldStep C env s host (siteKey.slice metaTextMax))
    ⟨s.index, .empty, []⟩ (inventory.take C.manifestMax))

def moveOwner (C : Config) (env : Env) (s : State) (row : Row) (transcriptId : JsString)
    (host siteKey : Option JsString) : State :=
  match s.index.mode.stored C.realText
      { row with siteKey := siteKey, host := host, updatedAt := some env.nowIso } with
  | none => s
  | some moved =>
    let s := { s with index := s.index.put moved }
    let s := match row.filePath.bind fun p => (s.sidecars.get? p).map fun sc => (p, sc) with
      | some (p, sc) => s.writeSidecar p { sc with siteKey := siteKey, host := host } false
      | none => s
    s.mirrorSession transcriptId

/-- `restampOrg`; without a host the row keeps the one it has. -/
def restampOrg (C : Config) (env : Env) (s : State) (transcriptId siteKey : JsString)
    (host : Option JsString) : State × Bool :=
  match s.index.get transcriptId with
  | none => (s, false)
  | some row =>
    let newHost := match host with
      | some h => some (h.slice metaTextMax)
      | none => row.host
    (moveOwner C env s row transcriptId newHost (some (siteKey.slice metaTextMax)), true)

/-- `rekeyOwner`; a row without an org keeps none. -/
def rekeyOwner (C : Config) (env : Env) (s : State) (transcriptId host : JsString)
    (siteKey : Option JsString) : State × Bool :=
  match s.index.get transcriptId with
  | none => (s, false)
  | some row =>
    let newHost := host.slice metaTextMax
    let org := siteKey.map fun k => k.slice metaTextMax
    if row.host = some newHost ∧ row.siteKey = org then (s, true)
    else (moveOwner C env s row transcriptId (some newHost) org, true)

def ofTenant (tenant : JsString) (host : Option JsString) : Bool :=
  (.scalar '@' :: tenant).isSuffixOf (host.getD [])

/-- `sharedPath`: a row that stays names the file too. -/
def sharedPath (s : State) (tenant relPath transcriptId : JsString) : Bool :=
  s.index.rows.values.any fun r =>
    r.filePath = some relPath && r.transcriptId ≠ transcriptId && !ofTenant tenant r.host

def noteRemove (s : State) (path : JsString) : State :=
  { s with blobOps := s.blobOps ++ [.remove path] }

def purgeFiles (s : State) (shared : Bool) (relPath transcriptId : JsString) : State :=
  let s := match rawDirFor relPath transcriptId with
    | some dir => noteRemove { s with
        raw := s.raw.filterKeys fun k => !(k.1 = relPath && k.2.1 = transcriptId) } dir
    | none => s
  if shared = true then s
  else noteRemove (noteRemove { s with
    files := s.files.erase relPath, sidecars := s.sidecars.erase relPath } relPath)
      (metaPath relPath)

def Index.remove (x : Index) (row : Row) : Index :=
  { x with
    rows := x.rows.erase row.transcriptId
    fts := match x.mode with
      | .sqlite => x.fts.filter fun e => e.1 ≠ row.transcriptId
      | .pg => x.fts
    filePathIndex := match x.mode, row.filePath with
      | .pg, some p =>
        if x.filePathIndex.get? p = some row.transcriptId then x.filePathIndex.erase p
        else x.filePathIndex
      | _, _ => x.filePathIndex }

def purgeRow (before : State) (tenant : JsString) (s : State) (row : Row) : State :=
  let s := match row.filePath with
    | some p => purgeFiles s (sharedPath before tenant p row.transcriptId) p row.transcriptId
    | none => s
  { s with
    index := s.index.remove row
    indexOps := match s.index.mode with
      | .pg => s.indexOps ++ [.remove row.transcriptId]
      | .sqlite => s.indexOps
    unverifiedCursors := s.unverifiedCursors.filter fun id => id ≠ row.transcriptId
    dedupPendingIds := s.dedupPendingIds.filter fun id => id ≠ row.transcriptId
    dedupRepairGen := s.dedupRepairGen.erase row.transcriptId }

def purgePartition (s : State) (tenant : JsString) : State :=
  noteRemove { s with
    files := s.files.filterKeys fun p => tenantOfRel p ≠ tenant
    sidecars := s.sidecars.filterKeys fun p => tenantOfRel p ≠ tenant
    raw := s.raw.filterKeys fun k => tenantOfRel k.1 ≠ tenant } (.scalar '@' :: tenant)

def isTenantId (tenant : JsString) : Bool := tenantSuffix (.scalar '@' :: tenant)

def purgeTenant (s : State) (tenant : JsString) : State × ℕ :=
  if isTenantId tenant = false then (s, 0)
  else
    let rows := s.index.rows.values.filter fun r => ofTenant tenant r.host
    let after := purgePartition (rows.foldl (purgeRow s tenant) s) tenant
    ({ after with
      tenantCache := after.tenantCache.erase tenant
      tenantWritten := after.tenantWritten.erase tenant
      totalCache := ⟨0, after.totalCache.bytes⟩ }, rows.length)

inductive Call
  | ingestChunk (c : Chunk)
  | ingestRaw (p : RawPush)
  | manifestCursors (host : JsString) (manifest : List Offer) (siteKey : JsString)
  | inventoryCursors (host : JsString) (inventory : List Held) (siteKey : JsString)
  | restampOrg (transcriptId siteKey : JsString) (host : Option JsString)
  | rekeyOwner (transcriptId host : JsString) (siteKey : Option JsString)
  | purgeTenant (tenant : JsString)
  | rebuildIndex

inductive Reply
  | chunk (r : Except Unit ChunkReply)
  | raw (r : RawReply)
  | cursors (r : Except Unit (OrdMap JsString ℚ))
  | known (b : Bool)
  | purged (transcripts : ℕ)
  | done

abbrev Event := Env × Call

def call (C : Config) (s : State) (e : Event) : State × Reply :=
  match e.2 with
  | .ingestChunk c => let r := ingestChunk C e.1 s c; (r.1, .chunk r.2)
  | .ingestRaw p => let r := ingestRaw C e.1 s p; (r.1, .raw r.2)
  | .manifestCursors host m site =>
    let r := manifestCursors C e.1 s host m site; (r.1, .cursors r.2)
  | .inventoryCursors host m site =>
    let r := inventoryCursors C e.1 s host m site; (r.1, .cursors r.2)
  | .restampOrg id site host => let r := restampOrg C e.1 s id site host; (r.1, .known r.2)
  | .rekeyOwner id host site => let r := rekeyOwner C e.1 s id host site; (r.1, .known r.2)
  | .purgeTenant t => let r := purgeTenant s t; (r.1, .purged r.2)
  | .rebuildIndex => (rebuildIndex C e.1 s, .done)

def step (C : Config) (s : State) (e : Event) : State := (call C s e).1

def emptyStore (mode : Mode) : State where
  index := ⟨mode, .empty, [], .empty⟩
  files := .empty
  sidecars := .empty
  raw := .empty
  unverifiedCursors := []
  dedupPendingIds := []
  dedupRepairGen := .empty
  totalCache := ⟨0, 0⟩
  writtenSinceWalk := 0
  tenantCache := .empty
  tenantWritten := .empty
  lastReclaimAt := 0
  indexOps := []
  blobOps := []

end Turma.Archive
