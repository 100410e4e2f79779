import Turma.Lib.Run
import Turma.Migrations.Restore
import Turma.Tenancy.HostKey

/-! The moves of one hub: from the operator's click, over the transfer of the bundle, to the kill of
the session that was moved. -/

namespace Turma.Handoff

open Turma.Lib Turma.Migrations JsString

abbrev Id := Migrations.Id

structure Session where
  id : JsString
  spawnCmdId : Option (Option JsString)
  running : Bool
  transcriptId : Option JsString
  worktreePath : JsString
deriving DecidableEq

structure Host where
  sessions : List Session
  lastSeen : ℤ
deriving DecidableEq

structure Move where
  srcHost : Option JsString
  srcSessionId : Option JsString
  targetHost : JsString
  record : Migration
deriving DecidableEq

structure Kill where
  id : Id
  srcHost : Option JsString
  sessionId : Option JsString
deriving DecidableEq

/-- The hub. `spools` are the files in the spool directory, `uploads` and `packs` the ids whose bundle
is being written, and `minted` the ids that were drawn. -/
structure Hub where
  agents : OrdMap JsString Host := .empty
  migrations : OrdMap Id Move := .empty
  kills : List Kill := []
  spools : List JsString := []
  uploads : List Id := []
  packs : List Id := []
  minted : List Id := []

def OFFLINE_AFTER_MS : ℤ := 75 * 1000

def migrationSpoolPath (id : Id) : JsString :=
  ofString "/data/migrations/" ++ id ++ ofString ".bin"

/-- What a host is looked up under: `agents[null]` is the host named `null`. -/
def propertyKey (host : Option JsString) : JsString := host.getD (ofString "null")

namespace Hub

section

variable (s : Hub) (m : Move) (now : ℤ)

def up : Option JsString :=
  match m.record.importCmdId with
  | none => none
  | some cmd => (s.agents.get? m.targetHost).bind fun a =>
    (a.sessions.find? fun x => x.spawnCmdId = some (some cmd) && x.running).map (·.id)

def live : Option JsString :=
  ((ownEntries s.agents).find? fun (host, a) =>
    decide (now - a.lastSeen < OFFLINE_AFTER_MS) &&
      Tenancy.tenantOfHostKey host = Tenancy.tenantOfHostKey m.targetHost &&
      a.sessions.any fun x => x.transcriptId = m.record.transcriptId && x.running &&
        x.spawnCmdId ≠ some m.record.importCmdId).map Prod.fst

def fleet : Migration.Fleet := ⟨s.up m, s.live m now⟩

/-- Whether the sweep hands the move off: its target's session is up. -/
def handsOff : Bool := m.record.phase = .importing && (s.up m).isSome

end

section

variable (s : Hub)

def held (id : Id) : Option Move := s.migrations.get? id

def unlink (path : Option JsString) : Hub := { s with spools := s.spools.filter fun p => some p ≠ path }

def put (id : Id) (m : Move) (r : Migration) : Hub :=
  let s := { s with migrations := s.migrations.adjust id fun m => { m with record := r } }
  if r.blobPath = none then s.unlink m.record.blobPath else s

def retireMigration (id : Id) (m : Move) : Hub :=
  { s.unlink m.record.blobPath with migrations := s.migrations.erase id }

/-- One record of the loop in `advanceMigrations`. -/
def advanceOne (id : Id) (now : ℤ) : Hub :=
  match s.held id with
  | none => s
  | some m =>
    if m.record.retires now then s.retireMigration id m
    else
      let s' := s.put id m (m.record.advance (s.fleet m now) now)
      if s.handsOff m = true ∧ (s.agents.get? (propertyKey m.srcHost)).isSome then
        { s' with kills := s.kills ++ [⟨id, m.srcHost, m.srcSessionId⟩] }
      else s'

/-- `advanceMigrations`. No record of the loop changes another one, nor a host. -/
def advanceMigrations (now : ℤ) : Hub := s.migrations.keys.foldl (fun s id => s.advanceOne id now) s

def inFlight : ℕ := (s.migrations.values.filter fun m => !m.record.phase.settled).length

def evict : Hub :=
  if MIGRATIONS_MAX ≤ s.migrations.size then
    match oldestSettled (s.migrations.entries.map fun e => (e.1, e.2.record)) with
    | none => s
    | some (id, r) => { s.unlink r.blobPath with migrations := s.migrations.erase id }
  else s

def insert (id : Id) (m : Move) : Hub :=
  let s := s.evict
  { s with migrations := s.migrations.upsert id fun _ => m, minted := id :: s.minted }

/-- The route and `startMigration`. -/
def startMigration (inFlightMax : ℕ) (id : Id) (srcHost : JsString) (session : Session)
    (targetHost : JsString) (now : ℤ) : Hub :=
  if id ∈ s.minted ∨ inFlightMax ≤ s.inFlight ∨ (s.agents.get? srcHost).isNone ∨
      (s.migrations.values.any fun m => !m.record.phase.settled && m.srcHost = some srcHost &&
        m.srcSessionId = some session.id) = true then s
  else s.insert id ⟨some srcHost, some session.id, targetHost,
    { transcriptId := session.transcriptId, startedAt := now, atMs := now }⟩

/-- The route and `startArchiveRestore`, which begins to pack. -/
def startArchiveRestore (inFlightMax : ℕ) (id : Id) (transcriptId targetHost : JsString) (now : ℤ) :
    Hub :=
  if id ∈ s.minted ∨ inFlightMax ≤ s.inFlight ∨ (s.agents.get? targetHost).isNone ∨
      (s.migrations.values.any fun m => !m.record.phase.settled &&
        m.record.transcriptId = some transcriptId) = true then s
  else
    let record : Migration :=
      { restore := true, packing := true, transcriptId := some transcriptId, startedAt := now, atMs := now }
    let s := s.insert id ⟨none, none, targetHost, record⟩
    { s with packs := id :: s.packs, spools := migrationSpoolPath id :: s.spools }

def beginUpload (id : Id) (host : JsString) : Hub :=
  match s.held id with
  | none => s
  | some m =>
    if m.srcHost = some host ∧ m.record.phase = .exporting ∧ m.record.uploading = false then
      { s.put id m { m.record with uploading := true } with
        uploads := id :: s.uploads, spools := migrationSpoolPath id :: s.spools }
    else s

inductive UploadResult
  | empty
  | failed (tooBig : Bool)
  | stored (size : ℕ)
deriving DecidableEq

/-- The source session's worktree, empty where it or its host is gone. -/
def sourceCwd (m : Move) : JsString :=
  (((m.srcHost.bind s.agents.get?).bind fun a =>
    a.sessions.find? fun x => some x.id = m.srcSessionId).map (·.worktreePath)).getD []

/-- The end of an upload, `command` being the id that the import draws. A record that has settled
meanwhile, or been retired, gets none of it. -/
def uploadEnds (id : Id) (result : UploadResult) (command replica : JsString) (now : ℤ) : Hub :=
  if id ∉ s.uploads then s
  else
    let s := { s with uploads := s.uploads.filter (· ≠ id) }
    let path := migrationSpoolPath id
    match s.held id, result with
    | none, _ => s.unlink (some path)
    | some m, .empty => (s.put id m { m.record with uploading := false }).unlink (some path)
    | some m, .failed tooBig => (s.put id m (m.record.uploadFailed tooBig now)).unlink (some path)
    | some m, .stored size =>
      if m.record.phase ≠ .exporting then
        (s.put id m { m.record with uploading := false }).unlink (some path)
      else if s.sourceCwd m = [] then
        (s.put id m (m.record.uploaded path size replica none now)).unlink (some path)
      else if (s.agents.get? m.targetHost).isSome then
        s.put id m (m.record.uploaded path size replica (some command) now)
      else
        -- `queueCommand` throws.
        s.put id m { m.record with
          uploading := false, blobPath := some path, blobSize := some size, blobReplica := some replica,
          phase := .importing, atMs := now }

def packEnds (id : Id) (result : PackResult) (conversation command : JsString) (now : ℤ) : Hub :=
  if id ∉ s.packs then s
  else
    let s := { s with packs := s.packs.filter (· ≠ id) }
    let path := migrationSpoolPath id
    match s.held id with
    | none => s.unlink (some path)
    | some m =>
      let x : PackEnd := ⟨result, conversation, path,
        if (s.agents.get? m.targetHost).isSome then some command else none, now⟩
      if x.late m.record then
        (s.put id m { m.record with packing := false }).unlink (some path)
      else match x.outcome with
        | .imports _ => s.put id m (x.write m.record)
        | .fails _ => (s.put id m (x.write m.record)).unlink (some path)

def refuse (id : Id) (host error : JsString) : Hub :=
  match s.held id with
  | none => s
  | some m =>
    if m.srcHost = some host ∨ m.targetHost = host then s.put id m (m.record.refuse error) else s

end

inductive Event
  /-- A host's record is replaced by its beat, or is gone. -/
  | agent (host : JsString) (record : Option Host)
  | startMigration (id : Id) (srcHost : JsString) (session : Session) (targetHost : JsString) (now : ℤ)
  | startArchiveRestore (id : Id) (transcriptId targetHost : JsString) (now : ℤ)
  | beginUpload (id : Id) (host : JsString)
  | uploadEnds (id : Id) (result : UploadResult) (command replica : JsString) (now : ℤ)
  | packEnds (id : Id) (result : PackResult) (conversation command : JsString) (now : ℤ)
  | refuse (id : Id) (host error : JsString)
  | advanceMigrations (now : ℤ)

def step (inFlightMax : ℕ) (s : Hub) : Event → Hub
  | .agent host record =>
    { s with agents := record.elim (s.agents.erase host) fun a => s.agents.upsert host fun _ => a }
  | .startMigration id srcHost session targetHost now =>
    s.startMigration inFlightMax id srcHost session targetHost now
  | .startArchiveRestore id transcriptId targetHost now =>
    s.startArchiveRestore inFlightMax id transcriptId targetHost now
  | .beginUpload id host => s.beginUpload id host
  | .uploadEnds id result command replica now => s.uploadEnds id result command replica now
  | .packEnds id result conversation command now => s.packEnds id result conversation command now
  | .refuse id host error => s.refuse id host error
  | .advanceMigrations now => s.advanceMigrations now

end Hub

end Turma.Handoff
