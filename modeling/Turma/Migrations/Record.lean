import Turma.Lib.JsString

/-! The record of a session that moves from one host to another, and what the handlers of one
replica do to it. -/

namespace Turma.Migrations

open Turma.Lib JsString

abbrev Id := JsString

inductive Phase
  | exporting
  | importing
  | done
  | failed
deriving DecidableEq

def migrationPhaseRank : Phase → ℕ
  | .exporting => 0
  | .importing => 1
  | .done => 3
  | .failed => 3

def Phase.settled (p : Phase) : Bool := p = .done || p = .failed

/-- A move, keyed by its id. `packing` says that the archive is still being packed into this very
record, and not into one it has replaced. -/
structure Migration where
  restore : Bool := false
  phase : Phase := .exporting
  error : Option JsString := none
  importCmdId : Option JsString := none
  blobPath : Option JsString := none
  blobSize : Option ℕ := some 0
  blobReplica : Option JsString := none
  targetSessionId : Option JsString := none
  transcriptId : Option JsString
  incomplete : Option (List JsString) := none
  uploading : Bool := false
  packing : Bool := false
  refusal : Option JsString := none
  startedAt : ℤ
  atMs : ℤ
deriving DecidableEq

def MIGRATE_TIMEOUT_MS : ℤ := 5 * 60 * 1000

def MIGRATE_DONE_KEEP_MS : ℤ := 30 * 1000

namespace Migration

/-- The copy that is stored, and the one that is made of a stored value. -/
def shared (m : Migration) : Migration :=
  { m with uploading := false, packing := false, refusal := none }

def dropBlob (m : Migration) : Migration :=
  match m.blobPath with
  | none => m
  | some _ => { m with blobPath := none, blobSize := some 0, blobReplica := none }

def fail (m : Migration) (error : JsString) (now : ℤ) : Migration :=
  { m with phase := .failed, error := some error, atMs := now }

def beginUpload (m : Migration) : Migration :=
  if m.phase = .exporting ∧ m.uploading = false then { m with uploading := true } else m

def uploadFailed (m : Migration) (tooBig : Bool) (now : ℤ) : Migration :=
  { m with uploading := false }.fail
    (ofString (if tooBig then "transcript bundle too large"
      else "transcript bundle spool failed")) now

/-- The bundle is spooled. `command` is the import queued on the target, none when the source
session is gone. -/
def uploaded (m : Migration) (spool : JsString) (size : ℕ) (replica : JsString)
    (command : Option JsString) (now : ℤ) : Migration :=
  let m := { m with uploading := false }
  if m.phase ≠ .exporting then m
  else
    let m := { m with
      blobPath := some spool, blobSize := some size, blobReplica := some replica,
      phase := .importing, atMs := now }
    match command with
    | none => (m.fail (ofString "source session gone") now).dropBlob
    | some cmd => { m with importCmdId := some cmd }

/-- `damaged`: the conversation itself is not in the bundle. -/
def packed (m : Migration) (spool : JsString) (size : ℕ) (missing : List JsString) (damaged : Bool)
    (command : JsString) (now : ℤ) : Migration :=
  let m := { m with packing := false }
  if m.phase ≠ .exporting then m
  else if damaged then
    m.fail (ofString "the archived conversation could not be packed intact") now
  else
    { m with
      incomplete := if missing = [] then m.incomplete else some missing
      blobPath := some spool, blobSize := some size, phase := .importing, atMs := now,
      importCmdId := some command }

def packFailed (m : Migration) (error : JsString) (now : ℤ) : Migration :=
  ({ m with packing := false }.fail error now).dropBlob

def refuse (m : Migration) (error : JsString) : Migration :=
  if m.phase.settled then m else { m with refusal := some error }

/-- What the fleet says of a move: the target's session that is up, and a host other than the
target's own import that runs the restored conversation. -/
structure Fleet where
  up : Option JsString
  live : Option JsString

def advance (m : Migration) (fleet : Fleet) (now : ℤ) : Migration :=
  if m.phase.settled then m
  else if m.phase = .importing ∧ m.importCmdId ≠ none ∧ fleet.up ≠ none then
    { { m with targetSessionId := fleet.up, phase := .done, error := none }.dropBlob with
      atMs := now }
  else
    match m.restore, fleet.live with
    | true, some host =>
      (m.fail (ofString "that conversation came back up on " ++ host ++ ofString
        " — the restore was abandoned rather than run a second claude on it") now).dropBlob
    | _, _ =>
      match m.refusal with
      | some error => (m.fail error now).dropBlob
      | none =>
        if now - m.startedAt > MIGRATE_TIMEOUT_MS then
          (m.fail (ofString "migration timed out") now).dropBlob
        else m

def retires (m : Migration) (now : ℤ) : Bool :=
  m.phase.settled && decide (now - m.atMs > MIGRATE_DONE_KEEP_MS)

/-- The phase of a stored value that is further. -/
def overtake (cur value : Migration) : Migration :=
  if migrationPhaseRank cur.phase < migrationPhaseRank value.phase then
    { cur with
      phase := value.phase
      error := if value.error = none ∨ value.error = some [] then cur.error else value.error }
  else cur

/-- What a stored value has and the record lacks. -/
def fill (cur value : Migration) : Migration :=
  { cur with
    importCmdId := cur.importCmdId <|> value.importCmdId
    blobPath := cur.blobPath <|> value.blobPath
    blobSize := cur.blobSize <|> value.blobSize
    blobReplica := cur.blobReplica <|> value.blobReplica
    targetSessionId := cur.targetSessionId <|> value.targetSessionId
    transcriptId := cur.transcriptId <|> value.transcriptId }

/-- The leader's merge of a stored value into the record it holds. -/
def learn (cur value : Migration) (now : ℤ) : Migration :=
  if cur.phase.settled then cur
  else if migrationPhaseRank value.phase < migrationPhaseRank cur.phase then cur
  else if (cur.overtake value).fill value = cur then cur
  else { (cur.overtake value).fill value with atMs := now }

end Migration

/-- The second record is as far as the first, and settled as it is when the first is. -/
def Advances (m m' : Migration) : Prop :=
  migrationPhaseRank m.phase ≤ migrationPhaseRank m'.phase ∧
    (m.phase.settled = true → m'.phase = m.phase)

instance (m m' : Migration) : Decidable (Advances m m') := inferInstanceAs (Decidable (_ ∧ _))

variable (m : Migration)

theorem Advances.refl : Advances m m := ⟨le_rfl, fun _ => rfl⟩

theorem Advances.of_phase {m m' : Migration} (h : m'.phase = m.phase) : Advances m m' :=
  ⟨by rw [h], fun _ => h⟩

theorem Advances.trans {m m' m'' : Migration} (h : Advances m m') (h' : Advances m' m'') :
    Advances m m'' := by
  refine ⟨h.1.trans h'.1, fun hs => ?_⟩
  have hphase := h.2 hs
  rw [h'.2 (by rw [hphase]; exact hs), hphase]

theorem rank_le_settled (p q : Phase) (h : q.settled = true) :
    migrationPhaseRank p ≤ migrationPhaseRank q := by
  cases p <;> cases q <;> simp_all [migrationPhaseRank, Phase.settled]

theorem failed_of_settled {p : Phase} (h : p.settled = true) (h' : p ≠ .done) : p = .failed := by
  cases p <;> simp_all [Phase.settled]

/-- A record in flight may settle. -/
theorem Advances.settle {m m' : Migration} (h : m.phase.settled = false)
    (h' : m'.phase.settled = true) : Advances m m' :=
  ⟨rank_le_settled _ _ h', fun hs => absurd (h.symm.trans hs) (by simp)⟩

@[simp] theorem phase_dropBlob : m.dropBlob.phase = m.phase := by
  unfold Migration.dropBlob
  split <;> rfl

@[simp] theorem phase_fail (error : JsString) (now : ℤ) :
    (m.fail error now).phase = .failed := rfl

@[simp] theorem phase_shared : m.shared.phase = m.phase := rfl

theorem phase_beginUpload : m.beginUpload.phase = m.phase := by
  unfold Migration.beginUpload
  split <;> rfl

theorem phase_refuse (error : JsString) : (m.refuse error).phase = m.phase := by
  unfold Migration.refuse
  split <;> rfl

/-- A record that is not done may fail. -/
theorem advances_fail {m m' : Migration} (h : m.phase ≠ .done) (h' : m'.phase = .failed) :
    Advances m m' := by
  refine ⟨?_, fun hs => ?_⟩
  · rw [h']
    exact rank_le_settled _ _ rfl
  · rw [h', failed_of_settled hs h]

theorem advances_uploaded (spool : JsString) (size : ℕ) (replica : JsString)
    (command : Option JsString) (now : ℤ) :
    Advances m (m.uploaded spool size replica command now) := by
  unfold Migration.uploaded
  by_cases h : m.phase = .exporting
  · have hopen : m.phase.settled = false := by rw [h]; rfl
    cases command with
    | none =>
      refine .settle hopen ?_
      simp [h, Phase.settled]
    | some cmd =>
      refine ⟨?_, fun hs => absurd (hopen.symm.trans hs) (by simp)⟩
      simp [h, migrationPhaseRank]
  · exact .of_phase (by simp [h])

theorem advances_packed (spool : JsString) (size : ℕ) (missing : List JsString)
    (damaged : Bool) (command : JsString) (now : ℤ) :
    Advances m (m.packed spool size missing damaged command now) := by
  unfold Migration.packed
  by_cases h : m.phase = .exporting
  · have hopen : m.phase.settled = false := by rw [h]; rfl
    cases damaged with
    | true =>
      refine .settle hopen ?_
      simp [h, Phase.settled]
    | false =>
      refine ⟨?_, fun hs => absurd (hopen.symm.trans hs) (by simp)⟩
      simp [h, migrationPhaseRank]
  · exact .of_phase (by simp [h])

theorem advances_advance (fleet : Migration.Fleet) (now : ℤ) :
    Advances m (m.advance fleet now) := by
  unfold Migration.advance
  split
  · exact .refl m
  rename_i hopen
  have hopen : m.phase.settled = false := by simpa using hopen
  split
  · exact .settle hopen (by simp [Phase.settled])
  split
  · exact .settle hopen (by simp [Phase.settled])
  split
  · exact .settle hopen (by simp [Phase.settled])
  split
  · exact .settle hopen (by simp [Phase.settled])
  · exact .refl m

theorem advances_learn (cur value : Migration) (now : ℤ) : Advances cur (cur.learn value now) := by
  unfold Migration.learn
  split
  · exact .refl cur
  rename_i hopen
  have hopen : cur.phase.settled = false := by simpa using hopen
  split
  · exact .refl cur
  rename_i hbehind
  split
  · exact .refl cur
  refine ⟨?_, fun hs => absurd (hopen.symm.trans hs) (by simp)⟩
  unfold Migration.overtake
  split
  · rename_i hahead
    exact hahead.le
  · exact le_rfl

end Turma.Migrations
