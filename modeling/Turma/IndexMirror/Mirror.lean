import Turma.Lib.Run
import Turma.Lib.JsString

/-! The Postgres mirror of the archive's index, on a replica that leads throughout under one term. -/

namespace Turma.IndexMirror

open Turma.Lib

abbrev Id := JsString

structure Columns where
  host : Option JsString := none
  siteKey : Option JsString := none
  remoteKey : Option JsString := none
  repo : Option JsString := none
  worktree : Option JsString := none
  slug : Option JsString := none
  createdAt : Option JsString := none
  endedTs : Option JsString := none
  summary : Option JsString := none
  filePath : Option JsString := none
  updatedAt : Option JsString := none
deriving DecidableEq

/-- `SESSION_GREATEST`. -/
structure Counters where
  msgCount : ℕ := 0
  bytesStored : ℕ := 0
  archiveBytes : ℕ := 0
  rawBytes : ℕ := 0
deriving DecidableEq

structure Row where
  columns : Columns
  counters : Counters := {}
deriving DecidableEq

/-- One line of a `.jsonl`, `blocks` being the text that the rest of the record has. -/
structure Line where
  uuid : Option JsString
  role : Option JsString
  ts : Option JsString
  text : JsString
  blocks : JsString
deriving DecidableEq

structure Entry where
  uuid : Option JsString
  role : Option JsString
  ts : Option JsString
  text : JsString
deriving DecidableEq

structure Transcript where
  row : Row
  lines : List Line
deriving DecidableEq

def dropNul (s : JsString) : JsString := s.filter fun c => c ≠ .scalar (Char.ofNat 0)

def mirrorStr (v : Option JsString) : Option JsString :=
  v.bind fun s => if s = [] then none else some (dropNul s)

def mirrorRow (row : Row) : Row :=
  let c := row.columns
  { row with columns :=
    ⟨c.host.map dropNul, c.siteKey.map dropNul, c.remoteKey.map dropNul, c.repo.map dropNul,
      c.worktree.map dropNul, c.slug.map dropNul, c.createdAt.map dropNul, c.endedTs.map dropNul,
      c.summary.map dropNul, c.filePath.map dropNul, c.updatedAt.map dropNul⟩ }

def mirrorEntry (e : Line) : Entry := ⟨mirrorStr e.uuid, mirrorStr e.role, mirrorStr e.ts, dropNul e.text⟩

/-- `dedupLines`: the first copy of each line. -/
def dedupLines (lines : List Line) : List Line :=
  lines.foldl (fun out line => if line ∈ out then out else out ++ [line]) []

structure Kept where
  row : Option Row := none
  entries : ℕ → Option Entry := fun _ => none

namespace Kept

def greatest (a b : Counters) : Counters :=
  ⟨max a.msgCount b.msgCount, max a.bytesStored b.bytesStored, max a.archiveBytes b.archiveBytes,
    max a.rawBytes b.rawBytes⟩

def upsertSession (p : Kept) (row : Row) : Kept :=
  { p with row := some (p.row.elim row fun old =>
    { row with counters := greatest old.counters row.counters }) }

/-- `_insertEntriesBatched`. Without `overwrite` the ordinals that are taken stay as they are. -/
def insertEntries (p : Kept) (entries : List Entry) (startSeq : ℕ) (overwrite : Bool) : Kept :=
  { p with entries := fun seq =>
    let new := if startSeq ≤ seq then entries[seq - startSeq]? else none
    if overwrite then new.or (p.entries seq) else (p.entries seq).or new }

def appendEntries (p : Kept) (entries : List Entry) (startSeq : ℕ) : Kept :=
  p.insertEntries entries startSeq false

/-- The overwriting of the first ordinals, and then the trim of the rest. -/
def replaceEntries (p : Kept) (entries : List Entry) : Kept :=
  let p := p.insertEntries entries 0 true
  { p with entries := fun seq => if seq < entries.length then p.entries seq else none }

def seatEntries (p : Kept) (entries : List Entry) : Kept := p.insertEntries entries 0 true

end Kept

inductive Write
  | session (row : Row)
  | entries (entries : List Entry) (startSeq : ℕ)
  | replace (entries : List Entry)
  | seat (entries : List Entry) (trim : Bool)
  | refill
deriving DecidableEq

structure Op where
  id : Id
  write : Write
  tries : ℕ := 0
deriving DecidableEq

structure Refilled where
  atCount : ℕ
  sent : ℕ
deriving DecidableEq

abbrev Held := Row × List Entry

/-- The mirror, with the local index before it and Postgres behind. `forgotten` are the transcripts
that lost an op while the owed set had no room. -/
structure Mirror where
  archive : OrdMap Id Transcript := .empty
  q : List Op := []
  inflight : Option (Op × Option Held) := none
  owed : List Id := []
  refillAfter : ℤ := 0
  refilled : OrdMap Id Refilled := .empty
  pg : Id → Kept := fun _ => {}
  forgotten : List Id := []

/-- `INDEX_MIRROR_QUEUE_MAX`, `INDEX_MIRROR_REFILL_RETRY_MS`, and the term that is led under. -/
structure Config where
  queueMax : ℕ := 100000
  refillRetryMs : ℤ := 30000
  term : ℕ := 1

/-- What Postgres's counts of a transcript come to. -/
structure Counts where
  msgCount : Option ℕ
  n : ℕ
  maxSeq : ℤ
deriving DecidableEq

def dropOldest : List Op → Option (Op × List Op)
  | [] => none
  | op :: q =>
    if op.write = .refill then (dropOldest q).map fun (dropped, rest) => (dropped, op :: rest)
    else some (op, q)

namespace Mirror

variable (C : Config) (s : Mirror)

def mirrorRefillOf (id : Id) : Option Held :=
  (s.archive.get? id).bind fun t =>
    if t.row.columns.filePath = none then none
    else some (mirrorRow t.row, (dedupLines t.lines).map mirrorEntry)

def lost (op : Op) (now : ℤ) : Mirror :=
  let s := if op.write = .refill then { s with refillAfter := now + C.refillRetryMs } else s
  if op.id ∈ s.owed then s
  else if s.owed.length < C.queueMax then { s with owed := s.owed ++ [op.id] }
  else { s with forgotten := op.id :: s.forgotten }

/-- The op goes out. A refill reads what it sends now. -/
def start (op : Op) : Mirror :=
  { s with inflight := some (op, if op.write = .refill then s.mirrorRefillOf op.id else none) }

def drain (now : ℤ) : Mirror :=
  if s.inflight.isSome then s
  else match s.q, s.owed with
    | op :: q, _ => { s with q := q }.start op
    | [], id :: owed =>
      if s.refillAfter ≤ now then { s with owed := owed }.start ⟨id, .refill, 0⟩ else s
    | [], [] => s

def push (op : Op) (now : ℤ) : Mirror :=
  if C.queueMax ≤ s.q.length then
    match dropOldest s.q with
    | none => (s.lost C op now).drain now
    | some (dropped, rest) => { s.lost C dropped now with q := rest ++ [op] }.drain now
  else { s with q := s.q ++ [op] }.drain now

def noteRefilled (id : Id) (atCount sent : ℕ) : Mirror :=
  let refilled := s.refilled.erase id
  let refilled := if C.queueMax ≤ refilled.size then
      (refilled.keys.head?).elim refilled refilled.erase else refilled
  { s with refilled := refilled.upsert id fun _ => ⟨atCount, sent⟩ }

def onPg (id : Id) (f : Kept → Kept) : Mirror := { s with pg := Function.update s.pg id (f (s.pg id)) }

def apply (op : Op) (held : Option Held) : Mirror :=
  match op.write with
  | .session row => s.onPg op.id (·.upsertSession row)
  | .entries entries startSeq => s.onPg op.id (·.appendEntries entries startSeq)
  | .replace entries => s.onPg op.id (·.replaceEntries entries)
  | .seat entries trim =>
    if trim = true ∧ 0 < C.term then s.onPg op.id (·.replaceEntries entries)
    else s.onPg op.id (·.seatEntries entries)
  | .refill =>
    match held with
    | none => s
    | some (row, entries) =>
      (s.onPg op.id fun p => (p.upsertSession row).replaceEntries entries).noteRefilled C op.id
        row.counters.msgCount entries.length

def applied (now : ℤ) : Mirror :=
  match s.inflight with
  | none => s
  | some (op, held) => { s.apply C op held with inflight := none }.drain now

/-- The op in flight fails and may be tried again: at once, up to the third time. The put back at the
head and the next take are one. -/
def failed (now : ℤ) : Mirror :=
  match s.inflight with
  | none => s
  | some (op, _) =>
    let op := { op with tries := op.tries + 1 }
    if op.tries < 3 then s.start op
    else ({ s with inflight := none }.lost C op now).drain now

/-- Whether a write of `id` is queued or in flight, and whether a refill is. -/
def pendingOf (id : Id) : Option Bool :=
  let ops := (s.q ++ (s.inflight.map Prod.fst).toList).filter (·.id = id)
  if ops = [] then none else some (ops.any fun op => op.write = .refill)

def reconcileHeals (id : Id) (atCount : ℕ) (p : Option Counts) : Bool :=
  match p with
  | none => false
  | some p =>
    if atCount = 0 ∨ (atCount : ℤ) ≤ p.maxSeq then false
    else if s.pendingOf id = some true then false
    else if ((s.refilled.get? id).any fun m => m.atCount = atCount && p.n = m.sent &&
        p.maxSeq = (m.sent : ℤ) - 1 && p.msgCount.any (atCount ≤ ·)) = true then false
    else (p.n : ℤ) < p.maxSeq + 1 ||
      (s.pendingOf id).isNone && (p.n < atCount || !p.msgCount.any (atCount ≤ ·))

def refillsPending : ℕ :=
  ((((s.q ++ (s.inflight.map Prod.fst).toList).filter fun op => op.write = .refill).map (·.id)).dedup).length

/-- The refills that one batch puts at the head: `rows` are the candidates with the local counts as
they were read, in the order they are looked at, and `room` how many more may be. -/
def sends (p : Id → Option Counts) : ℕ → List (Id × ℕ) → List Id
  | _, [] => []
  | room, (id, atCount) :: rows =>
    if s.reconcileHeals id atCount (p id) = true then
      match room with
      | 0 => []
      | room + 1 => id :: sends p room rows
    else sends p room rows

def resend (id : Id) : Mirror := { s with owed := s.owed.erase id, q := ⟨id, .refill, 0⟩ :: s.q }

/-- A batch of `_reconcileOnce`, once Postgres has answered `p`. -/
def reconcile (batch : ℕ) (rows : List (Id × ℕ)) (p : Id → Option Counts) (now : ℤ) : Mirror :=
  match s.sends p (batch - s.refillsPending) rows with
  | [] => s
  | ids => (ids.foldl resend s).drain now

def mirrorSession (id : Id) (now : ℤ) : Mirror :=
  match s.archive.get? id with
  | none => s
  | some t => s.push C ⟨id, .session (mirrorRow t.row), 0⟩ now

def mirrorEntries (id : Id) (list : List Line) (startSeq : ℕ) (now : ℤ) : Mirror :=
  if list = [] then s else s.push C ⟨id, .entries (list.map mirrorEntry) startSeq, 0⟩ now

def setTranscript (id : Id) (t : Transcript) : Mirror :=
  { s with archive := s.archive.upsert id fun _ => t }

/-- A chunk that `ingestChunk` stores: `list` goes into the file. `bytes` and `size` are what the two
cursors go up by, and `relPath` the file's place if the transcript has none. -/
def ingestChunk (id : Id) (columns : Columns) (relPath : JsString) (list : List Line) (bytes size : ℕ)
    (now : ℤ) : Mirror :=
  let prev := (s.archive.get? id).getD ⟨⟨{}, {}⟩, []⟩
  let c := prev.row.counters
  let path := prev.row.columns.filePath.getD relPath
  let row : Row := ⟨{ columns with filePath := some path },
    ⟨c.msgCount + list.length, c.bytesStored + bytes, c.archiveBytes + size, c.rawBytes⟩⟩
  let s := s.setTranscript id ⟨row, prev.lines ++ list⟩
  (s.mirrorSession C id now).mirrorEntries C id list c.msgCount now

/-- A change of the row alone: a raw push, a new owner. -/
def touch (id : Id) (columns : Columns) (rawBytes : ℕ) (now : ℤ) : Mirror :=
  match s.archive.get? id with
  | none => s
  | some t =>
    let c := t.row.counters
    let row : Row := ⟨{ columns with filePath := t.row.columns.filePath },
      { c with rawBytes := c.rawBytes + rawBytes }⟩
    (s.setTranscript id { t with row := row }).mirrorSession C id now

/-- The row that `manifestCursors` and `inventoryCursors` make for a transcript they do not know. -/
def placeholder (id : Id) (columns : Columns) (now : ℤ) : Mirror :=
  if (s.archive.get? id).isSome then s
  else (s.setTranscript id ⟨⟨{ columns with filePath := none }, {}⟩, []⟩).mirrorSession C id now

def heal (id : Id) (now : ℤ) : Mirror :=
  match s.archive.get? id with
  | none => s
  | some t => (s.push C ⟨id, .replace (t.lines.map mirrorEntry), 0⟩ now).mirrorSession C id now

/-- The re-seat from the first copies. -/
def reindexHeld (id : Id) (trim : Bool) (now : ℤ) : Mirror :=
  match s.archive.get? id with
  | none => s
  | some t => s.push C ⟨id, .seat ((dedupLines t.lines).map mirrorEntry) trim, 0⟩ now

end Mirror

inductive Event
  | ingestChunk (id : Id) (columns : Columns) (relPath : JsString) (list : List Line) (bytes size : ℕ)
  | touch (id : Id) (columns : Columns) (rawBytes : ℕ)
  | placeholder (id : Id) (columns : Columns)
  | heal (id : Id)
  | reindexHeld (id : Id) (trim : Bool)
  | applied
  | failed
  | reconcile (batch : ℕ) (rows : List (Id × ℕ)) (p : Id → Option Counts)
  /-- The retry timer. -/
  | wake

def step (C : Config) (s : Mirror) : ℤ × Event → Mirror
  | (now, .ingestChunk id columns relPath list bytes size) =>
    s.ingestChunk C id columns relPath list bytes size now
  | (now, .touch id columns rawBytes) => s.touch C id columns rawBytes now
  | (now, .placeholder id columns) => s.placeholder C id columns now
  | (now, .heal id) => s.heal C id now
  | (now, .reindexHeld id trim) => s.reindexHeld C id trim now
  | (now, .applied) => s.applied C now
  | (now, .failed) => s.failed C now
  | (now, .reconcile batch rows p) => s.reconcile batch rows p now
  | (now, .wake) => s.drain now

end Turma.IndexMirror
