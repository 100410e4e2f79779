import Mathlib.Logic.Function.Basic
import Turma.Tenancy.HostKey
import Turma.Lib.Run

/-! The keys of archived files in the bucket: the path of each below the archive's directory. -/

namespace Turma.ArchiveMirror

open Turma.Lib Turma.Tenancy JsString

abbrev Key := JsString

def slash : CodePoint := .scalar '/'

/-- `key.split("/")`. -/
def components (key : Key) : List JsString :=
  key.foldr (fun c parts =>
    if c = slash then [] :: parts
    else match parts with
      | [] => [[c]]
      | part :: parts => (c :: part) :: parts) [[]]

def endsWith (s : JsString) (tail : String) : Bool := (ofString tail).isSuffixOf s

/-- The raw directory that a key is under, `none` for a key of the rendered layer. -/
def rawRootOf (key : Key) : Option Key :=
  let parts := components key
  let first := if tenantSuffix (parts.headD []) = true then 2 else 1
  let dirs := (List.range (parts.length - 1)).filter fun i => first ≤ i
  (dirs.find? fun i => endsWith (parts.getD i []) ".jsonl.raw").map fun i =>
    [slash].intercalate (parts.take (i + 1))

def isRaw (key : Key) : Bool := (rawRootOf key).isSome

def isMeta (key : Key) : Bool := endsWith key ".jsonl.meta" && !isRaw key

/-- The transcript of a sidecar: `key.slice(0, -".meta".length)`. -/
def jsonlOf (key : Key) : Key := key.take (key.length - 5)

def metaOf (key : Key) : Key := key ++ ofString ".meta"

def transcriptOf (key : Key) : Key := if isMeta key = true then jsonlOf key else key

/-- Whether `pathFor` gives a path: every component a plain name. -/
def hasPath (key : Key) : Bool :=
  !key.contains (.scalar (Char.ofNat 0)) &&
    (components key).all fun c => c ≠ [] && c ≠ ofString "." && c ≠ ofString ".."

example : rawRootOf (ofString "repo/t1.jsonl.raw/agents/a.txt") =
    some (ofString "repo/t1.jsonl.raw") := by
  decide

end Turma.ArchiveMirror

/-! The mirror of one replica: hydrate passes with their workers, passes over the blocked keys,
raw fetches and drains, each of them going on at its own awaits. -/

namespace Turma.ArchiveMirror

open Turma.Lib JsString

inductive Reason
  | failed (message : JsString)
  | overdue (ms : ℕ)
deriving DecidableEq

/-- A raw object that is in the bucket alone, or with a part of it on disk. -/
structure Pending where
  size : ℕ
  held : ℕ
deriving DecidableEq

inductive Owner
  | pass (run : ℕ)
  | retry
  | raw
deriving DecidableEq

/-- What `_download` has come to: a rename, no object, an object that is not wanted any more, or
an error. -/
inductive Answer
  | wrote
  | gone
  | discarded
  | failed (message : JsString)
deriving DecidableEq

/-- A `GET` on its way: whether it was given up, what the store has read for it, and what it came
to, as long as its owner has not gone on. -/
structure Get where
  key : Key
  owner : Owner
  abandoned : Bool
  object : Option (Option ℕ)
  answer : Option Answer
deriving DecidableEq

def Get.givenUp (g : Get) : Get := { g with abandoned := true }

abbrev Listing := List (Key × ℕ)

inductive Phase
  | waiting
  | listing (read : Option Listing)
  | downloading (rest : List Key)
deriving DecidableEq

/-- A hydrate pass, with the deadline of each of its `GET`s. -/
structure Pass where
  getDeadlineMs : ℕ
  phase : Phase
deriving DecidableEq

inductive RetryPhase
  | fetching
  | settling
  | ended
deriving DecidableEq

/-- A pass over the blocked keys: what is left of the group it is at, the group after it, and the
keys that are to be unblocked with what came of them, `none` for a key without a path. -/
structure Retry where
  getDeadlineMs : ℕ
  rest : List Key
  later : List (List Key)
  done : List (Key × Option Answer)
  phase : RetryPhase
deriving DecidableEq

/-- A `PUT` on its way, with what it has read of the file. -/
structure Put where
  key : Key
  file : Option (Option ℕ)
deriving DecidableEq

structure Drain where
  batch : List Key
  put : Put
deriving DecidableEq

/-- `disk` holds the sizes of the local files, and `gated` is whether ingest is closed. -/
structure Mirror where
  disk : Key → Option ℕ
  gated : Bool
  dirty : List Key
  drain : Option Drain
  hydrating : Bool
  hydrateRun : ℕ
  hydrated : Bool
  passes : OrdMap ℕ Pass
  pending : OrdMap Key Pending
  blocked : OrdMap Key Reason
  retrying : Option Retry
  yieldRetry : Bool
  getDeadline : OrdMap Key ℕ
  gets : OrdMap ℕ Get
  tmpSeq : ℕ

def Mirror.init (disk : Key → Option ℕ) : Mirror where
  disk := disk
  gated := false
  dirty := []
  drain := none
  hydrating := false
  hydrateRun := 0
  hydrated := false
  passes := OrdMap.empty
  pending := OrdMap.empty
  blocked := OrdMap.empty
  retrying := none
  yieldRetry := false
  getDeadline := OrdMap.empty
  gets := OrdMap.empty
  tmpSeq := 0

def hydrateConcurrency : ℕ := 8

def retryGetDeadlineMaxMs : ℕ := 60 * 60 * 1000

def addKey (key : Key) (keys : List Key) : List Key := if key ∈ keys then keys else keys ++ [key]

namespace Mirror

def stale (s : Mirror) (run : ℕ) : Bool := run ≠ s.hydrateRun

def block (s : Mirror) (key : Key) (reason : Reason) : Mirror :=
  { s with blocked := s.blocked.upsert key fun _ => reason }

def unblock (s : Mirror) (key : Key) : Mirror := { s with blocked := s.blocked.erase key }

def startGet (s : Mirror) (key : Key) (owner : Owner) : Mirror :=
  { s with
    gets := s.gets.upsert (s.tmpSeq + 1) fun _ => ⟨key, owner, false, none, none⟩
    tmpSeq := s.tmpSeq + 1 }

def stillWanted (s : Mirror) (g : Get) : Bool :=
  match g.owner with
  | .pass run => !s.stale run && !g.abandoned
  | .retry => !g.abandoned && (s.blocked.get? g.key).isSome
  | .raw => (s.pending.get? g.key).isSome

/-- Whether a hydrate that begins cuts this `GET` short. -/
def yields (g : Get) : Bool := g.owner = .retry && !g.abandoned && g.answer.isNone

/-- `_yieldRetry = true` and `_yieldWake()`: the retry pass gives up the `GET` it waits for. -/
def yieldWake (s : Mirror) : Mirror :=
  { s with
    yieldRetry := true
    gets := s.gets.mapValues fun g => if yields g = true then g.givenUp else g
    retrying := s.retrying.map fun r =>
      if s.gets.values.any yields = true then { r with phase := .settling } else r }

/-- `hydrateGated`, up to the first `await` of its pass. -/
def hydrate (s : Mirror) (getDeadlineMs : ℕ) : Mirror :=
  if s.hydrating = true then { s with gated := true }
  else
    let run := s.hydrateRun + 1
    let begun := { s with gated := true, hydrating := true, hydrateRun := run }
    match s.retrying with
    | none =>
      { begun with passes := s.passes.upsert run fun _ => ⟨getDeadlineMs, .listing none⟩ }
    | some _ =>
      { begun.yieldWake with passes := s.passes.upsert run fun _ => ⟨getDeadlineMs, .waiting⟩ }

def dropPass (s : Mirror) (run : ℕ) : Mirror := { s with passes := s.passes.erase run }

def resumed (s : Mirror) (run : ℕ) : Mirror :=
  match s.passes.get? run with
  | some ⟨getDeadlineMs, .waiting⟩ =>
    if s.stale run = true then s.dropPass run
    else if s.retrying.all (fun r => r.phase = .ended) = true then
      { s with passes := s.passes.upsert run fun _ => ⟨getDeadlineMs, .listing none⟩ }
    else s
  | _ => s

structure Sorting where
  listed : List Key
  blocked : OrdMap Key Reason
  pending : OrdMap Key Pending
  downloads : List Key
  fetchedJsonl : List Key
  sameJsonl : List Key

/-- Whether a listed object is to be fetched: a sidecar goes with its transcript. -/
def fetches (disk : Key → Option ℕ) (listedKeys : List Key) (acc : Sorting) (key : Key) (size : ℕ) :
    Bool :=
  if isMeta key = true ∧ jsonlOf key ∈ listedKeys then
    (disk key).isNone || jsonlOf key ∈ acc.fetchedJsonl ||
      (jsonlOf key ∈ acc.sameJsonl && disk key ≠ some size)
  else (disk key).all fun localSize => localSize < size

def classify (disk : Key → Option ℕ) (listedKeys : List Key) (acc : Sorting) (item : Key × ℕ) :
    Sorting :=
  let key := item.1
  let size := item.2
  if hasPath key = false then acc
  else
    let rendered := !isMeta key && !isRaw key
    let next := { acc with
      listed := acc.listed ++ [key]
      sameJsonl := if rendered = true ∧ disk key = some size then key :: acc.sameJsonl
        else acc.sameJsonl }
    if fetches disk listedKeys acc key size = false then
      { next with blocked := acc.blocked.erase key }
    else if isRaw key = true then
      { next with pending := acc.pending.upsert key fun _ => ⟨size, (disk key).getD 0⟩ }
    else
      { next with
        downloads := acc.downloads ++ [key]
        fetchedJsonl := if rendered = true then key :: acc.fetchedJsonl else acc.fetchedJsonl }

def ordered (listing : Listing) : Listing :=
  (listing.filter fun item => !isMeta item.1) ++ listing.filter fun item => isMeta item.1

def sorted (s : Mirror) (listing : Listing) : Sorting :=
  (ordered listing).foldl (classify s.disk (listing.map Prod.fst))
    ⟨[], s.blocked, OrdMap.empty, [], [], []⟩

def startGets (s : Mirror) (keys : List Key) (owner : Owner) : Mirror :=
  keys.foldl (fun s key => s.startGet key owner) s

/-- The one step from the listing to the first downloads. -/
def classifyAll (s : Mirror) (run getDeadlineMs : ℕ) (listing : Listing) : Mirror :=
  let out := s.sorted listing
  startGets { s with
    pending := out.pending
    blocked := out.blocked.filterKeys fun key => key ∈ out.listed
    passes := s.passes.upsert run fun _ =>
      ⟨getDeadlineMs, .downloading (out.downloads.drop hydrateConcurrency)⟩ }
    (out.downloads.take hydrateConcurrency) (.pass run)

def listed (s : Mirror) (run : ℕ) (ok : Bool) : Mirror :=
  match s.passes.get? run with
  | some ⟨getDeadlineMs, .listing read⟩ =>
    if s.stale run = true then s.dropPass run
    else if ok = false then { s.dropPass run with hydrated := false, hydrating := false }
    else
      match read with
      | none => s
      | some listing => s.classifyAll run getDeadlineMs listing
  | _ => s

def nextDownload (s : Mirror) (run : ℕ) : Mirror :=
  match s.passes.get? run with
  | some ⟨getDeadlineMs, .downloading (key :: rest)⟩ =>
    startGet { s with passes := s.passes.upsert run fun _ => ⟨getDeadlineMs, .downloading rest⟩ } key
      (.pass run)
  | _ => s

def finish (s : Mirror) (run : ℕ) : Mirror :=
  match s.passes.get? run with
  | some ⟨_, .downloading rest⟩ =>
    if s.stale run = true then s.dropPass run
    else if rest = [] ∧ s.gets.values.all (fun g => g.owner ≠ .pass run || g.abandoned) = true then
      { s.dropPass run with hydrated := true, hydrating := false }
    else s
  | _ => s

def abandon (s : Mirror) : Mirror :=
  { s with hydrateRun := s.hydrateRun + 1, hydrating := false, hydrated := false }

def fetchGroup (s : Mirror) (r : Retry) : List Key → Mirror
  | [] => { s with retrying := some { r with rest := [], phase := .settling } }
  | key :: rest =>
    if s.yieldRetry = true then
      { s with retrying := some { r with rest := key :: rest, phase := .settling } }
    else if hasPath key = false then s.fetchGroup { r with done := r.done ++ [(key, none)] } rest
    else startGet { s with retrying := some { r with rest := rest, phase := .fetching } } key .retry

def deadlineOf (s : Mirror) (getDeadlineMs : ℕ) (key : Key) : ℕ :=
  (s.getDeadline.get? key).getD getDeadlineMs

/-- The keys whose deadline has not been raised, and the others. -/
def retryGroups (s : Mirror) (getDeadlineMs : ℕ) : List Key × List Key :=
  (s.blocked.keys.filter fun key => (s.getDeadline.get? key).isNone,
    (s.blocked.keys.filter fun key => (s.getDeadline.get? key).isSome).mergeSort fun a b =>
      s.deadlineOf getDeadlineMs a ≤ s.deadlineOf getDeadlineMs b)

/-- `retryBlocked`, up to its first `await`. -/
def retryBlocked (s : Mirror) (getDeadlineMs : ℕ) : Mirror :=
  if s.hydrating = true ∨ s.retrying.isSome = true ∨ s.blocked.size = 0 then s
  else
    let s := { s with getDeadline := s.getDeadline.filterKeys fun key => key ∈ s.blocked.keys }
    let groups := s.retryGroups getDeadlineMs
    s.fetchGroup ⟨getDeadlineMs, [], [groups.2], [], .fetching⟩ groups.1

def nextGroup (s : Mirror) (r : Retry) : Mirror :=
  match r.later with
  | [] => { s with retrying := some { r with phase := .ended } }
  | group :: later =>
    if s.yieldRetry = true then { s with retrying := some { r with phase := .ended } }
    else s.fetchGroup { r with later := later, done := [] } group

/-- The keys of a group are unblocked in the step in which `onLanded` succeeds. -/
def settle (s : Mirror) (ok : Bool) : Mirror :=
  match s.retrying with
  | some r =>
    if r.phase ≠ .settling then s
    else if r.done = [] then s.nextGroup r
    else if ok = true then
      nextGroup { s with blocked := s.blocked.filterKeys fun key => key ∉ r.done.map Prod.fst } r
    else { s with retrying := some { r with phase := .ended } }
  | none => s

def retryEnd (s : Mirror) : Mirror :=
  if s.retrying.any (fun r => r.phase = .ended) = true then
    { s with retrying := none, yieldRetry := false }
  else s

def fetchRaw (s : Mirror) (key : Key) : Mirror :=
  if (s.pending.get? key).isNone = true ∨
      s.gets.values.any (fun g => g.owner = .raw && g.key = key) = true ∨ hasPath key = false then s
  else s.startGet key .raw

def setGet (s : Mirror) (id : ℕ) (g : Get) : Mirror := { s with gets := s.gets.upsert id fun _ => g }

def dropGet (s : Mirror) (id : ℕ) : Mirror := { s with gets := s.gets.erase id }

def read (s : Mirror) (id : ℕ) (object : Option ℕ) : Mirror :=
  match s.gets.get? id with
  | some g =>
    if g.object.isNone = true ∧ g.answer.isNone = true then
      s.setGet id { g with object := some object }
    else s
  | none => s

/-- What is left to do of a download that has come to `a`. A raw fetch ends in the same turn, and
for one that was given up there is nothing left. -/
def answered (s : Mirror) (id : ℕ) (g : Get) (a : Answer) : Mirror :=
  if g.owner = .raw then
    match a with
    | .wrote | .gone => { s.dropGet id with pending := s.pending.erase g.key }
    | _ => s.dropGet id
  else if g.abandoned = true then s.dropGet id
  else s.setGet id { g with answer := some a }

def rename (s : Mirror) (key : Key) (size : ℕ) : Mirror :=
  { s with disk := Function.update s.disk key (some size) }

def answer (s : Mirror) (id : ℕ) : Mirror :=
  match s.gets.get? id with
  | some g =>
    match g.object, g.answer with
    | some none, none => s.answered id g .gone
    | some (some size), none =>
      if s.stillWanted g = true then
        (s.rename g.key size).answered id g .wrote
      else s.answered id g .discarded
    | _, _ => s
  | none => s

def fails (s : Mirror) (id : ℕ) (message : JsString) : Mirror :=
  match s.gets.get? id with
  | some g => if g.answer.isNone = true then s.answered id g (.failed message) else s
  | none => s

def proceedPass (s : Mirror) (run : ℕ) (key : Key) (a : Answer) : Mirror :=
  if s.stale run = true then s
  else
    match a with
    | .failed message => (s.block key (.failed message)).nextDownload run
    | _ => (s.unblock key).nextDownload run

def proceedRetry (s : Mirror) (key : Key) (a : Answer) : Mirror :=
  match s.retrying with
  | some r =>
    match a with
    | .failed message => (s.block key (.failed message)).fetchGroup r r.rest
    | _ => fetchGroup { s with getDeadline := s.getDeadline.erase key }
        { r with done := r.done ++ [(key, some a)] } r.rest
  | none => s

/-- The owner of a `GET` goes on with what it came to. -/
def proceed (s : Mirror) (id : ℕ) : Mirror :=
  match s.gets.get? id with
  | some g =>
    match g.answer, g.owner with
    | some a, .pass run => (s.dropGet id).proceedPass run g.key a
    | some a, .retry => (s.dropGet id).proceedRetry g.key a
    | _, _ => s
  | none => s

/-- A deadline passes before the `GET` has come to anything, and its owner gives it up. A worker of
a stale pass just ends. -/
def deadline (s : Mirror) (id : ℕ) : Mirror :=
  match s.gets.get? id with
  | some g =>
    if g.abandoned = true ∨ g.answer.isSome = true then s
    else
      match g.owner with
      | .pass run =>
        if s.stale run = true then s
        else
          let ms := ((s.passes.get? run).map Pass.getDeadlineMs).getD 0
          ((s.setGet id g.givenUp).block g.key (.overdue ms)).nextDownload run
      | .retry =>
        match s.retrying with
        | some r =>
          let ms := s.deadlineOf r.getDeadlineMs g.key
          let s := { s.setGet id g.givenUp with
            getDeadline := s.getDeadline.upsert g.key fun _ => min (ms * 2) retryGetDeadlineMaxMs }
          (s.block g.key (.overdue ms)).fetchGroup r r.rest
        | none => s
      | .raw => s
  | none => s

def note (s : Mirror) (key : Key) : Mirror := { s with dirty := addKey key s.dirty }

/-- The loop of a drain, up to its next `PUT`. -/
def drainOnce (s : Mirror) : List Key → Mirror
  | [] => { s with drain := none }
  | key :: batch =>
    if (s.blocked.get? key).isSome = true then s.drainOnce batch
    else if hasPath key = false then
      drainOnce { s with dirty := s.dirty.filter fun k => k ≠ key } batch
    else
      { s with dirty := s.dirty.filter fun k => k ≠ key, drain := some ⟨batch, ⟨key, none⟩⟩ }

def drainNow (s : Mirror) (isLeader : Bool) : Mirror :=
  if s.drain.isSome = true ∨ isLeader = false then s else s.drainOnce s.dirty

def putReads (s : Mirror) : Mirror :=
  { s with drain := s.drain.map fun d =>
      { d with put := { d.put with file := some (d.put.file.getD (s.disk d.put.key)) } } }

/-- The `PUT` has ended. A file that is not there is dropped, any other failure is queued again. -/
def putDone (s : Mirror) (ok : Bool) : Mirror :=
  match s.drain with
  | some ⟨batch, ⟨_, some none⟩⟩ => s.drainOnce batch
  | some ⟨batch, ⟨key, some (some _)⟩⟩ =>
    if ok = true then s.drainOnce batch else (s.note key).drainOnce batch
  | some ⟨batch, ⟨key, none⟩⟩ => if ok = true then s else (s.note key).drainOnce batch
  | none => s

def renderedBlocked (s : Mirror) (key : Key) : Bool :=
  (s.blocked.get? (transcriptOf key)).isSome || (s.blocked.get? (metaOf (transcriptOf key))).isSome

def refuses (s : Mirror) (key : Key) : Bool :=
  s.gated || if isRaw key = true then (s.pending.get? key).isSome else s.renderedBlocked key

def ingest (s : Mirror) (key : Key) (bytes : ℕ) : Mirror :=
  if s.refuses key = true then s
  else
    note { s with disk := Function.update s.disk key (some ((s.disk key).getD 0 + bytes)) } key

def openGate (s : Mirror) : Mirror :=
  if s.hydrated = true ∧ s.hydrating = false then { s with gated := false } else s

end Mirror

inductive Event
  | hydrate (getDeadlineMs : ℕ)
  | resumed (run : ℕ)
  | list (run : ℕ) (listing : Listing)
  | listed (run : ℕ) (ok : Bool)
  | finish (run : ℕ)
  | abandon
  | retryBlocked (getDeadlineMs : ℕ)
  | settle (ok : Bool)
  | retryEnd
  | fetchRaw (key : Key)
  | read (id : ℕ) (object : Option ℕ)
  | answer (id : ℕ)
  | fails (id : ℕ) (message : JsString)
  | proceed (id : ℕ)
  | deadline (id : ℕ)
  | note (key : Key)
  | ingest (key : Key) (bytes : ℕ)
  | openGate
  | drain (isLeader : Bool)
  | putReads
  | putDone (ok : Bool)

namespace Mirror

def list (s : Mirror) (run : ℕ) (listing : Listing) : Mirror :=
  match s.passes.get? run with
  | some ⟨getDeadlineMs, .listing none⟩ =>
    { s with passes := s.passes.upsert run fun _ => ⟨getDeadlineMs, .listing (some listing)⟩ }
  | _ => s

def step (s : Mirror) : Event → Mirror
  | .hydrate getDeadlineMs => s.hydrate getDeadlineMs
  | .resumed run => s.resumed run
  | .list run listing => s.list run listing
  | .listed run ok => s.listed run ok
  | .finish run => s.finish run
  | .abandon => s.abandon
  | .retryBlocked getDeadlineMs => s.retryBlocked getDeadlineMs
  | .settle ok => s.settle ok
  | .retryEnd => s.retryEnd
  | .fetchRaw key => s.fetchRaw key
  | .read id object => s.read id object
  | .answer id => s.answer id
  | .fails id message => s.fails id message
  | .proceed id => s.proceed id
  | .deadline id => s.deadline id
  | .note key => s.note key
  | .ingest key bytes => s.ingest key bytes
  | .openGate => s.openGate
  | .drain isLeader => s.drainNow isLeader
  | .putReads => s.putReads
  | .putDone ok => s.putDone ok

end Mirror

end Turma.ArchiveMirror
