import Mathlib.Data.Rat.Defs
import Turma.Lib.JsString
import Turma.Tenancy.HostKey
import Turma.Lib.JsObject

/-! The paths of the archive, below its directory: the canonical file of a transcript and the
files of its raw layer. -/

namespace Turma.Archive

open Turma.Lib Turma.Tenancy JsString

abbrev slash : CodePoint := .scalar '/'

/-- `[a-z0-9._-]`. -/
def slugChar (c : Char) : Bool :=
  ('a' ≤ c && c ≤ 'z') || ('0' ≤ c && c ≤ '9') || c = '.' || c = '_' || c = '-'

/-- `[A-Za-z0-9._-]`. -/
def nameChar (c : Char) : Bool := asciiAlnum c || c = '.' || c = '_' || c = '-'

/-- `s.replace(/[^a-z0-9._-]+/g, "-")`. -/
def dashRuns (inRun : Bool) : JsString → JsString
  | [] => []
  | c :: s =>
    if CodePoint.isIn slugChar c = true then c :: dashRuns false s
    else if inRun = true then dashRuns true s
    else .scalar '-' :: dashRuns true s

def slugEdge (c : CodePoint) : Bool := c = .scalar '-' || c = .scalar '.'

/-- `slugify`, with `lower` for `toLowerCase`. -/
def slugify (lower : JsString → JsString) (s fallback : JsString) : JsString :=
  let out := ((dashRuns false (lower s.trim)).stripEnds slugEdge).take 60
  if out = [] then fallback else out

/-- The text fields that a chunk or a manifest entry carries, as far as a path is made of them. -/
structure NameParts where
  remoteKey : Option JsString
  repo : Option JsString
  createdAt : Option JsString
  endedTs : Option JsString
  summary : Option JsString
  host : JsString

def repoFolder (lower : JsString → JsString) (m : NameParts) : JsString :=
  slugify lower ((m.repo <|> m.remoteKey).getD (ofString "unknown"))
    (ofString "unknown")

def shortId (transcriptId : JsString) : JsString :=
  let short := (transcriptId.filter (CodePoint.isIn asciiAlnum)).take 8
  if short = [] then ofString "unknown" else short

def archiveRelPath (lower : JsString → JsString) (transcriptId : JsString) (m : NameParts) :
    JsString :=
  let date := ((m.endedTs <|> m.createdAt).getD []).slice 10
  let date := if date = [] then ofString "undated" else date
  let rel := repoFolder lower m ++ slash :: slugify lower date (ofString "undated") ++
    ofString "__" ++ slugify lower (m.summary.getD []) (ofString "session") ++
    ofString "__" ++ slugify lower m.host (ofString "host") ++
    ofString "__" ++ shortId transcriptId ++ ofString ".jsonl"
  let tenant := tenantOfHostKey m.host
  if tenant = [] then rel else .scalar '@' :: tenant ++ slash :: rel

/-- The tenant whose partition a path is in, empty for the untenanted tree. -/
def tenantOfRel (relPath : JsString) : JsString :=
  let dir := relPath.takeWhile fun c => c ≠ slash && c ≠ .scalar '\\'
  if tenantSuffix dir = true then dir.drop 1 else []

def dirId (transcriptId : JsString) : Bool :=
  transcriptId ≠ [] && transcriptId.allIn nameChar && transcriptId ≠ ofString "." &&
    transcriptId ≠ ofString ".."

/-- `rawDirFor`: `<jsonl>.raw/<id>`. -/
def rawDirFor (relPath transcriptId : JsString) : Option JsString :=
  if dirId transcriptId = true then
    some (relPath ++ ofString ".raw" ++ slash :: transcriptId)
  else none

def rawRelDepthMax : ℕ := 10
def rawRelLenMax : ℕ := 400
def rawRelComponentMax : ℕ := 255

/-- One component of the path of a raw file. A component of `nameChar` has as many bytes as
characters. -/
def rawComponent (p : JsString) : Bool :=
  p ≠ [] && p ≠ ofString "." && p ≠ ofString ".." &&
    p.length ≤ rawRelComponentMax && p.allIn nameChar

def safeRawRel (rel : JsString) : Option JsString :=
  let parts := rel.splitOn slash
  if rel = [] ∨ rawRelLenMax < rel.length16 ∨ rawRelDepthMax < parts.length then none
  else if parts.all rawComponent = true then some ([slash].intercalate parts)
  else none

def rawFilePath (relPath transcriptId rel : JsString) : Option JsString :=
  match safeRawRel rel, rawDirFor relPath transcriptId with
  | some safe, some dir =>
    let full := dir ++ slash :: safe
    if full ≠ dir ∧ ¬ (dir ++ [slash]) <+: full then none else some full
  | _, _ => none

end Turma.Archive

/-! The rows of the archive, with the table of `node:sqlite` and the session map of the Postgres
mode that hold them. -/

namespace Turma.Archive

open Turma.Lib JsString

structure Meta where
  remoteKey : Json
  repo : Json
  worktree : Json
  slug : Json
  createdAt : Json
  endedTs : Json
  summary : Json
deriving DecidableEq

namespace Meta

def map (f : Json → Json) (m : Meta) : Meta where
  remoteKey := f m.remoteKey
  repo := f m.repo
  worktree := f m.worktree
  slug := f m.slug
  createdAt := f m.createdAt
  endedTs := f m.endedTs
  summary := f m.summary

def values (m : Meta) : List Json :=
  [m.remoteKey, m.repo, m.worktree, m.slug, m.createdAt, m.endedTs, m.summary]

def none : Meta := ⟨.null, .null, .null, .null, .null, .null, .null⟩

end Meta

/-- `v || null`. -/
def orNull (v : Json) : Json := if v.truthy = true then v else .null

/-- `a || b`, of fields. -/
def orElse (a b : Json) : Json := if a.truthy = true then a else b

def text? : Json → Option JsString
  | .str s => some s
  | _ => none

/-- A row. The byte cursor of the agent, `bytesStored`, is any finite number; the other figures
count. -/
structure Row where
  transcriptId : JsString
  host : Option JsString
  siteKey : Option JsString
  data : Meta
  msgCount : ℕ
  bytesStored : ℚ
  archiveBytes : ℕ
  rawBytes : ℕ
  filePath : Option JsString
  updatedAt : Option JsString
deriving DecidableEq

inductive Mode
  | sqlite
  | pg
deriving DecidableEq

structure SearchEntry where
  text : JsString
  uuid : Json
  role : Json
  ts : Json
deriving DecidableEq

/-- The index. `rows` is the `sessions` table in `sqlite` mode and `sessionsMap` in `pg` mode;
`fts` is used in the one and `filePathIndex` in the other. -/
structure Index where
  mode : Mode
  rows : OrdMap JsString Row
  fts : List (JsString × SearchEntry)
  filePathIndex : OrdMap JsString JsString

/-- What a `TEXT` column takes of a value, `none` where `node:sqlite` refuses to bind it. `realText`
is how SQLite writes a number out. -/
def bind (realText : JsNumber → JsString) : Json → Option Json
  | .null => some .null
  | .str s => some (.str s.toWellFormed)
  | .num n => some (.str (realText n))
  | .bool _ => none
  | .arr _ => none
  | .obj _ => none

def bindAll (realText : JsNumber → JsString) (m : Meta) : Option Meta := do
  return {
    remoteKey := ← bind realText m.remoteKey
    repo := ← bind realText m.repo
    worktree := ← bind realText m.worktree
    slug := ← bind realText m.slug
    createdAt := ← bind realText m.createdAt
    endedTs := ← bind realText m.endedTs
    summary := ← bind realText m.summary }

/-- How a text stands in the index: in a `TEXT` column, or as it is. -/
def Mode.text : Mode → JsString → JsString
  | .sqlite, s => s.toWellFormed
  | .pg, s => s

/-- A row as the index holds it, `none` where `node:sqlite` refuses a value. -/
def Mode.stored (mode : Mode) (realText : JsNumber → JsString) (row : Row) : Option Row :=
  match mode with
  | .pg => some row
  | .sqlite => (bindAll realText row.data).map fun data =>
      { row with
        transcriptId := row.transcriptId.toWellFormed
        host := row.host.map JsString.toWellFormed
        siteKey := row.siteKey.map JsString.toWellFormed
        data := data
        filePath := row.filePath.map JsString.toWellFormed
        updatedAt := row.updatedAt.map JsString.toWellFormed }

namespace Index

def get (x : Index) (id : JsString) : Option Row := x.rows.get? (x.mode.text id)

def pathOwner (x : Index) (relPath : JsString) : Option JsString :=
  match x.mode with
  | .pg => x.filePathIndex.get? relPath
  | .sqlite => (x.rows.values.find? fun r =>
      decide (r.filePath = some relPath.toWellFormed)).map Row.transcriptId

/-- `mapPutSession`, or the write of a whole row of the table. -/
def put (x : Index) (row : Row) : Index :=
  match x.mode with
  | .pg => { x with
      rows := x.rows.upsert row.transcriptId fun _ => row
      filePathIndex := match row.filePath with
        | some p => x.filePathIndex.upsert p fun _ => row.transcriptId
        | none => x.filePathIndex }
  | .sqlite => { x with rows := x.rows.upsert row.transcriptId fun _ => row }

end Index

end Turma.Archive
