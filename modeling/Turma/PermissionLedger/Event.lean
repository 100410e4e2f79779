import Mathlib.Data.Rat.Floor
import Turma.Lib.Json
import Turma.Lib.JsString

/-! The rows of the permission ledger, and what is let in of a row that an agent sends. -/

namespace Turma.PermissionLedger

open Turma.Lib JsString

def dayMs : ℕ := 86400000

structure Limits where
  maxRows : ℕ
  hostMaxRows : ℕ
  days : ℕ
  maxBytes : ℕ

/-- The limits where the environment sets none, in a container of 512 MiB. -/
def defaultLimits : Limits := ⟨20000, 5000, 30, 8 * 1024 * 1024⟩

inductive Kind
  | dialog
  | classifierDenied
  | askInChat
  | judged
deriving DecidableEq

inductive DialogKind
  | permission
  | plan
  | sandbox
  | other
deriving DecidableEq

inductive Answer
  | allow
  | deny
  | unknown
deriving DecidableEq

inductive Via
  | turma
  | terminal
  | unknown
deriving DecidableEq

/-- `VERDICTS`. -/
inductive Ruling
  | allow
  | stand
deriving DecidableEq

def Kind.name : Kind → String
  | .dialog => "dialog"
  | .classifierDenied => "classifier-denied"
  | .askInChat => "ask-in-chat"
  | .judged => "judged"

def DialogKind.name : DialogKind → String
  | .permission => "permission"
  | .plan => "plan"
  | .sandbox => "sandbox"
  | .other => "other"

def Answer.name : Answer → String
  | .allow => "allow"
  | .deny => "deny"
  | .unknown => "unknown"

def Via.name : Via → String
  | .turma => "turma"
  | .terminal => "terminal"
  | .unknown => "unknown"

def Ruling.name : Ruling → String
  | .allow => "allow"
  | .stand => "stand"

/-- A stored row. An empty string or list stands for a field that is absent. -/
structure Row where
  id : JsString
  kind : Kind
  openedAt : ℕ
  sessionId : JsString
  dialogKind : Option DialogKind
  tool : JsString
  head : JsString
  digest : JsString
  toolUseId : JsString
  prompt : JsString
  denyReason : JsString
  judgeReason : JsString
  options : List JsString
  rulesMatched : List JsString
  closedAt : Option ℕ
  waitedMs : Option ℕ
  answer : Option Answer
  answerNumber : Option ℕ
  via : Option Via
  verdict : Option Ruling
deriving DecidableEq

/-- What an agent sends, as far as the sanitiser can tell it: each field where it is a string, a
finite number or a list (with its strings), `none` where it is anything else. -/
structure RawEvent where
  id : Option JsString
  kind : Option JsString
  openedAt : Option ℚ
  sessionId : Option JsString
  dialogKind : Option JsString
  tool : Option JsString
  head : Option JsString
  digest : Option JsString
  toolUseId : Option JsString
  prompt : Option JsString
  denyReason : Option JsString
  judgeReason : Option JsString
  options : Option (List (Option JsString))
  rulesMatched : Option (List (Option JsString))
  closedAt : Option ℚ
  waitedMs : Option ℚ
  answer : Option JsString
  answerNumber : Option ℚ
  via : Option JsString
  verdict : Option JsString

def named {ε : Type*} (members : List ε) (name : ε → String) (field : Option JsString) : Option ε :=
  members.find? fun m => field = some (ofString (name m))

def Kind.all : List Kind := [.dialog, .classifierDenied, .askInChat, .judged]

def DialogKind.all : List DialogKind := [.permission, .plan, .sandbox, .other]

def Answer.all : List Answer := [.allow, .deny, .unknown]

def Via.all : List Via := [.turma, .terminal, .unknown]

def Ruling.all : List Ruling := [.allow, .stand]

def idChar (c : Char) : Bool := asciiAlnum c || c ∈ ['.', '_', ':', '-']

def sidChar (c : Char) : Bool := asciiAlnum c || c ∈ ['.', '_', '-']

def capStr (field : Option JsString) (max : ℕ) : JsString :=
  (field.map fun s => s.blankControls.slice max).getD []

/-- The strings of a list, the first `n` of them. -/
def capList (field : Option (List (Option JsString))) (n : ℕ) : List JsString :=
  ((field.getD []).filterMap fun s => s).take n |>.map fun s => capStr (some s) 200

def timeWithin (field : Option ℚ) (lo hi : ℚ) : Option ℕ :=
  field.bind fun t => if lo ≤ t ∧ t ≤ hi then some ⌊t⌋.toNat else none

def sanitizePermissionEvent (l : Limits) (now : ℕ) (raw : RawEvent) : Option Row :=
  let id := raw.id.getD []
  if JsString.matches1 idChar 160 id = false then none
  else
    match named Kind.all Kind.name raw.kind, raw.openedAt with
    | some kind, some openedAt =>
      if openedAt ≤ 0 ∨ ((now + dayMs : ℕ) : ℚ) < openedAt then none
      else some {
        id := id
        kind := kind
        openedAt := ⌊openedAt⌋.toNat
        sessionId :=
          if JsString.matches1 sidChar 64 (raw.sessionId.getD []) = true then raw.sessionId.getD []
          else []
        dialogKind :=
          if kind = .dialog then
            some ((named DialogKind.all DialogKind.name raw.dialogKind).getD .other)
          else none
        tool := capStr raw.tool 128
        head := capStr raw.head 200
        digest := capStr raw.digest 400
        toolUseId := capStr raw.toolUseId 128
        prompt := capStr raw.prompt 300
        denyReason := capStr raw.denyReason 300
        judgeReason := capStr raw.judgeReason 300
        options := capList raw.options 9
        rulesMatched := capList raw.rulesMatched 8
        closedAt := timeWithin raw.closedAt (⌊openedAt⌋.toNat : ℕ) ((now + dayMs : ℕ) : ℚ)
        waitedMs := timeWithin raw.waitedMs 0 ((l.days * dayMs : ℕ) : ℚ)
        answer := named Answer.all Answer.name raw.answer
        answerNumber :=
          raw.answerNumber.bind fun n => if n.den = 1 ∧ 1 ≤ n ∧ n ≤ 9 then some n.num.toNat else none
        via := named Via.all Via.name raw.via
        verdict := if kind = .judged then named Ruling.all Ruling.name raw.verdict else none }
    | _, _ => none

def jsonText (s : String) : List Char := jsonString (ofString s)

def member (key : String) (value : Option (List Char)) : List (List Char × List Char) :=
  (value.map fun v => (jsonText key, v)).toList

def textMember (key : String) (s : JsString) : List (List Char × List Char) :=
  member key (if s = [] then none else some (jsonString s))

def listMember (key : String) (ss : List JsString) : List (List Char × List Char) :=
  member key (if ss = [] then none
    else some ('[' :: [','].intercalate (ss.map jsonString) ++ [']']))

/-- `JSON.stringify` of a row, its members in the order of the sanitiser. -/
def Row.json (r : Row) : List Char :=
  jsonObject (
    member "id" (some (jsonString r.id)) ++ member "kind" (some (jsonText r.kind.name)) ++
    member "openedAt" (some (jsonNumber r.openedAt)) ++ textMember "sessionId" r.sessionId ++
    member "dialogKind" (r.dialogKind.map fun d => jsonText d.name) ++
    textMember "tool" r.tool ++ textMember "head" r.head ++ textMember "digest" r.digest ++
    textMember "toolUseId" r.toolUseId ++ textMember "prompt" r.prompt ++
    textMember "denyReason" r.denyReason ++ textMember "judgeReason" r.judgeReason ++
    listMember "options" r.options ++ listMember "rulesMatched" r.rulesMatched ++
    member "closedAt" (r.closedAt.map jsonNumber) ++
    member "waitedMs" (r.waitedMs.map jsonNumber) ++
    member "answer" (r.answer.map fun a => jsonText a.name) ++
    member "answerNumber" (r.answerNumber.map jsonNumber) ++
    member "via" (r.via.map fun v => jsonText v.name) ++
    member "verdict" (r.verdict.map fun v => jsonText v.name))

def bytesOf (r : Row) : ℕ := utf8Length r.json + 1

/-- How far along a row is: closed beats open, and a dialog that has its matched rules beats one
that does not. -/
def rowProgress (r : Row) : ℕ :=
  (if r.closedAt.isSome then 2 else 0) + (if r.rulesMatched ≠ [] then 1 else 0)

def isOpen (r : Row) : Bool := r.closedAt.isNone && r.answer.isNone

def Row.raw (r : Row) : RawEvent where
  id := some r.id
  kind := some (ofString r.kind.name)
  openedAt := some r.openedAt
  sessionId := some r.sessionId
  dialogKind := r.dialogKind.map fun d => ofString d.name
  tool := some r.tool
  head := some r.head
  digest := some r.digest
  toolUseId := some r.toolUseId
  prompt := some r.prompt
  denyReason := some r.denyReason
  judgeReason := some r.judgeReason
  options := some (r.options.map some)
  rulesMatched := some (r.rulesMatched.map some)
  closedAt := r.closedAt.map fun t => (t : ℚ)
  waitedMs := r.waitedMs.map fun t => (t : ℚ)
  answer := r.answer.map fun a => ofString a.name
  answerNumber := r.answerNumber.map fun n => (n : ℚ)
  via := r.via.map fun v => ofString v.name
  verdict := r.verdict.map fun v => ofString v.name

def question : Row where
  id := ofString "q1"
  kind := .dialog
  openedAt := 1000
  sessionId := ofString "s1"
  dialogKind := some .permission
  tool := ofString "Bash"
  head := []
  digest := []
  toolUseId := []
  prompt := []
  denyReason := []
  judgeReason := []
  options := []
  rulesMatched := []
  closedAt := none
  waitedMs := none
  answer := none
  answerNumber := none
  via := none
  verdict := none

example : sanitizePermissionEvent defaultLimits 2000 question.raw = some question := by
  decide

end Turma.PermissionLedger
