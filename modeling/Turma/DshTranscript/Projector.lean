import Turma.QwenGuard.Value

/-! `dsh_transcript.py` over `runtime_projection.py`: the events of a dsh session, one at a time, and
the transcript entries that each of them is projected to. -/

namespace Turma.DshTranscript

open Turma.Lib

open Turma.QwenGuard (Str Str.lit strip)

inductive PyFloat
  | finite (negative : Bool) (magnitude : ℚ)
  | inf (negative : Bool)
  | nan

inductive Value
  | none
  | bool (b : Bool)
  | int (n : ℤ)
  | float (f : PyFloat)
  | str (s : Str)
  | list (vs : List Value)
  | dict (ms : List (Str × Value))

abbrev Dict := List (Str × Value)

/-- `d.get(k)`. -/
def Dict.get (d : Dict) (k : String) : Value :=
  match d.find? fun e => e.1 == Str.lit k with
  | some e => e.2
  | none => .none

namespace Value

def truthy : Value → Bool
  | none => false
  | bool b => b
  | int n => n != 0
  | float (.finite _ m) => m != 0
  | float _ => true
  | str s => s != []
  | list vs => !vs.isEmpty
  | dict ms => !ms.isEmpty

/-- `a or b`. -/
def orElse (a b : Value) : Value := if a.truthy = true then a else b

/-- `v or ""`. -/
def orEmpty (v : Value) : Value := v.orElse (.str [])

/-- `v if isinstance(v, dict) else {}`. -/
def asDict : Value → Dict
  | dict ms => ms
  | _ => []

def elements : Value → List Value
  | list vs => vs
  | _ => []

def isText (v : Value) (s : String) : Bool :=
  match v with
  | str t => t == Str.lit s
  | _ => false

end Value

inductive Fault
  | valueError
  | recursionError

structure Python where
  /-- `str(v)` of a list or an object. -/
  repr : Value → Except Fault Str
  floatText : PyFloat → Str
  /-- `int(s)`, none for a `ValueError`. -/
  intOfStr : Str → Option ℤ
  /-- The timestamp of so many milliseconds, none where `datetime` has no such time. -/
  timeText : ℤ → Option Str
  /-- `json.loads`. -/
  loads : Str → Except Fault Value
  /-- `uuid5` in the projector's namespace. -/
  uuid5 : Str → Str

/-- `sys.get_int_max_str_digits()` -/
def intMaxStrDigits : ℕ := 4300

def decimal (n : ℤ) : Str :=
  (if n < 0 then Str.lit "-" else []) ++ (Nat.toDigits 10 n.natAbs).map .scalar

section

variable (P : Python)

/-- `str(v)`. -/
def pyStr : Value → Except Fault Str
  | .none => .ok (Str.lit "None")
  | .bool b => .ok (Str.lit (if b = true then "True" else "False"))
  | .int n =>
    if (Nat.toDigits 10 n.natAbs).length ≤ intMaxStrDigits then .ok (decimal n)
    else .error .valueError
  | .float f => .ok (P.floatText f)
  | .str s => .ok s
  | .list vs => P.repr (.list vs)
  | .dict ms => P.repr (.dict ms)

/-- `int(v)`, none where it raises. -/
def pyInt : Value → Option ℤ
  | .bool b => some (if b = true then 1 else 0)
  | .int n => some n
  | .float (.finite negative m) => some (if negative = true then -m.floor else m.floor)
  | .str s => P.intOfStr s
  | _ => none

def coerceInt : Value → ℕ
  | .bool _ => 0
  | v => ((pyInt P v).getD 0).toNat

def iso (time : Value) : Str := ((pyInt P time).bind P.timeText).getD []

end

inductive Block
  | text (text : Str)
  | thinking (thinking : Str)
  | toolUse (id : Option Str) (name : Str) (input : Value)
  | toolResult (toolUseId : Option Str) (content : List Block ⊕ Str) (isError : Bool)

inductive Role
  | user
  | assistant
deriving DecidableEq

structure Usage where
  inputTokens : ℕ
  outputTokens : ℕ
  cacheReadInputTokens : ℕ
  cacheCreationInputTokens : ℕ
deriving DecidableEq

structure Message where
  id : Option Str
  role : Role
  content : List Block ⊕ Str
  model : Option Str
  usage : Option Usage

structure Entry where
  type : Role
  uuid : Str
  parentUuid : Option Str
  sessionId : Str
  version : Str
  cwd : Option Str
  gitBranch : Option Str
  timestamp : Str
  requestId : Option Str
  message : Message
  toolUseResult : Option Dict

structure Context where
  sessionId : Str
  version : Str
  cwd : Option Str
  gitBranch : Option Str

structure State where
  parent : Option Str
  skipCalls : List Str

def State.fresh : State := ⟨none, []⟩

def subagentStopStatus : List (String × String) :=
  [("completed", "completed"), ("aborted", "stopped"), ("error", "failed"),
    ("max-tokens", "failed"), ("refusal", "failed")]

def workflowStopStatus : List (String × String) :=
  [("completed", "completed"), ("cancelled", "stopped"), ("error", "failed")]

/-- `table.get(reason, "completed")`. -/
def stopStatus (table : List (String × String)) (reason : Str) : Str :=
  match table.find? fun e => Str.lit e.1 == reason with
  | some e => Str.lit e.2
  | none => Str.lit "completed"

def delegationToolNames : List Str := ["subagent", "workflow"].map Str.lit

/-- `_TOOL_NAME_MAP.get(name, name)`. -/
def toolName (name : Str) : Str := if name = Str.lit "bash" then Str.lit "Bash" else name

def idChar : CodePoint → Bool
  | .scalar c => c.isAlphanum || c = '_' || c = '-'
  | .lone _ => false

/-- `_VALID_ID_RE`; a `$` also stands before a last line feed. -/
def validId (s : Str) : Bool :=
  let body := if s.getLast? = some (.scalar '\n') then s.dropLast else s
  1 ≤ body.length && body.length ≤ 64 && body.all idChar

section

variable (P : Python)

/-- The run id that a text comes to, empty where it can be none. -/
def shapedRunId (raw : Str) : Str :=
  if raw = [] then []
  else
    let raw := if (Str.lit "wf_").isPrefixOf raw = true then raw else Str.lit "wf_" ++ raw
    if validId (raw.drop 3) = true then raw else []

def workflowRunId (dshRunId : Value) : Except Fault Str := do
  return shapedRunId (strip (← pyStr P dshRunId.orEmpty))

def mapUsage : Value → Option Usage
  | .dict ms =>
    let out : Usage := ⟨coerceInt P (Dict.get ms "inputTokens"),
      coerceInt P (Dict.get ms "outputTokens"), coerceInt P (Dict.get ms "cacheReadTokens"),
      coerceInt P (Dict.get ms "cacheWriteTokens")⟩
    if out = ⟨0, 0, 0, 0⟩ then none else some out
  | _ => none

def eachBlock (f : Dict → Except Fault (List Block)) : List Value → Except Fault (List Block)
  | [] => .ok []
  | .dict b :: bs => do
    let now ← f b
    let rest ← eachBlock f bs
    return now ++ rest
  | _ :: bs => eachBlock f bs

def textBlock (b : Dict) : Except Fault (List Block) :=
  if (b.get "type").isText "text" = true then do return [.text (← pyStr P (b.get "text").orEmpty)]
  else if (b.get "type").isText "reasoning" = true then do
    return [.thinking (← pyStr P (b.get "text").orEmpty)]
  else if (b.get "type").isText "image" = true then .ok [.text (Str.lit "[image]")]
  else match b.get "text" with
    | .str t => .ok [.text t]
    | _ => .ok []

def contentToTextBlocks : Value → Except Fault (List Block)
  | .str t => .ok (if t = [] then [] else [.text t])
  | content => eachBlock (textBlock P) content.elements

/-- The input of a call: its arguments as they parse, and none of them where they do not. -/
def toolInput (args : Value) : Except Fault Value := do
  let inp ← match args with
    | .str s => match P.loads s with
      | .error .valueError => .ok (.dict [])
      | r => r
    | v => .ok (v.orElse (.dict []))
  return match inp with
    | .dict ms => .dict ms
    | v => .dict [(Str.lit "_value", v)]

/-- `str(v)` where `v` is truthy. -/
def textIf (v : Value) : Except Fault (Option Str) :=
  if v.truthy = true then do return some (← pyStr P v) else .ok none

def toolUseBlock (b : Dict) : Except Fault Block := do
  let inp ← toolInput P (b.get "arguments")
  let name ← pyStr P (b.get "name").orEmpty
  let id ← textIf P (b.get "id")
  return .toolUse id (toolName name) inp

def assistantBlock (b : Dict) : Except Fault (List Block) :=
  if (b.get "type").isText "tool-call" = true then do return [← toolUseBlock P b]
  else textBlock P b

def assistantContent (content : Value) : Except Fault (List Block) :=
  eachBlock (assistantBlock P) content.elements

variable (ctx : Context)

def mkUuid (seq : Value) (index : ℕ) : Except Fault Str := do
  return P.uuid5 (ctx.sessionId ++ Str.lit ":" ++ (← pyStr P seq) ++ Str.lit ":" ++ decimal index)

/-- `_envelope`, with the message and the timestamp. -/
def envelope (s : State) (type : Role) (seq : Value) (index : ℕ) (ts : Str) (message : Message) :
    Except Fault Entry := do
  return {
    type := type
    uuid := ← mkUuid P ctx seq index
    parentUuid := s.parent
    sessionId := ctx.sessionId
    version := ctx.version
    cwd := ctx.cwd
    gitBranch := ctx.gitBranch
    timestamp := ts
    requestId := none
    message := message
    toolUseResult := none }

def emit (s : State) (e : Entry) : State × List Entry := ({ s with parent := some e.uuid }, [e])

def plain (role : Role) (content : List Block ⊕ Str) : Message := ⟨none, role, content, none, none⟩

def userMessage (s : State) (data seq : Value) (ts : Str) : Except Fault (State × List Entry) := do
  let blocks ← contentToTextBlocks P (data.asDict.get "content")
  if blocks.isEmpty = true then return (s, [])
  let entry ← envelope P ctx s .user seq 0 ts (plain .user (.inl blocks))
  return emit s entry

def Block.delegates : Block → Bool
  | .toolUse _ name _ => delegationToolNames.contains name
  | _ => false

def Block.callId? : Block → Option Str
  | .toolUse id _ _ => id.filter fun i => i ≠ []
  | _ => none

/-- `_skip_calls.add` for each delegation call with an id. -/
def State.skip (s : State) (blocks : List Block) : State :=
  { s with skipCalls := (blocks.filter Block.delegates).filterMap Block.callId? ++ s.skipCalls }

def assistantMessage (s : State) (data seq : Value) (ts : Str) :
    Except Fault (State × List Entry) := do
  let data := data.asDict
  let msg := (data.get "message").asDict
  let blocks ← assistantContent P (msg.get "content")
  let s := s.skip blocks
  let kept := blocks.filter fun b => !b.delegates
  if kept.isEmpty = true then return (s, [])
  let seqText ← pyStr P seq
  let id ← textIf P (msg.get "id")
  let model ← textIf P ((msg.get "source").asDict.get "model")
  let entry ← envelope P ctx s .assistant seq 0 ts {
    id := some (id.getD (Str.lit "dsh-msg-" ++ seqText))
    role := .assistant
    content := .inl kept
    model := model
    usage := mapUsage P (data.get "usage") }
  return emit s { entry with requestId := some (Str.lit "dsh-" ++ seqText) }

def resultBlock (msg : Dict) : Dict :=
  match (msg.get "content").elements with
  | .dict b :: _ => b
  | _ => []

def resultCall (msg : Dict) : Value :=
  ((resultBlock msg).get "toolCallId").orElse ((msg.get "source").asDict.get "callId")

def toolResult (s : State) (data seq : Value) (ts : Str) : Except Fault (State × List Entry) := do
  let data := data.asDict
  let msg := (data.get "message").asDict
  let trb := resultBlock msg
  let callId ← textIf P (resultCall msg)
  match callId.filter fun id => s.skipCalls.contains id with
  | some id => return ({ s with skipCalls := s.skipCalls.filter fun i => i ≠ id }, [])
  | none =>
    let inner ← contentToTextBlocks P (trb.get "content")
    let isError := (trb.get "isError").truthy || (data.get "error").truthy
    let content := if inner.isEmpty = true then .inr [] else .inl inner
    let entry ← envelope P ctx s .user seq 0 ts
      (plain .user (.inl [.toolResult callId content isError]))
    return emit s entry

def interruptMarker : Str := Str.lit "[Request interrupted by user]"

def cancelled (data : Value) : Bool :=
  let reason := (data.asDict.get "reason").asDict
  (reason.get "kind").isText "aborted" && ((reason.get "reason").asDict.get "kind").isText "user"

def turnEnd (s : State) (data seq : Value) (ts : Str) : Except Fault (State × List Entry) := do
  if cancelled data = false then return (s, [])
  let entry ← envelope P ctx s .user seq 0 ts (plain .user (.inr interruptMarker))
  return emit s entry

/-- `_launch_pair`; `handle` is the launch's own, by which the call id goes. -/
def launchPair (s : State) (seq : Value) (name : Str) (input : Dict) (resultText handle : Str)
    (tur : Dict) (ts : Str) : Except Fault (State × List Entry) := do
  let callId := Str.lit "dsh-" ++ handle
  let seqText ← pyStr P seq
  let asst ← envelope P ctx s .assistant seq 0 ts { plain .assistant
      (.inl [.toolUse (some callId) name (.dict input)]) with
    id := some (Str.lit "dsh-msg-" ++ seqText) }
  let s := { s with parent := some asst.uuid }
  let res ← envelope P ctx s .user seq 1 ts
    (plain .user (.inl [.toolResult (some callId) (.inr resultText) false]))
  return ({ s with parent := some res.uuid }, [asst, { res with toolUseResult := some tur }])

def taskNotification (s : State) (seq : Value) (ts taskId status : Str) :
    Except Fault (State × List Entry) := do
  let entry ← envelope P ctx s .user seq 0 ts (plain .user (.inr
    (Str.lit "<task-notification><task-id>" ++ taskId ++ Str.lit "</task-id><status>" ++ status ++
      Str.lit "</status></task-notification>")))
  return emit s entry

/-- `data.get("childId") or data.get("id") or ""`. -/
def childOf (data : Value) : Value :=
  ((data.asDict.get "childId").orElse (data.asDict.get "id")).orEmpty

def subagentStart (s : State) (data seq : Value) (ts : Str) : Except Fault (State × List Entry) := do
  let child := strip (← pyStr P (childOf data))
  if validId child = false then return (s, [])
  let named := strip (← pyStr P (data.asDict.get "label").orEmpty)
  let label := if named = [] then child else named
  launchPair P ctx s seq (Str.lit "Agent")
    [(Str.lit "subagent_type", .str (Str.lit "subagent")), (Str.lit "description", .str label)]
    (Str.lit "Async agent launched successfully. agentId: " ++ child) child
    [(Str.lit "status", .str (Str.lit "async_launched")), (Str.lit "agentId", .str child),
      (Str.lit "agentType", .str (Str.lit "subagent")), (Str.lit "description", .str label)] ts

def subagentEnd (s : State) (data seq : Value) (ts : Str) : Except Fault (State × List Entry) := do
  let child := strip (← pyStr P (childOf data))
  if validId child = false then return (s, [])
  let reason := strip (← pyStr P (data.asDict.get "stopReason").orEmpty)
  taskNotification P ctx s seq ts child (stopStatus subagentStopStatus reason)

def workflowRunStart (s : State) (data seq : Value) (ts : Str) :
    Except Fault (State × List Entry) := do
  let runId ← workflowRunId P (data.asDict.get "runId")
  if runId = [] then return (s, [])
  let name := strip (← pyStr P (data.asDict.get "name").orEmpty)
  launchPair P ctx s seq (Str.lit "Workflow") [(Str.lit "name", .str name)]
    (Str.lit "Workflow run started. runId: " ++ runId) runId
    [(Str.lit "status", .str (Str.lit "async_launched")),
      (Str.lit "taskType", .str (Str.lit "local_workflow")), (Str.lit "workflowName", .str name),
      (Str.lit "runId", .str runId), (Str.lit "taskId", .str runId)] ts

def workflowRunEnd (s : State) (data seq : Value) (ts : Str) :
    Except Fault (State × List Entry) := do
  let runId ← workflowRunId P (data.asDict.get "runId")
  if runId = [] then return (s, [])
  let reason := strip (← pyStr P (data.asDict.get "stopReason").orEmpty)
  taskNotification P ctx s seq ts runId (stopStatus workflowStopStatus reason)

inductive Kind
  | userMessage
  | assistantMessage
  | toolResult
  | turnEnd
  | subagentStart
  | subagentEnd
  | workflowRunStart
  | workflowRunEnd
  | other
deriving DecidableEq

/-- The kinds by the `type` of their events. -/
def eventTypes : List (String × Kind) :=
  [("user/message", .userMessage), ("assistant/message", .assistantMessage),
    ("tool/result", .toolResult), ("turn/end", .turnEnd),
    ("turma/subagent-start", .subagentStart), ("turma/subagent-end", .subagentEnd),
    ("tool-workflow/run-start", .workflowRunStart), ("tool-workflow/run-end", .workflowRunEnd)]

def kindOf (event : Dict) : Kind :=
  match eventTypes.find? fun e => (event.get "type").isText e.1 with
  | some e => e.2
  | none => .other

def feed (s : State) : Value → Except Fault (State × List Entry)
  | .dict event =>
    let seq := Dict.get event "seq"
    let ts := iso P (Dict.get event "time")
    let data := Dict.get event "data"
    match kindOf event with
    | .userMessage => userMessage P ctx s data seq ts
    | .assistantMessage => assistantMessage P ctx s data seq ts
    | .toolResult => toolResult P ctx s data seq ts
    | .turnEnd => turnEnd P ctx s data seq ts
    | .subagentStart => subagentStart P ctx s data seq ts
    | .subagentEnd => subagentEnd P ctx s data seq ts
    | .workflowRunStart => workflowRunStart P ctx s data seq ts
    | .workflowRunEnd => workflowRunEnd P ctx s data seq ts
    | .other => .ok (s, [])
  | _ => .ok (s, [])

/-- The feeds of a log in order, from a projector that may have been fed before. -/
def feedAll (s : State) : List Value → Except Fault (State × List Entry)
  | [] => .ok (s, [])
  | event :: events => do
    let now ← feed P ctx s event
    let rest ← feedAll now.1 events
    return (rest.1, now.2 ++ rest.2)

def projectLog (events : List Value) : Except Fault (List Entry) := do
  return (← feedAll P ctx .fresh events).2

end

end Turma.DshTranscript
