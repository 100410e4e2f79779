import Turma.QwenGuard.Value

/-! `qwen/guard/shim.py`: one tool call against the shared hooks and the path rules. -/

namespace Turma.QwenGuard

open Turma.Lib

inductive Fault
  | failClosed (msg : Str)
  | osError (e : Str)
  | subprocessError (e : Str)
  | valueError (e : Str)
  | attributeError (e : Str)
  | other (e : Str)

/-- `str(e)`. -/
def Fault.text : Fault → Str
  | failClosed e | osError e | subprocessError e | valueError e | attributeError e | other e => e

/-- What `_run_hook` starts a process with, and the payload that it writes to it. -/
structure HookCall where
  exe : Value
  script : Value
  args : List Str
  toolName : Str
  toolInput : Str × Str
  cwd : Value
  sessionId : Value
  timeoutMs : Value

structure Proc where
  returncode : ℤ
  stdout : Str

structure Host where
  lower : Str → Str
  /-- `str(v)` of a value that is not a string, which is never the empty string. -/
  strOf : Value → {s : Str // s ≠ []}
  getcwd : Except Fault Str
  realpath : Str → Except Fault Str
  run : HookCall → Except Fault Proc
  /-- `json.loads`. -/
  loads : Str → Except Fault Value
  /-- `json.load` of the file at a path. -/
  load : Str → Except Fault Value
  /-- `sys.stdin.read()`. -/
  stdin : Except Fault Str

structure Config where
  raw : Dict
  denyWriteRe : List (List Token)
  denyReadRe : List (List Token)
  allowReadRe : List (List Token)

def fsWriteTools : List Str :=
  ["write_file", "replace", "edit", "write", "multiedit", "notebookedit"].map Str.lit

def fsReadTools : List Str := ["read_file", "read_many_files", "read_image", "read"].map Str.lit

def editorTools : List Str := ["str_replace_editor", "str_replace_based_edit_tool"].map Str.lit

def editorReadVerbs : List Str := ["view"].map Str.lit

def pathKeys : List String := ["file_path", "path", "absolute_path", "notebook_path"]

/-- `add(v)`. -/
def addPath (out : List Str) (v : Value) : List Str :=
  match v with
  | .str s => if s = [] ∨ s ∈ out then out else out ++ [s]
  | _ => out

def targetPaths (args : Dict) : List Str :=
  let out := pathKeys.foldl (fun out k => addPath out (args.get k)) []
  match args.get "paths" with
  | .list vs => vs.foldl addPath out
  | _ => out

inductive Surface
  | shell (command : Value)
  | write (targets : List Str)
  | read (targets : List Str)
  | other

variable (H : Host)

/-- `str(v)`. -/
def pyStr : Value → Str
  | .str s => s
  | v => (H.strOf v).1

/-- `str(v or "")`. -/
def strOrEmpty (v : Value) : Str := if v.truthy then pyStr H v else []

def asDict : Value → Dict
  | .dict ms => ms
  | _ => []

def classify (name : Value) (args : Value) : Surface :=
  let n := H.lower (strOrEmpty H name)
  let args := asDict args
  if shellNamed n then .shell (args.get "command")
  else if n ∈ fsWriteTools then .write (targetPaths args)
  else if n ∈ fsReadTools then .read (targetPaths args)
  else if n ∈ editorTools then
    let verb := H.lower (strOrEmpty H (args.get "command"))
    if verb ∈ editorReadVerbs then .read (targetPaths args) else .write (targetPaths args)
  else .other

/-- `os.path.join(cwd or os.getcwd(), p)` of a path that is not absolute. -/
def absolute (p : Str) (cwd : Value) : Except Fault Str :=
  if isabs p then .ok p
  else if cwd.truthy then match cwd with
    | .str c => .ok (join c p)
    | _ => .error (.other (Str.lit "expected str, bytes or os.PathLike object"))
  else match H.getcwd with
    | .ok c => .ok (join c p)
    | .error e => .error e

def resolveTarget (p : Str) (cwd : Value) : Except Fault (Option Str) :=
  if p = [] then .ok none
  else match absolute H p cwd with
    | .error e => .error e
    | .ok q => match H.realpath q with
      | .error e => .error e
      | .ok real => .ok (some real)

def literalTarget (p : Str) (cwd : Value) : Except Fault (Option Str) :=
  if p = [] then .ok none
  else match absolute H p cwd with
    | .error e => .error e
    | .ok q => .ok (some (normpath q))

def matchesTarget (literal real : Option Str) (regexps : List (List Token)) : Bool :=
  (match real with
    | some r => matchesAny r regexps
    | none => false) ||
  match literal with
    | some l => some l != real && matchesAny l regexps
    | none => false

def guardName : Str := Str.lit "Turma qwen safety guard"

def denyingByDefault : Str := Str.lit ". Denying by default."

/-- `{script}` in a message. -/
def named (v : Value) : Str := pyStr H v

/-- `(cfg.get("hookTimeoutMs") or 5000) / 1000.0` has to be a number. -/
def timeoutOf (cfg : Config) : Except Fault Value :=
  match (cfg.raw.get "hookTimeoutMs").orElse (.num 5000) with
  | .num n => .ok (.num n)
  | .bool b => .ok (.bool b)
  | _ => .error (.other (Str.lit "unsupported operand type(s) for /"))

/-- What a hook's output decides: a reason, or nothing. -/
def decisionOf (script : Value) (out : Str) : Except Fault (Option Str) :=
  let unreadable := Fault.failClosed (guardName ++ Str.lit ": unreadable decision from " ++
    named H script ++ denyingByDefault)
  match H.loads out with
  | .error (.valueError _) | .error (.attributeError _) => .error unreadable
  | .error e => .error e
  | .ok v => match v.orElse (.dict []) with
    | .dict ms => match (Dict.get ms "hookSpecificOutput").orElse (.dict []) with
      | .dict hs => match Dict.get hs "permissionDecision" with
        | .str d =>
          if d = Str.lit "deny" then
            .ok (some (pyStr H ((Dict.get hs "permissionDecisionReason").orElse
              (.str (Str.lit "denied by Turma safety guard")))))
          else .ok none
        | _ => .ok none
      | _ => .error (.attributeError (Str.lit "object has no attribute 'get'"))
    | _ => .error unreadable

def hookCall (cfg : Config) (script : Value) (toolName : Str) (toolInput : Str × Str)
    (cwd sessionId : Value) (args : List Str) (timeout : Value) : HookCall where
  exe := (cfg.raw.get "pythonExe").orElse (.str (Str.lit "python3"))
  script := script
  args := args
  toolName := toolName
  toolInput := toolInput
  cwd := cwd
  sessionId := sessionId.orElse (.str [])
  timeoutMs := timeout

/-- `cwd or os.getcwd()`. -/
def payloadCwd (cwd : Value) : Except Fault Value :=
  if cwd.truthy then .ok cwd
  else match H.getcwd with
    | .ok c => .ok (.str c)
    | .error e => .error e

def procOutcome (script : Value) (proc : Except Fault Proc) : Except Fault (Option Str) :=
  match proc with
  | .error (.osError e) | .error (.subprocessError e) =>
    .error (.failClosed (guardName ++ Str.lit " could not run " ++ named H script ++
      Str.lit ": " ++ e ++ denyingByDefault))
  | .error e => .error e
  | .ok proc =>
    if proc.returncode ≠ 0 then
      .error (.failClosed (guardName ++ Str.lit ": " ++ named H script ++ Str.lit " exited " ++
        Str.lit (toString proc.returncode) ++ denyingByDefault))
    else if strip proc.stdout = [] then .ok none
    else decisionOf H script (strip proc.stdout)

def runHook (cfg : Config) (script : Value) (toolName : Str) (toolInput : Str × Str)
    (cwd sessionId : Value) (args : List Str) : Except Fault (Option Str) :=
  if !script.truthy then .ok none
  else match payloadCwd H cwd with
    | .error e => .error e
    | .ok cwd => match timeoutOf cfg with
      | .error e => .error e
      | .ok timeout => procOutcome H script
          (H.run (hookCall cfg script toolName toolInput cwd sessionId args timeout))

def denyWriteReason (target : Str) : Str :=
  Str.lit "Writing " ++ target ++ Str.lit
    (" is blocked by the Turma safety guard: it is a host credential store, agent config, or " ++
      "the guard's own runtime code, shared across every session on this host. Do the work " ++
      "inside your worktree.")

def denyReadReason (target : Str) : Str :=
  Str.lit "Reading " ++ target ++ Str.lit
    (" is blocked by the Turma safety guard: it holds a host-shared credential. It is not " ++
      "needed for your task.")

/-- `[a for a in args if isinstance(a, str)] if isinstance(args, list) else ()`. -/
def guardArgs (cfg : Config) : List Str :=
  match cfg.raw.get "guardArgs" with
  | .list vs => vs.filterMap fun v => match v with
    | .str s => some s
    | _ => none
  | _ => []

def decideShell (cfg : Config) (command cwd sessionId : Value) : Except Fault (Option Str) :=
  let script := cfg.raw.get "guardScript"
  if !script.truthy then
    .error (.failClosed (guardName ++ Str.lit ": no shell guard script configured" ++
      denyingByDefault))
  else match command with
    | .str c => runHook H cfg script (Str.lit "Bash") (Str.lit "command", c) cwd sessionId
        (guardArgs cfg)
    | _ => .error (.failClosed (guardName ++ Str.lit (": a shell tool was called with a " ++
        "non-string command that cannot be inspected") ++ denyingByDefault))

/-- The body of the loop over the targets of a write. -/
def writeReason (cfg : Config) (cwd sessionId : Value) (tgt : Str) : Except Fault (Option Str) :=
  match resolveTarget H tgt cwd with
  | .error e => .error e
  | .ok none => .ok none
  | .ok (some real) => match literalTarget H tgt cwd with
    | .error e => .error e
    | .ok literal =>
      match runHook H cfg (cfg.raw.get "fileguardScript") (Str.lit "Write")
          (Str.lit "file_path", real) cwd sessionId [] with
      | .error e => .error e
      | .ok reason =>
        if reason ≠ none ∧ reason ≠ some [] then .ok reason
        else if matchesTarget literal (some real) cfg.denyWriteRe then
          .ok (some (denyWriteReason real))
        else .ok none

def readReason (cfg : Config) (cwd : Value) (tgt : Str) : Except Fault (Option Str) :=
  match resolveTarget H tgt cwd with
  | .error e => .error e
  | .ok none => .ok none
  | .ok (some real) => match literalTarget H tgt cwd with
    | .error e => .error e
    | .ok literal =>
      if matchesAny real cfg.allowReadRe then .ok none
      else if matchesTarget literal (some real) cfg.denyReadRe then .ok (some (denyReadReason real))
      else .ok none

/-- `for tgt in payload: …`, which returns at the first reason. -/
def firstReason (reason : Str → Except Fault (Option Str)) : List Str → Except Fault (Option Str)
  | [] => .ok none
  | t :: ts => match reason t with
    | .error e => .error e
    | .ok (some r) => .ok (some r)
    | .ok none => firstReason reason ts

def eventName (ev : Dict) : Value :=
  ((ev.get "tool_name").orElse (ev.get "toolName")).orElse (.str [])

def eventArgs (ev : Dict) : Value :=
  ((ev.get "tool_input").orElse (ev.get "toolInput")).orElse (.dict [])

def eventSession (ev : Dict) : Value := (ev.get "session_id").orElse (ev.get "sessionId")

def decide (cfg : Config) (ev : Dict) : Except Fault (Option Str) :=
  match classify H (eventName ev) (eventArgs ev) with
  | .shell command => decideShell H cfg command (ev.get "cwd") (eventSession ev)
  | .write targets => firstReason (writeReason H cfg (ev.get "cwd") (eventSession ev)) targets
  | .read targets => firstReason (readReason H cfg (ev.get "cwd")) targets
  | .other => .ok none

def compileAll (v : Value) : List (List Token) :=
  match v with
  | .list vs => vs.filterMap fun v => match v with
    | .str s => some (globToRegexp s)
    | _ => none
  | _ => []

def compile (raw : Dict) : Config where
  raw := raw
  denyWriteRe := compileAll (raw.get "denyWrite")
  denyReadRe := compileAll (raw.get "denyRead")
  allowReadRe := compileAll (raw.get "allowRead")

/-- `path` is none where the shim was started without one. -/
def loadConfig (path : Option Str) : Except Fault Config :=
  match path with
  | none | some [] =>
    .error (.failClosed (guardName ++ Str.lit ": no config path given" ++ denyingByDefault))
  | some p => match H.load p with
    | .error (.osError e) | .error (.valueError e) =>
      .error (.failClosed (guardName ++ Str.lit ": cannot read config " ++ p ++ Str.lit ": " ++ e ++
        denyingByDefault))
    | .error e => .error e
    | .ok (.dict raw) => .ok (compile raw)
    | .ok _ => .error (.failClosed (guardName ++ Str.lit ": config " ++ p ++
        Str.lit " is not an object" ++ denyingByDefault))

def readEvent : Except Fault Dict :=
  let unreadable := Fault.failClosed (guardName ++ Str.lit ": unreadable tool payload" ++
    denyingByDefault)
  match H.stdin with
  | .error e => .error e
  | .ok raw =>
    if strip raw = [] then .ok []
    else match H.loads raw with
      | .error e => .error e
      | .ok (.dict ev) => .ok ev
      | .ok _ => .error unreadable

structure Outcome where
  denied : Option Str
  stderr : Option Str
  exit : ℕ
deriving DecidableEq

/-- The `try` block of `main`. -/
def judge (path : Option Str) : Except Fault (Option Str) :=
  match loadConfig H path with
  | .error e => .error e
  | .ok cfg => match readEvent H with
    | .error e => .error e
    | .ok ev => decide H cfg ev

def faultMessage : Fault → Str
  | .failClosed msg => msg
  | e => guardName ++ Str.lit " error: " ++ e.text ++ denyingByDefault

def main (path : Option Str) : Outcome :=
  match judge H path with
  | .error e => ⟨some (faultMessage e), some (faultMessage e ++ [newline]), 2⟩
  | .ok (some reason) => ⟨if reason = [] then none else some reason, none, 0⟩
  | .ok none => ⟨none, none, 0⟩

end Turma.QwenGuard
