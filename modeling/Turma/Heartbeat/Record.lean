import Turma.Registry.Life

/-! What the heartbeat handler keeps of a host: its record with the queued commands and the caches
that outlive a beat, and the sizes that were last measured. -/

namespace Turma.Heartbeat

open Turma.Lib Turma.Tenancy Turma.Registry JsString

/-- A queued command. `ref` tells the object from all others, and `queuedFor` is the key it was
queued under. -/
structure Command where
  ref : ℕ
  queuedFor : JsString
  cmdId : JsString
  type : JsString
  /-- Empty where the command carries none. -/
  tenant : JsString
  bindTenant : Option JsString
  deliveredAt : Option ℤ
deriving DecidableEq

structure Public where
  cmdId : JsString
  type : JsString
deriving DecidableEq

def publicCommands (cmds : List Command) : List Public := cmds.map fun c => ⟨c.cmdId, c.type⟩

def setToken : JsString := ofString "setToken"

def Command.meantFor (key : JsString) (c : Command) : Bool :=
  c.tenant = tenantOfHostKey key ||
    (c.tenant = [] && c.type = setToken && c.bindTenant = some (tenantOfHostKey key))

def Command.stamp (now : ℤ) (c : Command) : Command :=
  { c with deliveredAt := c.deliveredAt.orElse fun _ => some now }

def WORKFLOW_AGENT_FIELD_MAX : ℕ := 256
def WORKFLOW_AGENTS_MAX : ℕ := 200

structure WorkflowAgent where
  id : JsString
  label : JsString
  startedAt : JsString
  status : Option JsString
deriving DecidableEq

/-- An entry of `subagentHistory`: `agents` is none where it is null or missing. -/
structure SubagentEntry where
  agents : Option (List WorkflowAgent)
  agentsTruncated : Bool
deriving DecidableEq

def sanitizeWorkflowAgent (a : WorkflowAgent) : Option WorkflowAgent :=
  if a.id.slice WORKFLOW_AGENT_FIELD_MAX = [] then none
  else some {
    id := a.id.slice WORKFLOW_AGENT_FIELD_MAX
    label := a.label.slice WORKFLOW_AGENT_FIELD_MAX
    startedAt := a.startedAt.slice WORKFLOW_AGENT_FIELD_MAX
    status := (a.status.map fun t => t.trim.slice WORKFLOW_AGENT_FIELD_MAX).filter (· ≠ []) }

def sanitizeWorkflowAgents (rows : List WorkflowAgent) : List WorkflowAgent :=
  (rows.filterMap sanitizeWorkflowAgent).take WORKFLOW_AGENTS_MAX

def normalizeSubagentHistory (cache : OrdMap JsString SubagentEntry) :
    OrdMap JsString SubagentEntry :=
  cache.mapValues fun e => { e with agents := e.agents.map sanitizeWorkflowAgents }

/-- Why a beat of a known host was refused, with the size that was measured. -/
inductive Reason
  | recordTooLarge (size : ℕ)
  | registryFull (size : ℕ)
deriving DecidableEq

def Reason.code : Reason → JsString
  | .recordTooLarge _ => ofString "record-too-large"
  | .registryFull _ => ofString "registry-full"

structure Refused where
  stamped : ℤ
  reason : Reason
deriving DecidableEq

/-- A host's record. `β` are the fields of its last report, `κ` the alerts and the caches that
survive across beats. -/
structure Record (β κ : Type) where
  body : β
  commands : List Command
  tokenBound : Bool
  /-- Empty where the host is bound to no org. -/
  orgBound : JsString
  agentUid : Option Uid
  uidBound : Bool
  formerNames : List JsString
  lastSeen : ℤ
  kept : κ
  subagentHistory : OrdMap JsString SubagentEntry
  refused : Option Refused

/-- The text of `refused.detail`. -/
def Reason.detail (recordMax share : ℕ) : Reason → JsString
  | .recordTooLarge size => ofString
      ("record is " ++ toString size ++ " bytes, over the " ++ toString recordMax ++
        "-byte per-host limit — shrink this host's report (fewer/smaller sessions, repos)")
  | .registryFull size => ofString
      ("record is " ++ toString size ++ " bytes, over its " ++ toString share ++
        "-byte share of a full registry — shrink this host's report, or raise AGENTS_TOTAL_MAX")

variable {β κ σ : Type}

def Record.agent (r : Record β κ) : Agent := { agentUid := r.agentUid, lastSeen := r.lastSeen }

def Record.unstamped (r : Record β κ) : Record β κ := { r with refused := none }

def Record.coerced (r : Record β κ) : Record β κ :=
  { r with subagentHistory := normalizeSubagentHistory r.subagentHistory }

/-- The hub's limits, how it measures a record and what it does to a report. -/
structure Rules (β κ : Type) where
  limits : Limits
  agentRecordMax : ℕ
  commandQueueMax : ℕ
  agentsMax_pos : 0 < limits.agentsMax
  commandQueueMax_pos : 0 < commandQueueMax
  idle_nonneg : 0 ≤ limits.agentEvictIdleMs
  /-- `agentRecordSize`. -/
  size : Record β κ → ℕ
  /-- `normalizeSessions`, none where it throws. -/
  normalizeSessions : β → Option β
  /-- The coercions that follow the one of `subagentHistory`. -/
  normalizeRest : β → κ → Option (β × κ)
  siteKeyOf : β → JsString
  /-- The alerts and caches of a host that has no record. -/
  blank : κ
  /-- `delete resultWaits[cmdId]`. -/
  forgetWait : κ → JsString → κ

/-- `AGENT_FAIR_SHARE`. -/
def Rules.share (R : Rules β κ) : ℕ := max 1 (R.limits.agentsTotalMax / R.limits.agentsMax)

/-- A beat that is being handled: its `commands`, and whether the record's queue is still that very
array. -/
structure Handling where
  key : JsString
  commands : List Command
  shared : Bool

structure Reply where
  key : JsString
  commands : List Public
  objects : List Command

structure State (β κ σ : Type) where
  agents : OrdMap JsString (Record β κ)
  recordBytes : OrdMap JsString ℕ
  /-- The usage, permission and outcome ledgers and the ticket queue. -/
  stores : σ
  handling : Option Handling
  replies : List Reply
  nextRef : ℕ

def State.start (stores : σ) : State β κ σ := ⟨.empty, .empty, stores, none, [], 0⟩

end Turma.Heartbeat
