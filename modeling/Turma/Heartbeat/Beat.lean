import Turma.Heartbeat.Room

/-! The heartbeat handler past its authorization, and the command queue: `queueCommand`,
`dropQueuedCommand` and the reply. What a handler does between two of its calls is one event, so that
a beat is its gates, then what the ingests and the drain queue and withdraw, then its reply. -/

namespace Turma.Heartbeat

open Turma.Lib Turma.Tenancy Turma.Registry

def FORMER_NAMES_MAX : ℕ := 8

/-- `stripSiteTenantSuffixes`: as many suffixes as `n`. -/
def stripSuffixes : ℕ → JsString → JsString
  | 0, site => site
  | n + 1, site =>
    if tenantSuffix (site.drop (site.length - 33)) = true then
      stripSuffixes n (site.take (site.length - 33))
    else site

def scopeSite (site tenantId : JsString) : JsString :=
  if site = [] then []
  else
    let base := stripSuffixes site.length site
    if tenantId = [] then base else base ++ .scalar '@' :: tenantId

structure Beat (β σ : Type) where
  key : JsString
  /-- The identity of its token. -/
  beatUid : Option Uid
  /-- The name that identity is at home under. -/
  uidHome : Option JsString
  tokenBound : Bool
  body : β
  ackedCommands : List JsString
  now : ℤ
  /-- What the ledgers and the ticket queue become where the beat is accepted. -/
  ingest : σ → σ

inductive Answer
  | full
  | tooLarge
  | malformed
  | overShare
  | accepted
deriving DecidableEq

def Answer.status : Answer → ℕ
  | .full | .overShare => 429
  | .tooLarge => 413
  | .malformed => 400
  | .accepted => 200

variable {β κ σ : Type}

section

variable (R : Rules β κ) (s : State β κ σ) (b : Beat β σ)

def renamedFrom : Option JsString :=
  match b.beatUid, b.uidHome with
  | some uid, some home =>
    if home ≠ b.key ∧ (s.agents.get? home).bind (·.agentUid) = some uid then some home else none
  | _, _ => none

def known : Bool := (s.agents.get? b.key).isSome || (renamedFrom s b).isSome

/-- `prev`, none where it is `{}`. -/
def prev : Option (Record β κ) :=
  (s.agents.get? b.key).or ((renamedFrom s b).bind s.agents.get?)

/-- What a refused beat rolls back to, none where it is `{}`. -/
def rollback : Option (Record β κ) :=
  if (renamedFrom s b).isSome then none else s.agents.get? b.key

def commandsLeft (queue : List Command) : List Command :=
  queue.filter fun c => c.cmdId ∉ b.ackedCommands && c.meantFor b.key

def formerNames (names : List JsString) : List JsString :=
  match renamedFrom s b with
  | some old =>
    let all := (names ++ [old]).eraseDups.filter (· ≠ b.key)
    all.drop (all.length - FORMER_NAMES_MAX)
  | none => names

def next : Record β κ where
  body := b.body
  commands := commandsLeft b (((prev s b).map (·.commands)).getD [])
  tokenBound := b.tokenBound
  orgBound :=
    let bound := scopeSite (((prev s b).map (·.orgBound)).getD []) (tenantOfHostKey b.key)
    if bound = [] then R.siteKeyOf b.body else bound
  agentUid := b.beatUid.or ((prev s b).bind (·.agentUid))
  uidBound := b.beatUid.isSome
  formerNames := formerNames s b (((prev s b).map (·.formerNames)).getD [])
  lastSeen := b.now
  kept := ((prev s b).map (·.kept)).getD R.blank
  subagentHistory := ((prev s b).map (·.subagentHistory)).getD .empty
  refused := none

/-- What the record becomes in `recordCoercion.normalize`, and whether the entries that it shares
with `prev` have been rewritten by then. -/
def normalizeRecord (r : Record β κ) : Option (Record β κ) × Bool :=
  match R.normalizeSessions r.body with
  | none => (none, false)
  | some body => match R.normalizeRest body r.kept with
    | none => (none, true)
    | some (body, kept) => (some { r.coerced with body := body, kept := kept }, true)

/-- The stamp and the coerced entries on a record that is kept. -/
def settle (coerced : Bool) (stamp : Option Reason) (now : ℤ) (r : Record β κ) : Record β κ :=
  let r := if coerced then r.coerced else r
  match stamp with
  | some why => { r with refused := some ⟨now, why⟩ }
  | none => r

def restore (t : State β κ σ) (coerced : Bool) (stamp : Option Reason) (forget : Bool) :
    State β κ σ :=
  match rollback s b with
  | some r =>
    let r := settle coerced stamp b.now r
    { t with
      agents := t.agents.upsert b.key fun _ => r
      recordBytes := if stamp.isSome then t.recordBytes.upsert b.key fun _ => R.size r
        else t.recordBytes }
  | none =>
    -- `prev` is the old name's record, unless there is one under the new name too.
    let mine := coerced && (s.agents.get? b.key).isNone
    let bytes := if forget then t.recordBytes.erase b.key else t.recordBytes
    match renamedFrom s b with
    | some old =>
      let agents := (t.agents.erase b.key).adjust old (settle mine stamp b.now)
      { t with
        agents := agents
        recordBytes := match stamp, agents.get? old with
          | some _, some r => bytes.upsert old fun _ => R.size r
          | _, _ => bytes }
    | none => { t with agents := t.agents.erase b.key, recordBytes := bytes }

def renameAgentRecord (t : State β κ σ) (uid : Uid) (newKey : JsString) : State β κ σ :=
  let gone := (t.agents.entries.filter fun e => e.1 ≠ newKey && e.2.agentUid = some uid).map Prod.fst
  t.evict gone

/-- What follows the gates, up to the first of the ingests. -/
def accept (t : State β κ σ) (r : Record β κ) : State β κ σ :=
  let t := { t with
    stores := b.ingest t.stores
    handling := some ⟨b.key, r.commands, true⟩ }
  match b.beatUid with
  | some uid => renameAgentRecord t uid b.key
  | none => t

def admission : State β κ σ × Bool := if known s b then (s, true) else s.makeRegistryRoom R b.now 0 1

/-- The gates, from the admission to the aggregate budget. -/
def heartbeat : State β κ σ × Answer :=
  if (admission R s b).2 = false then ((admission R s b).1, .full)
  else
    let t := (admission R s b).1
    let raw := next R s b
    let t := { t with agents := t.agents.upsert b.key fun _ => raw }
    if R.agentRecordMax < R.size raw then
      (restore R s b t false (some (.recordTooLarge (R.size raw))) false, .tooLarge)
    else match normalizeRecord R raw with
      | (none, coerced) => (restore R s b t coerced none false, .malformed)
      | (some r, coerced) =>
        let t := { t with agents := t.agents.upsert b.key fun _ => r }
        if R.agentRecordMax < R.size r then
          (restore R s b t coerced (some (.recordTooLarge (R.size r))) false, .tooLarge)
        else
          let t := { t with recordBytes := t.recordBytes.upsert b.key fun _ => R.size r }
          let room := t.makeRegistryRoom R b.now 0 0
          if room.2 = false ∧ R.share < R.size r then
            (restore R s b room.1 coerced (some (.registryFull (R.size r))) true, .overShare)
          else (accept b room.1 r, .accepted)

end

section

variable (R : Rules β κ) (s : State β κ σ)

/-- What `queueCommand` is given, and the id it draws. -/
structure Order where
  cmdId : JsString
  type : JsString
  bindTenant : Option JsString

def trimBytes (a : Record β κ) (size : ℕ) : List Command → List Command × ℕ
  | c :: c' :: cmds =>
    if R.agentRecordMax < R.size { a with commands := c :: c' :: cmds } then
      trimBytes a (R.size { a with commands := c :: c' :: cmds }) (c' :: cmds)
    else (c :: c' :: cmds, R.size { a with commands := c :: c' :: cmds })
  | cmds => (cmds, size)

/-- The handler's array is the record's, while it is shared. -/
def Handling.follow (h : Handling) (key : JsString) (cmds : List Command) : Handling :=
  if h.key = key ∧ h.shared = true then { h with commands := cmds } else h

def queueCommand (key : JsString) (o : Order) : State β κ σ :=
  match s.agents.get? key with
  | none => s
  | some a =>
    let c : Command := ⟨s.nextRef, key, o.cmdId, o.type, tenantOfHostKey key, o.bindTenant, none⟩
    let all := a.commands ++ [c]
    let cmds := all.drop (all.length - R.commandQueueMax)
    let fit := trimBytes R a (R.size { a with commands := cmds }) cmds
    { s with
      agents := s.agents.upsert key fun _ => { a with commands := fit.1 }
      recordBytes := s.recordBytes.upsert key fun _ => fit.2
      handling := s.handling.map fun h => h.follow key fit.1
      nextRef := s.nextRef + 1 }

/-- `dropQueuedCommand`. The record gets a new array whether or not anything was in it. -/
def dropQueuedCommand (key cmdId kind : JsString) : State β κ σ :=
  match s.agents.get? key with
  | none => s
  | some a =>
    let cmds := a.commands.filter fun c => c.cmdId ≠ cmdId || c.type ≠ kind
    let kept := if cmds.length = a.commands.length then a.kept else R.forgetWait a.kept cmdId
    { s with
      agents := s.agents.upsert key fun _ => { a with commands := cmds, kept := kept }
      handling := s.handling.map fun h => if h.key = key then { h with shared := false } else h }

/-- What else changes a record: a report of its liveness, an alert, an ingest into a cache. -/
def note (key : JsString) (lastSeen : ℤ) (body : β) (kept : κ)
    (subagentHistory : OrdMap JsString SubagentEntry) : State β κ σ :=
  { s with agents := s.agents.adjust key fun a =>
    { a with lastSeen := lastSeen, body := body, kept := kept, subagentHistory := subagentHistory } }

/-- The end of the handler: the commands of its array are stamped and sent, and the record is
measured as it ended up. -/
def reply (now : ℤ) : State β κ σ :=
  match s.handling with
  | none => s
  | some h => match s.agents.get? h.key with
    | none => s
    | some a =>
      let sent := h.commands.map (·.stamp now)
      let a := { a with commands := a.commands.map fun c =>
        if c.ref ∈ h.commands.map (·.ref) then c.stamp now else c }
      { s with
        agents := s.agents.upsert h.key fun _ => a
        recordBytes := s.recordBytes.upsert h.key fun _ => R.size a
        handling := none
        replies := s.replies ++ [⟨h.key, publicCommands sent, sent⟩] }

end

inductive Event (β κ σ : Type)
  | beat (b : Beat β σ)
  | queue (key : JsString) (o : Order)
  | withdraw (key cmdId kind : JsString)
  | note (key : JsString) (lastSeen : ℤ) (body : β) (kept : κ)
      (subagentHistory : OrdMap JsString SubagentEntry)
  | reply (now : ℤ)

/-- A beat waits for the one that is being handled. -/
def step (R : Rules β κ) (s : State β κ σ) : Event β κ σ → State β κ σ
  | .beat b => if s.handling.isSome then s else (heartbeat R s b).1
  | .queue key o => queueCommand R s key o
  | .withdraw key cmdId kind => dropQueuedCommand R s key cmdId kind
  | .note key lastSeen body kept subagentHistory => note s key lastSeen body kept subagentHistory
  | .reply now => reply R s now

end Turma.Heartbeat
