import Turma.Lib.JsString
import Turma.Tenancy.HostKey

/-! Host names and registry keys: which of them a host may hold. `master` stands for whether the
hub has its fleet token, without which it derives none. -/

namespace Turma.Registry

open Turma.Lib Turma.Tenancy JsString

def baseOfKey (key : JsString) : JsString :=
  if tenantOfHostKey key = [] then key else key.take (key.length - 33)

def tenantHostKey (device tenantId : JsString) : JsString :=
  if tenantId = [] then device else device ++ .scalar '@' :: tenantId

/-- `TENANT_ID_RE`. -/
def isTenantId (t : JsString) : Bool := t.length = 32 && t.all isHex

def isPlainHostKey (key : JsString) : Bool :=
  key ≠ [] && key.length16 ≤ 200 &&
    key ≠ ofString "__proto__" && key ≠ ofString "constructor" &&
    key ≠ ofString "prototype" && key ≠ ofString "." && key ≠ ofString ".."

def hasAgentToken (master : Bool) (host : JsString) : Bool :=
  master && host ≠ [] && !(ofString "uid:").isPrefixOf host &&
    host.toWellFormed = host && isPlainHostKey host && tenantOfHostKey host = []

def hostKeyUsable (master : Bool) (key : JsString) : Bool :=
  isPlainHostKey key && baseOfKey key ≠ [] && isPlainHostKey (baseOfKey key) &&
    hasAgentToken master (baseOfKey key)

theorem tenantSuffix_of_isTenantId {t : JsString} (h : isTenantId t = true) :
    tenantSuffix (.scalar '@' :: t) = true := by
  simpa [tenantSuffix, isTenantId] using h

theorem tenantOfHostKey_tenantHostKey {device t : JsString} (h : isTenantId t = true) :
    tenantOfHostKey (tenantHostKey device t) = t := by
  have hlength : t.length = 32 := by simp [isTenantId] at h; exact h.1
  have ht : t ≠ [] := by rintro rfl; simp at hlength
  have hdrop : (device ++ .scalar '@' :: t).drop ((device ++ .scalar '@' :: t).length - 33) =
      .scalar '@' :: t := by
    rw [show (device ++ .scalar '@' :: t).length - 33 = device.length by simp [hlength]]
    exact List.drop_left
  rw [tenantHostKey, if_neg ht, tenantOfHostKey]
  simp only [hdrop, tenantSuffix_of_isTenantId h, if_true]
  rfl

theorem tenantOfHostKey_of_hasAgentToken {master : Bool} {host : JsString}
    (h : hasAgentToken master host = true) : tenantOfHostKey host = [] := by
  simp only [hasAgentToken, Bool.and_eq_true, decide_eq_true_eq] at h
  exact h.2

/-! The registry of agent identities and the records they are bound to: who may act as which host. -/

/-- Sixteen random bytes, written as 32 hex digits. -/
abbrev Uid := BitVec 128

/-- An entry of `agentIdentities`: `origin` the name it was minted for, `home` the one it beats
as, `names` those it has gone by. -/
structure Identity where
  origin : Option JsString := none
  home : JsString
  mintedAt : ℤ
  used : Bool := false
  released : Bool := false
  names : List JsString := []
  revoked : Bool := false
  /-- Empty for an identity outside every tenant. -/
  tenantId : JsString := []
deriving DecidableEq

structure Agent where
  agentUid : Option Uid := none
  lastSeen : ℤ
  /-- `updating.until`. -/
  updatingUntil : Option ℤ := none
deriving DecidableEq

structure State where
  agentIdentities : OrdMap Uid Identity
  agents : OrdMap JsString Agent

/-- What the hub is configured with, and `toLowerCase`. -/
structure Hub where
  master : Bool
  lower : JsString → JsString

def OFFLINE_AFTER_MS : ℤ := 75 * 1000
def AGENT_IDENTITIES_MAX : ℕ := 1024
def AGENT_NAMES_MAX : ℕ := 8

inductive Refusal
  | unregistered
  | unusable (host : JsString)
  | held (host : JsString)
  | reRegistered (host : JsString)
  | removed (home : JsString)
  | ledgerHeld (host : JsString)
  | stillBeating (home : JsString)
  | nameRetired (host : JsString)
deriving DecidableEq

def Refusal.text : Refusal → JsString
  | .unregistered => ofString <|
      "this agent identity is not registered on this hub — re-provision the host with a " ++
      "fresh enrollment code from the dashboard's Add host (turma-agentctl enroll --code <code>)"
  | .unusable host => host ++ ofString " is not a usable host name"
  | .held host => host ++ ofString
      " is registered to another agent — remove it from the dashboard to release the name"
  | .reRegistered host => host ++ ofString
      (" was removed and re-registered by another agent — re-provision this host " ++
      "with a fresh enrollment code from the dashboard's Add host (turma-agentctl enroll --code <code>)")
  | .removed home => home ++ ofString
      " was removed from the dashboard — this agent may only return as " ++ home
  | .ledgerHeld host => host ++ ofString
      (" belonged to another host — re-provision it with its own token, or purge its " ++
      "usage history, to reuse the name")
  | .stillBeating home => ofString "this agent identity is still beating as " ++ home ++
      ofString " — two agents share one token"
  | .nameRetired host => host ++ ofString
      (" now authenticates with its agent identity token; its name-derived token is " ++
      "retired (Remove host on its card, or DELETE /api/agents/") ++ host ++ ofString
      " once it has none, releases the name for a reinstall)"

namespace State

def uidAt (s : State) (host : JsString) : Option Uid := (s.agents.get? host).bind (·.agentUid)

def identityEntry (s : State) (uid : Uid) : Option Identity := s.agentIdentities.get? uid

def identityOf (s : State) (uid : Uid) : Option Identity :=
  (s.identityEntry uid).filter fun e => !e.revoked

def hostOfUid (s : State) (uid : Uid) : Option JsString := (s.identityOf uid).map (·.home)

def identityByOrigin (s : State) (host : JsString) : Option Uid :=
  (s.agentIdentities.entries.find? fun x => x.2.origin = some host).map (·.1)

def tenantOfUid (s : State) (uid : Uid) : JsString :=
  ((s.identityEntry uid).map (·.tenantId)).getD []

/-- Why a name-derived token may no longer act as `host`. -/
def nameTokenRefusal (s : State) (host : JsString) : Option Refusal :=
  if ((s.identityByOrigin host).bind s.identityEntry).any (·.used) then some (.nameRetired host)
  else match s.uidAt host with
    | none => none
    | some uid =>
      if (s.identityOf uid).any (fun e => e.origin = some host) then none else some (.held host)

end State

def Identity.mine (H : Hub) (e : Identity) : List JsString :=
  ((e.origin.toList ++ e.home :: e.names).filter (· ≠ [])).map H.lower

/-- Whether the record at an identity's home shows its agent at work, and not restarting. -/
def Agent.beating (now : ℤ) (uid : Uid) (home : Agent) : Bool :=
  home.agentUid = some uid && !home.updatingUntil.any (now < ·) && now - home.lastSeen < OFFLINE_AFTER_MS

/-- Why agent `uid` may not act as `host`. `ledger` is what the usage ledger remembers. -/
def uidHostRefusal (H : Hub) (ledger : JsString → Bool) (now : ℤ) (s : State) (uid : Uid)
    (host : JsString) : Option Refusal :=
  match s.identityOf uid with
  | none => some .unregistered
  | some e =>
    if hostKeyUsable H.master host = false then some (.unusable host)
    else if tenantOfHostKey host ≠ s.tenantOfUid uid then some (.held (baseOfKey host))
    else if (s.uidAt host).any (· ≠ uid) then some (.held host)
    else if e.home = host then
      if e.released && (s.agents.get? host).any (·.agentUid.isNone) then some (.reRegistered host)
      else none
    else if (s.agents.get? host).any (·.agentUid.isNone) then some (.held host)
    else if e.released then some (.removed e.home)
    -- a stale copy of this agent's own record
    else if (s.agents.get? host).isSome then none
    else if s.agentIdentities.entries.any (fun x => x.1 ≠ uid && H.lower x.2.home = H.lower host) then
      some (.held host)
    -- a tenant bind is not a rename
    else if tenantOfHostKey e.home = [] ∧ tenantHostKey e.home (s.tenantOfUid uid) = host then none
    else if !(e.mine H).contains (H.lower host) && s.agents.keys.any (H.lower · = H.lower host) then
      some (.held host)
    else if !(e.mine H).contains (H.lower host) && ledger host then some (.ledgerHeld host)
    else if (s.agents.get? e.home).any (·.beating now uid) then some (.stillBeating e.home)
    else none

namespace State

def bound (s : State) (uid : Uid) : Bool := s.agents.values.any fun a => a.agentUid = some uid

def overflow (s : State) (keep : Uid) : List Uid :=
  let ids := s.agentIdentities.entries
  let free := ids.filter fun x => x.1 ≠ keep && !s.bound x.1 && !x.2.revoked
  ((free.insertionSort fun x y => x.2.mintedAt ≤ y.2.mintedAt).take
    (ids.length - AGENT_IDENTITIES_MAX)).map (·.1)

def trimAgentIdentities (s : State) (keep : Uid) : State :=
  { s with agentIdentities := s.agentIdentities.filterKeys fun u => !(s.overflow keep).contains u }

def claimOrigin (s : State) (host : JsString) : State × Option Uid :=
  match s.identityByOrigin host with
  | none => (s, none)
  | some uid =>
    if (s.identityEntry uid).any (·.revoked) then
      ({ s with agentIdentities := s.agentIdentities.erase uid }, none)
    else (s, some uid)

def boundAt (s : State) (host : JsString) : Option Uid :=
  (s.uidAt host).filter fun u => s.hostOfUid u = some host

def register (s : State) (host : JsString) (uid : Uid) (now : ℤ) : State :=
  { s with agentIdentities := s.agentIdentities.upsert uid fun _ =>
      { origin := some host, home := host, mintedAt := now, tenantId := tenantOfHostKey host } }

def stamp (s : State) (host : JsString) (uid : Uid) : State :=
  if s.hostOfUid uid = some host then
    { s with agents := s.agents.adjust host fun a => { a with agentUid := some uid } }
  else s

/-- The identity to hand `host`: the one minted for that name, else the one its record is bound
to, else `fresh`. -/
def issueAgentUid (s : State) (host : JsString) (fresh : Uid) (now : ℤ) : State × Uid :=
  let (s, minted) := s.claimOrigin host
  match minted <|> s.boundAt host with
  | some uid => (s.stamp host uid, uid)
  | none => (((s.register host fresh now).trimAgentIdentities fresh).stamp host fresh, fresh)

def bindIdentityTenant (s : State) (uid : Uid) (t : JsString) : State × Bool :=
  match s.identityOf uid with
  | none => (s, false)
  | some e =>
    if isTenantId t = false ∨ e.tenantId ≠ [] ∨ tenantOfHostKey e.home ≠ [] then (s, false)
    else ({ s with agentIdentities := s.agentIdentities.upsert uid fun _ =>
      { e with tenantId := t } }, true)

end State

/-- What the removal of `host` leaves of an identity. -/
def Identity.released? (host : JsString) (e : Identity) : Option Identity :=
  if e.revoked then if e.origin = some host then none else some e
  else some { e with
    origin := if e.origin = some host then none else e.origin
    released := e.released || e.home = host }

/-- What revoking `host`'s agent token leaves of an identity. An agent renamed here from another
name stays as a tombstone while its origin name's token is retired. -/
def Identity.revoked? (host : JsString) (e : Identity) : Option Identity :=
  if e.revoked || e.home ≠ host then some e
  else if e.origin.any (fun o => o ≠ [] && o ≠ host) && e.used then some { e with revoked := true }
  else none

/-- An identity after a beat as `key`. -/
def Identity.beaten (key : JsString) (e : Identity) : Identity :=
  if e.home = key then { e with used := true, released := false }
  else
    let names := e.names.filter (fun n => n ≠ e.home && n ≠ key) ++ [e.home]
    { e with used := true, released := false, home := key
             names := names.drop (names.length - AGENT_NAMES_MAX) }

namespace State

def releaseHostIdentities (s : State) (host : JsString) : State :=
  { s with agentIdentities := s.agentIdentities.sift fun _ e => e.released? host }

def revokeHostIdentities (s : State) (host : JsString) : State × ℕ :=
  ({ s with agentIdentities := s.agentIdentities.sift fun _ e => e.revoked? host },
    s.agentIdentities.values.countP fun e => !e.revoked && e.home = host)

/-- A beat on identity `uid` as `key`, and the name it moved from. -/
def noteIdentityBeat (s : State) (uid : Uid) (key : JsString) : State × Option JsString :=
  match s.identityOf uid with
  | none => (s, none)
  | some e =>
    ({ s with agentIdentities := s.agentIdentities.upsert uid fun _ => e.beaten key },
      if e.home = key then none else some e.home)

/-- Retires every other record bound to `uid` once its agent beat in as `newKey`. -/
def renameAgentRecord (s : State) (uid : Uid) (newKey : JsString) : State :=
  { s with agents := s.agents.sift fun k a =>
      if k ≠ newKey ∧ a.agentUid = some uid then none else some a }

end State

end Turma.Registry
