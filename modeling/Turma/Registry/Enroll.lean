import Turma.Registry.Steps

/-! One-time enrollment codes: minted by a tenant's user, traded once for the identity of a host in
that tenant. -/

namespace Turma.Registry

open Turma.Lib Turma.Tenancy JsString

/-- Eight random bytes, written as 16 hex digits. -/
abbrev CodeId := BitVec 64

/-- A record of `enrollCodes`. An empty text or a zero time stands for an absent one. -/
structure EnrollCode where
  hash : JsString
  owner : JsString
  tenantId : JsString
  device : JsString
  createdAt : ℤ
  expiresAt : ℤ
  usedAt : ℤ := 0
  usedBy : JsString := []
  revokedAt : ℤ := 0

inductive CodeState
  | used
  | revoked
  | expired
  | live
deriving DecidableEq

def EnrollCode.state (now : ℤ) (rec : EnrollCode) : CodeState :=
  if rec.usedAt ≠ 0 then .used
  else if rec.revokedAt ≠ 0 then .revoked
  else if rec.expiresAt ≤ now then .expired
  else .live

def CodeState.text : CodeState → String
  | .used => "used"
  | .revoked => "revoked"
  | .expired => "expired"
  | .live => "live"

structure Owner where
  owner : JsString
  tenantId : JsString
  tenant : tenantId = [] ∨ isTenantId tenantId = true

/-- What enrollment is configured with; `hash` stands for SHA-256 in hex. -/
structure Desk extends Hub where
  ttlMs : ℤ
  graceMs : ℤ
  hash : JsString → JsString

def ENROLL_CODE_KEEP_MS : ℤ := 24 * 60 * 60 * 1000
def ENROLL_CODES_LIVE_MAX : ℕ := 20
def ENROLL_CODES_MAX : ℕ := 200
def ENROLL_FAILS_PER_WINDOW : ℕ := 30
def ENROLL_ATTEMPT_WINDOW_MS : ℤ := 60 * 1000

inductive EnrollRefusal
  | noToken
  | unusableName (device : JsString)
  | registered (key : JsString)
  | revokedName (device : JsString)
  | earlierName (device home : JsString)
  | heldName (home : JsString)
  | tooManyLive (live : ℕ)
  | tooMany
  | noSuchCode
  | settled (state : CodeState)
  | malformed
  | rateLimited
  | unknown
  | spent (usedBy : JsString)
  | revoked
  | expired
  | otherDevice (wanted device : JsString)
  | ownerGone
  | pending (device : JsString) (left : ℤ)
  | stillBound (device : JsString)

def EnrollRefusal.status : EnrollRefusal → ℕ
  | .unusableName _ | .malformed => 400
  | .unknown => 401
  | .otherDevice .. => 403
  | .noSuchCode => 404
  | .spent _ | .revoked | .expired | .ownerGone => 410
  | .rateLimited => 429
  | .noToken | .registered _ | .revokedName _ | .earlierName .. | .heldName _ | .tooManyLive _
  | .tooMany | .settled _ | .pending .. | .stillBound _ => 409

def EnrollRefusal.text : EnrollRefusal → JsString
  | .noToken => ofString "this hub derives no agent tokens (no TURMA_AGENT_TOKEN set)"
  | .unusableName device =>
    (if device = [] then ofString "(empty)" else device) ++
      ofString " is not a usable host name"
  | .registered key => baseOfKey key ++ ofString
      " is already registered — remove it from the dashboard first to reinstall it"
  | .revokedName device => device ++ ofString
      (" belonged to an agent whose token was revoked — release the name first " ++
      "(DELETE /api/agents/") ++ device ++ ofString ")"
  | .earlierName device home => device ++ ofString " is an earlier name of " ++
      baseOfKey home ++ ofString " — that agent still owns it"
  | .heldName home => baseOfKey home ++ ofString
      " is registered to another agent — remove it from the dashboard first"
  | .tooManyLive live => ofString <| toString live ++
      " enrollment codes are still unused — revoke one or let it expire first"
  | .tooMany => ofString
      "the hub holds too many unused enrollment codes — try again once some expire"
  | .noSuchCode => ofString "no such enrollment code"
  | .settled state => ofString ("this enrollment code is already " ++ state.text)
  | .malformed => ofString "malformed enrollment code (expected te-<32 hex>)"
  | .rateLimited => ofString
      "too many failed enrollment attempts — wait a minute and retry"
  | .unknown => ofString
      "unknown enrollment code — mint a new one from the dashboard's Add host dialog"
  | .spent usedBy => ofString "this enrollment code was already used (by " ++ usedBy ++
      ofString ") — mint a new one"
  | .revoked => ofString "this enrollment code was revoked — mint a new one"
  | .expired => ofString "this enrollment code expired — mint a new one"
  | .otherDevice wanted device => ofString "this enrollment code is for " ++ wanted ++
      ofString ", not " ++ (if device = [] then ofString "(no name)" else device) ++
      ofString " — set DEVICE_NAME=" ++ wanted ++
      ofString " or mint a code for this name"
  | .ownerGone => ofString
      "the account this enrollment code belongs to can no longer add hosts — mint a new one"
  | .pending device left => ofString "another enrollment code for " ++ device ++
      ofString (" was redeemed moments ago and its host has not connected yet — retry in " ++
      toString ((left + 999) / 1000) ++ "s if that host is lost (this code is still valid)")
  | .stillBound device => device ++ ofString
      " is still bound to another agent identity — remove it from the dashboard first"

def Identity.answers (H : Hub) (want : JsString) (e : Identity) : Bool :=
  ((e.home :: e.origin.toList ++ e.names).filter (· ≠ [])).any fun n => H.lower n = want

def Identity.claims (H : Hub) (want : JsString) (e : Identity) : Bool :=
  (e.home :: e.origin.toList).any fun n => H.lower n = want

/-- Why an identity keeps `device` from being enrolled as the key that folds to `want`. -/
def Identity.nameRefusal (H : Hub) (device want : JsString) (e : Identity) : Option EnrollRefusal :=
  if e.answers H want = false then none
  else if e.revoked then some (.revokedName device)
  else if e.released then none
  else if e.used then
    some (if e.home ≠ [] ∧ H.lower e.home ≠ want then .earlierName device e.home else .heldName e.home)
  else none

def enrollNameRefusal (H : Hub) (s : State) (device tenantId : JsString) : Option EnrollRefusal :=
  let key := tenantHostKey device tenantId
  if H.master = false then some .noToken
  else if device = [] ∨ device.length16 > 200 ∨ isPlainHostKey device = false ∨
      hasAgentToken H.master device = false ∨ isPlainHostKey key = false then
    some (.unusableName device)
  else match (ownKeys s.agents).find? fun k => H.lower k = H.lower key with
    | some k => some (.registered k)
    | none => s.agentIdentities.values.findSome? (·.nameRefusal H device (H.lower key))

structure Enrolling where
  watch : Watch
  enrollCodes : OrdMap CodeId EnrollCode
  now : ℤ
  /-- Whether a user of the tenant can still add hosts. -/
  mayAdd : JsString → Bool
  /-- When the window of failed attempts began, and how many there were in it. -/
  enrollFails : ℤ × ℕ := (0, 0)
  /-- Redemptions that wait for the name token's generation to be raised. -/
  waiting : List (JsString × JsString) := []
  /-- Every code that was minted: its id, its hash and the tenant of its owner. -/
  issued : List (CodeId × JsString × JsString) := []

def codeTenant (rec : EnrollCode) : JsString := if isTenantId rec.tenantId then rec.tenantId else []

def EnrollCode.pendingRefusal (D : Desk) (now : ℤ) (key : JsString) (other : EnrollCode) :
    Option EnrollRefusal :=
  if other.usedAt = 0 ∨ D.lower (tenantHostKey other.usedBy (codeTenant other)) ≠ D.lower key then none
  else if other.usedAt + D.graceMs - now > 0 then
    some (.pending (baseOfKey key) (other.usedAt + D.graceMs - now))
  else none

namespace Enrolling

def sweepEnrollCodes (s : Enrolling) : Enrolling :=
  { s with enrollCodes := s.enrollCodes.sift fun _ rec =>
      if rec.state s.now = .live then some rec
      else
        let settledAt :=
          if rec.usedAt ≠ 0 then rec.usedAt else if rec.revokedAt ≠ 0 then rec.revokedAt
          else rec.expiresAt
        if s.now - settledAt > ENROLL_CODE_KEEP_MS then none else some rec }

end Enrolling

/-! The bound on a store, the oldest record of the tenant that holds the most going first. With no
record to keep, what a tenant holds is what is left of its list. -/

section

variable {κ : Type*}

def preferTenant (pick : Option (JsString × List (κ × ℤ))) (v : JsString × List (κ × ℤ)) :
    Option (JsString × List (κ × ℤ)) :=
  match v.2, pick with
  | [], _ => pick
  | _ :: _, none => some v
  | (_, age) :: _, some w =>
    if v.2.length > w.2.length ∨
        v.2.length = w.2.length ∧ age < (w.2.head?.map (·.2)).getD 0 then some v
    else some w

def evictByTenant : ℕ → List (JsString × List (κ × ℤ)) → List κ
  | 0, _ => []
  | n + 1, victims =>
    match victims.foldl preferTenant none with
    | some (t, (k, _) :: _) =>
      k :: evictByTenant n (victims.map fun v => if v.1 = t then (v.1, v.2.tail) else v)
    | _ => []

/-- The keys that go when `records`, of key, tenant and age, are bound to `max`. -/
def trimByTenant (records : List (κ × JsString × ℤ)) (max : ℕ) : List κ :=
  let victims := (OrdMap.groupBy (fun r => r.2.1) records).entries.map fun g =>
    (g.1, (g.2.map fun r => (r.1, r.2.2)).insertionSort fun a b => a.2 ≤ b.2)
  evictByTenant (records.length - max) victims

end

namespace Enrolling

def live (s : Enrolling) (tenantId : JsString) : ℕ :=
  s.enrollCodes.values.countP fun r => r.tenantId = tenantId && r.state s.now = .live

def evictCodes (s : Enrolling) : List CodeId :=
  let settled := s.enrollCodes.entries.filter fun x => x.2.state s.now ≠ .live
  let liveCount := s.enrollCodes.size - settled.length
  trimByTenant (settled.map fun x => (x.1, x.2.tenantId, x.2.createdAt))
    (ENROLL_CODES_MAX - 1 - liveCount)

def makeCodeRoom (s : Enrolling) : Enrolling :=
  if s.enrollCodes.size ≥ ENROLL_CODES_MAX then
    { s with enrollCodes := s.enrollCodes.filterKeys fun id => !s.evictCodes.contains id }
  else s

def mintEnrollCode (D : Desk) (s : Enrolling) (owner : Owner) (device : JsString) (code : JsString)
    (id : CodeId) : Enrolling × Option EnrollRefusal :=
  if D.master = false then (s, some .noToken)
  else match if device = [] then none else enrollNameRefusal D.toHub s.watch.hub device owner.tenantId with
    | some refusal => (s, some refusal)
    | none =>
      let s := s.sweepEnrollCodes
      if s.live owner.tenantId ≥ ENROLL_CODES_LIVE_MAX then
        (s, some (.tooManyLive (s.live owner.tenantId)))
      else
        let s := s.makeCodeRoom
        if s.enrollCodes.size ≥ ENROLL_CODES_MAX then (s, some .tooMany)
        else
          let record : EnrollCode := {
            hash := D.hash code
            owner := if owner.owner.slice 200 = [] then ofString "unknown"
              else owner.owner.slice 200
            tenantId := owner.tenantId.slice 200
            device := device
            createdAt := s.now
            expiresAt := s.now + D.ttlMs }
          ({ s with
            enrollCodes := s.enrollCodes.upsert id fun _ => record
            issued := (id, D.hash code, owner.tenantId) :: s.issued }, none)

def revokeEnrollCode (s : Enrolling) (id : CodeId) : Enrolling × Option EnrollRefusal :=
  match s.enrollCodes.get? id with
  | none => (s, some .noSuchCode)
  | some rec =>
    if rec.state s.now ≠ .live then (s, some (.settled (rec.state s.now)))
    else ({ s with enrollCodes := s.enrollCodes.upsert id fun _ =>
      { rec with revokedAt := s.now } }, none)

/-- Counts one failed redemption; true once the window's budget is spent. -/
def enrollFailLimited (s : Enrolling) : Enrolling × Bool :=
  let fails := if s.now - s.enrollFails.1 ≥ ENROLL_ATTEMPT_WINDOW_MS then (s.now, 0) else s.enrollFails
  ({ s with enrollFails := (fails.1, fails.2 + 1) }, fails.2 + 1 > ENROLL_FAILS_PER_WINDOW)

/-- Why redeeming the code `id` now would kill a token another code just handed out. -/
def enrollSupersedeRefusal (D : Desk) (s : Enrolling) (id : CodeId) (key : JsString) :
    Option EnrollRefusal :=
  if s.watch.hub.agentIdentities.values.any fun e =>
      !e.revoked && !e.used && !e.released && e.claims D.toHub (D.lower key) then
    s.enrollCodes.entries.findSome? fun x =>
      if x.1 = id then none else x.2.pendingRefusal D s.now key
  else none

structure Passed where
  id : CodeId
  record : EnrollCode
  tenantId : JsString
  key : JsString

def isEnrollCode (code : JsString) : Bool :=
  (ofString "te-").isPrefixOf code && code.length = 35 && (code.drop 3).all isHex

/-- The checks of `consumeEnrollCode`, which stamp and drop nothing. -/
def examine (D : Desk) (s : Enrolling) (code device : JsString) :
    Enrolling × Except EnrollRefusal Passed :=
  let code := D.lower code.trim
  if isEnrollCode code = false then (s, .error .malformed)
  else match s.enrollCodes.entries.find? fun x => x.2.hash = D.hash code with
    | none =>
      let (s, limited) := s.enrollFailLimited
      (s, .error (if limited then .rateLimited else .unknown))
    | some (id, rec) => (s,
      match rec.state s.now with
      | .used => .error (.spent rec.usedBy)
      | .revoked => .error .revoked
      | .expired => .error .expired
      | .live =>
        let tenantId := codeTenant rec
        let key := tenantHostKey device tenantId
        if rec.device ≠ [] ∧ device ≠ rec.device then .error (.otherDevice rec.device device)
        else if tenantId ≠ [] ∧ s.mayAdd tenantId = false then .error .ownerGone
        else match enrollNameRefusal D.toHub s.watch.hub device tenantId with
          | some refusal => .error refusal
          | none => match enrollSupersedeRefusal D s id key with
            | some refusal => .error refusal
            | none => .ok { id := id, record := rec, tenantId := tenantId, key := key })

end Enrolling

/-- What a redemption for `key` leaves of an identity: none that was minted for the name and never
beat, and of a released one that lives there its tombstone, at its origin. -/
def Identity.superseded? (H : Hub) (key : JsString) (e : Identity) : Option Identity :=
  if e.revoked then some e
  else if !e.used && e.claims H (H.lower key) then none
  else if e.released && H.lower e.home = H.lower key then
    match e.origin.filter fun o => o ≠ [] && H.lower o ≠ H.lower key with
    | some o => some { e with home := o, names := [], revoked := true }
    | none => none
  else if e.released && e.origin = some key then some { e with origin := none }
  else some e

def State.supersede (H : Hub) (s : State) (key : JsString) : State :=
  { s with agentIdentities := s.agentIdentities.sift fun _ e => e.superseded? H key }

structure Granted where
  id : CodeId
  hash : JsString
  tenantId : JsString
  device : JsString
  key : JsString
  uid : Uid
deriving DecidableEq

namespace Enrolling

/-- The code's single use, traded for `device`'s identity. -/
def consumeEnrollCode (D : Desk) (s : Enrolling) (code device : JsString) (fresh : Uid) :
    Enrolling × Except EnrollRefusal Granted :=
  match s.examine D code device with
  | (s, .error refusal) => (s, .error refusal)
  | (s, .ok p) =>
    let (hub, uid) := (s.watch.hub.supersede D.toHub p.key).issueAgentUid p.key fresh s.now
    let s := { s with watch := { s.watch with hub := hub, minted := fresh :: s.watch.minted } }
    if (hub.identityEntry uid).any (fun e => !e.used && e.home = p.key) && hub.tenantOfUid uid = p.tenantId then
      ({ s with enrollCodes := s.enrollCodes.upsert p.id fun _ =>
          { p.record with usedAt := s.now, usedBy := device } },
        .ok { id := p.id, hash := p.record.hash, tenantId := p.tenantId, device := device, key := p.key
              uid := uid })
    else (s, .error (.stillBound device))

end Enrolling

inductive EnrollEvent
  | registry (e : Event)
  | tick (ms : ℕ)
  | accounts (mayAdd : JsString → Bool)
  | mint (owner : Owner) (device code : JsString) (id : CodeId)
  | revokeCode (id : CodeId)
  | redeem (code device : JsString) (fresh : Uid)
  /-- The name token's generation has been raised, or has failed to be. -/
  | resume (i : ℕ) (fresh : Uid)

def granted {ε : Type*} : Except ε Granted → Option Granted
  | .ok g => some g
  | .error _ => none

def serve (D : Desk) (L : Limits) (s : Enrolling) : EnrollEvent → Enrolling × Option Granted
  | .registry e => ({ s with watch := step D.toHub L s.watch e }, none)
  | .tick ms => ({ s with now := s.now + ms }, none)
  | .accounts mayAdd => ({ s with mayAdd := mayAdd }, none)
  | .mint owner device code id => ((s.mintEnrollCode D owner device code id).1, none)
  | .revokeCode id => ((s.revokeEnrollCode id).1, none)
  | .redeem code device fresh =>
    match s.examine D code device with
    | (s, .error _) => (s, none)
    | (s, .ok p) =>
      -- only an untenanted name has a name token, whose revocation is waited for
      if p.key = device then ({ s with waiting := s.waiting ++ [(code, device)] }, none)
      else ((s.consumeEnrollCode D code device fresh).1, granted (s.consumeEnrollCode D code device fresh).2)
  | .resume i fresh =>
    match s.waiting[i]? with
    | none => (s, none)
    | some (code, device) =>
      let s := { s with waiting := s.waiting.eraseIdx i }
      ((s.consumeEnrollCode D code device fresh).1, granted (s.consumeEnrollCode D code device fresh).2)

def enrollStep (D : Desk) (L : Limits) (s : Enrolling) (e : EnrollEvent) : Enrolling :=
  (serve D L s e).1

end Turma.Registry
