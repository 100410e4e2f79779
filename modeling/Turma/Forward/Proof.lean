import Turma.Lib.JsString
import Turma.Lib.OrdMap
import Turma.Lib.Run

/-! Hop lists and the proofs that ride with them. -/

namespace Turma.Forward

open Turma.Lib List

/-- A header value, a method or a target as Node hands it on, a character for each byte. -/
abbrev Text := List Char

def proofMaxAgeMs : ℕ := 30000

def seenProofsMax : ℕ := 10000

def maxHops : ℕ := 2

/-- A request as a handler reads it: `FORWARDED_HEADER` and `FORWARD_AUTH_HEADER`. -/
structure Req where
  method : Text
  url : Text
  forwardedBy : Option Text
  forwardAuth : Option Text
deriving DecidableEq

def base64url (c : Char) : Bool := asciiAlnum c || c = '_' || c = '-'

def blank (c : Char) : Bool :=
  (0x9 ≤ c.toNat && c.toNat ≤ 0xd) || c.toNat = 0x20 || c.toNat = 0xa0 || c.toNat = 0x1680 ||
    (0x2000 ≤ c.toNat && c.toNat ≤ 0x200a) || c.toNat = 0x2028 || c.toNat = 0x2029 ||
    c.toNat = 0x202f || c.toNat = 0x205f || c.toNat = 0x3000 || c.toNat = 0xfeff

def trim (s : Text) : Text := ((s.dropWhile blank).reverse.dropWhile blank).reverse

def joinHops (hops : List Text) : Text := [','].intercalate hops

/-- `v.split(",").map((x) => x.trim()).filter(Boolean)`. -/
def hopList (v : Text) : List Text := ((v.splitOn ',').map trim).filter (· ≠ [])

/-- `hopProof`, over the mac of a text under the key that the replicas share. -/
def hopProof (hmac : Text → Text) (list method target stamp nonce : Text) : Text :=
  hmac (['\n'].intercalate ["turma-forward".toList, list, method, target, stamp, nonce])

def stampForm (t : Text) : Bool := t ≠ [] && t.length ≤ 15 && t.all Char.isDigit

def nonceForm (t : Text) : Bool := t ≠ [] && t.length ≤ 64 && t.all base64url

/-- The list, the stamp and the nonce of a proof whose mac fits the request it rides with. -/
def checkMac (hmac : Text → Text) (req : Req) : Option (Text × ℕ × Text) :=
  match req.forwardedBy, req.forwardAuth with
  | some v, some got =>
    if v = [] then none
    else
      match got.splitOn '.' with
      | stamp :: nonce :: rest =>
        if 1 < rest.length ∨ stampForm stamp = false ∨ nonceForm nonce = false then none
        else if rest.headD [] ≠ hopProof hmac v req.method req.url stamp nonce then none
        else some (v, Nat.ofDigitChars 10 stamp 0, nonce)
      | _ => none
  | _, _ => none

/-- The verified hop list, or the nonce of this replica's own proof come back. -/
structure Proof where
  hops : List Text
  loop : Option Text
deriving DecidableEq

def noProof : Proof := ⟨[], none⟩

def sweep (seen : OrdMap Text ℕ) (t : ℕ) : OrdMap Text ℕ where
  entries := seen.entries.dropWhile fun e => e.2 ≤ t
  nodup := seen.nodup.sublist ((dropWhile_sublist _).map _)

def rescan (seen : OrdMap Text ℕ) (t : ℕ) : OrdMap Text ℕ :=
  if seenProofsMax ≤ seen.size then
    { entries := seen.entries.filter fun e => ¬ e.2 ≤ t
      nodup := seen.nodup.sublist (filter_sublist.map _) }
  else seen

/-- `verifyHops`: what a replica makes of the headers, and the nonces that it has seen. -/
def verifyHops (hmac : Text → Text) (replicaId : Text) (seen : OrdMap Text ℕ) (t : ℕ) (req : Req) :
    Proof × OrdMap Text ℕ :=
  match checkMac hmac req with
  | none => (noProof, seen)
  | some (v, stamp, nonce) =>
    if stamp + proofMaxAgeMs < t ∨ t + proofMaxAgeMs < stamp then (noProof, seen)
    else if (hopList v).getLast? = some replicaId then (⟨[], some nonce⟩, seen)
    else if (seen.get? nonce).isSome = true then (noProof, seen)
    else
      let seen := rescan (sweep seen t) t
      if seenProofsMax ≤ seen.size then (noProof, seen)
      else (⟨hopList v, none⟩, seen.upsert nonce fun _ => stamp + proofMaxAgeMs)

/-- `hopHeaders`, for a list that already ends with the minter's id. -/
def hopHeaders (hmac : Text → Text) (list : List Text) (method url : Text) (t : ℕ) (nonce : Text) :
    Text × Text :=
  let stamp := Nat.toDigits 10 t
  (joinHops list,
    ['.'].intercalate [stamp, nonce, hopProof hmac (joinHops list) method url stamp nonce])

/-- An id that a hop list can carry: `crypto.randomBytes(8).toString("hex")` is one. -/
structure Plain (id : Text) : Prop where
  nonempty : id ≠ []
  comma : ',' ∉ id
  trimmed : trim id = id

theorem hopList_joinHops {hops : List Text} (hne : hops ≠ []) (h : ∀ hop ∈ hops, Plain hop) :
    hopList (joinHops hops) = hops := by
  have hsplit : (joinHops hops).splitOn ',' = hops :=
    splitOn_intercalate ',' (fun hop hhop => (h hop hhop).comma) hne
  have hmap : hops.map trim = hops := by
    conv_rhs => rw [← map_id hops]
    exact map_congr_left fun hop hhop => (h hop hhop).trimmed
  rw [hopList, hsplit, hmap, filter_eq_self]
  exact fun hop hhop => decide_eq_true (h hop hhop).nonempty

theorem joinHops_ne_nil {hops : List Text} (hne : hops ≠ []) (h : ∀ hop ∈ hops, Plain hop) :
    joinHops hops ≠ [] := by
  intro hnil
  have hback := hopList_joinHops hne h
  rw [hnil] at hback
  exact hne (hback.symm.trans (by decide))

theorem length_toDigits {t : ℕ} (h : t < 10 ^ 15) : (Nat.toDigits 10 t).length ≤ 15 :=
  (Nat.length_toDigits_le_iff (by decide) (by decide)).mpr h

theorem stampForm_toDigits {t : ℕ} (h : t < 10 ^ 15) : stampForm (Nat.toDigits 10 t) = true := by
  have hall : (Nat.toDigits 10 t).all Char.isDigit = true :=
    all_eq_true.mpr fun c hc => Nat.isDigit_of_mem_toDigits (by decide) (by decide) hc
  simp [stampForm, length_toDigits h, hall, Nat.toDigits_ne_nil]

theorem not_mem_of_all {p : Char → Bool} {c : Char} {t : Text} (h : t.all p = true)
    (hc : p c = false) : c ∉ t := by
  intro hmem
  rw [all_eq_true.mp h c hmem] at hc
  cases hc

/-- A proof that a replica mints fits the request that it was minted for. -/
theorem checkMac_minted {hmac : Text → Text} (hplain : ∀ m, (hmac m).all base64url = true)
    {hops : List Text} (hne : hops ≠ []) (h : ∀ hop ∈ hops, Plain hop) {method url nonce : Text}
    {t : ℕ} (ht : t < 10 ^ 15) (hnonce : nonceForm nonce = true) {req : Req}
    (hmethod : req.method = method) (hurl : req.url = url)
    (hby : req.forwardedBy = some (hopHeaders hmac hops method url t nonce).1)
    (hauth : req.forwardAuth = some (hopHeaders hmac hops method url t nonce).2) :
    checkMac hmac req = some (joinHops hops, t, nonce) := by
  have hdigits : '.' ∉ Nat.toDigits 10 t :=
    not_mem_of_all (p := Char.isDigit) (all_eq_true.mpr fun c hc =>
      Nat.isDigit_of_mem_toDigits (by decide) (by decide) hc) (by decide)
  have hdot : '.' ∉ nonce := by
    simp only [nonceForm, Bool.and_eq_true] at hnonce
    exact not_mem_of_all hnonce.2 (by decide)
  have hsplit : ∀ mac, '.' ∉ mac →
      (['.'].intercalate [Nat.toDigits 10 t, nonce, mac]).splitOn '.' = [Nat.toDigits 10 t, nonce, mac] :=
    fun mac hmac => splitOn_intercalate '.' (by simp [hdigits, hdot, hmac]) (by simp)
  have hback := hsplit (hopProof hmac (joinHops hops) method url (Nat.toDigits 10 t) nonce)
    (not_mem_of_all (hplain _) (by decide))
  rw [checkMac, hby, hauth]
  dsimp only [hopHeaders]
  rw [if_neg (joinHops_ne_nil hne h), hback]
  dsimp only
  rw [if_neg (by simp [stampForm_toDigits ht, hnonce]), hmethod, hurl, headD_cons,
    if_neg (fun hne => hne rfl), Nat.ofDigitChars_ten_toDigits]

/-! Where a replica sends a request, and the requests of a set of replicas that forward to one
another. -/

structure Config where
  replicaId : Text
  endpoint : Option Text
  enabled : Bool
  ttlMs : ℕ
  cooldownMs : ℕ
  holdMs : ℕ
  aliasTtlMs : ℕ

structure Entry where
  replica : Text
  addr : Option Text
  seenAt : ℕ
  strips : Bool

structure Replica where
  leader : Option Entry
  unreachableUntil : OrdMap Text ℕ
  ownAliases : OrdMap Text ℕ
  seenProofs : OrdMap Text ℕ
  draining : Bool

/-- What a replica reads as it decides: its clock, whether it may serve, whether its store link is
up, and whether another replica holds the lease. -/
structure Reading where
  now : ℕ
  canServe : Bool
  storeHealthy : Bool
  leaseHeldElsewhere : Bool

inductive Reason
  | noFreshLeader
  | takingOver
  | passedThrough
  | unreachable (addr : Text)
deriving DecidableEq

inductive Decision
  | serve
  | loop (nonce : Text)
  | refuse
  | forward (addr : Text)
  | hold (reason : Reason)
deriving DecidableEq

def localPath (url : Text) : Bool :=
  url.takeWhile (· ≠ '?') = "/healthz".toList || url.takeWhile (· ≠ '?') = "/readyz".toList

namespace Replica

def isOwnAddr (cfg : Config) (r : Replica) (t : ℕ) (addr : Text) : Bool × Replica :=
  if cfg.endpoint = some addr then (true, r)
  else
    match r.ownAliases.get? addr with
    | some expiry =>
      if t < expiry then (true, r) else (false, { r with ownAliases := r.ownAliases.erase addr })
    | none => (false, r)

def learnAlias (cfg : Config) (r : Replica) (t : ℕ) (addr : Text) : Replica :=
  match r.isOwnAddr cfg t addr with
  | (true, r) => r
  | (false, r) =>
    if r.leader.any (fun e => e.addr = some addr && e.strips) = true then
      { r with ownAliases := r.ownAliases.upsert addr fun _ => t + cfg.aliasTtlMs }
    else r

def markUnreachable (cfg : Config) (r : Replica) (t : ℕ) (addr : Text) : Replica :=
  { r with unreachableUntil := r.unreachableUntil.upsert addr fun _ => t + cfg.cooldownMs }

def proofOf (hmac : Text → Text) (cfg : Config) (r : Replica) (t : ℕ) (req : Req) :
    Option Proof → Proof × Replica
  | some p => (p, r)
  | none =>
    let (p, seen) := verifyHops hmac cfg.replicaId r.seenProofs t req
    (p, { r with seenProofs := seen })

def decideLeader (cfg : Config) (r : Replica) (reading : Reading) (hops : List Text) :
    Decision × Replica :=
  match r.leader with
  | none => (.hold .noFreshLeader, r)
  | some e =>
    if ¬ (reading.now < e.seenAt + cfg.ttlMs ∨ reading.storeHealthy = false) then
      (.hold .noFreshLeader, r)
    else if e.replica = cfg.replicaId then (.hold .takingOver, r)
    else
      match e.addr with
      | none => (.serve, r)
      | some addr =>
        match r.isOwnAddr cfg reading.now addr with
        | (true, r) => (.hold .takingOver, r)
        | (false, r) =>
          if e.replica ∈ hops ∨ cfg.replicaId ∈ hops ∨ maxHops ≤ hops.length then
            (.hold .passedThrough, r)
          else
            match r.unreachableUntil.get? addr with
            | some expiry =>
              if reading.now < expiry then (.hold (.unreachable addr), r)
              else (.forward addr, { r with unreachableUntil := r.unreachableUntil.erase addr })
            | none => (.forward addr, r)

/-- `decide`. The proof is left alone where the source does not get as far as to verify it. -/
def decideOn (hmac : Text → Text) (cfg : Config) (r : Replica) (reading : Reading) (req : Req)
    (cached : Option Proof) : Decision × Replica × Option Proof :=
  if cfg.enabled = false ∨ localPath req.url = true ∨ reading.canServe = true then (.serve, r, cached)
  else
    let (p, r) := r.proofOf hmac cfg reading.now req cached
    match p.loop with
    | some nonce => (.loop nonce, r, some p)
    | none =>
      if reading.storeHealthy = false ∧ reading.leaseHeldElsewhere = true then (.refuse, r, some p)
      else
        let (d, r) := r.decideLeader cfg reading p.hops
        (d, r, some p)

end Replica

/-- What a request came to at a replica. `looped` is the 508 and `refused` the 503. -/
inductive Outcome
  | served
  | degraded
  | looped (nonce : Text)
  | refused
  | gone
deriving DecidableEq

structure Hop (R : Type*) where
  sender : R
  hops : List Text
  leader : Text
  addr : Text

/-- Where a request is: at a replica, with its verified proof, its deadline and the leader that is
being dialed, on the wire behind a forward, or at its end. -/
inductive Place (R : Type*)
  | here (node : R) (req : Req) (proof : Option Proof) (deadline : Option ℕ)
      (dialing : Option (Text × Text))
  | wire (req : Req)
  | ended (outcome : Outcome)

structure Request (R : Type*) where
  forwards : List (Hop R)
  place : Place R

structure Minted where
  hops : List Text
  method : Text
  url : Text
  stamp : ℕ
  nonce : Text

structure Net (R : Type*) where
  replicas : R → Replica
  requests : OrdMap ℕ (Request R)
  minted : List Minted

def Replica.init : Replica := ⟨none, OrdMap.empty, OrdMap.empty, OrdMap.empty, false⟩

def Net.init {R : Type*} : Net R := ⟨fun _ => Replica.init, OrdMap.empty, []⟩

/-- `learn` is any leader entry at any time, and `aliased` a 508 that was taken for the replica's own.
`client` and `arrive` are a request as it reaches a replica, from a client or behind a forward:
where an address leads is anyone's guess. -/
inductive Event (R : Type*)
  | learn (node : R) (entry : Option Entry)
  | aliased (node : R) (t : ℕ) (addr : Text)
  | drain (node : R)
  | client (id : ℕ) (node : R) (req : Req) (reading : Reading)
  | arrive (id : ℕ) (node : R) (reading : Reading)
  | poll (id : ℕ) (reading : Reading)
  | dialed (id : ℕ) (ok : Bool) (nonce : Text) (reading : Reading)
  | gone (id : ℕ)

namespace Net

variable {R : Type*} [DecidableEq R] (hmac : Text → Text) (cfg : R → Config)

def setReplica (s : Net R) (node : R) (r : Replica) : Net R :=
  { s with replicas := Function.update s.replicas node r }

def put (s : Net R) (id : ℕ) (forwards : List (Hop R)) (place : Place R) : Net R :=
  { s with requests := s.requests.upsert id fun _ => ⟨forwards, place⟩ }

def routed (cfg : Config) (r : Replica) (node : R) (reading : Reading) (req : Req)
    (proof : Option Proof) (deadline : Option ℕ) : Decision → Place R
  | .serve => .ended .served
  | .loop nonce => .ended (.looped nonce)
  | .refuse => .ended .refused
  | .forward addr => .here node req proof deadline (some (addr, (r.leader.map Entry.replica).getD []))
  | .hold _ =>
    let expiry := deadline.getD (reading.now + cfg.holdMs)
    if expiry ≤ reading.now ∨ r.draining = true then
      .ended (if r.draining = true then .refused else .degraded)
    else .here node req proof (some expiry) none

def turn (s : Net R) (id : ℕ) (forwards : List (Hop R)) (node : R) (req : Req) (proof : Option Proof)
    (deadline : Option ℕ) (reading : Reading) : Net R :=
  let out := (s.replicas node).decideOn hmac (cfg node) reading req proof
  (s.setReplica node out.2.1).put id forwards
    (routed (cfg node) out.2.1 node reading req out.2.2 deadline out.1)

/-- The leader is dialed: the request goes on with the replica's id at the end of its list. -/
def forward (s : Net R) (id : ℕ) (q : Request R) (node : R) (req : Req) (hops : List Text)
    (addr leader nonce : Text) (t : ℕ) : Net R :=
  let list := hops ++ [(cfg node).replicaId]
  let headers := hopHeaders hmac list req.method req.url t nonce
  let s := { s with minted := ⟨list, req.method, req.url, t, nonce⟩ :: s.minted }
  s.put id (q.forwards ++ [⟨node, hops, leader, addr⟩])
    (.wire ⟨req.method, req.url, some headers.1, some headers.2⟩)

def step (s : Net R) : Event R → Net R
  | .learn node entry => s.setReplica node { s.replicas node with leader := entry }
  | .aliased node t addr => s.setReplica node ((s.replicas node).learnAlias (cfg node) t addr)
  | .drain node => s.setReplica node { s.replicas node with draining := true }
  | .client id node req reading =>
    match s.requests.get? id with
    | some _ => s
    | none => s.turn hmac cfg id [] node req none none reading
  | .arrive id node reading =>
    match s.requests.get? id with
    | some ⟨forwards, .wire req⟩ => s.turn hmac cfg id forwards node req none none reading
    | _ => s
  | .poll id reading =>
    match s.requests.get? id with
    | some ⟨forwards, .here node req proof deadline none⟩ =>
      s.turn hmac cfg id forwards node req proof deadline reading
    | _ => s
  | .dialed id ok nonce reading =>
    match s.requests.get? id with
    | some ⟨forwards, .here node req proof deadline (some (addr, leader))⟩ =>
      if ok = true then
        s.forward hmac cfg id ⟨forwards, .here node req proof deadline (some (addr, leader))⟩ node req
          (proof.getD noProof).hops addr leader nonce reading.now
      else
        (s.setReplica node ((s.replicas node).markUnreachable (cfg node) reading.now addr)).turn hmac cfg
          id forwards node req proof deadline reading
    | _ => s
  | .gone id =>
    match s.requests.get? id with
    | some ⟨_, .ended _⟩ => s
    | some ⟨forwards, _⟩ => s.put id forwards (.ended .gone)
    | none => s

/-- What is promised of the outside. A client shows no proof that fits its request but one that a
replica minted, and none of a request that is still on its way. The clock of the replica that a
forward reaches is within `PROOF_MAX_AGE_MS` of its stamp and the cache there is not full. A nonce
is fresh, and a stamp has up to 15 digits. -/
def Admits (s : Net R) : Event R → Prop
  | .client _ _ req _ => ∀ v stamp nonce, checkMac hmac req = some (v, stamp, nonce) →
      (∃ m ∈ s.minted, v = joinHops m.hops ∧ stamp = m.stamp ∧ nonce = m.nonce ∧
        req.method = m.method ∧ req.url = m.url) ∧
      ∀ id forwards sent, s.requests.get? id = some ⟨forwards, .wire sent⟩ →
        ∀ v' stamp', checkMac hmac sent ≠ some (v', stamp', nonce)
  | .arrive id node reading => ∀ forwards req, s.requests.get? id = some ⟨forwards, .wire req⟩ →
      (∀ v stamp nonce, checkMac hmac req = some (v, stamp, nonce) →
        reading.now ≤ stamp + proofMaxAgeMs ∧ stamp ≤ reading.now + proofMaxAgeMs) ∧
      (s.replicas node).seenProofs.size < seenProofsMax
  | .dialed _ ok nonce reading => ok = true →
      nonceForm nonce = true ∧ reading.now < 10 ^ 15 ∧ ∀ m ∈ s.minted, m.nonce ≠ nonce
  | _ => True

end Net

end Turma.Forward
