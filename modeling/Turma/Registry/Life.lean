import Turma.Registry.Identities
import Turma.Lib.Run

/-! Everything that happens to the identities and the records: mints, binds, beats, removals and
the records that are pruned or make room. -/

namespace Turma.Registry

open Turma.Lib Turma.Tenancy

def PRUNE_AFTER_MS : ℤ := 7 * 24 * 3600 * 1000

structure Limits where
  agentsMax : ℕ
  agentsTotalMax : ℕ
  agentEvictIdleMs : ℤ

namespace State

def stale (s : State) (now : ℤ) : List JsString :=
  (s.agents.entries.filter fun x => now - x.2.lastSeen > PRUNE_AFTER_MS).map (·.1)

/-- Hosts whose slot may be reclaimed for a newcomer, least-recently-seen first. -/
def evictableAgents (L : Limits) (s : State) (now : ℤ) : List JsString :=
  (((ownEntries s.agents).filter fun x => now - x.2.lastSeen > L.agentEvictIdleMs).insertionSort
    fun x y => x.2.lastSeen ≤ y.2.lastSeen).map (·.1)

end State

/-- Whether the registry with `bytes` in `count` records has no room for what is to be added. -/
def overBudget (L : Limits) (addBytes addSlots bytes count : ℕ) : Bool :=
  bytes + addBytes > L.agentsTotalMax || count + addSlots > L.agentsMax

def evicted (L : Limits) (recordBytes : JsString → ℕ) (addBytes addSlots : ℕ) :
    ℕ → ℕ → List JsString → List JsString
  | _, _, [] => []
  | bytes, count, key :: evictable =>
    if overBudget L addBytes addSlots bytes count then
      key :: evicted L recordBytes addBytes addSlots (bytes - recordBytes key) (count - 1) evictable
    else []

namespace State

/-- The records `makeRegistryRoom` evicts: none when even all of the idle ones are not enough. -/
def reclaimed (L : Limits) (recordBytes : JsString → ℕ) (s : State) (now : ℤ)
    (addBytes addSlots : ℕ) : List JsString :=
  let bytes := (s.agents.keys.map recordBytes).sum
  let count := s.agents.size
  let evictable := s.evictableAgents L now
  let reclaimable := (evictable.map recordBytes).sum
  if overBudget L addBytes addSlots (bytes - reclaimable) (count - evictable.length) then []
  else evicted L recordBytes addBytes addSlots bytes count evictable

def dropRecords (s : State) (keys : List JsString) : State :=
  { s with agents := s.agents.filterKeys fun k => !keys.contains k }

def acceptBeat (s : State) (uid : Uid) (key : JsString) (now : ℤ) (updating : Option ℤ) : State :=
  let s := { s with agents := s.agents.upsert key fun _ =>
    { agentUid := some uid, lastSeen := now, updatingUntil := updating } }
  (s.noteIdentityBeat uid key).1.renameAgentRecord uid key

/-- A beat on a token that names no identity keeps the binding of the record. -/
def nameBeat (s : State) (key : JsString) (now : ℤ) (updating : Option ℤ) : State :=
  { s with agents := s.agents.upsert key fun prev =>
    { agentUid := prev.bind (·.agentUid), lastSeen := now, updatingUntil := updating } }

/-- A signal that is no beat: what it says of the host's record. -/
def noteSignal (s : State) (key : JsString) (lastSeen : ℤ) (updating : Option ℤ) : State :=
  { s with agents := s.agents.adjust key fun a =>
    { a with lastSeen := lastSeen, updatingUntil := updating } }

end State

inductive Event
  | issue (host : JsString) (fresh : Uid) (now : ℤ)
  | bind (uid : Uid) (t : JsString)
  | beat (uid : Uid) (key : JsString) (now : ℤ) (ledger : JsString → Bool) (updating : Option ℤ)
  | nameBeat (key : JsString) (now : ℤ) (updating : Option ℤ)
  | signal (key : JsString) (lastSeen : ℤ) (updating : Option ℤ)
  | prune (now : ℤ)
  | makeRoom (recordBytes : JsString → ℕ) (now : ℤ) (addBytes addSlots : ℕ)
  | remove (key : JsString)
  | release (host : JsString)
  | revoke (host : JsString)
  | trim (keep : Uid)

def Event.takes (H : Hub) (L : Limits) (s : State) : Event → List JsString
  | .beat uid key now ledger _ =>
    if uidHostRefusal H ledger now s uid key = none then
      s.agents.keys.filter fun k => k ≠ key && s.uidAt k = some uid
    else []
  | .prune now => s.stale now
  | .makeRoom recordBytes now addBytes addSlots => s.reclaimed L recordBytes now addBytes addSlots
  | .remove key => [key]
  | _ => []

def Event.trims (s : State) : Event → List Uid
  | .issue host fresh now =>
    match (s.claimOrigin host).2 <|> (s.claimOrigin host).1.boundAt host with
    | some _ => []
    | none => ((s.claimOrigin host).1.register host fresh now).overflow fresh
  | .trim keep => s.overflow keep
  | _ => []

/-- The hub, with what has come of its identities: all that were minted, those that were released
and whose name another has beaten as since, and the names that were retired and by which identity. -/
structure Watch where
  hub : State
  minted : List Uid := []
  superseded : List Uid := []
  retired : List (JsString × Uid) := []

def Watch.start : Watch := { hub := ⟨OrdMap.empty, OrdMap.empty⟩ }

namespace State

def awaiting (s : State) (uid : Uid) (key : JsString) : List Uid :=
  (s.agentIdentities.entries.filter fun x =>
    x.1 ≠ uid && x.2.released && !x.2.revoked && x.2.home = key).map (·.1)

def originOf (s : State) (uid : Uid) : Option JsString := (s.identityOf uid).bind (·.origin)

end State

def step (H : Hub) (L : Limits) (w : Watch) : Event → Watch
  | .issue host fresh now =>
    { w with hub := (w.hub.issueAgentUid host fresh now).1, minted := fresh :: w.minted }
  | .bind uid t => { w with hub := (w.hub.bindIdentityTenant uid t).1 }
  | .beat uid key now ledger updating =>
    if uidHostRefusal H ledger now w.hub uid key = none then
      { w with
        hub := w.hub.acceptBeat uid key now updating
        superseded := w.hub.awaiting uid key ++ w.superseded
        retired := (w.hub.originOf uid).toList.map (·, uid) ++ w.retired }
    else w
  | .nameBeat key now updating => { w with hub := w.hub.nameBeat key now updating }
  | .signal key lastSeen updating => { w with hub := w.hub.noteSignal key lastSeen updating }
  | .prune now => { w with hub := w.hub.dropRecords (w.hub.stale now) }
  | .makeRoom recordBytes now addBytes addSlots =>
    { w with hub := w.hub.dropRecords (w.hub.reclaimed L recordBytes now addBytes addSlots) }
  | .remove key => { w with hub := w.hub.dropRecords [key] }
  | .release host =>
    { w with
      hub := w.hub.releaseHostIdentities host
      retired := w.retired.filter fun x => x.1 ≠ host }
  | .revoke host =>
    { w with
      hub := (w.hub.revokeHostIdentities host).1
      retired := w.retired.filter fun x => w.hub.hostOfUid x.2 ≠ some host }
  | .trim keep => { w with hub := w.hub.trimAgentIdentities keep }

structure Holds (H : Hub) (w : Watch) : Prop where
  /-- An identity acts inside its own tenant. -/
  tenant : ∀ ledger now u host, uidHostRefusal H ledger now w.hub u host = none →
    tenantOfHostKey host = w.hub.tenantOfUid u
  /-- A name has the one agent its record is bound to, and no other takes it for a new name in any
  letter case. -/
  oneAgent : ∀ k u, w.hub.uidAt k = some u → ∀ v, v ≠ u → ∀ host, H.lower host = H.lower k →
    (host = k ∨ ∀ e, w.hub.identityOf v = some e → (e.mine H).contains (H.lower host) = false) →
    ∀ ledger now, uidHostRefusal H ledger now w.hub v host ≠ none
  /-- An identity that was released and whose name another has beaten as goes nowhere. -/
  retiredAgent : ∀ u ∈ w.superseded, ∀ ledger now host,
    uidHostRefusal H ledger now w.hub u host ≠ none
  /-- The name-derived token of a retired name is refused. -/
  retiredName : ∀ x ∈ w.retired, w.hub.nameTokenRefusal x.1 ≠ none

def Idle (s : State) (us : List Uid) : Prop :=
  ∀ u ∈ us, (s.identityOf u).any (fun e => e.used && e.origin.isSome) = false

def Event.Fresh (w : Watch) : Event → Prop
  | .issue _ fresh _ => fresh ∉ w.minted
  | _ => True

def Event.Gone (s : State) : Event → Prop
  | .revoke host => s.agents.get? host = none
  | _ => True

/-- The record at a superseded identity's home stays. -/
def Event.Spares (H : Hub) (L : Limits) (w : Watch) (e : Event) : Prop :=
  ∀ u ∈ w.superseded, ∀ k ∈ e.takes H L w.hub, w.hub.hostOfUid u ≠ some k

/-- A step that leaves the record at a superseded identity's home, trims no identity that has beaten
and holds its origin, and revokes no host whose record is there. -/
def Meets (H : Hub) (L : Limits) (w : Watch) (e : Event) : Prop :=
  e.Fresh w ∧ e.Spares H L w ∧ Idle w.hub (e.trims w.hub) ∧ e.Gone w.hub

instance (s : State) (us : List Uid) : Decidable (Idle s us) := List.decidableBAll _ us

instance (H : Hub) (L : Limits) (w : Watch) (e : Event) : Decidable (e.Spares H L w) :=
  @List.decidableBAll _ _ (fun _ => List.decidableBAll _ _) w.superseded

instance (w : Watch) : ∀ e : Event, Decidable (e.Fresh w)
  | .issue _ fresh _ => inferInstanceAs (Decidable (fresh ∉ w.minted))
  | .bind .. | .beat .. | .nameBeat .. | .signal .. | .prune .. | .makeRoom .. | .remove ..
  | .release .. | .revoke .. | .trim .. => isTrue trivial

instance (s : State) : ∀ e : Event, Decidable (e.Gone s)
  | .revoke host => inferInstanceAs (Decidable (s.agents.get? host = none))
  | .issue .. | .bind .. | .beat .. | .nameBeat .. | .signal .. | .prune .. | .makeRoom ..
  | .remove .. | .release .. | .trim .. => isTrue trivial

instance (H : Hub) (L : Limits) (w : Watch) (e : Event) : Decidable (Meets H L w e) :=
  inferInstanceAs (Decidable (_ ∧ _ ∧ _ ∧ _))

end Turma.Registry
