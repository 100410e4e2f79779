import Turma.Forward.Decides

/-! A request is forwarded `MAX_HOPS` times at most, whatever the replicas take for the leader. -/

namespace Turma.Forward

open Turma.Lib List Option

variable {R : Type*} {hmac : Text → Text} {cfg : R → Config}

def path (cfg : R → Config) (forwards : List (Hop R)) : List Text :=
  forwards.map fun f => (cfg f.sender).replicaId

namespace Net

/-- A forwarded request on the wire: its proof fits, its list ends with the way that it came, and
no replica has seen its nonce. -/
structure WireOk (hmac : Text → Text) (cfg : R → Config) (s : Net R) (forwards : List (Hop R))
    (req : Req) (m : Minted) : Prop where
  minted : m ∈ s.minted
  fits : checkMac hmac req = some (joinHops m.hops, m.stamp, m.nonce)
  path : path cfg forwards <:+ m.hops
  room : m.hops.length ≤ maxHops
  last : ∃ last, forwards.getLast? = some last ∧ (cfg last.sender).enabled = true
  remote : localPath req.url = false
  unseen : ∀ node, m.nonce ∉ (s.replicas node).seenProofs.keys

structure HereOk (cfg : R → Config) (forwards : List (Hop R)) (node : R) (req : Req) (p : Proof)
    (dialing : Option (Text × Text)) : Prop where
  path : path cfg forwards <:+ p.hops
  plain : ∀ hop ∈ p.hops, Plain hop
  dials : ∀ addr leader, dialing = some (addr, leader) → leader ∉ p.hops ∧
    (cfg node).replicaId ∉ p.hops ∧ p.hops.length < maxHops ∧ (cfg node).enabled = true ∧
      localPath req.url = false

def HopOk (cfg : R → Config) (f : Hop R) : Prop :=
  (cfg f.sender).replicaId ∉ f.hops ∧ f.leader ∉ f.hops

structure Inv (hmac : Text → Text) (cfg : R → Config) (s : Net R) : Prop where
  minted : ∀ m ∈ s.minted, m.hops ≠ [] ∧ ∀ hop ∈ m.hops, Plain hop
  seen : ∀ node, ∀ k ∈ (s.replicas node).seenProofs.keys, ∃ m ∈ s.minted, m.nonce = k
  forwards : ∀ id q, s.requests.get? id = some q →
    q.forwards.length ≤ maxHops ∧ ∀ f ∈ q.forwards, HopOk cfg f
  wire : ∀ id forwards req, s.requests.get? id = some ⟨forwards, .wire req⟩ →
    ∃ m, WireOk hmac cfg s forwards req m
  here : ∀ id forwards node req proof deadline dialing,
    s.requests.get? id = some ⟨forwards, .here node req proof deadline dialing⟩ →
      ∃ p, proof = some p ∧ HereOk cfg forwards node req p dialing
  apart : ∀ id id' forwards forwards' req req' v v' stamp stamp' nonce,
    s.requests.get? id = some ⟨forwards, .wire req⟩ →
    s.requests.get? id' = some ⟨forwards', .wire req'⟩ →
    checkMac hmac req = some (v, stamp, nonce) → checkMac hmac req' = some (v', stamp', nonce) →
      id = id'

variable {s : Net R}

theorem inv_init : Inv hmac cfg (init : Net R) where
  minted := fun _ h => absurd h (by simp [init])
  seen := fun _ _ h => absurd h (by simp [init, Replica.init, OrdMap.keys, OrdMap.empty])
  forwards := fun _ _ h => absurd h (by simp [init])
  wire := fun _ _ _ h => absurd h (by simp [init])
  here := fun _ _ _ _ _ _ _ h => absurd h (by simp [init])
  apart := fun _ _ _ _ _ _ _ _ _ _ _ h => absurd h (by simp [init])

theorem get?_put (s : Net R) (id : ℕ) (forwards : List (Hop R)) (place : Place R) (id' : ℕ) :
    (s.put id forwards place).requests.get? id' =
      if id' = id then some ⟨forwards, place⟩ else s.requests.get? id' :=
  OrdMap.get?_upsert _ _ _ _

/-- A request comes to a place that is not the wire, and no replica learns a nonce of the others. -/
theorem Inv.moves (h : Inv hmac cfg s) (id : ℕ) (replicas : R → Replica) {forwards : List (Hop R)}
    {place : Place R} (hforwards : forwards.length ≤ maxHops ∧ ∀ f ∈ forwards, HopOk cfg f)
    (hwire : ∀ req, place ≠ .wire req)
    (hhere : ∀ node req proof deadline dialing, place = .here node req proof deadline dialing →
      ∃ p, proof = some p ∧ HereOk cfg forwards node req p dialing)
    (hseen : ∀ id' forwards' req m, id' ≠ id → s.requests.get? id' = some ⟨forwards', .wire req⟩ →
      WireOk hmac cfg s forwards' req m → ∀ node, m.nonce ∉ (replicas node).seenProofs.keys)
    (hknown : ∀ node, ∀ k ∈ (replicas node).seenProofs.keys, ∃ m ∈ s.minted, m.nonce = k) :
    Inv hmac cfg ({ s with replicas := replicas }.put id forwards place) := by
  have hold : ∀ id' forwards' req, ({ s with replicas := replicas }.put id forwards place).requests.get? id' =
      some ⟨forwards', .wire req⟩ → id' ≠ id ∧ s.requests.get? id' = some ⟨forwards', .wire req⟩ := by
    intro id' forwards' req hq
    rw [get?_put] at hq
    split_ifs at hq with hid
    · exact absurd (congrArg Request.place (some.inj hq)) (hwire req)
    · exact ⟨hid, hq⟩
  exact { h with
    seen := hknown
    forwards := fun id' q hq => by
      rw [get?_put] at hq
      split_ifs at hq
      · rw [← some.inj hq]
        exact hforwards
      · exact h.forwards id' q hq
    wire := fun id' forwards' req hq => by
      obtain ⟨hid, hq⟩ := hold id' forwards' req hq
      obtain ⟨m, hm⟩ := h.wire id' forwards' req hq
      exact ⟨m, hm.minted, hm.fits, hm.path, hm.room, hm.last, hm.remote,
        hseen id' forwards' req m hid hq hm⟩
    here := fun id' forwards' node req proof deadline dialing hq => by
      rw [get?_put] at hq
      split_ifs at hq
      · obtain ⟨rfl, rfl⟩ := Request.mk.inj (some.inj hq)
        exact hhere node req proof deadline dialing rfl
      · exact h.here id' forwards' node req proof deadline dialing hq
    apart := fun id₁ id₂ forwards₁ forwards₂ req₁ req₂ v v' stamp stamp' nonce h₁ h₂ =>
      h.apart id₁ id₂ forwards₁ forwards₂ req₁ req₂ v v' stamp stamp' nonce
        (hold id₁ forwards₁ req₁ h₁).2 (hold id₂ forwards₂ req₂ h₂).2 }

/-- A request that nobody waits for. -/
theorem Inv.finish (h : Inv hmac cfg s) {id : ℕ} {forwards : List (Hop R)}
    (hforwards : forwards.length ≤ maxHops ∧ ∀ f ∈ forwards, HopOk cfg f) (outcome : Outcome) :
    Inv hmac cfg (s.put id forwards (.ended outcome)) :=
  h.moves id s.replicas hforwards (fun _ => by simp)
    (fun _ _ _ _ _ hplace => absurd hplace (by simp)) (fun _ _ _ _ _ _ hm => hm.unseen) h.seen

variable [DecidableEq R]

/-- A replica whose cache stays as it was. -/
theorem Inv.setReplica (h : Inv hmac cfg s) (node : R) {r : Replica}
    (hseen : r.seenProofs = (s.replicas node).seenProofs) : Inv hmac cfg (s.setReplica node r) :=
  { h with
    seen := fun node' k hk => by
      dsimp only [Net.setReplica] at hk
      by_cases hat : node' = node
      · rw [hat, Function.update_self, hseen] at hk
        exact h.seen node k hk
      · rw [Function.update_of_ne hat] at hk
        exact h.seen node' k hk
    wire := fun id forwards req hq => by
      obtain ⟨m, hm⟩ := h.wire id forwards req hq
      refine ⟨m, hm.minted, hm.fits, hm.path, hm.room, hm.last, hm.remote, fun node' => ?_⟩
      dsimp only [Net.setReplica]
      by_cases hat : node' = node
      · rw [hat, Function.update_self, hseen]
        exact hm.unseen node
      · rw [Function.update_of_ne hat]
        exact hm.unseen node' }

theorem proofOf_seen {r : Replica} {c : Config} {t : ℕ} {req : Req} {cached : Option Proof} {k : Text}
    (hk : k ∈ (r.proofOf hmac c t req cached).2.seenProofs.keys) :
    k ∈ r.seenProofs.keys ∨ cached = none ∧ ∃ v stamp, checkMac hmac req = some (v, stamp, k) := by
  cases cached with
  | some p => exact Or.inl hk
  | none => exact (verifyHops_seen hk).imp_right fun hfits => ⟨rfl, hfits⟩

/-- One turn of a request that is at a replica with a list that ends with the way it came. -/
theorem Inv.turn (h : Inv hmac cfg s) {id : ℕ} {forwards : List (Hop R)} {node : R} {req : Req}
    {cached : Option Proof} {reading : Reading}
    (hforwards : forwards.length ≤ maxHops ∧ ∀ f ∈ forwards, HopOk cfg f)
    (hseen : cached = none → ∀ v stamp nonce, checkMac hmac req = some (v, stamp, nonce) →
      (∃ m ∈ s.minted, m.nonce = nonce) ∧ ∀ id' forwards' sent, id' ≠ id → s.requests.get? id' = some ⟨forwards', .wire sent⟩ →
        ∀ v' stamp', checkMac hmac sent ≠ some (v', stamp', nonce))
    (hproof : ∀ p, ((s.replicas node).proofOf hmac (cfg node) reading.now req cached).1 = p →
      p.loop = none → path cfg forwards <:+ p.hops ∧ ∀ hop ∈ p.hops, Plain hop)
    (deadline : Option ℕ) :
    Inv hmac cfg (s.turn hmac cfg id forwards node req cached deadline reading) := by
  unfold Net.turn
  rcases Replica.decideOn_spec hmac (cfg node) (s.replicas node) reading req cached with
    ⟨hout, _⟩ | ⟨p, d, r', hout, hd⟩
  · rw [hout]
    exact (h.setReplica node rfl).finish hforwards .served
  rw [hout]
  refine h.moves id _ hforwards (fun req' => ?_) ?_ ?_ ?_
  · cases d with
    | hold reason =>
      dsimp only [routed]
      split_ifs <;> simp
    | serve => simp [routed]
    | loop nonce => simp [routed]
    | refuse => simp [routed]
    | forward addr => simp [routed]
  · intro node' req' proof deadline' dialing hplace
    cases d with
    | serve => exact absurd hplace (by simp [routed])
    | loop nonce => exact absurd hplace (by simp [routed])
    | refuse => exact absurd hplace (by simp [routed])
    | hold reason =>
      have hloop : p.loop = none := by
        by_contra hne
        obtain ⟨nonce, hnonce⟩ := Option.ne_none_iff_exists'.mp hne
        exact absurd ((hd.loop nonce).mpr hnonce) (by simp)
      dsimp only [routed] at hplace
      split_ifs at hplace
      obtain ⟨rfl, rfl, rfl, _, rfl⟩ := Place.here.inj hplace
      exact ⟨p, rfl, (hproof p hd.proof hloop).1, (hproof p hd.proof hloop).2,
        fun _ _ hdial => absurd hdial (by simp)⟩
    | forward addr =>
      have hloop : p.loop = none := by
        by_contra hne
        obtain ⟨nonce, hnonce⟩ := Option.ne_none_iff_exists'.mp hne
        exact absurd ((hd.loop nonce).mpr hnonce) (by simp)
      obtain ⟨rfl, rfl, rfl, _, rfl⟩ := Place.here.inj hplace
      refine ⟨p, rfl, (hproof p hd.proof hloop).1, (hproof p hd.proof hloop).2, ?_⟩
      intro addr' leader hdial
      obtain ⟨e, he, hleader, hself, hroom⟩ := hd.forwards addr rfl
      rw [hd.leader, he] at hdial
      obtain ⟨_, rfl⟩ := Prod.mk.inj (some.inj hdial)
      exact ⟨hleader, hself, hroom, hd.enabled.1, hd.enabled.2.1⟩
  · intro id' forwards' req' m hid hq hm node'
    by_cases hat : node' = node
    · rw [hat, Function.update_self, hd.seen]
      intro hk
      rcases proofOf_seen hk with hk | ⟨hcached, v, stamp, hfits⟩
      · exact hm.unseen node hk
      · exact (hseen hcached v stamp _ hfits).2 id' forwards' req' hid hq _ _ hm.fits
    · rw [Function.update_of_ne hat]
      exact hm.unseen node'
  · intro node' k hk
    by_cases hat : node' = node
    · rw [hat, Function.update_self, hd.seen] at hk
      rcases proofOf_seen hk with hk | ⟨hcached, v, stamp, hfits⟩
      · exact h.seen node k hk
      · exact (hseen hcached v stamp k hfits).1
    · rw [Function.update_of_ne hat] at hk
      exact h.seen node' k hk

omit [DecidableEq R] in
/-- A request goes on to the leader that was dialed. -/
theorem Inv.forward (h : Inv hmac cfg s) (hplain : ∀ m, (hmac m).all base64url = true)
    (hids : ∀ node, Plain (cfg node).replicaId) {id : ℕ} {q : Request R} {node : R} {req : Req} {p : Proof}
    {addr leader nonce : Text} {t : ℕ} (hq : s.requests.get? id = some q)
    (hp : HereOk cfg q.forwards node req p (some (addr, leader))) (hnonce : nonceForm nonce = true)
    (ht : t < 10 ^ 15) (hnew : ∀ m ∈ s.minted, m.nonce ≠ nonce) :
    Inv hmac cfg (s.forward hmac cfg id q node req p.hops addr leader nonce t) := by
  obtain ⟨hleader, hself, hroom, henabled, hremote⟩ := hp.dials addr leader rfl
  have hlist : ∀ hop ∈ p.hops ++ [(cfg node).replicaId], Plain hop := by
    intro hop hhop
    rcases mem_append.mp hhop with hhop | hhop
    · exact hp.plain hop hhop
    · rw [mem_singleton.mp hhop]
      exact hids node
  have hne : p.hops ++ [(cfg node).replicaId] ≠ [] := by simp
  have hshort : q.forwards.length < maxHops := by
    have hle := hp.path.length_le
    rw [path, length_map] at hle
    omega
  set m : Minted := ⟨p.hops ++ [(cfg node).replicaId], req.method, req.url, t, nonce⟩ with hm
  set sent : Req := ⟨req.method, req.url,
    some (hopHeaders hmac (p.hops ++ [(cfg node).replicaId]) req.method req.url t nonce).1,
    some (hopHeaders hmac (p.hops ++ [(cfg node).replicaId]) req.method req.url t nonce).2⟩ with hsent
  have hfits : checkMac hmac sent = some (joinHops m.hops, t, nonce) :=
    checkMac_minted hplain hne hlist ht hnonce rfl rfl rfl rfl
  have hcase : ∀ id' q', (s.forward hmac cfg id q node req p.hops addr leader nonce t).requests.get? id' =
      some q' → (id' = id ∧ q' = ⟨q.forwards ++ [⟨node, p.hops, leader, addr⟩], .wire sent⟩) ∨
        id' ≠ id ∧ s.requests.get? id' = some q' := by
    intro id' q' hq'
    rw [Net.forward, get?_put] at hq'
    split_ifs at hq' with hid
    · exact Or.inl ⟨hid, (some.inj hq').symm⟩
    · exact Or.inr ⟨hid, hq'⟩
  -- a nonce that was on the wire is not the new one
  have hother : ∀ id' forwards' req' v stamp k, s.requests.get? id' = some ⟨forwards', .wire req'⟩ →
      checkMac hmac req' = some (v, stamp, k) → k ≠ nonce := by
    intro id' forwards' req' v stamp k hq' hk
    obtain ⟨m', hm'⟩ := h.wire id' forwards' req' hq'
    have heq := some.inj (hk.symm.trans hm'.fits)
    rw [(Prod.mk.inj (Prod.mk.inj heq).2).2]
    exact hnew m' hm'.minted
  exact {
    minted := fun m' hm' => by
      rcases mem_cons.mp hm' with rfl | hm'
      · exact ⟨hne, hlist⟩
      · exact h.minted m' hm'
    seen := fun node' k hk => by
      obtain ⟨m', hm', hk⟩ := h.seen node' k hk
      exact ⟨m', .tail _ hm', hk⟩
    forwards := fun id' q' hq' => by
      rcases hcase id' q' hq' with ⟨_, rfl⟩ | ⟨_, hq'⟩
      · refine ⟨by simpa using Nat.succ_le_of_lt hshort, fun f hf => ?_⟩
        rcases mem_append.mp hf with hf | hf
        · exact (h.forwards id q hq).2 f hf
        · rw [mem_singleton.mp hf]
          exact ⟨hself, hleader⟩
      · exact h.forwards id' q' hq'
    wire := fun id' forwards' req' hq' => by
      rcases hcase id' _ hq' with ⟨_, heq⟩ | ⟨_, hq'⟩
      · obtain ⟨rfl, hplace⟩ := Request.mk.inj heq
        obtain rfl := Place.wire.inj hplace
        refine ⟨m, mem_cons_self, hfits, ?_, by simpa [hm] using Nat.succ_le_of_lt hroom, ?_, hremote, fun node' hk => ?_⟩
        · obtain ⟨pre, hpre⟩ := hp.path
          refine ⟨pre, ?_⟩
          rw [path, map_append, ← append_assoc]
          exact congrArg (· ++ [(cfg node).replicaId]) hpre
        · exact ⟨⟨node, p.hops, leader, addr⟩, by simp, henabled⟩
        · obtain ⟨m', hm', hk⟩ := h.seen node' _ hk
          exact hnew m' hm' hk
      · obtain ⟨m', hm'⟩ := h.wire id' forwards' req' hq'
        exact ⟨m', .tail _ hm'.minted, hm'.fits, hm'.path, hm'.room, hm'.last, hm'.remote,
          hm'.unseen⟩
    here := fun id' forwards' node' req' proof deadline dialing hq' => by
      rcases hcase id' _ hq' with ⟨_, heq⟩ | ⟨_, hq'⟩
      · exact absurd (Request.mk.inj heq).2 (by simp)
      · exact h.here id' forwards' node' req' proof deadline dialing hq'
    apart := fun id₁ id₂ forwards₁ forwards₂ req₁ req₂ v v' stamp stamp' k h₁ h₂ hk₁ hk₂ => by
      rcases hcase id₁ _ h₁ with ⟨hid₁, heq₁⟩ | ⟨_, h₁⟩ <;> rcases hcase id₂ _ h₂ with ⟨hid₂, heq₂⟩ | ⟨_, h₂⟩
      · exact hid₁.trans hid₂.symm
      · rw [Place.wire.inj (Request.mk.inj heq₁).2, hfits] at hk₁
        exact absurd (Prod.mk.inj (Prod.mk.inj (some.inj hk₁)).2).2.symm
          (hother id₂ forwards₂ req₂ v' stamp' k h₂ hk₂)
      · rw [Place.wire.inj (Request.mk.inj heq₂).2, hfits] at hk₂
        exact absurd (Prod.mk.inj (Prod.mk.inj (some.inj hk₂)).2).2.symm
          (hother id₁ forwards₁ req₁ v stamp k h₁ hk₁)
      · exact h.apart id₁ id₂ forwards₁ forwards₂ req₁ req₂ v v' stamp stamp' k h₁ h₂ hk₁ hk₂ }

theorem Inv.step (h : Inv hmac cfg s) (hplain : ∀ m, (hmac m).all base64url = true)
    (hids : ∀ node, Plain (cfg node).replicaId) {e : Event R} (hok : Admits hmac s e) :
    Inv hmac cfg (s.step hmac cfg e) := by
  cases e with
  | learn node entry => exact h.setReplica node rfl
  | aliased node t addr => exact h.setReplica node (Replica.alike_learnAlias _ _ t addr).2.1
  | drain node => exact h.setReplica node rfl
  | client id node req reading =>
    dsimp only [Net.step]
    cases hq : s.requests.get? id with
    | some q => exact h
    | none =>
      refine h.turn ?_ (fun _ v stamp nonce hfits => ?_) (fun p hp _ => ⟨?_, ?_⟩) none
      · exact ⟨Nat.zero_le _, fun f hf => absurd hf (by simp)⟩
      · obtain ⟨⟨m, hm, _, _, hnonce, _⟩, hwire⟩ := hok v stamp nonce hfits
        exact ⟨⟨m, hm, hnonce.symm⟩, fun id' forwards' sent _ hq' => hwire id' forwards' sent hq'⟩
      · exact nil_suffix
      · -- a list that counts was minted
        rcases verifyHops_hops hmac (cfg node).replicaId (s.replicas node).seenProofs reading.now req with
          hnil | ⟨v, stamp, nonce, hfits, hhops⟩
        · rw [← hp]
          exact fun hop hhop => absurd (hnil ▸ hhop) (by simp)
        · obtain ⟨⟨m, hm, rfl, _⟩, _⟩ := hok v stamp nonce hfits
          rw [hopList_joinHops (h.minted m hm).1 (h.minted m hm).2] at hhops
          rw [← hp]
          exact fun hop hhop => (h.minted m hm).2 hop (hhops ▸ hhop)
  | arrive id node reading =>
    dsimp only [Net.step]
    split
    · next forwards req hq =>
      obtain ⟨m, hm⟩ := h.wire id forwards req hq
      obtain ⟨htime, hroom⟩ := hok forwards req hq
      refine h.turn (h.forwards id _ hq) (fun _ v stamp nonce hfits => ⟨?_, ?_⟩) (fun p hp hloop => ?_) none
      · have heq := some.inj (hm.fits.symm.trans hfits)
        exact ⟨m, hm.minted, (Prod.mk.inj (Prod.mk.inj heq).2).2⟩
      · intro id' forwards' sent hid hq' v' stamp' hfits'
        exact hid (h.apart id' id forwards' forwards sent req v' v stamp' stamp nonce hq' hq hfits' hfits)
      · have hmade := verifyHops_fits (cfg node).replicaId hm.fits
          (htime _ _ _ hm.fits) (hm.unseen node) hroom
        rw [hopList_joinHops (h.minted m hm.minted).1 (h.minted m hm.minted).2] at hmade
        have hp : (verifyHops hmac (cfg node).replicaId (s.replicas node).seenProofs reading.now req).1 = p := hp
        rw [hp] at hmade
        split_ifs at hmade
        · rw [hmade] at hloop
          cases hloop
        · rw [hmade]
          exact ⟨hm.path, (h.minted m hm.minted).2⟩
    · exact h
  | poll id reading =>
    dsimp only [Net.step]
    split
    · next forwards node req proof deadline hq =>
      obtain ⟨p, rfl, hp⟩ := h.here id forwards node req proof deadline none hq
      refine h.turn (h.forwards id _ hq) (fun hnone => absurd hnone (by simp)) (fun p' hp' _ => ?_) deadline
      rw [← hp']
      exact ⟨hp.path, hp.plain⟩
    · exact h
  | dialed id ok nonce reading =>
    dsimp only [Net.step]
    split
    · next forwards node req proof deadline addr leader hq =>
      obtain ⟨p, rfl, hp⟩ := h.here id forwards node req proof deadline _ hq
      split_ifs with hdone
      · obtain ⟨hnonce, ht, hnew⟩ := hok hdone
        exact h.forward hplain hids hq hp hnonce ht hnew
      · have hmark : Inv hmac cfg (s.setReplica node
            ((s.replicas node).markUnreachable (cfg node) reading.now addr)) := h.setReplica node rfl
        refine hmark.turn (h.forwards id _ hq) (fun hnone => ?_) (fun p' hp' _ => ?_) deadline
        · cases hnone
        rw [← hp']
        exact ⟨hp.path, hp.plain⟩
    · exact h
  | gone id =>
    dsimp only [Net.step]
    split
    · exact h
    · next forwards _ _ hq => exact h.finish (h.forwards id _ hq) .gone
    · exact h

theorem inv_run (hplain : ∀ m, (hmac m).all base64url = true) (hids : ∀ node, Plain (cfg node).replicaId)
    {evs : List (Event R)} (hok : Along (step hmac cfg) (Admits hmac) init evs) :
    Inv hmac cfg (run (step hmac cfg) init evs) :=
  run_inv (step hmac cfg) (fun _ _ h hok => h.step hplain hids hok) inv_init hok

end Net

end Turma.Forward

/-! Forwarding cannot loop, and what a replica does with a request that it forwarded itself. -/

namespace Turma.Forward

open Turma.Lib Option

variable {R : Type*} [DecidableEq R] {hmac : Text → Text} {cfg : R → Config}

namespace Net

variable {s : Net R}

omit [DecidableEq R] in
theorem getLast?_of_path {forwards : List (Hop R)} {hops : List Text} {last : Hop R}
    (hpath : path cfg forwards <:+ hops) (hlast : forwards.getLast? = some last) :
    hops.getLast? = some (cfg last.sender).replicaId := by
  obtain ⟨pre, rfl⟩ := hpath
  rw [List.getLast?_append, path, List.getLast?_map, hlast]
  rfl

/-- A request that comes back to the replica that forwarded it last is at its end there. -/
theorem Inv.comes_back (h : Inv hmac cfg s) {id : ℕ} {forwards : List (Hop R)} {req : Req} {last : Hop R}
    (hq : s.requests.get? id = some ⟨forwards, .wire req⟩) (hlast : forwards.getLast? = some last)
    {reading : Reading} (hok : Admits hmac s (.arrive id last.sender reading)) :
    ∃ nonce, (s.step hmac cfg (.arrive id last.sender reading)).requests.get? id =
      some ⟨forwards, .ended (if reading.canServe = true then .served else .looped nonce)⟩ := by
  obtain ⟨m, hm⟩ := h.wire id forwards req hq
  obtain ⟨htime, hroom⟩ := hok forwards req hq
  obtain ⟨last', hlast', henabled⟩ := hm.last
  obtain rfl := some.inj (hlast.symm.trans hlast')
  -- the proof is the replica's own
  have hproof := verifyHops_fits (cfg last.sender).replicaId hm.fits
    (htime _ _ _ hm.fits) (hm.unseen last.sender) hroom
  rw [hopList_joinHops (h.minted m hm.minted).1 (h.minted m hm.minted).2,
    if_pos (getLast?_of_path hm.path hlast)] at hproof
  refine ⟨m.nonce, ?_⟩
  unfold Net.step
  dsimp only
  rw [hq]
  unfold Net.turn
  rw [get?_put, if_pos rfl]
  rcases Replica.decideOn_spec hmac (cfg last.sender) (s.replicas last.sender) reading req none with
    ⟨hout, hserve⟩ | ⟨p, d, r', hout, hd⟩
  · have hcan : reading.canServe = true := by
      rcases hserve with hoff | hlocal | hcan
      · rw [henabled] at hoff
        cases hoff
      · rw [hm.remote] at hlocal
        cases hlocal
      · exact hcan
    rw [hout, if_pos hcan]
    rfl
  · have hloop : p.loop = some m.nonce := by
      rw [← hd.proof]
      exact congrArg Proof.loop hproof
    rw [hout, (hd.loop m.nonce).mpr hloop, if_neg (by simp [hd.enabled.2.2])]
    rfl

/-- Whatever leader each replica has in mind at any time and wherever its address leads, a client's
request is forwarded `MAX_HOPS` times at most, by no replica in its verified list and to none. Back
at the replica that forwarded it last it is refused, or served if that replica leads by then. -/
theorem forwarding_never_loops (hplain : ∀ m, (hmac m).all base64url = true)
    (hids : ∀ node, Plain (cfg node).replicaId) (evs : List (Event R))
    (hok : Along (step hmac cfg) (Admits hmac) init evs) :
    let s := run (step hmac cfg) init evs
    (∀ id q, s.requests.get? id = some q → q.forwards.length ≤ maxHops ∧
      ∀ f ∈ q.forwards, (cfg f.sender).replicaId ∉ f.hops ∧ f.leader ∉ f.hops) ∧
    ∀ id forwards req last reading, s.requests.get? id = some ⟨forwards, .wire req⟩ →
      forwards.getLast? = some last → Admits hmac s (.arrive id last.sender reading) →
      ∃ nonce, (s.step hmac cfg (.arrive id last.sender reading)).requests.get? id =
        some ⟨forwards, .ended (if reading.canServe = true then .served else .looped nonce)⟩ := by
  intro s
  have h : Inv hmac cfg s := inv_run hplain hids hok
  exact ⟨h.forwards, fun id forwards req last reading hq hlast hok => h.comes_back hq hlast hok⟩

def aliasedConfig : Unit → Config := fun _ => ⟨"3f".toList, none, true, 7000, 3000, 5000, 600000⟩

def aliasedMac : Text → Text := fun _ => "bWFj".toList

def follows : Reading := ⟨0, false, true, false⟩

def leads : Reading := ⟨0, true, true, false⟩

def aliasedRun : List (Event Unit) :=
  [.learn () (some ⟨"a1".toList, some "10.0.0.9:8080".toList, 0, true⟩),
    .client 0 () ⟨"GET".toList, "/api/agents".toList, none, none⟩ follows,
    .dialed 0 true "bm9uY2U".toList follows]

theorem aliasedRun_admitted :
    Along (step aliasedMac aliasedConfig) (Admits aliasedMac) init aliasedRun := by
  refine ⟨trivial, fun v stamp nonce h => absurd h (by simp [checkMac]), fun _ => ⟨by decide, by decide, ?_⟩, trivial⟩
  decide

/-- The request on the wire, and that its proof fits at the time 0. -/
theorem aliasedRun_wire : ∃ req,
    (run (step aliasedMac aliasedConfig) init aliasedRun).requests.get? 0 =
      some ⟨[⟨(), [], "a1".toList, "10.0.0.9:8080".toList⟩], .wire req⟩ ∧
    checkMac aliasedMac req = some ("3f".toList, 0, "bm9uY2U".toList) :=
  ⟨_, rfl, by decide⟩

theorem aliasedRun_arrives (canServe : Bool) :
    Admits aliasedMac (run (step aliasedMac aliasedConfig) init aliasedRun)
      (.arrive 0 () ⟨0, canServe, true, false⟩) := by
  obtain ⟨req, hq, hfits⟩ := aliasedRun_wire
  intro forwards req' hq'
  obtain rfl := Place.wire.inj (Request.mk.inj (some.inj (hq.symm.trans hq'))).2
  refine ⟨fun v stamp nonce h => ?_, by decide⟩
  rw [hfits] at h
  obtain ⟨_, rfl, _⟩ := (Prod.mk.inj (some.inj h)).imp_right Prod.mk.inj
  exact ⟨Nat.zero_le _, Nat.zero_le _⟩

/-- The alias makes a follower forward to itself; one that is promoted meanwhile serves what comes
back to it. -/
theorem comes_back_served : ¬ ∀ (evs : List (Event Unit)),
    Along (step aliasedMac aliasedConfig) (Admits aliasedMac) init evs →
    ∀ id forwards req last reading,
      (run (step aliasedMac aliasedConfig) init evs).requests.get? id = some ⟨forwards, .wire req⟩ →
      forwards.getLast? = some last →
      Admits aliasedMac (run (step aliasedMac aliasedConfig) init evs) (.arrive id last.sender reading) →
      ∃ nonce, ((run (step aliasedMac aliasedConfig) init evs).step aliasedMac aliasedConfig
        (.arrive id last.sender reading)).requests.get? id = some ⟨forwards, .ended (.looped nonce)⟩ := by
  intro h
  obtain ⟨req, hq, _⟩ := aliasedRun_wire
  obtain ⟨nonce, hnonce⟩ := h aliasedRun aliasedRun_admitted 0 _ req _ leads hq rfl (aliasedRun_arrives true)
  have hserved : ((run (step aliasedMac aliasedConfig) init aliasedRun).step aliasedMac aliasedConfig
      (.arrive 0 () leads)).requests.get? 0 =
        some ⟨[⟨(), [], "a1".toList, "10.0.0.9:8080".toList⟩], .ended .served⟩ := rfl
  have hplace := (Request.mk.inj (some.inj (hserved.symm.trans hnonce))).2
  exact absurd (Place.ended.inj hplace) (by simp)

def twoConfig (node : Bool) : Config :=
  { aliasedConfig () with replicaId := if node = true then "3e".toList else "3f".toList }

def onWire (s : Net Bool) : Req :=
  match s.requests.get? 0 with
  | some ⟨_, .wire req⟩ => req
  | _ => ⟨[], [], none, none⟩

/-- Two replicas have the same leader in mind, whose address leads to the other one each time. A
client gets there first, `n` times, with the proof of the request that is in flight. -/
def replayedAhead : ℕ → List (Event Bool)
  | 0 => [false, true].map (fun node =>
        .learn node (some ⟨"a1".toList, some "10.0.0.9:8080".toList, 0, true⟩)) ++
      [.client 0 false ⟨"GET".toList, "/api/agents".toList, none, none⟩ follows,
        .dialed 0 true "bm9uY2U".toList follows]
  | n + 1 => replayedAhead n ++
      [.client (n + 1) (n % 2 = 0)
          (onWire (run (step aliasedMac twoConfig) init (replayedAhead n))) follows,
        .arrive 0 (n % 2 = 0) follows,
        .dialed 0 true ("bm9uY2".toList ++ List.replicate n 'b') follows]

/-- The proof is then a replay where the request arrives, which is forwarded as if it were new: the
bound is of clients that show proofs of arrived requests only. -/
theorem replayed_ahead_exceeds :
    ((run (step aliasedMac twoConfig) init (replayedAhead maxHops)).requests.get? 0).map
      (fun q => q.forwards.length) = some (maxHops + 1) := by
  decide

/-- The follower that stays one refuses it. -/
theorem forwarding_never_loops_aliased : ∃ nonce,
    ((run (step aliasedMac aliasedConfig) init aliasedRun).step aliasedMac aliasedConfig
      (.arrive 0 () follows)).requests.get? 0 =
        some ⟨[⟨(), [], "a1".toList, "10.0.0.9:8080".toList⟩], .ended (.looped nonce)⟩ := by
  obtain ⟨req, hq, _⟩ := aliasedRun_wire
  have hplain : base64url 'b' && base64url 'W' && base64url 'F' && base64url 'j' := by decide
  have hid : Plain "3f".toList := ⟨by decide, by decide, by decide⟩
  have hall := @forwarding_never_loops Unit _ aliasedMac aliasedConfig (fun _ => by simpa [aliasedMac, and_assoc] using hplain)
    (fun _ => hid) aliasedRun aliasedRun_admitted
  exact hall.2 0 _ req _ follows hq rfl (aliasedRun_arrives false)

end Net

end Turma.Forward
