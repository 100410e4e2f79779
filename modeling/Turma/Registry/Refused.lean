import Turma.Registry.Redeemed

/-! A redemption that is refused leaves the hub, its codes and its control channels as they were. -/

namespace Turma.Registry

open Turma.Lib Turma.Tenancy

variable {D : Desk} {H : Hub} {s : State} {device tenantId key : JsString} {fresh u : Uid}

def Identity.ousted (H : Hub) (key : JsString) (e : Identity) : Bool :=
  !e.revoked && !(!e.used && e.claims H (H.lower key)) && e.released && H.lower e.home = H.lower key

/-- The names that control channels stay open under: a redemption that revokes an identity cuts those
of the name, in any letter case. -/
def State.cutTunnels (H : Hub) (s : State) (key : JsString) (controlChannels : List JsString) :
    List JsString :=
  if s.agentIdentities.values.any (·.ousted H key) then
    controlChannels.filter fun name => H.lower name ≠ H.lower key
  else controlChannels

/-- The hub with the names its control channels are open under. -/
structure Wired where
  enrolling : Enrolling
  controlChannels : List JsString

/-- `consumeEnrollCode` at the time `now`, on what a request holds: a field that is no text is absent,
and an absent device is checked as the empty name is. -/
def Wired.consumeEnrollCode (D : Desk) (w : Wired) (code device : Option JsString) (now : ℤ)
    (fresh : Uid) : Wired × Except EnrollRefusal Granted :=
  match code with
  | none => (w, .error .malformed)
  | some code =>
    let s := { w.enrolling with now := now }
    let (after, answer) := s.consumeEnrollCode D code (device.getD []) fresh
    ({ enrolling := { after with now := w.enrolling.now }
       controlChannels := match (s.examine D code (device.getD [])).2 with
        | .ok p => s.watch.hub.cutTunnels D.toHub p.key w.controlChannels
        | .error _ => w.controlChannels }, answer)

/-- The one name that is claimed by nobody is the one nobody was minted for. -/
theorem claimOrigin_none (h : ∀ u e, s.agentIdentities.get? u = some e → e.origin ≠ some key) :
    s.claimOrigin key = (s, none) := by
  have hnone : s.identityByOrigin key = none := by
    refine Option.map_eq_none_iff.mpr (List.find?_eq_none.mpr fun x hx => ?_)
    simpa using h x.1 x.2 (OrdMap.get?_eq_some.mpr hx)
  rw [State.claimOrigin, hnone]

/-- The identity registered last is never the one trimmed for it. -/
theorem identityOf_minted (s : State) (key : JsString) (fresh : Uid) (now : ℤ) :
    (((s.register key fresh now).trimAgentIdentities fresh).stamp key fresh).identityOf fresh =
      some { origin := some key, home := key, mintedAt := now, tenantId := tenantOfHostKey key } := by
  have hreg := (identityOf_register s key fresh now fresh).trans (if_pos rfl)
  have hkept : fresh ∉ (s.register key fresh now).overflow fresh := fun hmem => (mem_overflow hmem).1 rfl
  rw [identityOf_congr (stamp_identities _ key fresh)]
  exact identityOf_trim hreg hkept

/-- Whatever the registry holds, a name that passes the check of names is issued a fresh identity. -/
theorem issue_fresh (hname : enrollNameRefusal H s device tenantId = none) (fresh : Uid) (now : ℤ) :
    let key := tenantHostKey device tenantId
    let issued := (s.supersede H key).issueAgentUid key fresh now
    issued.2 = fresh ∧ issued.1.identityOf fresh =
      some { origin := some key, home := key, mintedAt := now, tenantId := tenantOfHostKey key } := by
  have hclear : ∀ u e,
      (s.supersede H (tenantHostKey device tenantId)).agentIdentities.get? u = some e →
        e.origin ≠ some (tenantHostKey device tenantId) := fun _ _ he => (supersede_clear hname he).1
  have hnorec := unrecorded hname
  dsimp only
  generalize tenantHostKey device tenantId = key at *
  have hunbound : (s.supersede H key).boundAt key = none := by
    rw [State.boundAt, State.uidAt]
    simp [State.supersede, hnorec]
  rw [State.issueAgentUid, claimOrigin_none hclear]
  simp only [hunbound]
  exact ⟨rfl, identityOf_minted _ key fresh now⟩

/-- The tenant of the key is the tenant the name was checked for. -/
theorem tenantOf_enrolled (hname : enrollNameRefusal H s device tenantId = none)
    (htenant : tenantId = [] ∨ isTenantId tenantId = true) :
    tenantOfHostKey (tenantHostKey device tenantId) = tenantId := by
  rcases htenant with rfl | htenant
  · obtain ⟨-, htoken, -⟩ := enrollName_cases hname
    exact tenantOfHostKey_of_hasAgentToken htoken
  · exact tenantOfHostKey_tenantHostKey htenant

theorem codeTenant_cases (r : EnrollCode) : codeTenant r = [] ∨ isTenantId (codeTenant r) = true := by
  rw [codeTenant]
  split
  · rename_i htenant
    exact .inr htenant
  · exact .inl rfl

/-- What the issue after the checks returns: a fresh identity, which has not beaten and lives at the
key, in the tenant of the code. -/
structure Issues (D : Desk) (s : State) (p : Enrolling.Passed) (fresh : Uid) (now : ℤ) : Prop where
  uid : ((s.supersede D.toHub p.key).issueAgentUid p.key fresh now).2 = fresh
  identity : ((s.supersede D.toHub p.key).issueAgentUid p.key fresh now).1.identityOf fresh =
    some { origin := some p.key, home := p.key, mintedAt := now, tenantId := p.tenantId }

theorem issues {s s' : Enrolling} {code device : JsString} {p : Enrolling.Passed}
    (h : s.examine D code device = (s', .ok p)) (fresh : Uid) (now : ℤ) :
    Issues D s.watch.hub p fresh now := by
  rcases examine_cases D s code device with ⟨fails, refusal, heq⟩ |
    ⟨p', heq, -, -, -, -, htenant, hkey, hname⟩
  · rw [h] at heq
    exact absurd (congrArg Prod.snd heq) (by simp)
  · obtain rfl : p = p' := by simpa [h] using congrArg Prod.snd heq
    obtain ⟨huid, hidentity⟩ := issue_fresh hname fresh now
    rw [← hkey] at huid hidentity
    have hof : tenantOfHostKey p.key = p.tenantId := by
      rw [hkey]
      exact tenantOf_enrolled hname (htenant ▸ codeTenant_cases p.record)
    exact ⟨huid, hof ▸ hidentity⟩

/-- A redemption is refused by one of its checks, or granted. -/
theorem consume_settles (D : Desk) (s : Enrolling) (code device : JsString) (fresh : Uid) :
    (∃ fails refusal, s.examine D code device = ({ s with enrollFails := fails }, .error refusal) ∧
      s.consumeEnrollCode D code device fresh = ({ s with enrollFails := fails }, .error refusal)) ∨
    ∃ p g, s.examine D code device = (s, .ok p) ∧
      (s.consumeEnrollCode D code device fresh).2 = .ok g ∧ g.uid = fresh ∧ g.key = p.key := by
  rcases examine_cases D s code device with ⟨fails, refusal, heq⟩ | ⟨p, heq, -⟩
  · refine .inl ⟨fails, refusal, heq, ?_⟩
    rw [Enrolling.consumeEnrollCode, heq]
  · obtain ⟨huid, hidentity⟩ := issues heq fresh s.now
    refine .inr ⟨p, { id := p.id, hash := p.record.hash, tenantId := p.tenantId, device := device
                      key := p.key, uid := fresh }, heq, ?_, rfl, rfl⟩
    rw [Enrolling.consumeEnrollCode, heq]
    dsimp only
    generalize (s.watch.hub.supersede D.toHub p.key).issueAgentUid p.key fresh s.now = issued at *
    obtain ⟨hub, uid⟩ := issued
    subst huid
    have hentry := (identityOf_eq_some.mp hidentity).1
    rw [if_pos (by simp [State.identityEntry, State.tenantOfUid, hentry])]

/-- A redemption that is not granted changes nothing but the count of failed attempts: neither the
identities nor the codes, the records or the control channels. Once the checks pass, it is granted. -/
theorem refused_redemption_changes_nothing (D : Desk) (w : Wired) (code device : Option JsString)
    (now : ℤ) (fresh : Uid) :
    (∀ refusal, (w.consumeEnrollCode D code device now fresh).2 = .error refusal →
      ∃ fails, (w.consumeEnrollCode D code device now fresh).1 =
        { w with enrolling := { w.enrolling with enrollFails := fails } }) ∧
    ∀ c s p, code = some c →
      { w.enrolling with now := now }.examine D c (device.getD []) = (s, .ok p) →
      (∀ mintedAt, Issues D w.enrolling.watch.hub p fresh mintedAt) ∧
        ∃ g, (w.consumeEnrollCode D code device now fresh).2 = .ok g ∧ g.uid = fresh ∧ g.key = p.key := by
  cases code with
  | none => exact ⟨fun _ _ => ⟨w.enrolling.enrollFails, rfl⟩, fun c _ _ hc => absurd hc (by simp)⟩
  | some code =>
    simp only [Wired.consumeEnrollCode]
    rcases consume_settles D { w.enrolling with now := now } code (device.getD []) fresh with
      ⟨fails, refusal, hexamine, hconsume⟩ | ⟨p, g, hexamine, hconsume, huid, hkey⟩
    · rw [hexamine, hconsume]
      refine ⟨fun _ _ => ⟨fails, rfl⟩, fun c s p hc hpass => ?_⟩
      cases hc
      rw [hexamine] at hpass
      exact absurd (congrArg Prod.snd hpass) (by simp)
    · rw [hexamine, hconsume]
      refine ⟨fun _ h => absurd h (by simp), fun c s p' hc hpass => ?_⟩
      cases hc
      have hissues := fun mintedAt => issues hpass fresh mintedAt
      rw [hexamine] at hpass
      obtain rfl : p = p' := by simpa using congrArg Prod.snd hpass
      exact ⟨hissues, g, rfl, huid, hkey⟩

/-! The code for `box` is spent by its redemption, and a second one leaves the hub as the first did. -/

def boxEnrolled : Wired :=
  { enrolling := run (enrollStep desk limits) (Enrolling.start 1000 fun _ => true)
      (boxEnrolling ++ [.resume 0 1])
    controlChannels := [box] }

def boxWaiting : Wired :=
  { enrolling := run (enrollStep desk limits) (Enrolling.start 1000 fun _ => true) boxEnrolling
    controlChannels := [box] }

theorem refused_redemption_box :
    (∃ fails, (boxEnrolled.consumeEnrollCode desk (some boxCode) (some box) 5000 2).1 =
      { boxEnrolled with enrolling := { boxEnrolled.enrolling with enrollFails := fails } }) ∧
    ∃ g, (boxWaiting.consumeEnrollCode desk (some boxCode) (some box) 5000 2).2 = .ok g ∧
      g.uid = 2 ∧ g.key = box :=
  ⟨(refused_redemption_changes_nothing desk boxEnrolled (some boxCode) (some box) 5000 2).1
    (.spent box) (by rfl),
    ((refused_redemption_changes_nothing desk boxWaiting (some boxCode) (some box) 5000 2).2
      boxCode _ _ rfl rfl).2⟩

end Turma.Registry
