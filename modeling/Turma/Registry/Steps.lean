import Turma.Registry.Sound

/-! Every step of the registry keeps it sound. -/

namespace Turma.Registry

open Turma.Lib Turma.Tenancy List Option OrdMap

variable {H : Hub} {M : List Uid} {s : State} {host k : JsString} {u v uid : Uid} {e : Identity} {now : ℤ}

theorem released_fades {e' : Identity} (h : e.released? host = some e') : e.Fades e' := by
  rw [Identity.released?] at h
  split at h
  · split at h
    · cases h
    · rw [← some.inj h]
      exact .refl e
  · rename_i hlive
    rw [← some.inj h]
    refine ⟨fun _ => rfl, fun o ho => ?_, fun hr => absurd hr hlive, fun hr => by simp [hr], fun _ hr => ?_⟩
    · split at ho
      · cases ho
      · exact ho
    · simp only [Bool.or_eq_true, decide_eq_true_eq] at hr
      rcases hr with hr | rfl
      · exact .inl hr
      · right
        split
        · simp
        · assumption

theorem revoked_fades {e' : Identity} (h : e.revoked? host = some e') : e.Fades e' := by
  rw [Identity.revoked?] at h
  split at h
  · rw [← some.inj h]
    exact .refl e
  · split at h
    · rw [← some.inj h]
      exact ⟨fun _ => rfl, fun _ ho => ho, fun _ => rfl, id, nofun⟩
    · cases h

theorem sift_back {f : Identity → Option Identity} (hf : ∀ e e', f e = some e' → e.Fades e')
    (u : Uid) (e' : Identity)
    (h : (s.agentIdentities.sift fun _ e => f e).get? u = some e') :
    ∃ e, s.agentIdentities.get? u = some e ∧ e.Fades e' := by
  rw [get?_sift] at h
  obtain ⟨e, he, hfe⟩ := bind_eq_some_iff.mp h
  exact ⟨e, he, hf e e' hfe⟩

theorem release_fades (s : State) (host : JsString) (u : Uid) (e' : Identity)
    (h : (s.releaseHostIdentities host).agentIdentities.get? u = some e') :
    ∃ e, s.agentIdentities.get? u = some e ∧ e.Fades e' :=
  sift_back (fun _ _ => released_fades) u e' h

theorem revoke_fades (s : State) (host : JsString) (u : Uid) (e' : Identity)
    (h : (s.revokeHostIdentities host).1.agentIdentities.get? u = some e') :
    ∃ e, s.agentIdentities.get? u = some e ∧ e.Fades e' :=
  sift_back (fun _ _ => revoked_fades) u e' h

/-- A live identity outlives the release of any name. -/
theorem identityOf_release (he : s.identityOf u = some e) (host : JsString) :
    (s.releaseHostIdentities host).identityOf u = some { e with
      origin := if e.origin = some host then none else e.origin
      released := e.released || e.home = host } := by
  obtain ⟨he, hlive⟩ := identityOf_eq_some.mp he
  refine identityOf_eq_some.mpr ⟨?_, hlive⟩
  rw [State.releaseHostIdentities, get?_sift, he, bind_some, Identity.released?, hlive]
  rfl

/-- An identity that lives elsewhere is none of those a revocation retires. -/
theorem identityOf_revoke (he : s.identityOf u = some e) (hhome : e.home ≠ host) :
    (s.revokeHostIdentities host).1.identityOf u = some e := by
  obtain ⟨he, hlive⟩ := identityOf_eq_some.mp he
  refine identityOf_eq_some.mpr ⟨?_, hlive⟩
  rw [State.revokeHostIdentities, get?_sift, he, bind_some, Identity.revoked?,
    if_pos (by simp [hhome])]

theorem get?_trim (s : State) (keep : Uid) (u : Uid) :
    (s.trimAgentIdentities keep).agentIdentities.get? u =
      if u ∈ s.overflow keep then none else s.agentIdentities.get? u := by
  rw [State.trimAgentIdentities, get?_filterKeys]
  by_cases hu : u ∈ s.overflow keep <;> simp [hu]

theorem trim_fades (s : State) (keep : Uid) (u : Uid) (e' : Identity)
    (h : (s.trimAgentIdentities keep).agentIdentities.get? u = some e') :
    ∃ e, s.agentIdentities.get? u = some e ∧ e.Fades e' := by
  rw [get?_trim] at h
  split at h
  · cases h
  · exact ⟨e', h, .refl e'⟩

theorem identityOf_trim (he : s.identityOf u = some e) {keep : Uid} (hu : u ∉ s.overflow keep) :
    (s.trimAgentIdentities keep).identityOf u = some e := by
  obtain ⟨he, hlive⟩ := identityOf_eq_some.mp he
  exact identityOf_eq_some.mpr ⟨by rw [get?_trim, if_neg hu]; exact he, hlive⟩

theorem mem_overflow {keep : Uid} (h : u ∈ s.overflow keep) :
    u ≠ keep ∧ s.bound u = false ∧ ∃ e, s.identityOf u = some e := by
  obtain ⟨x, hx, rfl⟩ := List.mem_map.mp h
  have hfree := (perm_insertionSort _ _).mem_iff.mp (mem_of_mem_take hx)
  obtain ⟨hentry, hcond⟩ := mem_filter.mp hfree
  simp only [Bool.and_eq_true, decide_eq_true_eq, Bool.not_eq_true'] at hcond
  exact ⟨hcond.1.1, hcond.1.2, x.2,
    identityOf_eq_some.mpr ⟨get?_eq_some.mpr hentry, hcond.2⟩⟩

theorem bound_of_uidAt (h : s.uidAt k = some u) : s.bound u = true := by
  obtain ⟨a, ha, hu⟩ := bind_eq_some_iff.mp h
  exact List.any_eq_true.mpr ⟨a, List.mem_map.mpr ⟨_, get?_eq_some.mp ha, rfl⟩, by simpa using hu⟩

theorem not_mem_overflow (h : s.uidAt k = some u) (keep : Uid) : u ∉ s.overflow keep := by
  intro hmem
  obtain ⟨-, hfree, -⟩ := mem_overflow hmem
  rw [bound_of_uidAt h] at hfree
  cases hfree

theorem identityByOrigin_eq_some (h : s.identityByOrigin host = some uid) :
    ∃ e, s.agentIdentities.get? uid = some e ∧ e.origin = some host := by
  obtain ⟨x, hx, rfl⟩ := map_eq_some_iff.mp h
  have hcond := find?_some hx
  exact ⟨x.2, get?_eq_some.mpr (mem_of_find?_eq_some hx), by simpa using hcond⟩

theorem identityByOrigin_eq_none (h : s.identityByOrigin host = none)
    (he : s.agentIdentities.get? u = some e) : e.origin ≠ some host := by
  have hnone := find?_eq_none.mp (map_eq_none_iff.mp h)
  simpa using hnone (u, e) (get?_eq_some.mp he)

/-- The name is claimed by a live identity minted for it, or once its tombstone is gone by none. -/
theorem claimOrigin_cases (h : s.Sound M) (host : JsString) :
    (∃ uid e, s.claimOrigin host = (s, some uid) ∧ s.identityOf uid = some e ∧
      e.origin = some host) ∨
    (s.claimOrigin host).2 = none ∧ (s.claimOrigin host).1.identityByOrigin host = none ∧
      (s.claimOrigin host).1.agents = s.agents ∧
      (∀ u e, (s.claimOrigin host).1.agentIdentities.get? u = some e →
        s.agentIdentities.get? u = some e) ∧
      ∀ u e, s.identityOf u = some e → (s.claimOrigin host).1.identityOf u = some e := by
  rw [State.claimOrigin]
  cases horigin : s.identityByOrigin host with
  | none => exact .inr ⟨rfl, horigin, rfl, fun _ _ he => he, fun _ _ he => he⟩
  | some uid =>
    obtain ⟨e, he, ho⟩ := identityByOrigin_eq_some horigin
    simp only [State.identityEntry, he, any_some]
    cases hrev : e.revoked with
    | false => exact .inl ⟨uid, e, rfl, identityOf_eq_some.mpr ⟨he, hrev⟩, ho⟩
    | true =>
      refine .inr ⟨rfl, ?_, rfl, fun u f hf => ?_, fun u f hf => ?_⟩
      · rw [if_pos rfl]
        refine map_eq_none_iff.mpr (find?_eq_none.mpr fun x hx => ?_)
        have hget := get?_eq_some.mpr (show (x.1, x.2) ∈ _ from hx)
        rw [get?_erase] at hget
        split at hget
        · cases hget
        · rename_i hne
          intro hx
          exact hne (h.origins x.1 uid x.2 e host hget he (by simpa using hx) ho)
      · rw [if_pos rfl, get?_erase] at hf
        split at hf
        · cases hf
        · exact hf
      · obtain ⟨hf, hlive⟩ := identityOf_eq_some.mp hf
        refine identityOf_eq_some.mpr ⟨?_, hlive⟩
        rw [if_pos rfl, get?_erase, if_neg]
        · exact hf
        · rintro rfl
          obtain rfl := some.inj (hf.symm.trans he)
          rw [hrev] at hlive
          cases hlive

theorem State.Sound.trim (h : s.Sound M) (keep : Uid) : (s.trimAgentIdentities keep).Sound M :=
  h.fades rfl (trim_fades s keep)

/-- What a mint hands out: the live identity minted for the name, the one its record is bound to, or
a fresh one that no other was minted for. -/
theorem issueAgentUid_cases (h : s.Sound M) (host : JsString) (fresh : Uid) (now : ℤ) :
    (∃ uid e, s.issueAgentUid host fresh now = (s.stamp host uid, uid) ∧
      s.identityOf uid = some e ∧ e.origin = some host) ∨
    ∃ s' : State, s'.agents = s.agents ∧
      (∀ u e, s'.agentIdentities.get? u = some e → s.agentIdentities.get? u = some e) ∧
      (∀ u e, s.identityOf u = some e → s'.identityOf u = some e) ∧
      ((∃ uid, s.issueAgentUid host fresh now = (s'.stamp host uid, uid) ∧
          s'.uidAt host = some uid ∧ s'.hostOfUid uid = some host) ∨
        (∀ u e, s'.agentIdentities.get? u = some e → e.origin ≠ some host) ∧
          Event.trims s (.issue host fresh now) = (s'.register host fresh now).overflow fresh ∧
          s.issueAgentUid host fresh now =
            (((s'.register host fresh now).trimAgentIdentities fresh).stamp host fresh, fresh)) := by
  rw [State.issueAgentUid, Event.trims]
  rcases claimOrigin_cases h host with ⟨uid, e, hclaim, he, ho⟩ | ⟨hnone, hfree, hagents, hback, hlive⟩
  · rw [hclaim]
    exact .inl ⟨uid, e, rfl, he, ho⟩
  · refine .inr ⟨(s.claimOrigin host).1, hagents, hback, hlive, ?_⟩
    generalize s.claimOrigin host = claim at *
    obtain ⟨s', claimed⟩ := claim
    dsimp only at hnone hfree ⊢
    subst hnone
    cases hat : s'.boundAt host with
    | some uid =>
      obtain ⟨hat', hhome⟩ := filter_eq_some_iff.mp hat
      exact .inl ⟨uid, rfl, hat', by simpa using hhome⟩
    | none => exact .inr ⟨fun u e he => identityByOrigin_eq_none hfree he, rfl, rfl⟩

theorem State.Sound.issue (h : s.Sound M) (host : JsString) (now : ℤ) (hfresh : uid ∉ M) :
    (s.issueAgentUid host uid now).1.Sound (uid :: M) := by
  have hM : ∀ u ∈ M, u ∈ uid :: M := fun u hu => .tail _ hu
  rcases issueAgentUid_cases h host uid now with ⟨u, e, hissue, -⟩ |
    ⟨s', hagents, hback, -, ⟨u, hissue, -⟩ | ⟨hfree, -, hissue⟩⟩
  · rw [hissue]
    exact (h.stamp host u).mono hM
  · rw [hissue]
    exact ((h.fades hagents fun u e he => ⟨e, hback u e he, .refl e⟩).stamp host u).mono hM
  · rw [hissue]
    have hs' := h.fades hagents fun u e he => ⟨e, hback u e he, .refl e⟩
    exact ((hs'.register now hfresh hfree).trim uid).stamp host uid

theorem Identity.beaten_live (e : Identity) (key : JsString) :
    (e.beaten key).home = key ∧ (e.beaten key).origin = e.origin ∧ (e.beaten key).used = true ∧
      (e.beaten key).released = false ∧ (e.beaten key).revoked = e.revoked := by
  rw [Identity.beaten]
  split
  · rename_i hhome
    exact ⟨hhome, rfl, rfl, rfl, rfl⟩
  · exact ⟨rfl, rfl, rfl, rfl, rfl⟩

theorem acceptBeat_identities (he : s.identityOf uid = some e) (key : JsString) (now : ℤ)
    (updating : Option ℤ) :
    (s.acceptBeat uid key now updating).agentIdentities =
      s.agentIdentities.upsert uid fun _ => e.beaten key := by
  have he' : State.identityOf { s with agents := s.agents.upsert key fun _ =>
      { agentUid := some uid, lastSeen := now, updatingUntil := updating } } uid = some e := he
  simp only [State.acceptBeat, State.noteIdentityBeat, he', State.renameAgentRecord]

theorem identityOf_acceptBeat (he : s.identityOf uid = some e) (key : JsString) (now : ℤ)
    (updating : Option ℤ) (u : Uid) :
    (s.acceptBeat uid key now updating).identityOf u =
      if u = uid then some (e.beaten key) else s.identityOf u :=
  identityOf_upsert ((e.beaten_live key).2.2.2.2.trans (identityOf_eq_some.mp he).2)
    (acceptBeat_identities he key now updating) u

/-- A beat changes no other identity, and of its own neither the origin nor whether it is revoked. -/
theorem acceptBeat_back (he : s.identityOf uid = some e) (key : JsString) (now : ℤ)
    (updating : Option ℤ) {f : Identity}
    (hf : (s.acceptBeat uid key now updating).agentIdentities.get? u = some f) :
    ∃ f₀, s.agentIdentities.get? u = some f₀ ∧ f.origin = f₀.origin := by
  rw [acceptBeat_identities he, get?_upsert_const] at hf
  split at hf
  · rename_i hu
    cases hf
    exact ⟨e, hu ▸ (identityOf_eq_some.mp he).1, (e.beaten_live key).2.1⟩
  · exact ⟨f, hf, rfl⟩

theorem renamed_uidAt {key : JsString} (hk : k ≠ key) (uid : Uid) (r : Option Agent) :
    ((r.bind fun a => if k ≠ key ∧ a.agentUid = some uid then none else some a).bind (·.agentUid)) =
      if r.bind (·.agentUid) = some uid then none else r.bind (·.agentUid) := by
  cases r with
  | none => simp
  | some a => by_cases ha : a.agentUid = some uid <;> simp [hk, ha]

theorem uidAt_acceptBeat (he : s.identityOf uid = some e) (key : JsString) (now : ℤ)
    (updating : Option ℤ) (k : JsString) :
    (s.acceptBeat uid key now updating).uidAt k =
      if k = key then some uid else if s.uidAt k = some uid then none else s.uidAt k := by
  have he' : State.identityOf { s with agents := s.agents.upsert key fun _ =>
      { agentUid := some uid, lastSeen := now, updatingUntil := updating } } uid = some e := he
  simp only [State.acceptBeat, State.noteIdentityBeat, he', State.renameAgentRecord, State.uidAt,
    get?_sift, get?_upsert]
  by_cases hk : k = key
  · simp [hk]
  · rw [if_neg hk, if_neg hk]
    exact renamed_uidAt hk uid _

theorem State.Sound.beat (h : s.Sound M) (he : s.identityOf uid = some e) (key : JsString) (now : ℤ)
    (updating : Option ℤ) : (s.acceptBeat uid key now updating).Sound M := by
  obtain ⟨hhome, -, -, hreleased, -⟩ := e.beaten_live key
  have hids := identityOf_acceptBeat he key now updating
  have huids := uidAt_acceptBeat he key now updating
  refine ⟨fun u f hf => ?_, fun k u hu => ?_, fun k u f hu hf => ?_,
    fun u v f g o hf hg hfo hgo => ?_, fun u f hf hr => ?_⟩
  · obtain ⟨f₀, hf₀, -⟩ := acceptBeat_back he key now updating hf
    exact h.minted u f₀ hf₀
  · rw [huids] at hu
    split at hu
    · cases hu
      exact h.minted _ e (identityOf_eq_some.mp he).1
    · split at hu
      · cases hu
      · exact h.named k u hu
  · rw [hids] at hf
    rw [huids] at hu
    split at hu
    · rename_i hk
      cases hu
      rw [if_pos rfl] at hf
      cases hf
      exact hhome.trans hk.symm
    · split at hu
      · cases hu
      · rename_i hne
        rw [if_neg] at hf
        · exact h.bound k u f hu hf
        · rintro rfl
          exact hne hu
  · obtain ⟨f₀, hf₀, hfeq⟩ := acceptBeat_back he key now updating hf
    obtain ⟨g₀, hg₀, hgeq⟩ := acceptBeat_back he key now updating hg
    exact h.origins u v f₀ g₀ o hf₀ hg₀ (hfeq ▸ hfo) (hgeq ▸ hgo)
  · rw [hids] at hf
    split at hf
    · cases hf
      rw [hreleased] at hr
      cases hr
    · exact h.away u f hf hr

/-- What a bind makes of an identity, if anything. -/
theorem bind_cases (s : State) (uid : Uid) (t : JsString) :
    (s.bindIdentityTenant uid t).1 = s ∨ ∃ e, s.identityOf uid = some e ∧
      (s.bindIdentityTenant uid t).1 = { s with
        agentIdentities := s.agentIdentities.upsert uid fun _ => { e with tenantId := t } } := by
  rw [State.bindIdentityTenant]
  cases s.identityOf uid with
  | none => exact .inl rfl
  | some e =>
    dsimp only
    split
    · exact .inl rfl
    · exact .inr ⟨e, rfl, rfl⟩

theorem bind_fades (s : State) (uid : Uid) (t : JsString) (u : Uid) (e' : Identity)
    (h : (s.bindIdentityTenant uid t).1.agentIdentities.get? u = some e') :
    ∃ e, s.agentIdentities.get? u = some e ∧ e.Fades e' := by
  rcases bind_cases s uid t with hbind | ⟨e, he, hbind⟩
  · rw [hbind] at h
    exact ⟨e', h, .refl e'⟩
  · rw [hbind, get?_upsert_const] at h
    split at h
    · rename_i hu
      rw [← some.inj h, hu]
      exact ⟨e, (identityOf_eq_some.mp he).1, fun _ => rfl, fun _ => id, id, id, fun _ => .inl⟩
    · exact ⟨e', h, .refl e'⟩

theorem bind_agents (s : State) (uid : Uid) (t : JsString) :
    (s.bindIdentityTenant uid t).1.agents = s.agents := by
  rcases bind_cases s uid t with hbind | ⟨e, -, hbind⟩ <;> rw [hbind]

/-- A live identity outlives a bind, with all but its tenant. -/
theorem identityOf_bind (he : s.identityOf u = some e) (uid : Uid) (t : JsString) :
    ∃ e', (s.bindIdentityTenant uid t).1.identityOf u = some e' ∧ e'.origin = e.origin ∧
      e'.home = e.home ∧ e'.used = e.used := by
  rcases bind_cases s uid t with hbind | ⟨f, hf, hbind⟩
  · rw [hbind]
    exact ⟨e, he, rfl, rfl, rfl⟩
  · rw [hbind, identityOf_upsert (show Identity.revoked { f with tenantId := t } = false from
      (identityOf_eq_some.mp hf).2) rfl]
    split
    · rename_i hu
      rw [hu, hf] at he
      cases he
      exact ⟨_, rfl, rfl, rfl, rfl⟩
    · exact ⟨e, he, rfl, rfl, rfl⟩

theorem uidAt_dropRecords (s : State) (keys : List JsString) (k : JsString) :
    (s.dropRecords keys).uidAt k = if k ∈ keys then none else s.uidAt k := by
  simp only [State.uidAt, State.dropRecords, get?_filterKeys]
  by_cases hk : k ∈ keys <;> simp [hk]

theorem uidAt_nameBeat (s : State) (key : JsString) (now : ℤ) (updating : Option ℤ) (k : JsString) :
    (s.nameBeat key now updating).uidAt k = s.uidAt k := by
  simp only [State.uidAt, State.nameBeat, get?_upsert]
  split
  · rename_i hk
    rw [hk]
    rfl
  · rfl

theorem uidAt_noteSignal (s : State) (key : JsString) (lastSeen : ℤ) (updating : Option ℤ)
    (k : JsString) : (s.noteSignal key lastSeen updating).uidAt k = s.uidAt k := by
  simp only [State.uidAt, State.noteSignal, get?_adjust]
  split
  · rename_i hk
    rw [hk]
    cases s.agents.get? key <;> rfl
  · rfl

theorem State.Sound.drop (h : s.Sound M) (keys : List JsString) : (s.dropRecords keys).Sound M := by
  refine h.records rfl fun k u hu => ?_
  rw [uidAt_dropRecords] at hu
  split at hu
  · cases hu
  · exact hu

/-- Whatever happens, the hub stays sound as long as random ids never collide. -/
theorem sound_step (H : Hub) (L : Limits) {w : Watch} (h : w.hub.Sound w.minted) (e : Event)
    (hfresh : e.Fresh w) : (step H L w e).hub.Sound (step H L w e).minted := by
  cases e with
  | issue host fresh now => exact h.issue host now hfresh
  | bind uid t => exact h.fades (bind_agents w.hub uid t) (bind_fades w.hub uid t)
  | beat uid key now ledger updating =>
    rw [step]
    split
    · rename_i hok
      obtain ⟨e, he, -⟩ := authorized_cases hok
      exact h.beat he key now updating
    · exact h
  | nameBeat key now updating =>
    exact h.records rfl fun k u hu => (uidAt_nameBeat w.hub key now updating k).symm.trans hu
  | signal key lastSeen updating =>
    exact h.records rfl fun k u hu => (uidAt_noteSignal w.hub key lastSeen updating k).symm.trans hu
  | prune now => exact h.drop _
  | makeRoom recordBytes now addBytes addSlots => exact h.drop _
  | remove key => exact h.drop _
  | release host => exact h.fades rfl (release_fades w.hub host)
  | revoke host => exact h.fades rfl (revoke_fades w.hub host)
  | trim keep => exact h.trim keep

/-- An id once minted stays counted. -/
theorem minted_step (H : Hub) (L : Limits) (w : Watch) (e : Event) (u : Uid) (hu : u ∈ w.minted) :
    u ∈ (step H L w e).minted := by
  cases e with
  | issue => exact .tail _ hu
  | beat =>
    rw [step]
    split <;> exact hu
  | bind | nameBeat | signal | prune | makeRoom | remove | release | revoke | trim => exact hu

end Turma.Registry
