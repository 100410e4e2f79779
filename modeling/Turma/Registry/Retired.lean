import Turma.Registry.Steps

/-! A host name has one agent, and a retired agent stays retired. -/

namespace Turma.Registry

open Turma.Lib Turma.Tenancy List Option OrdMap

variable {H : Hub} {L : Limits} {M : List Uid} {s : State} {w : Watch} {host k : JsString}
  {u v uid : Uid} {e : Identity} {now : ℤ}

/-- The history fits the hub: a bound record has its identity, a superseded identity that is still
registered stays released, with the record of another at its home, and a retired name is the origin
of an identity that has beaten. -/
structure Watch.Sound (w : Watch) : Prop where
  hub : w.hub.Sound w.minted
  held : ∀ k u, w.hub.uidAt k = some u → (w.hub.identityOf u).isSome
  counted : ∀ u ∈ w.superseded, u ∈ w.minted
  superseded : ∀ u ∈ w.superseded, ∀ e, w.hub.identityOf u = some e →
    e.released = true ∧ ∃ v, w.hub.uidAt e.home = some v ∧ u ≠ v
  retired : ∀ x ∈ w.retired, ∃ e, w.hub.identityOf x.2 = some e ∧ e.origin = some x.1 ∧ e.used = true

theorem sound_start : Watch.start.Sound where
  hub := sound_empty []
  held _ _ h := absurd h (by simp [Watch.start, State.uidAt])
  counted _ h := absurd h (by simp [Watch.start])
  superseded _ h := absurd h (by simp [Watch.start])
  retired _ h := absurd h (by simp [Watch.start])

/-- A step that touches no identity, gives no record another binding and takes away none at the
home of a superseded identity. -/
theorem Watch.Sound.records (h : w.Sound) (hids : s.agentIdentities = w.hub.agentIdentities)
    (hback : ∀ k u, s.uidAt k = some u → w.hub.uidAt k = some u)
    (hkeep : ∀ u ∈ w.superseded, ∀ k, w.hub.hostOfUid u = some k → s.uidAt k = w.hub.uidAt k) :
    { w with hub := s }.Sound where
  hub := h.hub.records hids hback
  held k u hu := by
    rw [identityOf_congr hids]
    exact h.held k u (hback k u hu)
  counted := h.counted
  superseded u hu e he := by
    have he' : w.hub.identityOf u = some e := by rwa [← identityOf_congr hids]
    obtain ⟨hr, v, hv, hne⟩ := h.superseded u hu e he'
    exact ⟨hr, v, (hkeep u hu _ (hostOfUid_of_identityOf he')).trans hv, hne⟩
  retired x hx := by
    obtain ⟨e, he, hrest⟩ := h.retired x hx
    exact ⟨e, (identityOf_congr hids _).trans he, hrest⟩

/-- A step that touches no record, and of the identities only lets some fade and others go. -/
theorem Watch.Sound.fades {retired : List (JsString × Uid)} (h : w.Sound)
    (hagents : s.agents = w.hub.agents)
    (hback : ∀ u e', s.agentIdentities.get? u = some e' →
      ∃ e, w.hub.agentIdentities.get? u = some e ∧ e.Fades e')
    (hheld : ∀ k u e, w.hub.uidAt k = some u → w.hub.identityOf u = some e →
      (s.identityOf u).isSome)
    (hretired : ∀ x ∈ retired,
      ∃ e, s.identityOf x.2 = some e ∧ e.origin = some x.1 ∧ e.used = true) :
    { w with hub := s, retired := retired }.Sound where
  hub := h.hub.fades hagents hback
  held k u hu := by
    rw [uidAt_congr hagents] at hu
    obtain ⟨e, he⟩ := isSome_iff_exists.mp (h.held k u hu)
    exact hheld k u e hu he
  counted := h.counted
  superseded u hu e' he' := by
    obtain ⟨e, he, hfades⟩ := live_of_fades hback he'
    obtain ⟨hr, v, hv, hne⟩ := h.superseded u hu e he
    refine ⟨hfades.released hr, v, ?_, hne⟩
    rw [hfades.home (identityOf_eq_some.mp he').2]
    exact (uidAt_congr hagents _).trans hv
  retired := hretired

theorem Watch.Sound.register (h : w.Sound) (now : ℤ) (hfresh : uid ∉ w.minted)
    (hfree : ∀ u e, w.hub.agentIdentities.get? u = some e → e.origin ≠ some host) :
    Watch.Sound { w with hub := w.hub.register host uid now, minted := uid :: w.minted } := by
  have hother : ∀ {u e}, w.hub.identityOf u = some e →
      (w.hub.register host uid now).identityOf u = some e := fun {u e} he => by
    rw [identityOf_register, if_neg]
    · exact he
    · rintro rfl
      exact hfresh (h.hub.minted _ e (identityOf_eq_some.mp he).1)
  refine ⟨h.hub.register now hfresh hfree, fun k u hu => ?_,
    fun u hu => .tail _ (h.counted u hu), fun u hu e he => ?_, fun x hx => ?_⟩
  · obtain ⟨e, he⟩ := isSome_iff_exists.mp (h.held k u hu)
    rw [hother he]
    rfl
  · rw [identityOf_register] at he
    split at he
    · rename_i hu'
      exact absurd (h.counted u hu) (hu' ▸ hfresh)
    · exact h.superseded u hu e he
  · obtain ⟨e, he, hrest⟩ := h.retired x hx
    exact ⟨e, hother he, hrest⟩

theorem Watch.Sound.trim (h : w.Sound) {keep : Uid} (hidle : Idle w.hub (w.hub.overflow keep)) :
    { w with hub := w.hub.trimAgentIdentities keep }.Sound := by
  refine h.fades rfl (trim_fades _ keep) (fun k u e hu he => ?_) fun x hx => ?_
  · rw [identityOf_trim he (not_mem_overflow hu keep)]
    rfl
  · obtain ⟨e, he, ho, hused⟩ := h.retired x hx
    refine ⟨e, identityOf_trim he fun hmem => ?_, ho, hused⟩
    have hnot := hidle _ hmem
    rw [he, any_some, hused, ho] at hnot
    cases hnot

/-- The record at a host is given to an identity that lives there and is not superseded. -/
theorem Watch.Sound.stamp (h : w.Sound)
    (hnot : ∀ e, w.hub.identityOf uid = some e → e.home = host → uid ∉ w.superseded) :
    { w with hub := w.hub.stamp host uid }.Sound := by
  have hids := identityOf_congr (stamp_identities w.hub host uid)
  refine ⟨h.hub.stamp host uid, fun k u hu => ?_, h.counted, fun u hu e he => ?_, fun x hx => ?_⟩
  · rw [hids]
    rw [uidAt_stamp] at hu
    split at hu
    · rename_i hk
      obtain ⟨e, he, -⟩ := hostOfUid_eq_some.mp hk.2.1
      cases hu
      rw [he]
      rfl
    · exact h.held k u hu
  · rw [hids] at he
    obtain ⟨hr, v, hv, hne⟩ := h.superseded u hu e he
    refine ⟨hr, ?_⟩
    rw [uidAt_stamp]
    split
    · rename_i hk
      refine ⟨uid, rfl, ?_⟩
      rintro rfl
      exact hnot e he hk.1 hu
    · exact ⟨v, hv, hne⟩
  · obtain ⟨e, he, hrest⟩ := h.retired x hx
    exact ⟨e, (hids _).trans he, hrest⟩

theorem Watch.Sound.more (h : w.Sound) (uid : Uid) : { w with minted := uid :: w.minted }.Sound :=
  { h with
    hub := h.hub.mono fun _ hu => .tail _ hu
    counted := fun u hu => .tail _ (h.counted u hu) }

/-- An identity minted for the host it lives at is not superseded. -/
theorem Watch.Sound.not_superseded (h : w.Sound) (he : w.hub.identityOf uid = some e)
    (ho : e.origin = some host) (hhome : e.home = host) : uid ∉ w.superseded := by
  intro hu
  obtain ⟨hr, -⟩ := h.superseded uid hu e he
  exact h.hub.away uid e he hr (by rw [ho, hhome])

theorem Watch.Sound.issue (h : w.Sound) (hfresh : uid ∉ w.minted)
    (hidle : Idle w.hub (Event.trims w.hub (.issue host uid now))) :
    Watch.Sound { w with hub := (w.hub.issueAgentUid host uid now).1, minted := uid :: w.minted } := by
  rcases issueAgentUid_cases h.hub host uid now with ⟨u, e, hissue, he, ho⟩ |
    ⟨s, hagents, hback, hlive, hcases⟩
  · rw [hissue]
    refine (h.more uid).stamp fun e' he' hhome => ?_
    obtain rfl := some.inj (he'.symm.trans he)
    exact h.not_superseded he ho hhome
  · have hs : Watch.Sound { w with hub := s } := h.fades hagents
      (fun u e he => ⟨e, hback u e he, .refl e⟩)
      (fun k u e _ he => by rw [hlive u e he]; rfl)
      (fun x hx => by
        obtain ⟨e, he, hrest⟩ := h.retired x hx
        exact ⟨e, hlive _ e he, hrest⟩)
    rcases hcases with ⟨u, hissue, hat, -⟩ | ⟨hfree, htrims, hissue⟩
    · rw [hissue]
      refine (hs.more uid).stamp fun e he hhome hu => ?_
      obtain ⟨-, v, hv, hne⟩ := hs.superseded u hu e he
      rw [hhome, hat] at hv
      exact hne (some.inj hv)
    · rw [hissue]
      rw [htrims] at hidle
      refine ((hs.register now hfresh hfree).trim fun u hu => ?_).stamp fun e he hhome hu =>
        hfresh (h.counted uid hu)
      obtain ⟨hne, -, e, he⟩ := mem_overflow hu
      rw [he]
      rw [identityOf_register, if_neg hne] at he
      obtain ⟨he, hrev⟩ := identityOf_eq_some.mp he
      have hnot := hidle u hu
      rwa [identityOf_eq_some.mpr ⟨hback u e he, hrev⟩] at hnot

/-- An accepted beat takes away no record at the home of a superseded identity, and supersedes those
that were released there. -/
theorem Watch.Sound.beat (h : w.Sound) {key : JsString} {ledger : JsString → Bool}
    (updating : Option ℤ) (hok : uidHostRefusal H ledger now w.hub uid key = none)
    (hspares : ∀ u ∈ w.superseded, ∀ k, k ≠ key → w.hub.uidAt k = some uid →
      w.hub.hostOfUid u ≠ some k) :
    Watch.Sound { w with
      hub := w.hub.acceptBeat uid key now updating
      superseded := w.hub.awaiting uid key ++ w.superseded
      retired := (w.hub.originOf uid).toList.map (·, uid) ++ w.retired } := by
  obtain ⟨e, he, -⟩ := authorized_cases hok
  obtain ⟨-, horigin, hused, -, -⟩ := e.beaten_live key
  have hids := identityOf_acceptBeat he key now updating
  have huids := uidAt_acceptBeat he key now updating
  refine ⟨h.hub.beat he key now updating, fun k u hu => ?_, fun u hu => ?_, fun u hu f hf => ?_,
    fun x hx => ?_⟩
  · rw [hids]
    rw [huids] at hu
    split
    · rfl
    · rename_i hne
      split at hu
      · exact absurd (some.inj hu).symm hne
      · split at hu
        · cases hu
        · exact h.held k u hu
  · rcases mem_append.mp hu with hu | hu
    · obtain ⟨x, hx, rfl⟩ := List.mem_map.mp hu
      exact h.hub.minted _ _ (get?_eq_some.mpr (mem_filter.mp hx).1)
    · exact h.counted u hu
  · rw [hids] at hf
    rcases mem_append.mp hu with hu | hold
    · -- an identity superseded by this very beat
      obtain ⟨x, hx, rfl⟩ := List.mem_map.mp hu
      obtain ⟨hx, hcond⟩ := mem_filter.mp hx
      simp only [Bool.and_eq_true, decide_eq_true_eq, Bool.not_eq_true'] at hcond
      obtain ⟨⟨⟨hne, hr⟩, hlive⟩, hk⟩ := hcond
      have hx' := identityOf_eq_some.mpr ⟨get?_eq_some.mpr hx, hlive⟩
      rw [if_neg hne, hx'] at hf
      cases hf
      refine ⟨hr, uid, ?_, hne⟩
      rw [huids, if_pos hk]
    · have hne : u ≠ uid := by
        intro heq
        subst heq
        obtain ⟨hr, v, hv, hvne⟩ := h.superseded u hold e he
        exact refused_of_superseded he hr hv hvne hok
      rw [if_neg hne] at hf
      obtain ⟨hr, v, hv, hvne⟩ := h.superseded u hold f hf
      refine ⟨hr, ?_⟩
      rw [huids]
      split
      · exact ⟨uid, rfl, hne⟩
      · rename_i hk
        have hnot : w.hub.uidAt f.home ≠ some uid := fun hat =>
          hspares u hold f.home hk hat (hostOfUid_of_identityOf hf)
        rw [if_neg hnot]
        exact ⟨v, hv, hvne⟩
  · rw [hids]
    rcases mem_append.mp hx with hx | hx
    · obtain ⟨o, ho, rfl⟩ := List.mem_map.mp hx
      have ho' : e.origin = some o := by
        simpa [State.originOf, he] using ho
      exact ⟨_, if_pos rfl, horigin.trans ho', hused⟩
    · obtain ⟨f, hf, ho, hu⟩ := h.retired x hx
      by_cases hx' : x.2 = uid
      · rw [hx', he] at hf
        cases hf
        exact ⟨_, if_pos hx', horigin.trans ho, hused⟩
      · exact ⟨f, (if_neg hx').trans hf, ho, hu⟩

theorem Watch.Sound.bind (h : w.Sound) (uid : Uid) (t : JsString) :
    { w with hub := (w.hub.bindIdentityTenant uid t).1 }.Sound := by
  refine h.fades (bind_agents w.hub uid t) (bind_fades w.hub uid t) (fun k u e _ he => ?_)
    fun x hx => ?_
  · obtain ⟨e', he', -⟩ := identityOf_bind he uid t
    rw [he']
    rfl
  · obtain ⟨e, he, ho, hu⟩ := h.retired x hx
    obtain ⟨e', he', ho', -, hu'⟩ := identityOf_bind he uid t
    exact ⟨e', he', ho'.trans ho, hu'.trans hu⟩

theorem Watch.Sound.drop (h : w.Sound) (keys : List JsString)
    (hspares : ∀ u ∈ w.superseded, ∀ k ∈ keys, w.hub.hostOfUid u ≠ some k) :
    { w with hub := w.hub.dropRecords keys }.Sound := by
  refine h.records rfl (fun k u hu => ?_) fun u hu k hk => ?_
  · rw [uidAt_dropRecords] at hu
    split at hu
    · cases hu
    · exact hu
  · rw [uidAt_dropRecords, if_neg fun hmem => hspares u hu k hmem hk]

theorem Watch.Sound.release (h : w.Sound) (host : JsString) :
    Watch.Sound { w with
      hub := w.hub.releaseHostIdentities host
      retired := w.retired.filter fun x => x.1 ≠ host } := by
  refine h.fades rfl (release_fades _ host) (fun k u e _ he => ?_) fun x hx => ?_
  · rw [identityOf_release he]
    rfl
  · obtain ⟨hx, hne⟩ := mem_filter.mp hx
    obtain ⟨e, he, ho, hu⟩ := h.retired x hx
    refine ⟨_, identityOf_release he host, ?_, hu⟩
    rw [ho, if_neg fun heq => by simp [some.inj heq] at hne]

theorem Watch.Sound.revoke (h : w.Sound) (hgone : w.hub.agents.get? host = none) :
    Watch.Sound { w with
      hub := (w.hub.revokeHostIdentities host).1
      retired := w.retired.filter fun x => w.hub.hostOfUid x.2 ≠ some host } := by
  refine h.fades rfl (revoke_fades _ host) (fun k u e hu he => ?_) fun x hx => ?_
  · rw [identityOf_revoke he]
    · rfl
    · rw [h.hub.bound k u e hu he]
      rintro rfl
      rw [State.uidAt, hgone] at hu
      cases hu
  · obtain ⟨hx, hne⟩ := mem_filter.mp hx
    obtain ⟨e, he, ho, hu⟩ := h.retired x hx
    refine ⟨e, identityOf_revoke he fun hhome => ?_, ho, hu⟩
    simp [hostOfUid_of_identityOf he, hhome] at hne

theorem Watch.Sound.step (h : w.Sound) (L : Limits) (e : Event) (hmeets : Meets H L w e) :
    (step H L w e).Sound := by
  obtain ⟨hfresh, hspares, hidle, hgone⟩ := hmeets
  cases e with
  | issue host fresh now => exact h.issue hfresh hidle
  | bind uid t => exact h.bind uid t
  | beat uid key now ledger updating =>
    rw [Registry.step]
    split
    · rename_i hok
      refine h.beat updating hok fun u hu k hk hat => hspares u hu k ?_
      rw [Event.takes, if_pos hok]
      refine mem_filter.mpr ⟨?_, by simp [hk, hat]⟩
      obtain ⟨a, ha, -⟩ := bind_eq_some_iff.mp hat
      exact OrdMap.mem_keys.mpr ⟨a, ha⟩
    · exact h
  | nameBeat key now updating =>
    exact h.records rfl (fun k u hu => (uidAt_nameBeat w.hub key now updating k).symm.trans hu)
      fun _ _ k _ => uidAt_nameBeat w.hub key now updating k
  | signal key lastSeen updating =>
    exact h.records rfl
      (fun k u hu => (uidAt_noteSignal w.hub key lastSeen updating k).symm.trans hu)
      fun _ _ k _ => uidAt_noteSignal w.hub key lastSeen updating k
  | prune now => exact h.drop _ hspares
  | makeRoom recordBytes now addBytes addSlots => exact h.drop _ hspares
  | remove key => exact h.drop _ hspares
  | release host => exact h.release host
  | revoke host => exact h.revoke hgone
  | trim keep => exact h.trim hidle

/-- The name is among those the identity at home there has gone by. -/
theorem mem_mine (H : Hub) (e : Identity) (hne : e.home ≠ []) :
    (e.mine H).contains (H.lower e.home) = true := by
  simp only [Identity.mine, contains_iff_mem, List.mem_map, mem_filter, mem_append]
  exact ⟨e.home, ⟨.inr (by simp), by simpa using hne⟩, rfl⟩

theorem refused_of_new_name {f : Identity} (h : s.Sound M) (hf : s.identityOf u = some f) (hat : s.uidAt k = some u) (hv : v ≠ u)
    (hlower : H.lower host = H.lower k)
    (hnew : ∀ e, s.identityOf v = some e → (e.mine H).contains (H.lower host) = false)
    (ledger : JsString → Bool) (now : ℤ) : uidHostRefusal H ledger now s v host ≠ none := by
  intro hnone
  obtain ⟨e, he, husable, -⟩ := authorized_cases hnone
  have hk : f.home = k := h.bound k u f hat hf
  have hhome : e.home ≠ host := by
    rintro rfl
    have hne : e.home ≠ [] := by
      intro hnil
      rw [hnil] at husable
      exact absurd husable (by simp [hostKeyUsable, isPlainHostKey])
    have hmine := mem_mine H e hne
    rw [hnew e he] at hmine
    cases hmine
  refine refused_of_home he hhome (fun hrec => ?_) (identityOf_eq_some.mp hf).1 (Ne.symm hv)
    (by rw [hk, hlower]) hnone
  exact hhome (h.bound host v e hrec he)

/-- A name whose identity has beaten refuses its name-derived token. -/
theorem refused_of_used (h : s.Sound M) (he : s.identityOf u = some e) (ho : e.origin = some host)
    (hused : e.used = true) : s.nameTokenRefusal host = some (.nameRetired host) := by
  have hget := (identityOf_eq_some.mp he).1
  have horigin : s.identityByOrigin host = some u := by
    cases hfound : s.identityByOrigin host with
    | none => exact absurd ho (identityByOrigin_eq_none hfound hget)
    | some v =>
      obtain ⟨f, hf, hfo⟩ := identityByOrigin_eq_some hfound
      rw [h.origins v u f e host hf hget hfo ho]
  rw [State.nameTokenRefusal, horigin, bind_some, State.identityEntry, hget, if_pos]
  exact hused

theorem Watch.Sound.holds (h : w.Sound) : Holds H w where
  tenant _ _ _ _ hok := tenant_of_authorized hok
  oneAgent k u hat v hv host hlower hname ledger now := by
    rcases hname with rfl | hnew
    · exact refused_of_bound hat hv
    · obtain ⟨f, hf⟩ := isSome_iff_exists.mp (h.held k u hat)
      exact refused_of_new_name h.hub hf hat hv hlower hnew ledger now
  retiredAgent u hu ledger now host := by
    cases he : w.hub.identityOf u with
    | none => exact refused_of_absent he
    | some e =>
      obtain ⟨hr, v, hat, hv⟩ := h.superseded u hu e he
      exact refused_of_superseded he hr hat hv
  retiredName x hx := by
    obtain ⟨e, he, ho, hused⟩ := h.retired x hx
    rw [refused_of_used h.hub he ho hused]
    simp

/-- As long as no step takes away the record at a superseded identity's home, trims an identity that
has beaten and holds its origin, or revokes a host whose record is still there, a host name has one
agent and a retired agent stays retired. -/
theorem retired_stays (H : Hub) (L : Limits) (es : List Event)
    (hes : Along (step H L) (Meets H L) Watch.start es) :
    Throughout (step H L) (Holds H) Watch.start es := by
  intro pre hpre
  obtain ⟨rest, rfl⟩ := hpre
  exact (run_inv (step H L) (fun _ e hw he => hw.step L e he) sound_start
    ((along_append (step H L)).mp hes).1).holds

/-! A host that was removed and reinstalled, with its old machine still about. -/

/-- `toLowerCase` on ASCII. -/
def lowerAscii (s : JsString) : JsString :=
  s.map fun c => match c with
    | .scalar c => .scalar c.toLower
    | .lone u => .lone u

def box : JsString := JsString.ofString "box"

def hub : Hub := { master := true, lower := lowerAscii }

def limits : Limits := { agentsMax := 64, agentsTotalMax := 33554432, agentEvictIdleMs := 3600000 }

def reinstalled : List Event :=
  [.issue box 1 1000, .beat 1 box 2000 (fun _ => false) none, .remove box, .release box,
    .issue box 2 3000, .beat 2 box 4000 (fun _ => false) none]

theorem retired_stays_reinstalled :
    Throughout (step hub limits) (Holds hub) Watch.start reinstalled :=
  retired_stays hub limits reinstalled (by decide)

def prunedLater : List Event := reinstalled ++ [.prune (5000 + PRUNE_AFTER_MS)]

/-- Once the new machine's record is pruned, the old one is let in again. -/
theorem retired_returns :
    Along (step hub limits) (fun w e => e.Fresh w) Watch.start prunedLater ∧
      ¬ Holds hub (run (step hub limits) Watch.start prunedLater) := by
  refine ⟨by decide, fun h => ?_⟩
  exact h.retiredAgent 1 (by decide) (fun _ => false) (6000 + PRUNE_AFTER_MS) box
    (by decide)

end Turma.Registry
