import Turma.Registry.Enroll
import Turma.Lib.Tally

/-! The records of enrollment codes: how many there are, and that a settled one stays settled. -/

namespace Turma.Registry

open Turma.Lib Turma.Tenancy List Option OrdMap

variable {D : Desk} {L : Limits} {s s' : Enrolling} {id : CodeId} {r : EnrollCode} {now : ℤ}

theorem state_eq_live :
    r.state now = .live ↔ r.usedAt = 0 ∧ r.revokedAt = 0 ∧ now < r.expiresAt := by
  rw [EnrollCode.state]
  by_cases h1 : r.usedAt = 0
  · by_cases h2 : r.revokedAt = 0
    · by_cases h3 : r.expiresAt ≤ now
      · simp [h1, h2, h3]
      · simp only [h1, h2, h3, ne_eq, not_true_eq_false, if_false, true_and, true_iff]
        omega
    · simp [h1, h2]
  · simp [h1]

/-- What a step that mints no code makes of the records: some may go, and none comes to life. -/
structure Ages (s s' : Enrolling) : Prop where
  issued : s'.issued = s.issued
  now : s.now ≤ s'.now
  back : ∀ id r', s'.enrollCodes.get? id = some r' → ∃ r, s.enrollCodes.get? id = some r ∧
    r'.hash = r.hash ∧ r'.tenantId = r.tenantId ∧ r'.expiresAt = r.expiresAt ∧
      (r'.state s'.now = .live → r.state s.now = .live)

theorem Ages.of_codes (hissued : s'.issued = s.issued) (hcodes : s'.enrollCodes = s.enrollCodes)
    (hnow : s.now ≤ s'.now) : Ages s s' := by
  refine ⟨hissued, hnow, fun id r hr => ⟨r, hcodes ▸ hr, rfl, rfl, rfl, fun hlive => ?_⟩⟩
  rw [state_eq_live] at hlive ⊢
  exact ⟨hlive.1, hlive.2.1, by omega⟩

theorem Ages.refl (s : Enrolling) : Ages s s := .of_codes rfl rfl (le_refl _)

theorem Ages.trans {s'' : Enrolling} (h : Ages s s') (h' : Ages s' s'') : Ages s s'' := by
  refine ⟨h'.issued.trans h.issued, h.now.trans h'.now, fun id r'' hr'' => ?_⟩
  obtain ⟨r', hr', hhash', htenant', hexpires', hlive'⟩ := h'.back id r'' hr''
  obtain ⟨r, hr, hhash, htenant, hexpires, hlive⟩ := h.back id r' hr'
  exact ⟨r, hr, hhash'.trans hhash, htenant'.trans htenant, hexpires'.trans hexpires,
    hlive ∘ hlive'⟩

theorem Ages.of_subset (hissued : s'.issued = s.issued) (hnow : s'.now = s.now)
    (hsub : ∀ id r, s'.enrollCodes.get? id = some r → s.enrollCodes.get? id = some r) :
    Ages s s' :=
  ⟨hissued, hnow.ge, fun id r hr => ⟨r, hsub id r hr, rfl, rfl, rfl, fun h => by rwa [hnow] at h⟩⟩

/-- One record is settled. -/
theorem Ages.of_settled (hissued : s'.issued = s.issued) (hnow : s'.now = s.now)
    {r' : EnrollCode} (hcodes : s'.enrollCodes = s.enrollCodes.upsert id fun _ => r')
    (hr : s.enrollCodes.get? id = some r) (hhash : r'.hash = r.hash)
    (htenant : r'.tenantId = r.tenantId) (hexpires : r'.expiresAt = r.expiresAt) (hdead : r'.state s.now ≠ .live) : Ages s s' := by
  refine ⟨hissued, hnow.ge, fun id' f hf => ?_⟩
  rw [hcodes, get?_upsert] at hf
  split at hf
  · rename_i hid
    cases hf
    refine ⟨r, hid ▸ hr, hhash, htenant, hexpires, fun hlive => ?_⟩
    rw [hnow] at hlive
    exact absurd hlive hdead
  · exact ⟨f, hf, rfl, rfl, rfl, fun h => by rwa [hnow] at h⟩

theorem Ages.live_le (h : Ages s s') (t : JsString) : s'.live t ≤ s.live t := by
  refine countP_le_of_back fun id r' hr' hcond => ?_
  obtain ⟨r, hr, -, htenant, -, hlive⟩ := h.back id r' hr'
  rw [Bool.and_eq_true, decide_eq_true_eq, decide_eq_true_eq] at hcond
  exact ⟨r, hr, by simp [← htenant, hcond.1, hlive hcond.2]⟩

theorem Ages.size_le (h : Ages s s') : s'.enrollCodes.size ≤ s.enrollCodes.size := by
  refine size_le_of_back fun id hid => ?_
  obtain ⟨r', hr'⟩ := ne_none_iff_exists'.mp hid
  obtain ⟨r, hr, -⟩ := h.back id r' hr'
  rw [hr]
  simp

structure Bounded (s : Enrolling) : Prop where
  live : ∀ t, s.live t ≤ ENROLL_CODES_LIVE_MAX
  size : s.enrollCodes.size ≤ ENROLL_CODES_MAX

/-- The records are those of codes that were minted, no two of which share a hash. -/
structure Recorded (s : Enrolling) : Prop where
  clock : 0 < s.now
  bounded : Bounded s
  minted : ∀ id r, s.enrollCodes.get? id = some r → (id, r.hash, r.tenantId) ∈ s.issued
  hashes : ∀ x ∈ s.issued, ∀ y ∈ s.issued, x.2.1 = y.2.1 → x = y
  tenants : ∀ x ∈ s.issued, x.2.2 = [] ∨ isTenantId x.2.2 = true

/-- A code that was minted and is good no more. -/
structure Spent (s : Enrolling) (hash : JsString) : Prop where
  minted : ∃ x ∈ s.issued, x.2.1 = hash
  settled : ∀ id r, s.enrollCodes.get? id = some r → r.hash = hash → r.state s.now ≠ .live

theorem Ages.recorded (h : Ages s s') (hs : Recorded s) : Recorded s' where
  clock := hs.clock.trans_le h.now
  bounded := ⟨fun t => (h.live_le t).trans (hs.bounded.live t), h.size_le.trans hs.bounded.size⟩
  minted id r' hr' := by
    obtain ⟨r, hr, hhash, htenant, -⟩ := h.back id r' hr'
    rw [h.issued, hhash, htenant]
    exact hs.minted id r hr
  hashes := by
    rw [h.issued]
    exact hs.hashes
  tenants := by
    rw [h.issued]
    exact hs.tenants

theorem Ages.spent (h : Ages s s') {hash : JsString} (hs : Spent s hash) : Spent s' hash where
  minted := by
    rw [h.issued]
    exact hs.minted
  settled id r' hr' hh hlive := by
    obtain ⟨r, hr, hhash, -, -, hback⟩ := h.back id r' hr'
    exact hs.settled id r hr (hhash.symm.trans hh) (hback hlive)

/-- A settled record settles its code, as no other record has its hash. -/
theorem Recorded.spent {i : CodeId} (h : Recorded s) (hr : s.enrollCodes.get? i = some r)
    (hdead : r.state s.now ≠ .live) : Spent s r.hash where
  minted := ⟨_, h.minted i r hr, rfl⟩
  settled id' r' hr' hhash := by
    have heq := h.hashes _ (h.minted id' r' hr') _ (h.minted i r hr) hhash
    have hid : id' = i := congrArg Prod.fst heq
    rw [hid, hr] at hr'
    rwa [← some.inj hr']

theorem get?_sweep (s : Enrolling) (id : CodeId) :
    s.sweepEnrollCodes.enrollCodes.get? id = s.enrollCodes.get? id ∨
      s.sweepEnrollCodes.enrollCodes.get? id = none := by
  rw [Enrolling.sweepEnrollCodes, get?_sift]
  cases s.enrollCodes.get? id with
  | none => exact .inl rfl
  | some r =>
    rw [bind_some]
    dsimp only
    split_ifs <;> simp

theorem ages_sweep (s : Enrolling) : Ages s s.sweepEnrollCodes := by
  refine .of_subset rfl rfl fun id r hr => ?_
  rcases get?_sweep s id with heq | hnone
  · exact heq ▸ hr
  · rw [hnone] at hr
    cases hr

theorem sweep_keeps (hr : s.enrollCodes.get? id = some r) (hlive : r.state s.now = .live) :
    s.sweepEnrollCodes.enrollCodes.get? id = some r := by
  rw [Enrolling.sweepEnrollCodes, get?_sift, hr, bind_some, if_pos hlive]

section

variable {κ : Type*}

theorem preferTenant_cases (pick : Option (JsString × List (κ × ℤ)))
    (v : JsString × List (κ × ℤ)) : preferTenant pick v = pick ∨ preferTenant pick v = some v := by
  obtain ⟨t, list⟩ := v
  rcases list with _ | ⟨x, list⟩
  · exact .inl rfl
  · rcases pick with _ | w
    · exact .inr rfl
    · simp only [preferTenant]
      split
      · exact .inr rfl
      · exact .inl rfl

/-- The tenant picked is one of those to choose among. -/
theorem picked_mem {victims : List (JsString × List (κ × ℤ))}
    {pick : Option (JsString × List (κ × ℤ))} {p : JsString × List (κ × ℤ)}
    (h : victims.foldl preferTenant pick = some p) : p ∈ victims ∨ pick = some p := by
  induction victims generalizing pick with
  | nil => exact .inr h
  | cons v rest ih =>
    rcases ih h with hmem | hpick
    · exact .inl (.tail _ hmem)
    · rcases preferTenant_cases pick v with heq | heq
      · exact .inr (heq ▸ hpick)
      · rw [heq] at hpick
        exact .inl (by simp [some.inj hpick])

theorem mem_of_evictByTenant {n : ℕ} {victims : List (JsString × List (κ × ℤ))} {k : κ}
    (h : k ∈ evictByTenant n victims) : ∃ v ∈ victims, k ∈ v.2.map (·.1) := by
  induction n generalizing victims with
  | zero => simp [evictByTenant] at h
  | succ n ih =>
    rw [evictByTenant] at h
    split at h
    · rename_i t k' age list hpick
      rcases mem_cons.mp h with rfl | hmem
      · rcases picked_mem hpick with hv | hnone
        · exact ⟨_, hv, by simp⟩
        · cases hnone
      · obtain ⟨v', hv', hk⟩ := ih hmem
        obtain ⟨v, hv, rfl⟩ := List.mem_map.mp hv'
        refine ⟨v, hv, ?_⟩
        split at hk
        · exact (tail_sublist _).map _ |>.mem hk
        · exact hk
    · simp at h

theorem mem_of_trimByTenant {records : List (κ × JsString × ℤ)} {max : ℕ} {k : κ}
    (h : k ∈ trimByTenant records max) : k ∈ records.map (·.1) := by
  obtain ⟨v, hv, hk⟩ := mem_of_evictByTenant h
  obtain ⟨g, hg, rfl⟩ := List.mem_map.mp hv
  obtain ⟨x, hx, rfl⟩ := List.mem_map.mp hk
  obtain ⟨y, hy, rfl⟩ := List.mem_map.mp ((perm_insertionSort _ _).mem_iff.mp hx)
  have hget := get?_eq_some.mpr (show (g.1, g.2) ∈ _ from hg)
  rw [get?_groupBy] at hget
  split at hget
  · cases hget
  · rw [← some.inj hget] at hy
    exact List.mem_map_of_mem (mem_filter.mp hy).1

end

theorem evicted_settled (h : id ∈ s.evictCodes) :
    ∃ r, s.enrollCodes.get? id = some r ∧ r.state s.now ≠ .live := by
  have hmem := mem_of_trimByTenant h
  rw [List.map_map] at hmem
  obtain ⟨x, hx, rfl⟩ := List.mem_map.mp hmem
  obtain ⟨hx, hdead⟩ := mem_filter.mp hx
  exact ⟨x.2, get?_eq_some.mpr hx, by simpa using hdead⟩

theorem ages_room (s : Enrolling) : Ages s s.makeCodeRoom := by
  rw [Enrolling.makeCodeRoom]
  split
  · refine .of_subset rfl rfl fun id r hr => ?_
    rw [get?_filterKeys] at hr
    split at hr
    · exact hr
    · cases hr
  · exact .refl s

theorem room_keeps (hr : s.enrollCodes.get? id = some r) (hlive : r.state s.now = .live) :
    s.makeCodeRoom.enrollCodes.get? id = some r := by
  rw [Enrolling.makeCodeRoom]
  split
  · rw [get?_filterKeys, if_pos]
    · exact hr
    · rw [Bool.not_eq_true', ← Bool.not_eq_true, contains_iff_mem]
      intro hmem
      obtain ⟨r', hr', hdead⟩ := evicted_settled hmem
      rw [hr] at hr'
      exact hdead (some.inj hr' ▸ hlive)
  · exact hr

end Turma.Registry

/-! The identity a redemption mints: fresh, at home under the device's key, and alone there. -/

namespace Turma.Registry

open Turma.Lib Turma.Tenancy OrdMap

variable {H : Hub} {L : Limits} {M : List Uid} {s s' : State} {w : Watch} {u v uid : Uid}
  {e e' : Identity} {device tenantId host key : JsString} {now : ℤ}

/-- An identity that lives at the key it was minted for lives there alone. -/
def Sole (s : State) (uid : Uid) (key : JsString) : Prop :=
  ∀ e, s.identityOf uid = some e → e.origin = some key → e.home = key →
    ∀ v f, s.identityOf v = some f → v ≠ uid → f.home ≠ key

theorem Sole.congr (h : Sole s uid key) (hids : s'.agentIdentities = s.agentIdentities) :
    Sole s' uid key := by
  intro e he ho hhome v f hf
  rw [identityOf_congr hids] at he hf
  exact h e he ho hhome v f hf

theorem Sole.fades (h : Sole s uid key)
    (hback : ∀ u e', s'.agentIdentities.get? u = some e' →
      ∃ e, s.agentIdentities.get? u = some e ∧ e.Fades e') : Sole s' uid key := by
  intro e' he' ho hhome v f' hf' hv
  obtain ⟨e, he, hefades⟩ := live_of_fades hback he'
  obtain ⟨f, hf, hffades⟩ := live_of_fades hback hf'
  rw [hffades.home (identityOf_eq_some.mp hf').2]
  exact h e he (hefades.origin key ho)
    ((hefades.home (identityOf_eq_some.mp he').2).symm.trans hhome) v f hf hv

/-- The key of an identity that lives there alone is nobody else's. -/
theorem Sole.refused (h : Sole s uid key) (hs : s.Sound M) (he : s.identityOf uid = some e)
    (ho : e.origin = some key) (hhome : e.home = key) (hv : v ≠ uid) (ledger : JsString → Bool)
    (now : ℤ) : uidHostRefusal H ledger now s v key ≠ none := by
  intro hnone
  obtain ⟨f, hf, -, -, -, hcases⟩ := authorized_cases hnone
  rcases hcases with hfhome | ⟨hne, -, hrec | ⟨-, hvacant, -⟩⟩
  · exact h e he ho hhome v f hf hv hfhome
  · exact hne (hs.bound key v f hrec hf)
  · exact hvacant uid e (identityOf_eq_some.mp he).1 (Ne.symm hv) (by rw [hhome])

theorem Sole.register (h : Sole s uid key) (hfresh : u ∉ M) (huid : uid ∈ M)
    (hfree : ∀ u e, s.agentIdentities.get? u = some e → e.origin ≠ some host) (now : ℤ) :
    Sole (s.register host u now) uid key := by
  intro e he ho hhome v f hf hv
  have hne : uid ≠ u := by
    rintro rfl
    exact hfresh huid
  rw [identityOf_register, if_neg hne] at he
  rw [identityOf_register] at hf
  split at hf
  · cases hf
    rintro rfl
    exact hfree uid e (identityOf_eq_some.mp he).1 ho
  · exact h e he ho hhome v f hf hv

theorem Sole.issue (h : Sole s uid key) (hs : s.Sound M) (hfresh : u ∉ M) (huid : uid ∈ M)
    (host : JsString) (now : ℤ) : Sole (s.issueAgentUid host u now).1 uid key := by
  rcases issueAgentUid_cases hs host u now with ⟨v, e, hissue, -⟩ |
    ⟨s', -, hback, -, ⟨v, hissue, -⟩ | ⟨hfree, -, hissue⟩⟩
  · rw [hissue]
    exact h.congr (stamp_identities s host v)
  · rw [hissue]
    exact (h.fades fun u e he => ⟨e, hback u e he, .refl e⟩).congr (stamp_identities s' host v)
  · rw [hissue]
    have hs' : Sole s' uid key := h.fades fun u e he => ⟨e, hback u e he, .refl e⟩
    exact ((hs'.register hfresh huid hfree now).fades (trim_fades _ u)).congr
      (stamp_identities _ host u)

theorem Sole.beat (h : Sole s uid key) (hs : s.Sound M) {ledger : JsString → Bool}
    (hok : uidHostRefusal H ledger now s u host = none) (updating : Option ℤ) :
    Sole (s.acceptBeat u host now updating) uid key := by
  obtain ⟨g, hg, -, -, -, hcases⟩ := authorized_cases hok
  obtain ⟨hhome', horigin', -⟩ := g.beaten_live host
  have hids := identityOf_acceptBeat hg host now updating
  intro e he ho hhome v f hf hv hfhome
  rw [hids] at he hf
  split at he
  · -- the identity itself beat as the key: it lived there, or nobody did
    rename_i huid
    subst huid
    cases he
    rw [if_neg hv] at hf
    have hhost : host = key := hhome'.symm.trans hhome
    subst hhost
    rcases hcases with hghome | ⟨hne, -, hrec | ⟨-, hvacant, -⟩⟩
    · exact h g hg (horigin'.symm.trans ho) hghome v f hf hv hfhome
    · exact hne (hs.bound host uid g hrec hg)
    · exact hvacant v f (identityOf_eq_some.mp hf).1 hv (by rw [hfhome])
  · split at hf
    · -- another beat as the key, which is this one's home
      rename_i hvu
      subst hvu
      cases hf
      have hhost : host = key := hhome'.symm.trans hfhome
      subst hhost
      exact h.refused hs he ho hhome hv ledger now hok
    · exact h e he ho hhome v f hf hv hfhome

theorem Sole.step (h : Sole w.hub uid key) (hs : w.hub.Sound w.minted) (huid : uid ∈ w.minted)
    (e : Event) (hfresh : e.Fresh w) : Sole (step H L w e).hub uid key := by
  cases e with
  | issue host fresh now => exact h.issue hs hfresh huid host now
  | bind u t => exact h.fades (bind_fades w.hub u t)
  | beat u host now ledger updating =>
    rw [Registry.step]
    split
    · rename_i hok
      exact h.beat hs hok updating
    · exact h
  | nameBeat | signal | prune | makeRoom | remove => exact h
  | release host => exact h.fades (release_fades w.hub host)
  | revoke host => exact h.fades (revoke_fades w.hub host)
  | trim keep => exact h.fades (trim_fades w.hub keep)

theorem superseded_fades (h : e.superseded? H key = some e') : e.Fades e' := by
  rw [Identity.superseded?] at h
  split at h
  · rw [← Option.some.inj h]
    exact .refl e
  · rename_i hlive
    split at h
    · cases h
    · split at h
      · split at h
        · rw [← Option.some.inj h]
          exact ⟨nofun, fun _ ho => ho, fun _ => rfl, id,
            nofun⟩
        · cases h
      · split at h
        · rename_i hreleased
          rw [← Option.some.inj h]
          refine ⟨fun _ => rfl, fun _ ho => absurd ho (by simp), id, id, fun _ => .inl⟩
        · rw [← Option.some.inj h]
          exact .refl e

/-- What `enrollNameRefusal` has checked of a name it lets through. -/
theorem enrollName_cases (h : enrollNameRefusal H s device tenantId = none) :
    device ≠ [] ∧ hasAgentToken H.master device = true ∧
      (∀ k ∈ s.agents.keys, H.lower k ≠ H.lower (tenantHostKey device tenantId)) ∧
      ∀ u e, s.agentIdentities.get? u = some e →
        e.nameRefusal H device (H.lower (tenantHostKey device tenantId)) = none := by
  rw [enrollNameRefusal] at h
  obtain ⟨-, h⟩ := passed h
  obtain ⟨hname, h⟩ := passed h
  simp only [not_or] at hname
  split at h
  · cases h
  · rename_i hnone
    refine ⟨hname.1, eq_true_of_ne_false hname.2.2.2.1, fun k hk hlower => ?_, fun u e he => ?_⟩
    · exact List.find?_eq_none.mp hnone k (mem_ownKeys.mpr hk) (by simpa using hlower)
    · exact List.findSome?_eq_none_iff.mp h e
        (List.mem_map.mpr ⟨(u, e), get?_eq_some.mp he, rfl⟩)

/-- An identity that answers to a name and lets it through is not revoked, and is released or has
never beaten. -/
theorem answers_cases {want : JsString} (h : e.nameRefusal H device want = none)
    (hanswers : e.answers H want = true) :
    e.revoked = false ∧ (e.released = true ∨ e.used = false) := by
  rw [Identity.nameRefusal, if_neg (by simp [hanswers])] at h
  obtain ⟨hrevoked, h⟩ := passed h
  refine ⟨eq_false_of_ne_true hrevoked, ?_⟩
  by_cases hreleased : e.released = true
  · exact .inl hreleased
  · rw [if_neg hreleased] at h
    obtain ⟨hused, -⟩ := passed h
    exact .inr (eq_false_of_ne_true hused)

theorem answers_of_mem {n : JsString} (H : Hub) (hn : n ≠ [])
    (h : n ∈ e.home :: e.origin.toList ++ e.names) : e.answers H (H.lower n) = true :=
  List.any_eq_true.mpr ⟨n, List.mem_filter.mpr ⟨h, by simpa using hn⟩, by simp⟩

theorem claims_of_mem {n : JsString} (H : Hub) (h : n ∈ e.home :: e.origin.toList) :
    e.claims H (H.lower n) = true :=
  List.any_eq_true.mpr ⟨n, h, by simp⟩

/-- A redemption leaves nobody minted for its key, and nobody living there. -/
theorem superseded_clear (hkey : key ≠ []) (hname : e.nameRefusal H device (H.lower key) = none)
    (h : e.superseded? H key = some e') :
    e'.origin ≠ some key ∧ (e'.revoked = false → e'.home ≠ key) := by
  have horigin : e.origin = some key → e.revoked = false ∧ (e.released = true ∨ e.used = false) ∧
      e.claims H (H.lower key) = true := by
    intro ho
    obtain ⟨hlive, hcases⟩ := answers_cases hname (answers_of_mem H hkey (by simp [ho]))
    exact ⟨hlive, hcases, claims_of_mem H (by simp [ho])⟩
  have hhome : e.home = key → e.revoked = false ∧ (e.released = true ∨ e.used = false) ∧
      e.claims H (H.lower key) = true := by
    rintro rfl
    obtain ⟨hlive, hcases⟩ := answers_cases hname (answers_of_mem H hkey (by simp))
    exact ⟨hlive, hcases, claims_of_mem H (by simp)⟩
  rw [Identity.superseded?] at h
  split at h
  · rename_i hrevoked
    cases h
    refine ⟨fun ho => ?_, fun hlive => ?_⟩
    · rw [(horigin ho).1] at hrevoked
      cases hrevoked
    · rw [hlive] at hrevoked
      cases hrevoked
  · split at h
    · cases h
    rename_i hunused
    split at h
    · split at h
      · rename_i o ho
        obtain ⟨ho, hcond⟩ := Option.filter_eq_some_iff.mp ho
        cases h
        refine ⟨fun heq => ?_, nofun⟩
        obtain rfl := Option.some.inj (ho.symm.trans heq)
        simp at hcond
      · cases h
    rename_i hthere
    -- an identity that claims the key has been released, and not at the key
    have hclaims : (e.released = true ∨ e.used = false) ∧ e.claims H (H.lower key) = true →
        e.released = true ∧ H.lower e.home ≠ H.lower key := by
      rintro ⟨hcases, hclaims⟩
      have hreleased : e.released = true := by
        rcases hcases with hr | hu
        · exact hr
        · exact absurd (by simp [hu, hclaims]) hunused
      exact ⟨hreleased, fun hlower => hthere (by simp [hreleased, hlower])⟩
    split at h
    · cases h
      exact ⟨by simp, fun _ heq => (hclaims (hhome heq).2).2 (by rw [heq])⟩
    · rename_i hnot
      cases h
      refine ⟨fun ho => hnot ?_, fun _ heq => (hclaims (hhome heq).2).2 (by rw [heq])⟩
      simp [(hclaims (horigin ho).2).1, ho]

theorem tenantHostKey_ne_nil (h : device ≠ []) (tenantId : JsString) :
    tenantHostKey device tenantId ≠ [] := by
  rw [tenantHostKey]
  split
  · exact h
  · simp

theorem supersede_back (s : State) (key : JsString) (u : Uid) (e' : Identity)
    (h : (s.supersede H key).agentIdentities.get? u = some e') :
    ∃ e, s.agentIdentities.get? u = some e ∧ e.superseded? H key = some e' := by
  rw [State.supersede, get?_sift] at h
  exact Option.bind_eq_some_iff.mp h

theorem supersede_fades (s : State) (key : JsString) (u : Uid) (e' : Identity)
    (h : (s.supersede H key).agentIdentities.get? u = some e') :
    ∃ e, s.agentIdentities.get? u = some e ∧ e.Fades e' := by
  obtain ⟨e, he, hsuperseded⟩ := supersede_back s key u e' h
  exact ⟨e, he, superseded_fades hsuperseded⟩

/-- Once a name may be enrolled and its redemption has superseded what it supersedes, no identity was
minted for the key and none lives there. -/
theorem supersede_clear (hname : enrollNameRefusal H s device tenantId = none)
    (h : (s.supersede H (tenantHostKey device tenantId)).agentIdentities.get? u = some e') :
    e'.origin ≠ some (tenantHostKey device tenantId) ∧
      (e'.revoked = false → e'.home ≠ tenantHostKey device tenantId) := by
  obtain ⟨hdevice, -, -, hnames⟩ := enrollName_cases hname
  obtain ⟨e, he, hsuperseded⟩ := supersede_back s _ u e' h
  exact superseded_clear (tenantHostKey_ne_nil hdevice tenantId) (hnames u e he) hsuperseded

/-- No record has the key of a name that may be enrolled. -/
theorem unrecorded (hname : enrollNameRefusal H s device tenantId = none) :
    s.agents.get? (tenantHostKey device tenantId) = none := by
  obtain ⟨-, -, hkeys, -⟩ := enrollName_cases hname
  exact get?_eq_none.mpr fun hmem => hkeys _ hmem rfl

/-- A name that may be enrolled is given a fresh identity, which lives alone at its key. -/
theorem issue_enrolled (hs : s.Sound M) (hname : enrollNameRefusal H s device tenantId = none)
    (hfresh : u ∉ M) (now : ℤ) :
    let key := tenantHostKey device tenantId
    let issued := (s.supersede H key).issueAgentUid key u now
    issued.2 = u ∧ issued.1.Sound (u :: M) ∧ Sole issued.1 u key ∧
      issued.1.identityOf u = some { origin := some key, home := key, mintedAt := now
                                     tenantId := tenantOfHostKey key } := by
  have hclear : ∀ v f, (s.supersede H (tenantHostKey device tenantId)).agentIdentities.get? v = some f →
      f.origin ≠ some (tenantHostKey device tenantId) ∧
        (f.revoked = false → f.home ≠ tenantHostKey device tenantId) :=
    fun _ _ hf => supersede_clear hname hf
  have hnorec := unrecorded hname
  dsimp only
  generalize tenantHostKey device tenantId = key at *
  have hs' : (s.supersede H key).Sound M := hs.fades rfl (supersede_fades s key)
  have hsound := hs'.issue key now hfresh
  rcases issueAgentUid_cases hs' key u now with ⟨v, f, -, hf, ho⟩ |
    ⟨t, hagents, hback, -, ⟨v, -, hat, -⟩ | ⟨hfree, -, hissue⟩⟩
  · exact absurd ho (hclear v f (identityOf_eq_some.mp hf).1).1
  · rw [State.uidAt, hagents] at hat
    rw [show (s.supersede H key).agents = s.agents from rfl, hnorec] at hat
    cases hat
  · rw [hissue] at hsound ⊢
    have hreg := identityOf_register t key u now
    refine ⟨rfl, hsound, fun e he ho hhome v f hf hv => ?_, ?_⟩
    · rw [identityOf_congr (stamp_identities _ key u)] at hf
      obtain ⟨f₀, hf₀, hfades⟩ := live_of_fades (trim_fades _ u) hf
      rw [hreg, if_neg hv] at hf₀
      obtain ⟨hget, hlive⟩ := identityOf_eq_some.mp hf₀
      rw [hfades.home (identityOf_eq_some.mp hf).2]
      exact (hclear v f₀ (hback v f₀ hget)).2 hlive
    · rw [identityOf_congr (stamp_identities _ key u)]
      refine identityOf_trim ((hreg u).trans (if_pos rfl)) fun hmem => ?_
      exact (mem_overflow hmem).1 rfl

end Turma.Registry
