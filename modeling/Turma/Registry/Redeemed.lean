import Turma.Registry.Retired
import Turma.Registry.Codes

/-! An enrollment code is one identity, and never somebody else's. -/

namespace Turma.Registry

open Turma.Lib Turma.Tenancy List OrdMap JsString

variable {D : Desk} {L : Limits} {s s' : Enrolling} {id : CodeId} {r : EnrollCode} {g : Granted}
  {e : EnrollEvent} {uid : Uid} {key : JsString}

def EnrollEvent.Fresh (D : Desk) (s : Enrolling) : EnrollEvent → Prop
  | .registry e => e.Fresh s.watch
  | .mint _ _ code id => ∀ x ∈ s.issued, x.1 ≠ id ∧ x.2.1 ≠ D.hash code
  | .redeem _ _ fresh | .resume _ fresh => fresh ∉ s.watch.minted
  | .tick _ | .accounts _ | .revokeCode _ => True

/-- A hub that opens at `now` with no host and no code. -/
def Enrolling.start (now : ℤ) (mayAdd : JsString → Bool) : Enrolling :=
  { watch := Watch.start, enrollCodes := OrdMap.empty, now := now, mayAdd := mayAdd }

theorem slice_self {t : JsString} {n : ℕ} (h : 2 * t.length ≤ n) : t.slice n = t := by
  induction t generalizing n with
  | nil => cases n <;> rfl
  | cons c t ih =>
    rw [length_cons] at h
    have hunits : c.units.length ≤ 2 := by
      rcases c with c | u
      · rw [CodePoint.units]
        split <;> simp
      · simp [CodePoint.units]
    rw [JsString.slice, if_pos (by omega), ih (by omega)]

theorem slice_tenant {t : JsString} (h : t = [] ∨ isTenantId t = true) : t.slice 200 = t := by
  refine slice_self ?_
  rcases h with rfl | h
  · simp
  · simp only [isTenantId, Bool.and_eq_true, decide_eq_true_eq] at h
    omega

/-- A mint lets records age, and adds its own where there is room in its tenant and in the store. -/
theorem mint_cases (D : Desk) (s : Enrolling) (owner : Owner) (device code : JsString) (id : CodeId) :
    ∃ s', Ages s s' ∧ s'.watch = s.watch ∧
      (∀ id r, s.enrollCodes.get? id = some r → r.state s.now = .live →
        s'.enrollCodes.get? id = some r) ∧
      ((s.mintEnrollCode D owner device code id).1 = s' ∨
        s'.live owner.tenantId < ENROLL_CODES_LIVE_MAX ∧ s'.enrollCodes.size < ENROLL_CODES_MAX ∧
          ∃ record : EnrollCode, record.hash = D.hash code ∧ record.tenantId = owner.tenantId ∧
            record.expiresAt = s.now + D.ttlMs ∧ (s.mintEnrollCode D owner device code id).1 = { s' with
              enrollCodes := s'.enrollCodes.upsert id fun _ => record
              issued := (id, D.hash code, owner.tenantId) :: s'.issued }) := by
  have hself : Ages s s ∧ s.watch = s.watch ∧
      ∀ id r, s.enrollCodes.get? id = some r → r.state s.now = .live →
        s.enrollCodes.get? id = some r := ⟨.refl s, rfl, fun _ _ hr _ => hr⟩
  rw [Enrolling.mintEnrollCode]
  by_cases hmaster : D.master = false
  · rw [if_pos hmaster]
    exact ⟨s, hself.1, hself.2.1, hself.2.2, .inl rfl⟩
  rw [if_neg hmaster]
  split
  · exact ⟨s, hself.1, hself.2.1, hself.2.2, .inl rfl⟩
  by_cases hlive : s.sweepEnrollCodes.live owner.tenantId ≥ ENROLL_CODES_LIVE_MAX
  · rw [if_pos hlive]
    exact ⟨s.sweepEnrollCodes, ages_sweep s, rfl, fun _ _ hr hl => sweep_keeps hr hl, .inl rfl⟩
  rw [if_neg hlive]
  have hages : Ages s s.sweepEnrollCodes.makeCodeRoom := (ages_sweep s).trans (ages_room _)
  have hwatch : s.sweepEnrollCodes.makeCodeRoom.watch = s.watch := by
    rw [Enrolling.makeCodeRoom]
    split <;> rfl
  have hnow : s.sweepEnrollCodes.makeCodeRoom.now = s.now := by
    rw [Enrolling.makeCodeRoom]
    split <;> rfl
  have hkeeps : ∀ id r, s.enrollCodes.get? id = some r → r.state s.now = .live →
      s.sweepEnrollCodes.makeCodeRoom.enrollCodes.get? id = some r :=
    fun _ _ hr hl => room_keeps (sweep_keeps hr hl) hl
  refine ⟨s.sweepEnrollCodes.makeCodeRoom, hages, hwatch, hkeeps, ?_⟩
  by_cases hsize : s.sweepEnrollCodes.makeCodeRoom.enrollCodes.size ≥ ENROLL_CODES_MAX
  · rw [if_pos hsize]
    exact .inl rfl
  · rw [if_neg hsize]
    refine .inr ⟨?_, by omega, _, rfl, slice_tenant owner.tenant, by rw [hnow], rfl⟩
    have hle := (ages_room s.sweepEnrollCodes).live_le owner.tenantId
    omega

theorem mint_recorded (hs : Recorded s) (owner : Owner) (device : JsString) {code : JsString}
    (hfresh : EnrollEvent.Fresh D s (.mint owner device code id)) :
    Recorded (s.mintEnrollCode D owner device code id).1 := by
  obtain ⟨s', hages, -, -, hcases⟩ := mint_cases D s owner device code id
  have hs' := hages.recorded hs
  rcases hcases with heq | ⟨hlive, hsize, record, hhash, htenant, -, heq⟩
  · rwa [heq]
  rw [heq]
  have hnew : ∀ x ∈ s'.issued, x.1 ≠ id ∧ x.2.1 ≠ D.hash code := by
    rw [hages.issued]
    exact hfresh
  have habsent : s'.enrollCodes.get? id = none := by
    cases hget : s'.enrollCodes.get? id with
    | none => rfl
    | some r => exact absurd rfl (hnew _ (hs'.minted id r hget)).1
  have hvalues := values_upsert_of_absent habsent fun _ => record
  refine ⟨hs'.clock, ⟨fun t => ?_, ?_⟩, fun id' r hr => ?_, fun x hx y hy hxy => ?_, fun x hx => ?_⟩
  · have hbound := hs'.bounded.live t
    simp only [Enrolling.live] at hbound hlive ⊢
    rw [hvalues, countP_append]
    by_cases ht : owner.tenantId = t
    · subst ht
      have hone := countP_le_length (l := [record])
        (p := fun r => decide (r.tenantId = owner.tenantId) && decide (r.state s'.now = .live))
      rw [length_singleton] at hone
      omega
    · rw [show List.countP _ [record] = 0 from by simp [htenant, ht]]
      exact hbound
  · rw [size_eq_countP] at hsize ⊢
    rw [hvalues, countP_append]
    have hone := countP_le_length (l := [record]) (p := fun _ => true)
    rw [length_singleton] at hone
    omega
  · rw [get?_upsert] at hr
    split at hr
    · rename_i hid
      rw [← Option.some.inj hr, hid, hhash, htenant]
      exact mem_cons_self
    · exact .tail _ (hs'.minted id' r hr)
  · rcases mem_cons.mp hx with rfl | hx
    · rcases mem_cons.mp hy with rfl | hy
      · rfl
      · exact absurd hxy.symm (hnew y hy).2
    · rcases mem_cons.mp hy with rfl | hy
      · exact absurd hxy (hnew x hx).2
      · exact hs'.hashes x hx y hy hxy
  · rcases mem_cons.mp hx with rfl | hx
    · exact owner.tenant
    · exact hs'.tenants x hx

theorem mint_spent {hash : JsString} (hs : Spent s hash) (owner : Owner) (device : JsString)
    {code : JsString} (hfresh : EnrollEvent.Fresh D s (.mint owner device code id)) :
    Spent (s.mintEnrollCode D owner device code id).1 hash := by
  obtain ⟨s', hages, -, -, hcases⟩ := mint_cases D s owner device code id
  have hs' := hages.spent hs
  rcases hcases with heq | ⟨-, -, record, hhash, -, -, heq⟩
  · rwa [heq]
  rw [heq]
  obtain ⟨x, hx, hxhash⟩ := hs.minted
  obtain ⟨x', hx', hx'hash⟩ := hs'.minted
  refine ⟨⟨x', .tail _ hx', hx'hash⟩, fun id' r hr hh => ?_⟩
  rw [get?_upsert] at hr
  split at hr
  · rw [← Option.some.inj hr, hhash] at hh
    exact absurd (hxhash.trans hh.symm) (hfresh x hx).2
  · exact hs'.settled id' r hr hh

/-- A mint takes away no live code, whoever's it is. -/
theorem mint_keeps (hs : Recorded s) (owner : Owner) (device : JsString) {code : JsString}
    (hfresh : EnrollEvent.Fresh D s (.mint owner device code id)) {id' : CodeId}
    (hr : s.enrollCodes.get? id' = some r) (hlive : r.state s.now = .live) :
    (s.mintEnrollCode D owner device code id).1.enrollCodes.get? id' = some r := by
  obtain ⟨s', -, -, hkeeps, hcases⟩ := mint_cases D s owner device code id
  rcases hcases with heq | ⟨-, -, record, -, -, -, heq⟩
  · rw [heq]
    exact hkeeps id' r hr hlive
  · rw [heq, get?_upsert, if_neg]
    · exact hkeeps id' r hr hlive
    · rintro rfl
      exact (hfresh _ (hs.minted id' r hr)).1 rfl

/-- The checks before a redemption touch the count of failed attempts alone, and let a live code
through for a name that may be enrolled. -/
theorem examine_cases (D : Desk) (s : Enrolling) (code device : JsString) :
    (∃ fails refusal, s.examine D code device = ({ s with enrollFails := fails }, .error refusal)) ∨
    ∃ p, s.examine D code device = (s, .ok p) ∧ s.enrollCodes.get? p.id = some p.record ∧
      p.record.hash = D.hash (D.lower code.trim) ∧ p.record.state s.now = .live ∧
      (p.record.device = [] ∨ device = p.record.device) ∧ p.tenantId = codeTenant p.record ∧
      p.key = tenantHostKey device p.tenantId ∧
      enrollNameRefusal D.toHub s.watch.hub device p.tenantId = none := by
  rw [Enrolling.examine]
  dsimp only
  split
  · exact .inl ⟨s.enrollFails, _, rfl⟩
  split
  · exact .inl ⟨_, _, rfl⟩
  rename_i id r hfind
  have hget := get?_eq_some.mpr (mem_of_find?_eq_some hfind)
  have hhash := find?_some hfind
  split
  · exact .inl ⟨s.enrollFails, _, rfl⟩
  · exact .inl ⟨s.enrollFails, _, rfl⟩
  · exact .inl ⟨s.enrollFails, _, rfl⟩
  rename_i hlive
  split
  · exact .inl ⟨s.enrollFails, _, rfl⟩
  rename_i hdevice
  split
  · exact .inl ⟨s.enrollFails, _, rfl⟩
  split
  · exact .inl ⟨s.enrollFails, _, rfl⟩
  rename_i hname
  split
  · exact .inl ⟨s.enrollFails, _, rfl⟩
  · refine .inr ⟨_, rfl, hget, by simpa using hhash, hlive, ?_, rfl, rfl, hname⟩
    by_cases hd : r.device = []
    · exact .inl hd
    · exact .inr (by simpa [hd] using hdevice)

/-- A redemption fails, and leaves a sound hub, or is granted to a fresh identity. -/
theorem consume_cases (hs : s.watch.hub.Sound s.watch.minted) (D : Desk) (code device : JsString)
    {fresh : Uid} (hfresh : fresh ∉ s.watch.minted) :
    (∃ fails, (s.consumeEnrollCode D code device fresh).1 = { s with enrollFails := fails } ∧
      granted (s.consumeEnrollCode D code device fresh).2 = none) ∨
    ∃ p hub, (s.examine D code device) = (s, .ok p) ∧
      hub = ((s.watch.hub.supersede D.toHub p.key).issueAgentUid p.key fresh s.now).1 ∧
      ((s.consumeEnrollCode D code device fresh).1 = { s with
          watch := { s.watch with hub := hub, minted := fresh :: s.watch.minted } } ∧
        granted (s.consumeEnrollCode D code device fresh).2 = none ∨
      (s.consumeEnrollCode D code device fresh).1 = { s with
          watch := { s.watch with hub := hub, minted := fresh :: s.watch.minted }
          enrollCodes := s.enrollCodes.upsert p.id fun _ =>
            { p.record with usedAt := s.now, usedBy := device } } ∧
        hub.tenantOfUid fresh = p.tenantId ∧
        granted (s.consumeEnrollCode D code device fresh).2 = some
          { id := p.id, hash := p.record.hash, tenantId := p.tenantId, device := device
            key := p.key, uid := fresh }) := by
  rw [Enrolling.consumeEnrollCode]
  rcases examine_cases D s code device with ⟨fails, refusal, hexamine⟩ |
    ⟨p, hexamine, -, -, -, -, -, hkey, hname⟩
  · rw [hexamine]
    exact .inl ⟨fails, rfl, rfl⟩
  · have hissued := issue_enrolled hs hname hfresh s.now
    dsimp only at hissued
    rw [← hkey] at hissued
    rw [hexamine]
    dsimp only
    refine .inr ⟨p, _, rfl, rfl, ?_⟩
    generalize (s.watch.hub.supersede D.toHub p.key).issueAgentUid p.key fresh s.now = issued at *
    obtain ⟨hub, uid⟩ := issued
    obtain ⟨rfl, -⟩ := hissued
    split
    · rename_i hcond
      rw [Bool.and_eq_true, decide_eq_true_eq] at hcond
      exact .inr ⟨rfl, hcond.2, rfl⟩
    · exact .inl ⟨rfl, rfl⟩

structure Enrolling.Sound (s : Enrolling) : Prop where
  hub : s.watch.hub.Sound s.watch.minted
  codes : Recorded s

structure Keeps (s s' : Enrolling) : Prop where
  spent : ∀ hash, Spent s hash → Spent s' hash
  minted : ∀ u ∈ s.watch.minted, u ∈ s'.watch.minted
  sole : ∀ u key, u ∈ s.watch.minted → Sole s.watch.hub u key → Sole s'.watch.hub u key

theorem Keeps.refl (s : Enrolling) : Keeps s s :=
  ⟨fun _ h => h, fun _ h => h, fun _ _ _ h => h⟩

theorem Keeps.trans {s'' : Enrolling} (h : Keeps s s') (h' : Keeps s' s'') : Keeps s s'' :=
  ⟨fun hash hs => h'.spent hash (h.spent hash hs), fun u hu => h'.minted u (h.minted u hu),
    fun u key hu hs => h'.sole u key (h.minted u hu) (h.sole u key hu hs)⟩

theorem Keeps.of_ages (h : Ages s s') (hwatch : s'.watch = s.watch) : Keeps s s' := by
  refine ⟨fun _ hs => h.spent hs, fun u hu => ?_, fun u key _ hs => ?_⟩
  · rwa [hwatch]
  · rwa [hwatch]

theorem Enrolling.Sound.of_ages (hs : s.Sound) (h : Ages s s') (hwatch : s'.watch = s.watch) :
    s'.Sound := by
  refine ⟨?_, h.recorded hs.codes⟩
  rw [hwatch]
  exact hs.hub

/-- What a granted redemption hands out: a live code's single use, for a fresh identity. -/
structure Grants (s : Enrolling) (g : Granted) (s' : Enrolling) : Prop where
  code : ∃ r, s.enrollCodes.get? g.id = some r ∧ r.hash = g.hash ∧ r.tenantId = g.tenantId ∧
    (r.device = [] ∨ g.device = r.device) ∧ r.state s.now = .live
  fresh : g.uid ∉ s.watch.minted
  minted : g.uid ∈ s'.watch.minted
  key : g.key = tenantHostKey g.device g.tenantId
  identity : s'.watch.hub.identityOf g.uid = some
    { origin := some g.key, home := g.key, mintedAt := s.now, tenantId := g.tenantId }
  sole : Sole s'.watch.hub g.uid g.key
  spent : Spent s' g.hash

theorem Recorded.codeTenant_eq (h : Recorded s) (hr : s.enrollCodes.get? id = some r) :
    codeTenant r = r.tenantId := by
  rw [codeTenant]
  split
  · rfl
  · rename_i hnot
    rcases h.tenants _ (h.minted id r hr) with hnil | hvalid
    · exact hnil.symm
    · exact absurd hvalid hnot

theorem consume_sound (hs : s.Sound) (D : Desk) (code device : JsString) {fresh : Uid}
    (hfresh : fresh ∉ s.watch.minted) :
    (s.consumeEnrollCode D code device fresh).1.Sound ∧
      Ages s (s.consumeEnrollCode D code device fresh).1 ∧
      Keeps s (s.consumeEnrollCode D code device fresh).1 ∧
      ∀ g, granted (s.consumeEnrollCode D code device fresh).2 = some g →
        Grants s g (s.consumeEnrollCode D code device fresh).1 := by
  rcases consume_cases hs.hub D code device hfresh with ⟨fails, heq, hnone⟩ |
    ⟨p, hub, hexamine, hhub, hcases⟩
  · have hages : Ages s { s with enrollFails := fails } := .of_codes rfl rfl (le_refl _)
    rw [heq, hnone]
    exact ⟨hs.of_ages hages rfl, hages, .of_ages hages rfl, fun g hg => absurd hg (by simp)⟩
  rcases examine_cases D s code device with ⟨_, _, hother⟩ |
    ⟨p', hexamine', hget, -, hlive, hdevice, htenant, hkey, hname⟩
  · rw [hexamine] at hother
    exact absurd (congrArg Prod.snd hother) (by simp)
  obtain rfl : p = p' := by simpa [hexamine] using hexamine'
  have hissued := issue_enrolled hs.hub hname hfresh s.now
  dsimp only at hissued
  rw [← hkey, ← hhub] at hissued
  obtain ⟨-, hsound, hsole, hidentity⟩ := hissued
  have hkeepsSole : ∀ u key, u ∈ s.watch.minted → Sole s.watch.hub u key → Sole hub u key := by
    intro u key hu h
    rw [hhub]
    exact (h.fades (supersede_fades s.watch.hub p.key)).issue
      (hs.hub.fades rfl (supersede_fades s.watch.hub p.key)) hfresh hu p.key s.now
  rcases hcases with ⟨heq, hnone⟩ | ⟨heq, htenantOf, hgrant⟩
  · have hages : Ages s { s with
        watch := { s.watch with hub := hub, minted := fresh :: s.watch.minted } } :=
      .of_codes rfl rfl (le_refl _)
    rw [heq, hnone]
    exact ⟨⟨hsound, hages.recorded hs.codes⟩, hages,
      ⟨fun _ => hages.spent, fun u hu => .tail _ hu, hkeepsSole⟩,
      fun g hg => absurd hg (by simp)⟩
  · have hdead : EnrollCode.state s.now { p.record with usedAt := s.now, usedBy := device } ≠ .live := by
      intro hstate
      have hclock := hs.codes.clock
      have hzero : s.now = 0 := (state_eq_live.mp hstate).1
      omega
    have hages : Ages s { s with
        watch := { s.watch with hub := hub, minted := fresh :: s.watch.minted }
        enrollCodes := s.enrollCodes.upsert p.id fun _ =>
          { p.record with usedAt := s.now, usedBy := device } } :=
      .of_settled rfl rfl rfl hget rfl rfl rfl hdead
    have hrecorded := hages.recorded hs.codes
    rw [heq, hgrant]
    refine ⟨⟨hsound, hrecorded⟩, hages,
      ⟨fun _ => hages.spent, fun u hu => .tail _ hu, hkeepsSole⟩, fun g hg => ?_⟩
    cases hg
    have htenant' : p.record.tenantId = p.tenantId := by
      rw [htenant]
      exact (hs.codes.codeTenant_eq hget).symm
    have hof : tenantOfHostKey p.key = p.tenantId := by
      rw [State.tenantOfUid, State.identityEntry, (identityOf_eq_some.mp hidentity).1] at htenantOf
      exact htenantOf
    refine ⟨⟨p.record, hget, rfl, htenant', hdevice, hlive⟩, hfresh, mem_cons_self, hkey,
      hof ▸ hidentity, hsole, ?_⟩
    exact hrecorded.spent (i := p.id) (r := { p.record with usedAt := s.now, usedBy := device })
      (by rw [get?_upsert, if_pos rfl]) hdead

theorem revoke_ages (hs : Recorded s) (id : CodeId) : Ages s (s.revokeEnrollCode id).1 := by
  rw [Enrolling.revokeEnrollCode]
  split
  · exact .refl s
  · rename_i r hr
    split
    · exact .refl s
    · refine .of_settled rfl rfl rfl hr rfl rfl rfl fun hstate => ?_
      have hclock := hs.clock
      have hzero : s.now = 0 := (state_eq_live.mp hstate).2.1
      omega

/-- A revoked record stays, and is live no more. -/
theorem revoke_settles (hs : Recorded s) (hr : s.enrollCodes.get? id = some r)
    (hlive : r.state s.now = .live) :
    ∃ r', (s.revokeEnrollCode id).1.enrollCodes.get? id = some r' ∧ r'.hash = r.hash ∧
      r'.state (s.revokeEnrollCode id).1.now ≠ .live := by
  have heq : (s.revokeEnrollCode id).1 =
      { s with enrollCodes := s.enrollCodes.upsert id fun _ => { r with revokedAt := s.now } } := by
    rw [Enrolling.revokeEnrollCode, hr]
    dsimp only
    rw [if_neg (by simp [hlive])]
  rw [heq]
  refine ⟨{ r with revokedAt := s.now }, by rw [get?_upsert, if_pos rfl], rfl, fun hstate => ?_⟩
  exact ne_of_gt hs.clock (state_eq_live.mp hstate).2.1

/-- Every step keeps the hub sound, and what it grants is a fresh identity for a live code. -/
theorem serve_sound (hs : s.Sound) (D : Desk) (L : Limits) (e : EnrollEvent) (hfresh : e.Fresh D s) :
    (serve D L s e).1.Sound ∧ Keeps s (serve D L s e).1 ∧
      ∀ g, (serve D L s e).2 = some g → Grants s g (serve D L s e).1 := by
  have hquiet : ∀ {s' : Enrolling}, Ages s s' → s'.watch = s.watch →
      s'.Sound ∧ Keeps s s' ∧ ∀ g, (none : Option Granted) = some g → Grants s g s' :=
    fun hages hwatch => ⟨hs.of_ages hages hwatch, .of_ages hages hwatch, fun g hg => absurd hg (by simp)⟩
  cases e with
  | registry e =>
    have hages : Ages s { s with watch := step D.toHub L s.watch e } := .of_codes rfl rfl (le_refl _)
    refine ⟨⟨sound_step D.toHub L hs.hub e hfresh, hages.recorded hs.codes⟩,
      ⟨fun _ => hages.spent, fun u hu => ?_, fun u key hu h => h.step hs.hub hu e hfresh⟩,
      fun g hg => absurd hg (by simp [serve])⟩
    exact minted_step D.toHub L s.watch e u hu
  | tick ms => exact hquiet (.of_codes rfl rfl (show s.now ≤ s.now + ms by omega)) rfl
  | accounts mayAdd => exact hquiet (.of_codes rfl rfl (le_refl _)) rfl
  | mint owner device code id =>
    have hwatch : (s.mintEnrollCode D owner device code id).1.watch = s.watch := by
      obtain ⟨s', -, hwatch, -, heq | ⟨-, -, record, -, -, -, heq⟩⟩ := mint_cases D s owner device code id
      · rw [heq, hwatch]
      · rw [heq]
        exact hwatch
    refine ⟨⟨?_, mint_recorded hs.codes owner device hfresh⟩,
      ⟨fun _ h => mint_spent h owner device hfresh, fun u hu => ?_, fun u key _ h => ?_⟩,
      fun g hg => absurd hg (by simp [serve])⟩
    · simp only [serve, hwatch]
      exact hs.hub
    · simpa only [serve, hwatch] using hu
    · simpa only [serve, hwatch] using h
  | revokeCode id =>
    have hwatch : (s.revokeEnrollCode id).1.watch = s.watch := by
      rw [Enrolling.revokeEnrollCode]
      split
      · rfl
      · split <;> rfl
    exact hquiet (revoke_ages hs.codes id) hwatch
  | redeem code device fresh =>
    simp only [serve]
    rcases examine_cases D s code device with ⟨fails, refusal, hexamine⟩ | ⟨p, hexamine, -⟩
    · rw [hexamine]
      exact hquiet (.of_codes rfl rfl (le_refl _)) rfl
    · rw [hexamine]
      dsimp only
      split
      · exact hquiet (.of_codes rfl rfl (le_refl _)) rfl
      · exact (consume_sound hs D code device hfresh).imp_right And.right
  | resume i fresh =>
    simp only [serve]
    cases s.waiting[i]? with
    | none => exact hquiet (.refl s) rfl
    | some x =>
      have hages : Ages s { s with waiting := s.waiting.eraseIdx i } := .of_codes rfl rfl (le_refl _)
      have hs' := hs.of_ages hages rfl
      obtain ⟨hsound, -, hkeeps, hgrants⟩ := consume_sound hs' D x.1 x.2 hfresh
      refine ⟨hsound, (Keeps.of_ages hages rfl).trans hkeeps, fun g hg => ?_⟩
      obtain ⟨hcode, hfresh', hminted, hkey, hidentity, hsole, hspent⟩ := hgrants g hg
      exact ⟨hcode, hfresh', hminted, hkey, hidentity, hsole, hspent⟩

/-- A record after a step was there before it, with the same life, or the step mints it. -/
theorem serve_records (hs : s.Sound) (e : EnrollEvent) (hfresh : e.Fresh D s)
    (hr : (serve D L s e).1.enrollCodes.get? id = some r) :
    (∃ r', s.enrollCodes.get? id = some r' ∧ r.hash = r'.hash ∧ r.expiresAt = r'.expiresAt) ∨
      ∃ owner device code, e = .mint owner device code id ∧ r.hash = D.hash code ∧
        r.expiresAt = s.now + D.ttlMs := by
  have hback : ∀ {s'}, Ages s s' → s'.enrollCodes.get? id = some r →
      ∃ r', s.enrollCodes.get? id = some r' ∧ r.hash = r'.hash ∧ r.expiresAt = r'.expiresAt := by
    intro s' hages hr
    obtain ⟨r', hr', hhash, -, hexpires, -⟩ := hages.back id r hr
    exact ⟨r', hr', hhash, hexpires⟩
  cases e with
  | registry e | tick ms | accounts mayAdd => exact .inl ⟨r, hr, rfl, rfl⟩
  | mint owner device code id' =>
    obtain ⟨s', hages, -, -, heq | ⟨-, -, record, hhash, -, hexpires, heq⟩⟩ :=
      mint_cases D s owner device code id'
    · rw [serve, heq] at hr
      exact .inl (hback hages hr)
    · rw [serve, heq, get?_upsert] at hr
      split at hr
      · rename_i hid
        rw [← Option.some.inj hr, hid]
        exact .inr ⟨owner, device, code, rfl, hhash, hexpires⟩
      · exact .inl (hback hages hr)
  | revokeCode id' => exact .inl (hback (revoke_ages hs.codes id') hr)
  | redeem code device fresh =>
    simp only [serve] at hr
    rcases examine_cases D s code device with ⟨fails, refusal, hexamine⟩ | ⟨p, hexamine, -⟩
    · rw [hexamine] at hr
      exact .inl ⟨r, hr, rfl, rfl⟩
    · rw [hexamine] at hr
      dsimp only at hr
      split at hr
      · exact .inl ⟨r, hr, rfl, rfl⟩
      · exact .inl (hback (consume_sound hs D code device hfresh).2.1 hr)
  | resume i fresh =>
    simp only [serve] at hr
    cases hwaiting : s.waiting[i]? with
    | none =>
      rw [hwaiting] at hr
      exact .inl ⟨r, hr, rfl, rfl⟩
    | some x =>
      rw [hwaiting] at hr
      have hages : Ages s { s with waiting := s.waiting.eraseIdx i } := .of_codes rfl rfl (le_refl _)
      have hconsume := consume_sound (hs.of_ages hages rfl) D x.1 x.2 hfresh
      exact .inl (hback (hages.trans hconsume.2.1) hr)

theorem runs_sound (hs : s.Sound) {es : List EnrollEvent}
    (hes : Along (enrollStep D L) (fun s e => e.Fresh D s) s es) :
    (run (enrollStep D L) s es).Sound ∧ Keeps s (run (enrollStep D L) s es) := by
  induction es generalizing s with
  | nil => exact ⟨hs, .refl s⟩
  | cons e es ih =>
    obtain ⟨hsound, hkeeps, -⟩ := serve_sound hs D L e hes.1
    obtain ⟨hend, hrest⟩ := ih hsound hes.2
    exact ⟨hend, hkeeps.trans hrest⟩

/-- The records of a run that began without any are those that its mints made. -/
theorem minted_of_record (hs : s.Sound) (hnone : ∀ id, s.enrollCodes.get? id = none)
    {es : List EnrollEvent} (hes : Along (enrollStep D L) (fun s e => e.Fresh D s) s es)
    (hr : (run (enrollStep D L) s es).enrollCodes.get? id = some r) :
    ∃ p owner device code, p ++ [.mint owner device code id] <+: es ∧ r.hash = D.hash code ∧
      r.expiresAt = (run (enrollStep D L) s p).now + D.ttlMs := by
  induction es using List.reverseRecOn generalizing r with
  | nil => simp [hnone] at hr
  | append_singleton es e ih =>
    obtain ⟨hbefore, hfresh, -⟩ := (along_append (enrollStep D L)).mp hes
    rw [run_append] at hr
    rcases serve_records (runs_sound hs hbefore).1 e hfresh hr with
      ⟨r', hr', hhash, hexpires⟩ | ⟨owner, device, code, rfl, hhash, hexpires⟩
    · obtain ⟨p, owner, device, code, hp, hhash', hexpires'⟩ := ih hbefore hr'
      exact ⟨p, owner, device, code, hp.trans (prefix_append _ _), hhash.trans hhash',
        hexpires.trans hexpires'⟩
    · exact ⟨es, owner, device, code, prefix_rfl, hhash, hexpires⟩

/-- What a redemption promises, after the run `pre` and at the step `e` that grants it: its code was
live in every state before and is used this once, its identity is one that never was, and that lives
under the device's key in the tenant of the code's owner. -/
structure Redeems (D : Desk) (L : Limits) (s : Enrolling) (pre : List EnrollEvent) (e : EnrollEvent)
    (g : Granted) : Prop where
  once : ∀ p, p <+: pre → ∀ id r, (run (enrollStep D L) s p).enrollCodes.get? id = some r →
    r.hash = g.hash → r.state (run (enrollStep D L) s p).now = .live
  unrevoked : ∀ p id r, p ++ [.revokeCode id] <+: pre →
    (run (enrollStep D L) s p).enrollCodes.get? id = some r → r.hash ≠ g.hash
  timely : ∃ p owner device code, p ++ [.mint owner device code g.id] <+: pre ∧
    D.hash code = g.hash ∧ (run (enrollStep D L) s pre).now < (run (enrollStep D L) s p).now + D.ttlMs
  alone : ∀ p e', p ++ [e'] <+: pre → ∀ g', (serve D L (run (enrollStep D L) s p) e').2 = some g' →
    g'.hash ≠ g.hash ∧ g'.uid ≠ g.uid
  unborn : ∀ p, p <+: pre →
    (run (enrollStep D L) s p).watch.hub.agentIdentities.get? g.uid = none
  code : ∃ r, (run (enrollStep D L) s pre).enrollCodes.get? g.id = some r ∧ r.hash = g.hash ∧
    (r.device = [] ∨ g.device = r.device)
  owner : (g.id, g.hash, g.tenantId) ∈ (run (enrollStep D L) s pre).issued
  key : g.key = tenantHostKey g.device g.tenantId
  identity : ∃ i, (run (enrollStep D L) s (pre ++ [e])).watch.hub.identityOf g.uid = some i ∧
    i.used = false ∧ i.home = g.key ∧ i.tenantId = g.tenantId

theorem redeems {pre : List EnrollEvent} (hs : s.Sound)
    (hnone : ∀ id, s.enrollCodes.get? id = none)
    (hes : Along (enrollStep D L) (fun s e => e.Fresh D s) s (pre ++ [e]))
    (hg : (serve D L (run (enrollStep D L) s pre) e).2 = some g) : Redeems D L s pre e g := by
  obtain ⟨hpre, hfresh, -⟩ := (along_append (enrollStep D L)).mp hes
  obtain ⟨hsound, -⟩ := runs_sound hs hpre
  obtain ⟨-, -, hgrants⟩ := serve_sound hsound D L e hfresh
  have hgrant := hgrants g hg
  -- what a prefix of the run has kept is kept at its end
  have hkept : ∀ p, p <+: pre → (run (enrollStep D L) s p).Sound ∧
      Keeps (run (enrollStep D L) s p) (run (enrollStep D L) s pre) := by
    rintro p ⟨q, rfl⟩
    obtain ⟨hp, hq⟩ := (along_append (enrollStep D L)).mp hpre
    have hsp := (runs_sound hs hp).1
    rw [run_append]
    exact ⟨hsp, (runs_sound hsp hq).2⟩
  have hnotSpent : ¬ Spent (run (enrollStep D L) s pre) g.hash := fun hspent => by
    obtain ⟨r, hr, hhash, -, -, hlive⟩ := hgrant.code
    exact hspent.settled g.id r hr hhash hlive
  obtain ⟨r, hr, hhash, htenant, hdevice, hlive⟩ := hgrant.code
  have honce : ∀ p, p <+: pre → ∀ id r, (run (enrollStep D L) s p).enrollCodes.get? id = some r →
      r.hash = g.hash → r.state (run (enrollStep D L) s p).now = .live := by
    intro p hp id r hr hhash
    by_contra hdead
    obtain ⟨hsp, hkeeps⟩ := hkept p hp
    exact hnotSpent (hkeeps.spent _ (hhash ▸ hsp.codes.spent hr hdead))
  refine ⟨honce, fun p id r hp hr hhash => ?_, ?_, fun p e' hp g' hg' => ?_, fun p hp => ?_,
    ⟨r, hr, hhash, hdevice⟩, ?_, hgrant.key, _, by rw [run_append]; exact hgrant.identity, rfl, rfl, rfl⟩
  · have hbefore := (prefix_append p [.revokeCode id]).trans hp
    obtain ⟨r', hr', hhash', hdead⟩ :=
      revoke_settles (hkept p hbefore).1.codes hr (honce p hbefore id r hr hhash)
    have hafter := honce _ hp id r'
    rw [run_append] at hafter
    exact hdead (hafter hr' (hhash'.trans hhash))
  · obtain ⟨p, owner, device, code, hp, hcode, hexpires⟩ := minted_of_record hs hnone hpre hr
    exact ⟨p, owner, device, code, hp, hcode.symm.trans hhash,
      hexpires ▸ (state_eq_live.mp hlive).2.2⟩
  · obtain ⟨q, rfl⟩ := hp
    obtain ⟨hp, hq⟩ := (along_append (enrollStep D L)).mp hpre
    obtain ⟨hp, hfresh', -⟩ := (along_append (enrollStep D L)).mp hp
    have hsp := (runs_sound hs hp).1
    have hgrant' := (serve_sound hsp D L e' hfresh').2.2 g' hg'
    have hkeeps := (hkept (p ++ [e']) (prefix_append _ _)).2
    rw [show run (enrollStep D L) s (p ++ [e']) = (serve D L (run (enrollStep D L) s p) e').1 by
      rw [run_append]; rfl] at hkeeps
    constructor
    · intro heq
      exact hnotSpent (heq ▸ hkeeps.spent _ hgrant'.spent)
    · intro heq
      exact hgrant.fresh (heq ▸ hkeeps.minted _ hgrant'.minted)
  · cases hget : (run (enrollStep D L) s p).watch.hub.agentIdentities.get? g.uid with
    | none => rfl
    | some i =>
      obtain ⟨hsp, hkeeps⟩ := hkept p hp
      exact absurd (hkeeps.minted _ (hsp.hub.minted _ i hget)) hgrant.fresh
  · rw [← hhash, ← htenant]
    exact hsound.codes.minted g.id r hr

theorem start_sound {now : ℤ} (hnow : 0 < now) (mayAdd : JsString → Bool) :
    (Enrolling.start now mayAdd).Sound where
  hub := sound_empty []
  codes := {
    clock := hnow
    bounded := ⟨fun _ => Nat.zero_le _, Nat.zero_le _⟩
    minted := fun _ _ h => absurd h (by simp [Enrolling.start])
    hashes := fun _ h => absurd h (by simp [Enrolling.start])
    tenants := fun _ h => absurd h (by simp [Enrolling.start]) }

/-- The codes stay within their bounds, no mint takes a live one away, every redemption is the one use
of a live code for a fresh identity in its owner's tenant, and for as long as that identity lives
under the key it was minted for no other is authorized there. -/
theorem code_is_one_identity (D : Desk) (L : Limits) {now : ℤ} (hnow : 0 < now)
    (mayAdd : JsString → Bool) (es : List EnrollEvent)
    (hes : Along (enrollStep D L) (fun s e => e.Fresh D s) (Enrolling.start now mayAdd) es) :
    Throughout (enrollStep D L) Bounded (Enrolling.start now mayAdd) es ∧
      ∀ pre e post, es = pre ++ e :: post →
        (∀ owner device code id, e = .mint owner device code id → ∀ id' r,
          (run (enrollStep D L) (Enrolling.start now mayAdd) pre).enrollCodes.get? id' = some r →
          r.state (run (enrollStep D L) (Enrolling.start now mayAdd) pre).now = .live →
          (run (enrollStep D L) (Enrolling.start now mayAdd) (pre ++ [e])).enrollCodes.get? id' =
            some r) ∧
        ∀ g, (serve D L (run (enrollStep D L) (Enrolling.start now mayAdd) pre) e).2 = some g →
          Redeems D L (Enrolling.start now mayAdd) pre e g ∧
            ∀ i, (run (enrollStep D L) (Enrolling.start now mayAdd) es).watch.hub.identityOf g.uid =
              some i → i.origin = some g.key → i.home = g.key → ∀ v, v ≠ g.uid → ∀ ledger now',
                uidHostRefusal D.toHub ledger now'
                  (run (enrollStep D L) (Enrolling.start now mayAdd) es).watch.hub v g.key ≠ none := by
  have hstart := start_sound hnow mayAdd
  have hnone : ∀ id, (Enrolling.start now mayAdd).enrollCodes.get? id = none := fun _ => rfl
  generalize Enrolling.start now mayAdd = s at *
  refine ⟨?_, ?_⟩
  · rintro pre ⟨rest, rfl⟩
    exact (runs_sound hstart ((along_append (enrollStep D L)).mp hes).1).1.codes.bounded
  rintro pre e post rfl
  have hsplit : pre ++ e :: post = (pre ++ [e]) ++ post := by simp
  rw [hsplit] at hes
  obtain ⟨hhead, hpost⟩ := (along_append (enrollStep D L)).mp hes
  obtain ⟨hpre, hfresh, -⟩ := (along_append (enrollStep D L)).mp hhead
  have hsound := (runs_sound hstart hpre).1
  refine ⟨?_, fun g hg => ⟨redeems hstart hnone hhead hg, fun i hi ho hhome v hv ledger now' => ?_⟩⟩
  · rintro owner device code id rfl id' r hr hlive
    rw [run_append]
    exact mint_keeps hsound.codes owner device hfresh hr hlive
  · have hgrant := (serve_sound hsound D L e hfresh).2.2 g hg
    have hnext := runs_sound hstart hhead
    obtain ⟨hend, hkeeps⟩ := runs_sound hnext.1 hpost
    have hstep : run (enrollStep D L) s (pre ++ [e]) =
        (serve D L (run (enrollStep D L) s pre) e).1 := by
      rw [run_append]
      rfl
    rw [hsplit, run_append] at hi ⊢
    rw [hstep] at hkeeps
    have hsole := hkeeps.sole g.uid g.key hgrant.minted hgrant.sole
    rw [← hstep] at hsole
    exact hsole.refused hend.hub hi ho hhome hv ledger now'

instance (D : Desk) (s : Enrolling) : ∀ e : EnrollEvent, Decidable (e.Fresh D s)
  | .registry e => inferInstanceAs (Decidable (e.Fresh s.watch))
  | .mint _ _ code id =>
    List.decidableBAll (fun x : CodeId × JsString × JsString => x.1 ≠ id ∧ x.2.1 ≠ D.hash code) s.issued
  | .redeem _ _ fresh | .resume _ fresh => inferInstanceAs (Decidable (fresh ∉ s.watch.minted))
  | .tick _ | .accounts _ | .revokeCode _ => isTrue trivial

def operator : Owner := { owner := ofString "breakglass", tenantId := [], tenant := .inl rfl }

def boxCode : JsString := ofString "te-0123456789abcdef0123456789abcdef"

def boxHash : JsString :=
  ofString "4b2f691efed537fb29d66280b1dea829bd714884b55301dc080aa3eec88ff6b8"

def desk : Desk :=
  { hub with ttlMs := 900000, graceMs := 120000, hash := fun s => if s = boxCode then boxHash else s }

def boxEnrolling : List EnrollEvent :=
  [.mint operator box boxCode 7, .tick 1000, .redeem boxCode box 1, .tick 1000]

def otherCode : JsString := ofString "te-fedcba9876543210fedcba9876543210"

/-- Two codes for one name: the second is redeemed once the host that used the first is removed. -/
def boxReplaced : List EnrollEvent :=
  [.mint operator box boxCode 7, .mint operator box otherCode 8, .tick 1000, .redeem boxCode box 1,
    .resume 0 1, .registry (.beat 1 box 2000 (fun _ => false) none), .registry (.remove box),
    .registry (.release box), .tick 1000, .redeem otherCode box 2]

theorem code_is_one_identity_box :
    Redeems desk limits (Enrolling.start 1000 fun _ => true) boxReplaced (.resume 0 2)
        { id := 8, hash := otherCode, tenantId := [], device := box, key := box, uid := 2 } ∧
      uidHostRefusal desk.toHub (fun _ => false) 4000
        (run (enrollStep desk limits) (Enrolling.start 1000 fun _ => true)
          (boxReplaced ++ [.resume 0 2])).watch.hub 1 box ≠ none := by
  obtain ⟨-, h⟩ := code_is_one_identity desk limits (show (0 : ℤ) < 1000 by decide) (fun _ => true)
    (boxReplaced ++ [.resume 0 2]) (by decide)
  obtain ⟨-, hgranted⟩ := h boxReplaced (.resume 0 2) [] rfl
  obtain ⟨hredeems, hsole⟩ := hgranted
    { id := 8, hash := otherCode, tenantId := [], device := box, key := box, uid := 2 } (by decide)
  exact ⟨hredeems, hsole _ rfl rfl rfl 1 (by decide) _ _⟩

end Turma.Registry
