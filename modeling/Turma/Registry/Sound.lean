import Turma.Registry.Life

/-! What an authorized identity has to show, and what is enough to refuse one. -/

namespace Turma.Registry

open Turma.Lib Turma.Tenancy

variable {H : Hub} {ledger : JsString → Bool} {now : ℤ} {s : State} {u v : Uid}
  {e : Identity} {host k : JsString}

theorem identityOf_eq_some :
    s.identityOf u = some e ↔ s.agentIdentities.get? u = some e ∧ e.revoked = false := by
  simp [State.identityOf, State.identityEntry]

theorem hostOfUid_eq_some :
    s.hostOfUid u = some k ↔ ∃ e, s.identityOf u = some e ∧ e.home = k := by
  simp [State.hostOfUid]

theorem hostOfUid_of_identityOf (h : s.identityOf u = some e) : s.hostOfUid u = some e.home :=
  hostOfUid_eq_some.mpr ⟨e, h, rfl⟩

/-- An identity that may rename itself to `host`, where no record is: nobody else calls it home. -/
def Vacant (H : Hub) (s : State) (u : Uid) (host : JsString) : Prop :=
  ∀ v e, s.agentIdentities.get? v = some e → v ≠ u → H.lower e.home ≠ H.lower host

theorem passed {α : Type*} {c : Prop} [Decidable c] {r : α} {x : Option α}
    (h : (if c then some r else x) = none) : ¬ c ∧ x = none := by
  by_cases hc : c
  · rw [if_pos hc] at h
    cases h
  · rw [if_neg hc] at h
    exact ⟨hc, h⟩

/-- What `uidHostRefusal` has checked of an identity it authorizes. -/
theorem authorized_cases (h : uidHostRefusal H ledger now s u host = none) :
    ∃ e, s.identityOf u = some e ∧ hostKeyUsable H.master host = true ∧
      tenantOfHostKey host = s.tenantOfUid u ∧
      (∀ v, s.uidAt host = some v → v = u) ∧
      (e.home = host ∨ e.home ≠ host ∧ e.released = false ∧
        (s.uidAt host = some u ∨
          s.agents.get? host = none ∧ Vacant H s u host ∧
            ((e.mine H).contains (H.lower host) = true ∨
              tenantOfHostKey e.home = [] ∧ tenantHostKey e.home (s.tenantOfUid u) = host ∨
              ∀ k ∈ s.agents.keys, H.lower k ≠ H.lower host))) := by
  unfold uidHostRefusal at h
  generalize he : s.identityOf u = entry at h
  rcases entry with _ | e
  · cases h
  obtain ⟨husable, h⟩ := passed h
  obtain ⟨htenant, h⟩ := passed h
  obtain ⟨hbound, h⟩ := passed h
  refine ⟨e, rfl, eq_true_of_ne_false husable, Decidable.not_not.mp htenant, fun v hv => ?_, ?_⟩
  · by_contra hne
    exact hbound (by rw [hv]; simpa using hne)
  by_cases hhome : e.home = host
  · exact .inl hhome
  rw [if_neg hhome] at h
  obtain ⟨hunbound, h⟩ := passed h
  obtain ⟨hreleased, h⟩ := passed h
  refine .inr ⟨hhome, eq_false_of_ne_true hreleased, ?_⟩
  cases hrec : s.agents.get? host with
  | some a =>
    left
    -- the record is bound, and not to another
    cases hu : s.uidAt host with
    | none =>
      have hnone : a.agentUid = none := by simpa [State.uidAt, hrec] using hu
      simp [hrec, hnone] at hunbound
    | some v => simpa [hu] using hbound
  | none =>
    rw [hrec, if_neg (by simp)] at h
    obtain ⟨hothers, h⟩ := passed h
    refine .inr ⟨rfl, fun v f hf hv hlower => hothers ?_, ?_⟩
    · exact List.any_eq_true.mpr ⟨(v, f), OrdMap.get?_eq_some.mp hf, by simp [hv, hlower]⟩
    by_cases hbind : tenantOfHostKey e.home = [] ∧ tenantHostKey e.home (s.tenantOfUid u) = host
    · exact .inr (.inl hbind)
    rw [if_neg hbind] at h
    obtain ⟨hcase, -⟩ := passed h
    cases hmine : (e.mine H).contains (H.lower host) with
    | true => exact .inl rfl
    | false =>
      refine .inr (.inr fun k hk hlower => hcase ?_)
      rw [hmine, Bool.not_false, Bool.true_and]
      exact List.any_eq_true.mpr ⟨k, hk, by simpa using hlower⟩

theorem refused_of_absent (h : s.identityOf u = none) :
    uidHostRefusal H ledger now s u host ≠ none := by
  intro hnone
  obtain ⟨e, he, -⟩ := authorized_cases hnone
  rw [h] at he
  cases he

theorem tenant_of_authorized (h : uidHostRefusal H ledger now s u host = none) :
    tenantOfHostKey host = s.tenantOfUid u := by
  obtain ⟨_, -, -, htenant, -⟩ := authorized_cases h
  exact htenant

/-- A record bound to another identity keeps the name. -/
theorem refused_of_bound (h : s.uidAt host = some v) (hv : u ≠ v) :
    uidHostRefusal H ledger now s u host ≠ none := by
  intro hnone
  obtain ⟨_, -, -, -, hbound, -⟩ := authorized_cases hnone
  exact hv (hbound v h).symm

/-- A released identity goes nowhere while another's record is at its home. -/
theorem refused_of_superseded (he : s.identityOf u = some e) (hr : e.released = true)
    (h : s.uidAt e.home = some v) (hv : u ≠ v) :
    uidHostRefusal H ledger now s u host ≠ none := by
  intro hnone
  obtain ⟨e', he', -, -, hbound, hcases⟩ := authorized_cases hnone
  obtain rfl := Option.some.inj (he'.symm.trans he)
  rcases hcases with rfl | ⟨-, hreleased, -⟩
  · exact hv (hbound v h).symm
  · rw [hr] at hreleased
    cases hreleased

/-- An identity that is not the one at `host`'s home is authorized nowhere it is called home in
any letter case, unless it lives there itself or left a record there. -/
theorem refused_of_home (he : s.identityOf u = some e) (hhome : e.home ≠ host)
    (hrec : s.uidAt host ≠ some u) {f : Identity}
    (hf : s.agentIdentities.get? v = some f) (hv : v ≠ u) (hlower : H.lower f.home = H.lower host) :
    uidHostRefusal H ledger now s u host ≠ none := by
  intro hnone
  obtain ⟨e', he', -, -, -, hcases⟩ := authorized_cases hnone
  obtain rfl := Option.some.inj (he'.symm.trans he)
  rcases hcases with h | ⟨-, -, h | ⟨-, hvacant, -⟩⟩
  · exact hhome h
  · exact hrec h
  · exact hvacant v f hf hv hlower

end Turma.Registry

namespace Turma.Registry

open Turma.Lib Turma.Tenancy

/-- With `M` the ids minted so far: a record is bound to an identity that lives there, if to any, no
two identities were minted for one name, and a released one was minted for another name than its
home. -/
structure State.Sound (M : List Uid) (s : State) : Prop where
  minted : ∀ u e, s.agentIdentities.get? u = some e → u ∈ M
  named : ∀ k u, s.uidAt k = some u → u ∈ M
  bound : ∀ k u e, s.uidAt k = some u → s.identityOf u = some e → e.home = k
  origins : ∀ u v e f o, s.agentIdentities.get? u = some e → s.agentIdentities.get? v = some f →
    e.origin = some o → f.origin = some o → u = v
  away : ∀ u e, s.identityOf u = some e → e.released = true → e.origin ≠ some e.home

variable {M : List Uid} {s s' : State} {u v uid : Uid} {e : Identity} {host k : JsString} {now : ℤ}

theorem sound_empty (M : List Uid) : State.Sound M ⟨OrdMap.empty, OrdMap.empty⟩ where
  minted _ _ h := absurd h (by simp)
  named _ _ h := absurd h (by simp [State.uidAt])
  bound _ _ _ h := absurd h (by simp [State.uidAt])
  origins _ _ _ _ _ h := absurd h (by simp)
  away _ _ h := absurd h (by simp [State.identityOf, State.identityEntry])

theorem identityOf_congr (h : s'.agentIdentities = s.agentIdentities) (u : Uid) :
    s'.identityOf u = s.identityOf u := by
  rw [State.identityOf, State.identityEntry, h]
  rfl

theorem uidAt_congr (h : s'.agents = s.agents) (k : JsString) : s'.uidAt k = s.uidAt k := by
  rw [State.uidAt, h]
  rfl

theorem State.Sound.mono {M' : List Uid} (h : s.Sound M) (hM : ∀ u ∈ M, u ∈ M') : s.Sound M' :=
  { h with
    minted := fun u e he => hM u (h.minted u e he)
    named := fun k u hu => hM u (h.named k u hu) }

/-- A step that touches no identity and gives no record another binding. -/
theorem State.Sound.records (h : s.Sound M) (hids : s'.agentIdentities = s.agentIdentities)
    (hback : ∀ k u, s'.uidAt k = some u → s.uidAt k = some u) : s'.Sound M := by
  refine ⟨fun u e he => ?_, fun k u hu => h.named k u (hback k u hu), fun k u e hu he => ?_,
    fun u v e f o he hf => ?_, fun u e he => ?_⟩
  · rw [hids] at he
    exact h.minted u e he
  · rw [identityOf_congr hids] at he
    exact h.bound k u e (hback k u hu) he
  · rw [hids] at he hf
    exact h.origins u v e f o he hf
  · rw [identityOf_congr hids] at he
    exact h.away u e he

/-- What a step that is not its own beat makes of an identity. -/
structure Identity.Fades (e e' : Identity) : Prop where
  home : e'.revoked = false → e'.home = e.home
  origin : ∀ o, e'.origin = some o → e.origin = some o
  revoked : e.revoked = true → e'.revoked = true
  released : e.released = true → e'.released = true
  away : e'.revoked = false → e'.released = true → e.released = true ∨ e'.origin ≠ some e'.home

theorem Identity.Fades.refl (e : Identity) : e.Fades e :=
  ⟨fun _ => rfl, fun _ h => h, id, id, fun _ => .inl⟩

/-- An identity that is live after the step was live before it. -/
theorem live_of_fades {e' : Identity}
    (hback : ∀ u e', s'.agentIdentities.get? u = some e' →
      ∃ e, s.agentIdentities.get? u = some e ∧ e.Fades e')
    (h : s'.identityOf u = some e') : ∃ e, s.identityOf u = some e ∧ e.Fades e' := by
  obtain ⟨he', hlive⟩ := identityOf_eq_some.mp h
  obtain ⟨e, he, hfades⟩ := hback u e' he'
  refine ⟨e, identityOf_eq_some.mpr ⟨he, eq_false_of_ne_true fun hrev => ?_⟩, hfades⟩
  rw [hfades.revoked hrev] at hlive
  cases hlive

/-- A step that touches no record, and of the identities only lets some fade and others go. -/
theorem State.Sound.fades (h : s.Sound M) (hagents : s'.agents = s.agents)
    (hback : ∀ u e', s'.agentIdentities.get? u = some e' →
      ∃ e, s.agentIdentities.get? u = some e ∧ e.Fades e') : s'.Sound M := by
  refine ⟨fun u e' he' => ?_, fun k u hu => ?_, fun k u e' hu he' => ?_,
    fun u v e f o he hf heo hfo => ?_, fun u e' he' hr => ?_⟩
  · obtain ⟨e, he, -⟩ := hback u e' he'
    exact h.minted u e he
  · rw [uidAt_congr hagents] at hu
    exact h.named k u hu
  · rw [uidAt_congr hagents] at hu
    obtain ⟨e, he, hfades⟩ := live_of_fades hback he'
    exact (hfades.home (identityOf_eq_some.mp he').2).trans (h.bound k u e hu he)
  · obtain ⟨e₀, he₀, hefades⟩ := hback u e he
    obtain ⟨f₀, hf₀, hffades⟩ := hback v f hf
    exact h.origins u v e₀ f₀ o he₀ hf₀ (hefades.origin o heo) (hffades.origin o hfo)
  · obtain ⟨e, he, hfades⟩ := live_of_fades hback he'
    have hlive := (identityOf_eq_some.mp he').2
    rcases hfades.away hlive hr with hold | hne
    · intro ho
      rw [hfades.home hlive] at ho
      exact h.away u e he hold (hfades.origin _ ho)
    · exact hne

theorem get?_upsert_const {κ α : Type*} [DecidableEq κ] (m : OrdMap κ α) (k k' : κ) (x : α) :
    (m.upsert k fun _ => x).get? k' = if k' = k then some x else m.get? k' :=
  OrdMap.get?_upsert m k _ k'

theorem identityOf_upsert {f : Identity} (hf : f.revoked = false)
    (hs : s'.agentIdentities = s.agentIdentities.upsert uid fun _ => f) (u : Uid) :
    s'.identityOf u = if u = uid then some f else s.identityOf u := by
  simp only [State.identityOf, State.identityEntry, hs, get?_upsert_const]
  split
  · simp [hf]
  · rfl

theorem identityOf_register (s : State) (host : JsString) (uid : Uid) (now : ℤ) (u : Uid) :
    (s.register host uid now).identityOf u =
      if u = uid then some { origin := some host, home := host, mintedAt := now
                             tenantId := tenantOfHostKey host }
      else s.identityOf u :=
  identityOf_upsert rfl rfl u

/-- The registry with a fresh identity for a name that no other was minted for. -/
theorem State.Sound.register (h : s.Sound M) (now : ℤ) (hfresh : uid ∉ M)
    (hfree : ∀ u e, s.agentIdentities.get? u = some e → e.origin ≠ some host) :
    (s.register host uid now).Sound (uid :: M) := by
  refine ⟨fun u e he => ?_, fun k u hu => .tail _ (h.named k u hu),
    fun k u e hu he => ?_, fun u v e f o he hf heo hfo => ?_, fun u e he hr => ?_⟩
  · rw [State.register, get?_upsert_const] at he
    split at he
    · simp [*]
    · exact .tail _ (h.minted u e he)
  · rw [identityOf_register, if_neg] at he
    · exact h.bound k u e hu he
    · rintro rfl
      exact hfresh (h.named k u hu)
  · rw [State.register, get?_upsert_const] at he hf
    split at he <;> split at hf
    · simp [*]
    · cases he
      cases heo
      exact absurd hfo (hfree v f hf)
    · cases hf
      cases hfo
      exact absurd heo (hfree u e he)
    · exact h.origins u v e f o he hf heo hfo
  · rw [identityOf_register] at he
    split at he
    · cases he
      cases hr
    · exact h.away u e he hr

theorem stamp_identities (s : State) (host : JsString) (uid : Uid) :
    (s.stamp host uid).agentIdentities = s.agentIdentities := by
  rw [State.stamp]
  split <;> rfl

theorem uidAt_stamp (s : State) (host : JsString) (uid : Uid) (k : JsString) :
    (s.stamp host uid).uidAt k =
      if k = host ∧ s.hostOfUid uid = some host ∧ (s.agents.get? host).isSome then some uid
      else s.uidAt k := by
  rw [State.stamp]
  by_cases hhome : s.hostOfUid uid = some host
  · simp only [hhome, if_true, true_and, State.uidAt, OrdMap.get?_adjust]
    by_cases hk : k = host
    · subst hk
      cases s.agents.get? k <;> simp
    · simp [hk]
  · simp [hhome]

/-- The record at a host is given to an identity that lives there. -/
theorem State.Sound.stamp (h : s.Sound M) (host : JsString) (uid : Uid) :
    (s.stamp host uid).Sound M := by
  have hids := identityOf_congr (stamp_identities s host uid)
  refine ⟨fun u e he => ?_, fun k u hu => ?_, fun k u e hu he => ?_, fun u v e f o he hf => ?_,
    fun u e he => ?_⟩
  · rw [stamp_identities] at he
    exact h.minted u e he
  · rw [uidAt_stamp] at hu
    split at hu
    · rename_i hk
      obtain ⟨e, he, -⟩ := hostOfUid_eq_some.mp hk.2.1
      cases hu
      exact h.minted _ e (identityOf_eq_some.mp he).1
    · exact h.named k u hu
  · rw [hids] at he
    rw [uidAt_stamp] at hu
    split at hu
    · rename_i hk
      obtain ⟨f, hf, hhome⟩ := hostOfUid_eq_some.mp hk.2.1
      cases hu
      obtain rfl := Option.some.inj (hf.symm.trans he)
      exact hhome.trans hk.1.symm
    · exact h.bound k u e hu he
  · rw [stamp_identities] at he hf
    exact h.origins u v e f o he hf
  · rw [hids] at he
    exact h.away u e he

end Turma.Registry
