import Turma.Heartbeat.Refused

/-! What a beat leaves behind. Of an accepted one this is the host's new record, and of the others all
but the hosts that were evicted and the old names of the beating one; of a refused one it is the
record that the host had. -/

namespace Turma.Heartbeat

open Turma.Lib Turma.Tenancy Turma.Registry Option OrdMap

variable {β κ σ : Type} {R : Rules β κ} {s : State β κ σ} {b : Beat β σ}

section

variable {t : State β κ σ} {uid : Uid} {key : JsString}

def retired (t : State β κ σ) (uid : Uid) (newKey : JsString) : List JsString :=
  (t.agents.entries.filter fun e => e.1 ≠ newKey && e.2.agentUid = some uid).map Prod.fst

theorem mem_retired {k : JsString} : k ∈ retired t uid key ↔
    k ≠ key ∧ ∃ r, t.agents.get? k = some r ∧ r.agentUid = some uid := by
  simp only [retired, List.mem_map, List.mem_filter, Bool.and_eq_true, decide_eq_true_eq]
  constructor
  · rintro ⟨⟨k', r⟩, ⟨hmem, hne, huid⟩, rfl⟩
    exact ⟨hne, r, get?_eq_some.mpr hmem, huid⟩
  · rintro ⟨hne, r, hr, huid⟩
    exact ⟨(k, r), ⟨get?_eq_some.mp hr, hne, huid⟩, rfl⟩

theorem get?_renameAgentRecord (k : JsString) : (renameAgentRecord t uid key).agents.get? k =
    if k ∈ retired t uid key then none else t.agents.get? k := by
  change (t.agents.filterKeys fun k => k ∉ retired t uid key).get? k = _
  rw [get?_filterKeys]
  by_cases hk : k ∈ retired t uid key
  · rw [if_neg (by simpa using hk), if_pos hk]
  · rw [if_pos (by simpa using hk), if_neg hk]

theorem retired_subset : retired t uid key ⊆ t.agents.keys := by
  intro k hk
  obtain ⟨-, r, hr, -⟩ := mem_retired.mp hk
  exact OrdMap.mem_keys.mpr ⟨r, hr⟩

theorem retired_nodup : (retired t uid key).Nodup :=
  t.agents.nodup.sublist (List.filter_sublist.map _)

/-- Fewer records leave no less room. -/
theorem HasRoom.renamed {L : Limits} (h : t.HasRoom L 0 0) :
    (renameAgentRecord t uid key).HasRoom L 0 0 := by
  change (t.evict (retired t uid key)).HasRoom L 0 0
  unfold State.HasRoom at h ⊢
  rw [total_evict retired_subset retired_nodup, size_evict retired_subset retired_nodup]
  omega

end

/-- What a beat that is accepted with the record `r` makes of `s`. -/
structure Accepted (R : Rules β κ) (s : State β κ σ) (b : Beat β σ) (s' : State β κ σ)
    (r : Record β κ) : Prop where
  normalized : (normalizeRecord R (next R s b)).1 = some r
  own : s'.agents.get? b.key = some r
  measured : s'.bytesOf b.key = R.size r
  others : ∀ k, k ≠ b.key → s'.agents.get? k = s.agents.get? k ∨ s'.agents.get? k = none
  /-- Who is gone was idle, or is the beating host under another name. -/
  gone : ∀ k q, k ≠ b.key → s.agents.get? k = some q → s'.agents.get? k = none →
    b.now - q.lastSeen > R.limits.agentEvictIdleMs ∨ ∃ uid, b.beatUid = some uid ∧
      q.agentUid = some uid
  moved : ∀ old, renamedFrom s b = some old → s'.agents.get? old = none
  admitted : known s b = true ∨ ((admission R s b).1.HasRoom R.limits 0 1 ∧
    ∀ k, k ≠ b.key → s'.agents.get? k ≠ none → (admission R s b).1.agents.get? k ≠ none)
  budget : s'.HasRoom R.limits 0 0 ∨ R.size r ≤ R.share
  handling : s'.handling = some ⟨b.key, r.commands, true⟩
  replies : s'.replies = s.replies
  nextRef : s'.nextRef = s.nextRef
  stores : s'.stores = b.ingest s.stores

def installed (R : Rules β κ) (s : State β κ σ) (b : Beat β σ) (r : Record β κ) : State β κ σ :=
  { (admission R s b).1 with
    agents := ((admission R s b).1.agents.upsert b.key fun _ => next R s b).upsert b.key fun _ => r
    recordBytes := (admission R s b).1.recordBytes.upsert b.key fun _ => R.size r }

theorem heartbeat_exit (h : (heartbeat R s b).2 = .accepted) : (admission R s b).2 = true ∧
    ∃ r, (normalizeRecord R (next R s b)).1 = some r ∧
      (((installed R s b r).makeRegistryRoom R b.now 0 0).2 = true ∨ R.size r ≤ R.share) ∧
      (heartbeat R s b).1 = accept b ((installed R s b r).makeRegistryRoom R b.now 0 0).1 r := by
  unfold heartbeat at h ⊢
  by_cases hroomed : (admission R s b).2 = false
  · rw [if_pos hroomed] at h
    exact nomatch h
  rw [if_neg hroomed] at h ⊢
  refine ⟨by simpa using hroomed, ?_⟩
  by_cases hraw : R.agentRecordMax < R.size (next R s b)
  · rw [if_pos hraw] at h
    exact nomatch h
  rw [if_neg hraw] at h ⊢
  generalize normalizeRecord R (next R s b) = norm at h ⊢
  obtain ⟨record, coerced⟩ := norm
  cases record with
  | none => exact nomatch h
  | some r =>
    dsimp only at h ⊢
    by_cases hsize : R.agentRecordMax < R.size r
    · rw [if_pos hsize] at h
      exact nomatch h
    rw [if_neg hsize] at h ⊢
    split_ifs at h ⊢ with hroom
    refine ⟨r, rfl, ?_, rfl⟩
    rw [not_and_or, Bool.not_eq_false, Nat.not_lt] at hroom
    exact hroom

/-- The host that has just been heard of is not evicted. -/
theorem installed_own (R : Rules β κ) (s : State β κ σ) (b : Beat β σ) {r : Record β κ}
    (hr : r.lastSeen = b.now) :
    ((installed R s b r).makeRegistryRoom R b.now 0 0).1.agents.get? b.key = some r := by
  have hget : (installed R s b r).agents.get? b.key = some r := by
    rw [installed, get?_upsert, if_pos rfl]
  rcases makeRegistryRoom_get? R (installed R s b r) b.now 0 0 b.key with hsame |
    ⟨-, q, hq, hidle⟩
  · rw [hsame, hget]
  · obtain rfl : r = q := some.inj (hget.symm.trans hq)
    have hnonneg := R.idle_nonneg
    omega

theorem normalizeRecord_same {r r' : Record β κ} (h : (normalizeRecord R r).1 = some r') :
    r'.lastSeen = r.lastSeen ∧ r'.commands = r.commands ∧ r'.agentUid = r.agentUid := by
  unfold normalizeRecord at h
  split at h
  · exact nomatch h
  · split at h
    · exact nomatch h
    · cases h
      exact ⟨rfl, rfl, rfl⟩

/-- The records but the beating host's, once there is room. -/
theorem roomed_get? (R : Rules β κ) (s : State β κ σ) (b : Beat β σ) (r : Record β κ) {k : JsString}
    (hk : k ≠ b.key) :
    (((installed R s b r).makeRegistryRoom R b.now 0 0).1.agents.get? k = s.agents.get? k ∨
      (((installed R s b r).makeRegistryRoom R b.now 0 0).1.agents.get? k = none ∧
        ∃ q, s.agents.get? k = some q ∧ b.now - q.lastSeen > R.limits.agentEvictIdleMs)) ∧
    (((installed R s b r).makeRegistryRoom R b.now 0 0).1.agents.get? k ≠ none →
      (admission R s b).1.agents.get? k ≠ none) := by
  have hinst : (installed R s b r).agents.get? k = (admission R s b).1.agents.get? k := by
    rw [installed, get?_upsert, if_neg hk, get?_upsert, if_neg hk]
  have hadmission := admission_get? R s b k
  rcases makeRegistryRoom_get? R (installed R s b r) b.now 0 0 k with hsame | ⟨hnone, q, hq, hidle⟩
  · rw [hsame, hinst]
    exact ⟨hadmission, id⟩
  · rw [hnone]
    refine ⟨.inr ⟨rfl, ?_⟩, fun h => absurd rfl h⟩
    rw [hinst] at hq
    rcases hadmission with hsame | ⟨hgone, -⟩
    · exact ⟨q, hsame ▸ hq, hidle⟩
    · exact nomatch hgone.symm.trans hq

/-- What the handler's end makes of the state in which there is room. -/
theorem accept_cases (b : Beat β σ) (u : State β κ σ) (r : Record β κ) :
    (b.beatUid = none ∧
      accept b u r = { u with stores := b.ingest u.stores, handling := some ⟨b.key, r.commands, true⟩ }) ∨
    (∃ uid, b.beatUid = some uid ∧ accept b u r = { renameAgentRecord u uid b.key with
      stores := b.ingest u.stores, handling := some ⟨b.key, r.commands, true⟩ }) := by
  unfold accept
  cases b.beatUid with
  | none => exact .inl ⟨rfl, rfl⟩
  | some uid => exact .inr ⟨uid, rfl, rfl⟩

theorem renamedFrom_uid {old : JsString} (h : renamedFrom s b = some old) :
    ∃ uid q, b.beatUid = some uid ∧ s.agents.get? old = some q ∧ q.agentUid = some uid := by
  unfold renamedFrom at h
  split at h
  · rename_i uid home huid _
    split_ifs at h with hc
    cases h
    obtain ⟨q, hq, hquid⟩ := bind_eq_some_iff.mp hc.2
    exact ⟨uid, q, huid, hq, hquid⟩
  · exact nomatch h

theorem heartbeat_accepted (h : (heartbeat R s b).2 = .accepted) :
    ∃ r, Accepted R s b (heartbeat R s b).1 r := by
  obtain ⟨hroomed, r, hnorm, hbudget, heq⟩ := heartbeat_exit h
  have hown := installed_own R s b (normalizeRecord_same hnorm).1
  have hroom : ((installed R s b r).makeRegistryRoom R b.now 0 0).2 = true →
      ((installed R s b r).makeRegistryRoom R b.now 0 0).1.HasRoom R.limits 0 0 :=
    makeRegistryRoom_hasRoom
  have hbytes : ((installed R s b r).makeRegistryRoom R b.now 0 0).1.recordBytes.get? b.key =
      some (R.size r) := by
    apply makeRegistryRoom_bytesOf
    · rw [hown]
      exact some_ne_none r
    · rw [installed, get?_upsert, if_pos rfl]
  have hothers := fun k hk => roomed_get? R s b r (k := k) hk
  have hadmitted : known s b = true ∨ (admission R s b).1.HasRoom R.limits 0 1 := by
    by_cases hknown : known s b = true
    · exact .inl hknown
    · unfold admission at hroomed ⊢
      rw [if_neg hknown] at hroomed ⊢
      exact .inr (makeRegistryRoom_hasRoom hroomed)
  have hrest : SameRest s ((installed R s b r).makeRegistryRoom R b.now 0 0).1 :=
    have hinst : SameRest (admission R s b).1 (installed R s b r) := ⟨rfl, rfl, rfl, rfl⟩
    ((admission_rest R s b).trans hinst).trans (makeRegistryRoom_rest R _ b.now 0 0)
  generalize ((installed R s b r).makeRegistryRoom R b.now 0 0).1 = u at *
  refine ⟨r, ?_⟩
  rcases accept_cases b u r with ⟨huid, hacc⟩ | ⟨uid, huid, hacc⟩
  · rw [heq, hacc]
    have hfrom : renamedFrom s b = none := by
      unfold renamedFrom
      rw [huid]
    exact {
      normalized := hnorm
      own := hown
      measured := by rw [State.bytesOf, hbytes, getD_some]
      others := fun k hk => (hothers k hk).1.imp_right And.left
      gone := by
        intro k q hk hq hgone
        rcases (hothers k hk).1 with hsame | ⟨-, q', hq', hidle⟩
        · cases hgone.symm.trans (hsame.trans hq)
        · obtain rfl := some.inj (hq.symm.trans hq')
          exact .inl hidle
      moved := fun old hold => by cases hfrom.symm.trans hold
      admitted := hadmitted.imp_right fun hr => ⟨hr, fun k hk => (hothers k hk).2⟩
      budget := hbudget.imp_left hroom
      handling := rfl
      replies := hrest.replies
      nextRef := hrest.nextRef
      stores := by rw [hrest.stores] }
  · rw [heq, hacc]
    have hkey : b.key ∉ retired u uid b.key := fun hmem => (mem_retired.mp hmem).1 rfl
    have hget : ∀ k, (renameAgentRecord u uid b.key).agents.get? k =
        if k ∈ retired u uid b.key then none else u.agents.get? k := get?_renameAgentRecord
    exact {
      normalized := hnorm
      own := (hget b.key).trans ((if_neg hkey).trans hown)
      measured := by
        change ((u.evict (retired u uid b.key)).bytesOf b.key) = _
        rw [bytesOf_evict hkey, State.bytesOf, hbytes, getD_some]
      others := by
        intro k hk
        rw [hget]
        by_cases hmem : k ∈ retired u uid b.key
        · rw [if_pos hmem]
          exact .inr rfl
        · rw [if_neg hmem]
          exact (hothers k hk).1.imp_right And.left
      gone := by
        intro k q hk hq hgone
        rw [hget] at hgone
        rcases (hothers k hk).1 with hsame | ⟨-, q', hq', hidle⟩
        · by_cases hmem : k ∈ retired u uid b.key
          · obtain ⟨-, q', hq', hquid⟩ := mem_retired.mp hmem
            obtain rfl := some.inj (hq.symm.trans (hsame.symm.trans hq'))
            exact .inr ⟨uid, huid, hquid⟩
          · rw [if_neg hmem] at hgone
            cases hgone.symm.trans (hsame.trans hq)
        · obtain rfl := some.inj (hq.symm.trans hq')
          exact .inl hidle
      moved := by
        intro old hold
        obtain ⟨uid', q, huid', hq, hquid⟩ := renamedFrom_uid hold
        obtain rfl := some.inj (huid.symm.trans huid')
        have hne := renamedFrom_ne_key hold
        rw [hget]
        rcases (hothers old hne).1 with hsame | ⟨hnone, -⟩
        · exact if_pos (mem_retired.mpr ⟨hne, q, hsame.trans hq, hquid⟩)
        · rw [hnone, ite_self]
      admitted := by
        refine hadmitted.imp_right fun hr => ⟨hr, fun k hk hpresent => (hothers k hk).2 ?_⟩
        rw [hget] at hpresent
        intro hnone
        rw [hnone, ite_self] at hpresent
        exact hpresent rfl
      budget := hbudget.imp_left fun hr => HasRoom.renamed (hroom hr)
      handling := rfl
      replies := hrest.replies
      nextRef := hrest.nextRef
      stores := by rw [hrest.stores] }

structure Rolled (R : Rules β κ) (s : State β κ σ) (b : Beat β σ) (s' : State β κ σ) : Prop where
  rest : SameRest s s'
  others : ∀ k, k ≠ b.key → renamedFrom s b ≠ some k → s'.agents.get? k = s.agents.get? k ∨
    (s'.agents.get? k = none ∧
      ∃ r, s.agents.get? k = some r ∧ b.now - r.lastSeen > R.limits.agentEvictIdleMs)
  own : renamedFrom s b = none → ∀ r, s.agents.get? b.key = some r →
    ∃ coerced stamp, s'.agents.get? b.key = some (settle coerced stamp b.now r)
  absent : s.agents.get? b.key = none ∨ (renamedFrom s b).isSome = true →
    s'.agents.get? b.key = none
  home : ∀ old r, renamedFrom s b = some old → s.agents.get? old = some r →
    ∃ coerced stamp, s'.agents.get? old = some (settle coerced stamp b.now r)

theorem heartbeat_rolled (h : (heartbeat R s b).2 ≠ .accepted) :
    Rolled R s b (heartbeat R s b).1 := by
  have hknown : ∀ hk : known s b = true, (admission R s b).1 = s := fun hk => by
    rw [admission_known hk]
  rcases heartbeat_refused h with ⟨hfull, heq⟩ | ⟨-, t, coerced, stamp, forget, heq, ht, hrest, -⟩
  · rw [heq]
    have hno : known s b = false := by
      cases hk : known s b with
      | false => rfl
      | true => exact absurd hfull (by simp [admission_known hk])
    obtain ⟨hkey, hfrom⟩ : s.agents.get? b.key = none ∧ renamedFrom s b = none := by
      simpa [known] using hno
    refine ⟨admission_rest R s b, fun k _ _ => admission_get? R s b k, ?_, ?_, ?_⟩
    · intro _ r hr
      cases hkey.symm.trans hr
    · intro _
      rcases admission_get? R s b b.key with hsame | ⟨hnone, -⟩
      · exact hsame.trans hkey
      · exact hnone
    · intro old r hold _
      cases hfrom.symm.trans hold
  · rw [heq]
    have hsame : SameRest s (restore R s b t coerced stamp forget) :=
      ((admission_rest R s b).trans hrest).trans (restore_rest R s t b coerced stamp forget)
    have hother : ∀ k, k ≠ b.key → t.agents.get? k = s.agents.get? k ∨ (t.agents.get? k = none ∧
        ∃ r, s.agents.get? k = some r ∧ b.now - r.lastSeen > R.limits.agentEvictIdleMs) := by
      intro k hk
      rw [ht k hk]
      exact admission_get? R s b k
    cases hfrom : renamedFrom s b with
    | some old =>
      have hget := restore_renamed (R := R) (t := t) hfrom coerced stamp forget
      have hne := renamedFrom_ne_key hfrom
      have hk : known s b = true := by simp [known, hfrom]
      refine ⟨hsame, ?_, ?_, ?_, ?_⟩
      · intro k hk hold
        have hneo : k ≠ old := fun he => hold (he ▸ hfrom)
        rw [hget, if_neg hk, if_neg hneo]
        exact hother k hk
      · exact fun hn => by cases hfrom.symm.trans hn
      · intro _
        rw [hget, if_pos rfl]
      · intro old' r hold' hr
        obtain rfl : old = old' := some.inj (hfrom.symm.trans hold')
        refine ⟨coerced && (s.agents.get? b.key).isNone, stamp, ?_⟩
        rw [hget, if_neg hne, if_pos rfl, ht old hne, hknown hk, hr, map_some]
    | none =>
      cases hr : s.agents.get? b.key with
      | some r =>
        have hget := restore_own (R := R) (t := t) hfrom hr coerced stamp forget
        refine ⟨hsame, ?_, ?_, ?_, ?_⟩
        · intro k hk _
          rw [hget, if_neg hk]
          exact hother k hk
        · intro _ r' hr'
          obtain rfl : r = r' := some.inj (hr.symm.trans hr')
          exact ⟨coerced, stamp, by rw [hget, if_pos rfl]⟩
        · rintro (hn | hn)
          · cases hr.symm.trans hn
          · simp [hfrom] at hn
        · exact fun old _ hold => by cases hfrom.symm.trans hold
      | none =>
        have hget := restore_newcomer (R := R) (t := t) hfrom hr coerced stamp forget
        refine ⟨hsame, ?_, ?_, ?_, ?_⟩
        · intro k hk _
          rw [hget, if_neg hk]
          exact hother k hk
        · exact fun _ r' hr' => by cases hr.symm.trans hr'
        · intro _
          rw [hget, if_pos rfl]
        · exact fun old _ hold => by cases hfrom.symm.trans hold

/-- A record that is gone after the beat, though its host was not idle, is one of the beating host:
its former name's, or one that it had under the new name besides. -/
theorem heartbeat_evicts {k : JsString} {r : Record β κ} (hr : s.agents.get? k = some r)
    (hlive : b.now - r.lastSeen ≤ R.limits.agentEvictIdleMs)
    (hgone : (heartbeat R s b).1.agents.get? k = none) :
    (k ≠ b.key ∧ ∃ uid, b.beatUid = some uid ∧ r.agentUid = some uid) ∨
      (k = b.key ∧ Doubled s b) := by
  have hidle : ¬ b.now - r.lastSeen > R.limits.agentEvictIdleMs := by omega
  by_cases hans : (heartbeat R s b).2 = .accepted
  · obtain ⟨q, hacc⟩ := heartbeat_accepted hans
    have hne : k ≠ b.key := by
      rintro rfl
      exact nomatch hgone.symm.trans hacc.own
    exact .inl ⟨hne, (hacc.gone k r hne hr hgone).resolve_left hidle⟩
  · have hroll := heartbeat_rolled hans
    by_cases hne : k = b.key
    · subst hne
      refine .inr ⟨rfl, ?_, by rw [hr]; rfl⟩
      cases hfrom : renamedFrom s b with
      | some old => rfl
      | none =>
        obtain ⟨coerced, stamp, hown⟩ := hroll.own hfrom r hr
        exact nomatch hgone.symm.trans hown
    · exfalso
      by_cases hold : renamedFrom s b = some k
      · obtain ⟨coerced, stamp, hhome⟩ := hroll.home k r hold hr
        exact nomatch hgone.symm.trans hhome
      · rcases hroll.others k hne hold with hsame | ⟨-, q, hq, hlong⟩
        · exact nomatch hgone.symm.trans (hsame.trans hr)
        · obtain rfl : r = q := some.inj (hr.symm.trans hq)
          exact hidle hlong

end Turma.Heartbeat
