import Mathlib.Algebra.BigOperators.Group.Finset.Basic
import Mathlib.Algebra.Order.BigOperators.Group.Finset
import Turma.Heartbeat.Outcome

/-! The registry's budget over whole runs. What a gate lets in above the budget is within its share,
so that the records above theirs stay within the budget. -/

namespace Turma.Heartbeat

open Turma.Lib Turma.Tenancy Turma.Registry List Option OrdMap

variable {β κ σ : Type}

/-- A hub with the sizes as the gates measured them: of a record what it was when its last beat was
accepted, or less where it was measured less since. -/
structure Audited (β κ σ : Type) where
  hub : State β κ σ
  gated : JsString → ℕ

def Audited.start (stores : σ) : Audited β κ σ := ⟨.start stores, fun _ => 0⟩

/-- Whether the event is a beat of `key` that is accepted. -/
def takesIn (R : Rules β κ) (s : State β κ σ) (e : Event β κ σ) (key : JsString) : Bool :=
  match e with
  | .beat b => s.handling.isNone && (heartbeat R s b).2 = .accepted && b.key = key
  | _ => false

def Audited.step (R : Rules β κ) (a : Audited β κ σ) (e : Event β κ σ) : Audited β κ σ where
  hub := Heartbeat.step R a.hub e
  gated key :=
    if takesIn R a.hub e key then (Heartbeat.step R a.hub e).bytesOf key
    else min (a.gated key) ((Heartbeat.step R a.hub e).bytesOf key)

variable {k : JsString}

section

variable (s : State β κ σ)

def State.hostSet : Finset JsString := s.agents.keys.toFinset

variable {s}

theorem mem_hostSet : k ∈ s.hostSet ↔ s.agents.get? k ≠ none := by
  rw [State.hostSet, List.mem_toFinset, OrdMap.mem_keys, ne_none_iff_exists']

theorem card_hostSet : s.hostSet.card = s.agents.size := by
  have hnodup : s.agents.keys.Nodup := s.agents.nodup
  rw [State.hostSet, toFinset_card_of_nodup hnodup]
  exact length_map _

theorem sum_hostSet (f : JsString → ℕ) : ∑ k ∈ s.hostSet, f k = (s.agents.keys.map f).sum :=
  sum_toFinset f s.agents.nodup

/-- The sizes above a share, and a share for each of the others. -/
theorem sum_le_large (hosts : Finset JsString) (share : ℕ) (f : JsString → ℕ) :
    ∑ k ∈ hosts, f k ≤ ∑ k ∈ hosts with share < f k, f k + hosts.card * share := by
  rw [← Finset.sum_filter_add_sum_filter_not hosts (share < f ·)]
  have hsmall : ∑ k ∈ hosts with ¬ share < f k, f k ≤
      (hosts.filter fun k => ¬ share < f k).card * share := by
    calc ∑ k ∈ hosts with ¬ share < f k, f k
        ≤ ∑ _k ∈ hosts.filter fun k => ¬ share < f k, share :=
          Finset.sum_le_sum fun k hk => Nat.le_of_not_lt (Finset.mem_filter.mp hk).2
      _ = (hosts.filter fun k => ¬ share < f k).card * share := Finset.sum_const_nat fun _ _ => rfl
  have hcard : (hosts.filter fun k => ¬ share < f k).card * share ≤ hosts.card * share :=
    Nat.mul_le_mul_right _ (Finset.card_filter_le _ _)
  omega

theorem sum_large_le {hosts hosts' : Finset JsString} {share : ℕ} {f f' : JsString → ℕ}
    (h : ∀ k ∈ hosts', share < f' k → k ∈ hosts ∧ f' k ≤ f k) :
    ∑ k ∈ hosts' with share < f' k, f' k ≤ ∑ k ∈ hosts with share < f k, f k := by
  have hle : ∀ k ∈ hosts'.filter (share < f' ·), f' k ≤ f k := by
    intro k hk
    rw [Finset.mem_filter] at hk
    exact (h k hk.1 hk.2).2
  refine (Finset.sum_le_sum hle).trans (Finset.sum_le_sum_of_subset fun k hk => ?_)
  rw [Finset.mem_filter] at hk ⊢
  obtain ⟨hmem, hf⟩ := h k hk.1 hk.2
  exact ⟨hmem, hk.2.trans_le hf⟩

end

variable {b : Beat β σ} {s' : State β κ σ} (e : Event β κ σ)

section

variable {R : Rules β κ} {s : State β κ σ}

/-- A beat that is refused brings no record in. -/
theorem Rolled.hostSet (h : Rolled R s b s') :
    s'.hostSet ⊆ s.hostSet := by
  intro k hk
  rw [mem_hostSet] at hk ⊢
  by_cases hkey : k = b.key
  · subst hkey
    intro hnone
    exact hk (h.absent (.inl hnone))
  by_cases hold : renamedFrom s b = some k
  · exact fun hnone => absurd (renamedFrom_present hold) (by simp [hnone])
  · rcases h.others k hkey hold with hsame | ⟨hnone, -⟩
    · rwa [hsame] at hk
    · exact absurd hnone hk

/-- A beat that is accepted brings in no record but its own. -/
theorem Accepted.hostSet {r : Record β κ}
    (h : Accepted R s b s' r) (hk : k ∈ s'.hostSet) (hne : k ≠ b.key) :
    k ∈ s.hostSet := by
  rw [mem_hostSet] at hk ⊢
  rcases h.others k hne with hsame | hnone
  · rwa [hsame] at hk
  · exact absurd hnone hk

/-- The count stays within the limit: a newcomer has been admitted to it, and a renamed host leaves
its old name. -/
theorem Accepted.count {r : Record β κ}
    (h : Accepted R s b s' r) (hs : s.agents.size ≤ R.limits.agentsMax) :
    s'.agents.size ≤ R.limits.agentsMax := by
  rw [← card_hostSet] at hs ⊢
  rcases h.admitted with hknown | ⟨hroom, hkept⟩
  · rw [known, Bool.or_eq_true] at hknown
    rcases hknown with hown | hfrom
    · refine (Finset.card_le_card fun k hk => ?_).trans hs
      by_cases hne : k = b.key
      · rw [mem_hostSet, hne]
        exact isSome_iff_ne_none.mp hown
      · exact h.hostSet hk hne
    · obtain ⟨old, hold⟩ := isSome_iff_exists.mp hfrom
      have hmem : old ∈ s.hostSet :=
        mem_hostSet.mpr (isSome_iff_ne_none.mp (renamedFrom_present hold))
      have hsub : s'.hostSet ⊆ insert b.key (s.hostSet.erase old) := by
        intro k hk
        rw [Finset.mem_insert, Finset.mem_erase]
        by_cases hne : k = b.key
        · exact .inl hne
        · refine .inr ⟨?_, h.hostSet hk hne⟩
          rintro rfl
          exact mem_hostSet.mp hk (h.moved k hold)
      have hcard := Finset.card_le_card hsub
      have hinsert := Finset.card_insert_le b.key (s.hostSet.erase old)
      have herase := Finset.card_erase_add_one hmem
      omega
  · have hsub : s'.hostSet ⊆ insert b.key (admission R s b).1.hostSet := by
      intro k hk
      rw [Finset.mem_insert, mem_hostSet]
      by_cases hne : k = b.key
      · exact .inl hne
      · exact .inr (hkept k hne (mem_hostSet.mp hk))
    have hcard := (Finset.card_le_card hsub).trans (Finset.card_insert_le _ _)
    have hslot := hroom.2
    rw [← card_hostSet] at hslot
    omega

/-- Between beats no record comes or goes. -/
theorem step_hostSet (he : ∀ b, e ≠ .beat b) :
    (Heartbeat.step R s e).hostSet = s.hostSet := by
  have hupsert : ∀ (m : OrdMap JsString (Record β κ)) key r r', m.get? key = some r →
      ∀ k, (m.upsert key fun _ => r').get? k ≠ none ↔ m.get? k ≠ none := by
    intro m key r r' hr k
    rw [get?_upsert]
    by_cases hk : k = key
    · rw [if_pos hk, hk, hr]
      simp
    · rw [if_neg hk]
  ext k
  rw [mem_hostSet, mem_hostSet]
  cases e with
  | beat b => exact absurd rfl (he b)
  | queue key o =>
    rw [Heartbeat.step, queueCommand]
    cases hr : s.agents.get? key with
    | none => rfl
    | some r => exact hupsert _ _ _ _ hr k
  | withdraw key cmdId kind =>
    rw [Heartbeat.step, dropQueuedCommand]
    cases hr : s.agents.get? key with
    | none => rfl
    | some r => exact hupsert _ _ _ _ hr k
  | note key lastSeen body kept subagentHistory =>
    rw [Heartbeat.step, note, get?_adjust]
    by_cases hk : k = key
    · rw [if_pos hk]
      simp
    · rw [if_neg hk]
  | reply now =>
    rw [Heartbeat.step, reply]
    cases s.handling with
    | none => rfl
    | some h =>
      dsimp only
      cases hr : s.agents.get? h.key with
      | none => rfl
      | some r => exact hupsert _ _ _ _ hr k

/-- A step takes a host's record in, or brings none in. -/
theorem step_cases (R : Rules β κ) (s : State β κ σ) (e : Event β κ σ) :
    (∃ b r, e = .beat b ∧ s.handling = none ∧ (heartbeat R s b).2 = .accepted ∧
        Accepted R s b (Heartbeat.step R s e) r) ∨
      ((∀ k, takesIn R s e k = false) ∧ (Heartbeat.step R s e).hostSet ⊆ s.hostSet) := by
  by_cases hbeat : ∃ b, e = .beat b
  · obtain ⟨b, rfl⟩ := hbeat
    cases hh : s.handling with
    | some h =>
      right
      rw [Heartbeat.step, hh, isSome_some, if_pos rfl]
      exact ⟨fun k => by simp [takesIn, hh], fun _ => id⟩
    | none =>
      rw [Heartbeat.step, hh, isSome_none, if_neg Bool.false_ne_true]
      by_cases hans : (heartbeat R s b).2 = .accepted
      · obtain ⟨r, hr⟩ := heartbeat_accepted hans
        exact .inl ⟨b, r, rfl, rfl, hans, hr⟩
      · exact .inr ⟨fun k => by simp [takesIn, hans], (heartbeat_rolled hans).hostSet⟩
  · right
    have hne : ∀ b, e ≠ .beat b := fun b hb => hbeat ⟨b, hb⟩
    refine ⟨fun k => ?_, (step_hostSet e hne).subset⟩
    cases e with
    | beat b => exact absurd rfl (hne b)
    | _ => rfl

end

section

variable {R : Rules β κ} {a : Audited β κ σ}

/-- The count is within its limit, and the records above their share are within the budget. -/
structure Audited.Within (R : Rules β κ) (a : Audited β κ σ) : Prop where
  count : a.hub.agents.size ≤ R.limits.agentsMax
  large : ∑ k ∈ a.hub.hostSet with R.share < a.gated k, a.gated k ≤ R.limits.agentsTotalMax

theorem gated_le (k : JsString) :
    (a.step R e).gated k ≤ (a.step R e).hub.bytesOf k := by
  unfold Audited.step
  dsimp only
  split_ifs
  · exact Nat.le_refl _
  · exact Nat.min_le_right _ _

theorem gated_step {e : Event β κ σ} (h : takesIn R a.hub e k = false) :
    (a.step R e).gated k ≤ a.gated k := by
  unfold Audited.step
  dsimp only
  rw [h, if_neg Bool.false_ne_true]
  exact Nat.min_le_left _ _

theorem Audited.Within.step (h : a.Within R) (e : Event β κ σ) : (a.step R e).Within R := by
  rcases step_cases R a.hub e with ⟨b, r, rfl, hidle, hans, hacc⟩ | ⟨hno, hsub⟩
  · refine ⟨hacc.count h.count, ?_⟩
    rcases hacc.budget with hroom | hshare
    · -- There is room for all records, whatever they measure.
      calc ∑ k ∈ (a.step R (.beat b)).hub.hostSet with R.share < (a.step R (.beat b)).gated k,
            (a.step R (.beat b)).gated k
          ≤ ∑ k ∈ (a.step R (.beat b)).hub.hostSet, (a.step R (.beat b)).gated k :=
            Finset.sum_le_sum_of_subset (Finset.filter_subset _ _)
        _ ≤ ∑ k ∈ (a.step R (.beat b)).hub.hostSet, (a.step R (.beat b)).hub.bytesOf k :=
            Finset.sum_le_sum fun k _ => gated_le _ k
        _ = (a.step R (.beat b)).hub.total := sum_hostSet _
        _ ≤ R.limits.agentsTotalMax := hroom.1
    · -- The new record is within its share.
      refine (sum_large_le fun k hk hlarge => ?_).trans h.large
      by_cases hne : k = b.key
      · subst hne
        have hle := (gated_le (.beat b) b.key).trans (hacc.measured.trans_le hshare)
        omega
      · refine ⟨hacc.hostSet hk hne, gated_step ?_⟩
        simp [takesIn, Ne.symm hne]
  · refine ⟨?_, (sum_large_le fun k hk _ => ⟨hsub hk, gated_step (hno k)⟩).trans h.large⟩
    have hcard := Finset.card_le_card hsub
    rw [card_hostSet, card_hostSet] at hcard
    exact hcard.trans h.count

theorem Audited.Within.total (h : a.Within R) : (a.hub.agents.keys.map a.gated).sum ≤
    R.limits.agentsTotalMax + R.limits.agentsMax * R.share := by
  have hsum := sum_le_large a.hub.hostSet R.share a.gated
  have hcount : a.hub.hostSet.card * R.share ≤ R.limits.agentsMax * R.share := by
    rw [card_hostSet]
    exact Nat.mul_le_mul_right _ h.count
  have hlarge := h.large
  rw [← sum_hostSet]
  omega

end

/-- The hosts `gone` are those that had to go: idle, the ones longest unseen, and no host more. -/
structure LeastNeeded (R : Rules β κ) (s s' : State β κ σ) (now : ℤ) (addBytes addSlots : ℕ)
    (gone : List JsString) : Prop where
  idle : ∀ k ∈ gone, ∃ r, s.agents.get? k = some r ∧ now - r.lastSeen > R.limits.agentEvictIdleMs
  oldest : ∀ k ∈ gone, ∀ k', k' ∉ gone → ∀ r r', s.agents.get? k = some r →
    s.agents.get? k' = some r' → r.lastSeen ≤ r'.lastSeen
  left : ∀ k, s'.agents.get? k = if k ∈ gone then none else s.agents.get? k
  room : s'.HasRoom R.limits addBytes addSlots
  needed : ∀ p k q, gone = p ++ k :: q →
    ¬ ((s.registryBytes R).1.evict p).HasRoom R.limits addBytes addSlots

/-- Room is made by evicting who has to go, or nobody is evicted, and all the idle would not do. -/
def MadeOrRefused (R : Rules β κ) (s : State β κ σ) (now : ℤ) (addBytes addSlots : ℕ) : Prop :=
  ((s.makeRegistryRoom R now addBytes addSlots).2 = true ∧
      ∃ gone, LeastNeeded R s (s.makeRegistryRoom R now addBytes addSlots).1 now addBytes addSlots
        gone) ∨
    ((s.makeRegistryRoom R now addBytes addSlots).2 = false ∧
      (s.makeRegistryRoom R now addBytes addSlots).1.agents = s.agents ∧
      ¬ ((s.registryBytes R).1.evict (s.hosts.evictableAgents R.limits now)).HasRoom R.limits
        addBytes addSlots)

theorem evicted_oldest {s : State β κ σ} {L : Limits} {now : ℤ} {gone rest : List JsString}
    (hsplit : s.hosts.evictableAgents L now = gone ++ rest) {k k' : JsString} (hk : k ∈ gone)
    (hk' : k' ∉ gone) {r r' : Record β κ} (hr : s.agents.get? k = some r)
    (hr' : s.agents.get? k' = some r') : r.lastSeen ≤ r'.lastSeen := by
  by_cases hidle : k' ∈ s.hosts.evictableAgents L now
  · have hsorted : (gone ++ rest).Pairwise fun k k' => ∀ r r', s.agents.get? k = some r →
        s.agents.get? k' = some r' → r.lastSeen ≤ r'.lastSeen := by
      rw [← hsplit]
      exact evictable_sorted
    rw [hsplit, mem_append, or_iff_right hk'] at hidle
    exact (pairwise_append.mp hsorted).2.2 k hk k' hidle r r' hr hr'
  · -- Who may not be evicted was seen since.
    have hmem : k ∈ s.hosts.evictableAgents L now := by
      rw [hsplit]
      exact mem_append_left _ hk
    obtain ⟨q, hq, hlong⟩ := mem_evictable.mp hmem
    obtain rfl : r = q := some.inj (hr.symm.trans hq)
    have hlate : ¬ now - r'.lastSeen > L.agentEvictIdleMs := fun hlong' =>
      hidle (mem_evictable.mpr ⟨r', hr', hlong'⟩)
    omega

theorem makeRegistryRoom_made (R : Rules β κ) (s : State β κ σ) (now : ℤ) (addBytes addSlots : ℕ) :
    MadeOrRefused R s now addBytes addSlots := by
  rcases makeRegistryRoom_cases R s now addBytes addSlots with ⟨gone, rest, hsplit, hmade, hroom,
    hneed⟩ | ⟨hmade, hall⟩
  · left
    rw [hmade]
    refine ⟨rfl, gone, ?_, ?_, ?_, hroom, hneed⟩
    · intro k hk
      apply mem_evictable.mp
      rw [hsplit]
      exact mem_append_left _ hk
    · intro k hk k' hk' r r' hr hr'
      exact evicted_oldest hsplit hk hk' hr hr'
    · intro k
      change (OrdMap.filterKeys _ _).get? k = _
      rw [get?_filterKeys]
      by_cases hk : k ∈ gone
      · rw [if_neg (by simpa using hk), if_pos hk]
      · rw [if_pos (by simpa using hk), if_neg hk]
        rfl
  · right
    rw [hmade]
    exact ⟨rfl, rfl, hall⟩

/-- A known host is refused for the registry only with a record above its share. -/
theorem heartbeat_starved {R : Rules β κ} {s : State β κ σ}
    (hknown : known s b = true) : (heartbeat R s b).2 ≠ .full ∧
      ((heartbeat R s b).2 = .overShare →
        ∃ r, (normalizeRecord R (next R s b)).1 = some r ∧ R.share < R.size r) := by
  unfold heartbeat
  rw [admission_known hknown, if_neg (by simp)]
  dsimp only
  split_ifs with hraw
  · exact ⟨by simp, by simp⟩
  generalize normalizeRecord R (next R s b) = norm
  obtain ⟨record, coerced⟩ := norm
  cases record with
  | none => exact ⟨by simp, by simp⟩
  | some r =>
    dsimp only
    split_ifs with hsize hroom
    · exact ⟨by simp, by simp⟩
    · exact ⟨by simp, fun _ => ⟨r, rfl, hroom.2⟩⟩
    · exact ⟨by simp, by simp⟩

/-- The registry's count and its bytes, as the gates measured them, are bounded in every state of a
run. A known host whose record is within its share is not refused for the registry. No host that was
seen within the idle time is evicted, and what is evicted is the least that makes room. -/
theorem registry_budget (R : Rules β κ) (stores : σ) (es : List (Event β κ σ)) :
    let a := run (Audited.step R) (.start stores) es
    a.hub = run (Heartbeat.step R) (.start stores) es ∧
    (a.hub.agents.size ≤ R.limits.agentsMax ∧
      (a.hub.agents.keys.map a.gated).sum ≤
        R.limits.agentsTotalMax + R.limits.agentsMax * R.share ∧
      ((∀ k ∈ a.hub.agents.keys, a.hub.bytesOf k = a.gated k) →
        a.hub.total ≤ R.limits.agentsTotalMax + R.limits.agentsMax * R.share)) ∧
    (∀ b, known a.hub b = true → (heartbeat R a.hub b).2 ≠ .full ∧
      ((heartbeat R a.hub b).2 = .overShare →
        ∃ r, (normalizeRecord R (next R a.hub b)).1 = some r ∧ R.share < R.size r)) ∧
    (∀ now addBytes addSlots, MadeOrRefused R a.hub now addBytes addSlots ∧
      ∀ k r, a.hub.agents.get? k = some r → now - r.lastSeen ≤ R.limits.agentEvictIdleMs →
        (a.hub.makeRegistryRoom R now addBytes addSlots).1.agents.get? k = some r) ∧
    ∀ b k r, a.hub.agents.get? k = some r → b.now - r.lastSeen ≤ R.limits.agentEvictIdleMs →
      (heartbeat R a.hub b).1.agents.get? k = none →
        (k ≠ b.key ∧ ∃ uid, b.beatUid = some uid ∧ r.agentUid = some uid) ∨
          (k = b.key ∧ Doubled a.hub b) := by
  have hhub : ∀ (a : Audited β κ σ), (run (Audited.step R) a es).hub =
      run (Heartbeat.step R) a.hub es := by
    intro a
    induction es generalizing a with
    | nil => rfl
    | cons e es ih =>
      rw [run_cons, run_cons, ih]
      rfl
  have hwithin : (run (Audited.step R) (.start stores) es).Within R := by
    refine run_inv (P := Audited.Within R) _ (fun a e h _ => h.step e) ?_
      (along_of_forall _ fun e _ => trivial)
    exact ⟨Nat.zero_le _, Nat.zero_le _⟩
  intro a
  refine ⟨hhub _, ⟨hwithin.count, hwithin.total, fun hgated => ?_⟩, fun b hknown =>
    heartbeat_starved hknown, fun now addBytes addSlots =>
    ⟨makeRegistryRoom_made R a.hub now addBytes addSlots, fun k r hr hlive => ?_⟩,
    fun b k r hr hlive hgone => heartbeat_evicts hr hlive hgone⟩
  · have htotal : a.hub.total = (a.hub.agents.keys.map a.gated).sum := by
      rw [State.total, map_congr_left hgated]
    exact htotal.trans_le hwithin.total
  · rcases makeRegistryRoom_get? R a.hub now addBytes addSlots k with hsame | ⟨-, q, hq, hlong⟩
    · exact hsame.trans hr
    · obtain rfl : r = q := some.inj (hr.symm.trans hq)
      omega

end Turma.Heartbeat
