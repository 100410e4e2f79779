import Turma.Heartbeat.Record

/-! `registryBytes` and `makeRegistryRoom`: all that is needed is evicted, the hosts longest unseen
first, or nothing. -/

namespace Turma.Heartbeat

open Turma.Lib Turma.Tenancy Turma.Registry List Option OrdMap

variable {β κ σ : Type}

namespace State

section

variable (R : Rules β κ) (s : State β κ σ)

def measured (e : JsString × Record β κ) : ℕ := (s.recordBytes.get? e.1).getD (R.size e.2)

def measureAll : OrdMap JsString ℕ :=
  s.agents.entries.foldl (fun m e => m.upsert e.1 fun n => n.getD (R.size e.2)) s.recordBytes

/-- `registryBytes`: what it leaves in `recordBytes`, and the total. -/
def registryBytes : State β κ σ × ℕ :=
  ({ s with recordBytes :=
      if s.agents.size < (s.measureAll R).size then
        (s.measureAll R).filterKeys fun k => k ∈ s.agents.keys
      else s.measureAll R },
    (s.agents.entries.map (s.measured R)).sum)

/-- `recordBytes.get(key) || 0`. -/
def bytesOf (key : JsString) : ℕ := (s.recordBytes.get? key).getD 0

def hosts : Registry.State := ⟨.empty, s.agents.mapValues Record.agent⟩

def evict (gone : List JsString) : State β κ σ :=
  { s with
    agents := s.agents.filterKeys fun k => k ∉ gone
    recordBytes := s.recordBytes.filterKeys fun k => k ∉ gone }

/-- `makeRegistryRoom`, with the clock. -/
def makeRegistryRoom (now : ℤ) (addBytes addSlots : ℕ) : State β κ σ × Bool :=
  let (s, bytes) := s.registryBytes R
  let count := s.agents.size
  if !overBudget R.limits addBytes addSlots bytes count then (s, true)
  else
    let evictable := s.hosts.evictableAgents R.limits now
    let reclaimable := (evictable.map s.bytesOf).sum
    if overBudget R.limits addBytes addSlots (bytes - reclaimable) (count - evictable.length) then
      (s, false)
    else
      let gone := evicted R.limits s.bytesOf addBytes addSlots bytes count evictable
      (s.evict gone, !overBudget R.limits addBytes addSlots (bytes - (gone.map s.bytesOf).sum)
        (count - gone.length))

def total : ℕ := (s.agents.keys.map s.bytesOf).sum

end

end State

section

variable (L : Limits) (w : JsString → ℕ) (addBytes addSlots : ℕ)

theorem evicted_split (bytes count : ℕ) (l : List JsString) :
    ∃ rest, l = evicted L w addBytes addSlots bytes count l ++ rest ∧
      (∀ p k q, evicted L w addBytes addSlots bytes count l = p ++ k :: q →
        overBudget L addBytes addSlots (bytes - (p.map w).sum) (count - p.length) = true) ∧
      (rest = [] ∨ overBudget L addBytes addSlots
        (bytes - ((evicted L w addBytes addSlots bytes count l).map w).sum)
        (count - (evicted L w addBytes addSlots bytes count l).length) = false) := by
  induction l generalizing bytes count with
  | nil => exact ⟨[], rfl, by simp [evicted], .inl rfl⟩
  | cons key l ih =>
    rw [evicted]
    by_cases hover : overBudget L addBytes addSlots bytes count = true
    · rw [if_pos hover]
      obtain ⟨rest, hl, hneed, hend⟩ := ih (bytes - w key) (count - 1)
      refine ⟨rest, by rw [cons_append, ← hl], ?_, ?_⟩
      · intro p k q hp
        cases p with
        | nil => exact hover
        | cons key' p =>
          rw [cons_append, List.cons.injEq] at hp
          obtain ⟨rfl, hp⟩ := hp
          have hk := hneed p k q hp
          rwa [map_cons, sum_cons, length_cons, Nat.sub_add_eq,
            Nat.add_comm p.length 1, Nat.sub_add_eq]
      · rcases hend with hnil | hend
        · exact .inl hnil
        · right
          rwa [map_cons, sum_cons, length_cons, Nat.sub_add_eq,
            Nat.add_comm _ 1, Nat.sub_add_eq]
    · rw [if_neg hover]
      refine ⟨key :: l, rfl, ?_, .inr ?_⟩
      · intro p k q hp
        exact absurd hp (by simp)
      · simpa using hover

end

theorem overBudget_eq_false {L : Limits} {addBytes addSlots bytes count : ℕ} :
    overBudget L addBytes addSlots bytes count = false ↔
      bytes + addBytes ≤ L.agentsTotalMax ∧ count + addSlots ≤ L.agentsMax := by
  simp [overBudget]

variable {k : JsString}

section

variable {s : State β κ σ} {L : Limits} {now : ℤ}

theorem mem_evictable : k ∈ s.hosts.evictableAgents L now ↔
    ∃ r, s.agents.get? k = some r ∧ now - r.lastSeen > L.agentEvictIdleMs := by
  simp only [Registry.State.evictableAgents, List.mem_map, mem_insertionSort, mem_filter,
    decide_eq_true_eq, (ownEntries_perm _).mem_iff]
  constructor
  · rintro ⟨⟨k', a⟩, ⟨hmem, hidle⟩, rfl⟩
    have hget := get?_eq_some.mpr hmem
    rw [State.hosts, get?_mapValues, map_eq_some_iff] at hget
    obtain ⟨r, hr, rfl⟩ := hget
    exact ⟨r, hr, hidle⟩
  · rintro ⟨r, hr, hidle⟩
    refine ⟨(k, r.agent), ⟨get?_eq_some.mp ?_, hidle⟩, rfl⟩
    rw [State.hosts, get?_mapValues, hr]
    rfl

theorem evictable_nodup : (s.hosts.evictableAgents L now).Nodup := by
  have hperm : ((s.hosts.evictableAgents L now)).Perm
      ((s.hosts.agents.entries.filter fun x => now - x.2.lastSeen > L.agentEvictIdleMs).map
        Prod.fst) :=
    ((perm_insertionSort _ _).trans ((ownEntries_perm _).filter _)).map _
  exact hperm.nodup_iff.mpr (s.hosts.agents.nodup.sublist (filter_sublist.map _))

/-- The hosts longest unseen come first. -/
theorem evictable_sorted : (s.hosts.evictableAgents L now).Pairwise fun k k' =>
    ∀ r r', s.agents.get? k = some r → s.agents.get? k' = some r' → r.lastSeen ≤ r'.lastSeen := by
  rw [Registry.State.evictableAgents, pairwise_map]
  refine (pairwise_insertionSort _ _).imp_of_mem ?_
  intro x y hx hy hle r r' hr hr'
  have hseen : ∀ (e : JsString × Agent) (q : Record β κ), e ∈ ((ownEntries s.hosts.agents).filter
      fun x => now - x.2.lastSeen > L.agentEvictIdleMs).insertionSort
        (fun x y => x.2.lastSeen ≤ y.2.lastSeen) →
      s.agents.get? e.1 = some q → e.2.lastSeen = q.lastSeen := by
    intro e q he hq
    rw [mem_insertionSort, mem_filter, (ownEntries_perm _).mem_iff] at he
    have hget := get?_eq_some.mpr (show (e.1, e.2) ∈ s.hosts.agents.entries from he.1)
    rw [State.hosts, get?_mapValues, hq, map_some, Option.some.injEq] at hget
    rw [← hget]
    rfl
  rw [← hseen x r hx hr, ← hseen y r' hy hr']
  exact hle

theorem evictable_subset : s.hosts.evictableAgents L now ⊆ s.agents.keys := by
  intro k hk
  obtain ⟨r, hr, -⟩ := mem_evictable.mp hk
  exact OrdMap.mem_keys.mpr ⟨r, hr⟩

end

section

variable (R : Rules β κ) (s : State β κ σ)

theorem get?_measureAll {r : Record β κ} (h : s.agents.get? k = some r) :
    (s.measureAll R).get? k = some (s.measured R (k, r)) := by
  have hlookup : OrdMap.lookup k s.agents.entries = some r := h
  unfold State.measureAll
  rw [get?_foldl_upsert (fun n (r : Record β κ) => n.getD (R.size r)) _ s.agents.nodup, hlookup]
  rfl

theorem get?_registryBytes {r : Record β κ} (h : s.agents.get? k = some r) :
    (s.registryBytes R).1.recordBytes.get? k = some (s.measured R (k, r)) := by
  have hk : k ∈ s.agents.keys := OrdMap.mem_keys.mpr ⟨r, h⟩
  unfold State.registryBytes
  split_ifs with hstale
  · rw [get?_filterKeys, if_pos (by simpa using hk)]
    exact get?_measureAll R s h
  · exact get?_measureAll R s h

theorem registryBytes_total : (s.registryBytes R).2 = (s.registryBytes R).1.total := by
  have hkeys : (s.registryBytes R).1.agents.keys = s.agents.entries.map Prod.fst := rfl
  rw [State.total, hkeys, List.map_map]
  change (s.agents.entries.map (s.measured R)).sum = _
  congr 1
  apply map_congr_left
  intro e he
  have hget := get?_registryBytes R s (get?_eq_some.mpr (show (e.1, e.2) ∈ _ from he))
  rw [Function.comp_apply, State.bytesOf, hget, getD_some]

end

section

variable {s : State β κ σ} {gone : List JsString}

theorem evict_nil : s.evict [] = s := by
  have hagents : (s.agents.filterKeys fun k => k ∉ ([] : List JsString)) = s.agents :=
    eq_of_entries (filter_eq_self.mpr (by simp))
  have hbytes : (s.recordBytes.filterKeys fun k => k ∉ ([] : List JsString)) = s.recordBytes :=
    eq_of_entries (filter_eq_self.mpr (by simp))
  rw [State.evict, hagents, hbytes]

theorem keys_evict : (s.evict gone).agents.keys = s.agents.keys.filter fun k => k ∉ gone := by
  simp only [State.evict, OrdMap.filterKeys, OrdMap.keys, List.filter_map]
  rfl

theorem bytesOf_evict (hk : k ∉ gone) : (s.evict gone).bytesOf k = s.bytesOf k := by
  rw [State.bytesOf, State.evict, get?_filterKeys, if_pos (by simpa using hk), State.bytesOf]

theorem keys_perm (hsub : gone ⊆ s.agents.keys) (hnodup : gone.Nodup) :
    (gone ++ (s.evict gone).agents.keys).Perm s.agents.keys := by
  have hgone : gone.Perm (s.agents.keys.filter fun k => decide (k ∈ gone)) := by
    have hkeys : s.agents.keys.Nodup := s.agents.nodup
    rw [perm_ext_iff_of_nodup hnodup (hkeys.filter _)]
    intro k
    rw [mem_filter, decide_eq_true_eq]
    exact ⟨fun hk => ⟨hsub hk, hk⟩, And.right⟩
  have hsplit := filter_append_perm (fun k => decide (k ∈ gone)) s.agents.keys
  simp only [← decide_not] at hsplit
  rw [keys_evict]
  exact (hgone.append_right _).trans hsplit

theorem total_evict (hsub : gone ⊆ s.agents.keys) (hnodup : gone.Nodup) :
    (s.evict gone).total = s.total - (gone.map s.bytesOf).sum := by
  have hkeep : (s.evict gone).agents.keys.map (s.evict gone).bytesOf =
      (s.evict gone).agents.keys.map s.bytesOf := by
    apply map_congr_left
    intro k hk
    rw [keys_evict, mem_filter] at hk
    exact bytesOf_evict (of_decide_eq_true hk.2)
  have hsum := ((keys_perm hsub hnodup).map s.bytesOf).sum_eq
  rw [map_append, sum_append] at hsum
  rw [State.total, hkeep, State.total]
  omega

theorem size_evict (hsub : gone ⊆ s.agents.keys) (hnodup : gone.Nodup) :
    (s.evict gone).agents.size = s.agents.size - gone.length := by
  have hlen := (keys_perm hsub hnodup).length_eq
  have hkeys : ∀ m : OrdMap JsString (Record β κ), m.keys.length = m.size :=
    fun m => length_map _
  rw [length_append, hkeys, hkeys] at hlen
  omega

def State.HasRoom (s : State β κ σ) (L : Limits) (addBytes addSlots : ℕ) : Prop :=
  s.total + addBytes ≤ L.agentsTotalMax ∧ s.agents.size + addSlots ≤ L.agentsMax

theorem hasRoom_evict {L : Limits} {addBytes addSlots : ℕ} (hsub : gone ⊆ s.agents.keys)
    (hnodup : gone.Nodup) : (s.evict gone).HasRoom L addBytes addSlots ↔
      overBudget L addBytes addSlots (s.total - (gone.map s.bytesOf).sum)
        (s.agents.size - gone.length) = false := by
  rw [overBudget_eq_false, State.HasRoom, total_evict hsub hnodup, size_evict hsub hnodup]

/-- Whoever is evicted besides leaves no less room. -/
theorem State.HasRoom.more {L : Limits} {addBytes addSlots : ℕ} {rest : List JsString}
    (h : (s.evict gone).HasRoom L addBytes addSlots) (hsub : gone ++ rest ⊆ s.agents.keys)
    (hnodup : (gone ++ rest).Nodup) : (s.evict (gone ++ rest)).HasRoom L addBytes addSlots := by
  have hsub' : gone ⊆ s.agents.keys := fun k hk => hsub (mem_append_left _ hk)
  have hnodup' : gone.Nodup := (nodup_append.mp hnodup).1
  unfold State.HasRoom at h ⊢
  rw [total_evict hsub' hnodup', size_evict hsub' hnodup'] at h
  rw [total_evict hsub hnodup, size_evict hsub hnodup, map_append, sum_append,
    length_append]
  omega

end

/-- `makeRegistryRoom` evicts what is needed, the hosts longest unseen first and no host more, or it
evicts nothing, when even all of those that may be evicted are not enough. -/
theorem makeRegistryRoom_cases (R : Rules β κ) (s : State β κ σ) (now : ℤ) (addBytes addSlots : ℕ) :
    (∃ gone rest, s.hosts.evictableAgents R.limits now = gone ++ rest ∧
        s.makeRegistryRoom R now addBytes addSlots = ((s.registryBytes R).1.evict gone, true) ∧
        ((s.registryBytes R).1.evict gone).HasRoom R.limits addBytes addSlots ∧
        ∀ p k q, gone = p ++ k :: q →
          ¬ ((s.registryBytes R).1.evict p).HasRoom R.limits addBytes addSlots) ∨
      (s.makeRegistryRoom R now addBytes addSlots = ((s.registryBytes R).1, false) ∧
        ¬ ((s.registryBytes R).1.evict (s.hosts.evictableAgents R.limits now)).HasRoom R.limits
          addBytes addSlots) := by
  have hbytes := registryBytes_total R s
  have hhosts : (s.registryBytes R).1.hosts = s.hosts := rfl
  have hsubset : s.hosts.evictableAgents R.limits now ⊆ (s.registryBytes R).1.agents.keys :=
    evictable_subset
  have hnodup : (s.hosts.evictableAgents R.limits now).Nodup := evictable_nodup
  unfold State.makeRegistryRoom
  dsimp only
  rw [hbytes, hhosts]
  generalize (s.registryBytes R).1 = f at hsubset
  by_cases hover : overBudget R.limits addBytes addSlots f.total f.agents.size = true
  · rw [hover, Bool.not_true, if_neg Bool.false_ne_true]
    split_ifs with hall
    · right
      refine ⟨rfl, fun hroom => ?_⟩
      rw [hasRoom_evict hsubset hnodup, hall] at hroom
      exact Bool.noConfusion hroom
    · left
      obtain ⟨rest, hsplit, hneed, hend⟩ := evicted_split R.limits f.bytesOf addBytes addSlots
        f.total f.agents.size (s.hosts.evictableAgents R.limits now)
      have hgone : ∀ l l', s.hosts.evictableAgents R.limits now = l ++ l' →
          l ⊆ f.agents.keys ∧ l.Nodup := by
        intro l l' hl
        rw [hl] at hsubset hnodup
        exact ⟨fun k hk => hsubset (mem_append_left _ hk), (nodup_append.mp hnodup).1⟩
      have henough : overBudget R.limits addBytes addSlots
          (f.total - ((evicted R.limits f.bytesOf addBytes addSlots f.total f.agents.size
            (s.hosts.evictableAgents R.limits now)).map f.bytesOf).sum)
          (f.agents.size - (evicted R.limits f.bytesOf addBytes addSlots f.total f.agents.size
            (s.hosts.evictableAgents R.limits now)).length) = false := by
        rcases hend with rfl | hend
        · rw [append_nil] at hsplit
          rw [← hsplit]
          exact Bool.eq_false_iff.mpr hall
        · exact hend
      obtain ⟨hsub, hnd⟩ := hgone _ _ hsplit
      refine ⟨_, rest, hsplit, ?_, (hasRoom_evict hsub hnd).mpr henough, ?_⟩
      · rw [henough]
        rfl
      · intro p k q hp hroom
        rw [hp, append_assoc] at hsplit
        obtain ⟨hsub', hnd'⟩ := hgone _ _ hsplit
        rw [hasRoom_evict hsub' hnd', hneed p k q hp] at hroom
        exact Bool.noConfusion hroom
  · left
    rw [Bool.not_eq_true] at hover
    rw [hover]
    refine ⟨[], _, rfl, by rw [evict_nil]; rfl, ?_, by simp⟩
    rw [evict_nil]
    exact overBudget_eq_false.mp hover

section

variable {R : Rules β κ} {s : State β κ σ}

/-- A record that `makeRegistryRoom` drops was idle. -/
theorem makeRegistryRoom_get? (R : Rules β κ) (s : State β κ σ) (now : ℤ) (addBytes addSlots : ℕ)
    (k : JsString) :
    (s.makeRegistryRoom R now addBytes addSlots).1.agents.get? k = s.agents.get? k ∨
      ((s.makeRegistryRoom R now addBytes addSlots).1.agents.get? k = none ∧
        ∃ r, s.agents.get? k = some r ∧ now - r.lastSeen > R.limits.agentEvictIdleMs) := by
  rcases makeRegistryRoom_cases R s now addBytes addSlots with ⟨gone, rest, hsplit, hmade, -⟩ |
    ⟨hmade, -⟩
  · have hget : ((s.registryBytes R).1.evict gone).agents.get? k =
        if k ∈ gone then none else s.agents.get? k := by
      change (OrdMap.filterKeys _ _).get? k = _
      rw [get?_filterKeys]
      by_cases hk : k ∈ gone
      · rw [if_neg (by simpa using hk), if_pos hk]
      · rw [if_pos (by simpa using hk), if_neg hk]
        rfl
    rw [hmade, hget]
    by_cases hk : k ∈ gone
    · rw [if_pos hk]
      have hidle : k ∈ s.hosts.evictableAgents R.limits now := by
        rw [hsplit]
        exact mem_append_left _ hk
      exact .inr ⟨rfl, mem_evictable.mp hidle⟩
    · rw [if_neg hk]
      exact .inl rfl
  · rw [hmade]
    exact .inl rfl

/-- Where it says so there is room. -/
theorem makeRegistryRoom_hasRoom {now : ℤ} {addBytes addSlots : ℕ}
    (h : (s.makeRegistryRoom R now addBytes addSlots).2 = true) :
    (s.makeRegistryRoom R now addBytes addSlots).1.HasRoom R.limits addBytes addSlots := by
  rcases makeRegistryRoom_cases R s now addBytes addSlots with ⟨gone, rest, -, hmade, hroom, -⟩ |
    ⟨hmade, -⟩
  · rw [hmade]
    exact hroom
  · rw [hmade] at h
    exact Bool.noConfusion h

structure SameRest (s s' : State β κ σ) : Prop where
  stores : s'.stores = s.stores
  handling : s'.handling = s.handling
  replies : s'.replies = s.replies
  nextRef : s'.nextRef = s.nextRef

theorem SameRest.trans {s s' s'' : State β κ σ} (h : SameRest s s') (h' : SameRest s' s'') :
    SameRest s s'' :=
  ⟨h'.stores.trans h.stores, h'.handling.trans h.handling, h'.replies.trans h.replies,
    h'.nextRef.trans h.nextRef⟩

theorem makeRegistryRoom_rest (R : Rules β κ) (s : State β κ σ) (now : ℤ) (addBytes addSlots : ℕ) :
    SameRest s (s.makeRegistryRoom R now addBytes addSlots).1 := by
  rcases makeRegistryRoom_cases R s now addBytes addSlots with ⟨gone, rest, -, hmade, -⟩ |
    ⟨hmade, -⟩ <;> rw [hmade] <;> exact ⟨rfl, rfl, rfl, rfl⟩

/-- The size of a record that stays is kept. -/
theorem makeRegistryRoom_bytesOf {now : ℤ} {addBytes addSlots : ℕ} {n : ℕ}
    (hk : (s.makeRegistryRoom R now addBytes addSlots).1.agents.get? k ≠ none)
    (hn : s.recordBytes.get? k = some n) :
    (s.makeRegistryRoom R now addBytes addSlots).1.recordBytes.get? k = some n := by
  rcases makeRegistryRoom_get? R s now addBytes addSlots k with hsame | ⟨hnone, -⟩
  swap
  · exact absurd hnone hk
  obtain ⟨r, hr⟩ := ne_none_iff_exists'.mp (hsame ▸ hk)
  have hmeasured : (s.registryBytes R).1.recordBytes.get? k = some n := by
    rw [get?_registryBytes R s hr, State.measured, hn, getD_some]
  rcases makeRegistryRoom_cases R s now addBytes addSlots with ⟨gone, rest, -, hmade, -⟩ |
    ⟨hmade, -⟩
  · rw [hmade] at hk ⊢
    have hkeep : k ∉ gone := by
      intro hgone
      apply hk
      change (OrdMap.filterKeys _ _).get? k = none
      rw [get?_filterKeys, if_neg (by simpa using hgone)]
    change (OrdMap.filterKeys _ _).get? k = _
    rw [get?_filterKeys, if_pos (by simpa using hkeep), hmeasured]
  · rw [hmade]
    exact hmeasured

end

end Turma.Heartbeat
