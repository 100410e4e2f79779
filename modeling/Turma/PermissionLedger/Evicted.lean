import Mathlib.Algebra.Order.BigOperators.Group.List
import Turma.PermissionLedger.Fair

/-! Eviction as a whole: every limit is kept, the rows that go are the ones that should, and what is
returned is what is gone. -/

namespace Turma.PermissionLedger

open Turma.Lib Turma.Tenancy List OrdMap JsString

variable {hosts : Hosts} {l : Limits} {now : ℕ}

theorem mem_allRows {e : JsString × Row} :
    e ∈ allRows hosts ↔ ∃ m, (e.1, m) ∈ hosts.entries ∧ e.2 ∈ m.values := by
  unfold allRows
  rw [mem_flatMap]
  constructor
  · rintro ⟨⟨host, m⟩, hm, he⟩
    obtain ⟨r, hr, rfl⟩ := mem_map.mp he
    exact ⟨m, hm, hr⟩
  · rintro ⟨m, hm, hr⟩
    exact ⟨_, hm, mem_map.mpr ⟨e.2, hr, rfl⟩⟩

theorem Keyed.hot_of_mem (h : Keyed hosts) {e : JsString × Row} :
    e ∈ allRows hosts ↔ hot hosts (keyOf e) = some e.2 := by
  rw [mem_allRows, hot_eq_some]
  refine exists_congr fun m => and_congr_right fun hm => ?_
  rw [(h.rows hm).get?]
  exact (and_iff_left rfl).symm

theorem Keyed.dropKeys (h : Keyed hosts) (ks : List Key) : Keyed (dropKeys hosts ks) := by
  intro k r hr
  rw [hot_dropKeys] at hr
  split_ifs at hr
  exact h k r hr

theorem Keyed.nodup (h : Keyed hosts) : ((allRows hosts).map keyOf).Nodup := by
  have hids : (allRows hosts).map keyOf =
      hosts.entries.flatMap fun e => e.2.keys.map fun id => (e.1, id) := by
    rw [allRows, map_flatMap]
    refine flatMap_congr fun e he => ?_
    rw [← (h.rows he).ids, map_map, map_map]
    rfl
  rw [hids, nodup_flatMap]
  refine ⟨fun e _ => e.2.nodup.map fun a b hab => (Prod.mk.inj hab).2, ?_⟩
  refine (pairwise_map.mp hosts.nodup).imp fun hne => ?_
  intro k hk hk'
  obtain ⟨_, _, rfl⟩ := mem_map.mp hk
  obtain ⟨_, _, heq⟩ := mem_map.mp hk'
  exact hne (Prod.mk.inj heq).1.symm

/-- The rows without these keys are the rows of the model without them. -/
theorem Keyed.allRows_dropKeys (h : Keyed hosts) (ks : List Key) :
    allRows (PermissionLedger.dropKeys hosts ks) = without (allRows hosts) ks := by
  unfold allRows PermissionLedger.dropKeys
  -- a host that keeps no row adds none
  have hempty : ∀ es : List (JsString × Rows),
      (es.filter fun e => e.2.size ≠ 0).flatMap (fun e => e.2.values.map fun r => (e.1, r)) =
        es.flatMap fun e => e.2.values.map fun r => (e.1, r) := by
    intro es
    induction es with
    | nil => rfl
    | cons e es ih =>
      by_cases hsize : e.2.size = 0
      · have hvalues : e.2.values = [] := by
          rw [OrdMap.values, length_eq_zero_iff.mp hsize]
          rfl
        rw [filter_cons_of_neg (by simp [hsize]), ih, flatMap_cons, hvalues]
        rfl
      · rw [filter_cons_of_pos (by simp [hsize]), flatMap_cons, ih, flatMap_cons]
  rw [hempty, flatMap_map, without, filter_flatMap]
  refine flatMap_congr fun e he => ?_
  rw [(h.rows he).values_filterKeys, filter_map]
  rfl

theorem mem_hostPass {host : JsString} {m : Rows}
    (hm : (host, m) ∈ hosts.entries) {id : JsString} :
    (host, id) ∈ hostPass l now hosts ↔ id ∈ evictHost l now m := by
  rw [hostPass, mem_flatMap]
  constructor
  · rintro ⟨⟨host', m'⟩, hm', hid⟩
    obtain ⟨id', hid', heq⟩ := mem_map.mp hid
    obtain ⟨rfl, rfl⟩ := Prod.mk.inj heq
    have hsame : m' = m := congrArg Prod.snd (inj_on_of_nodup_map hosts.nodup hm' hm rfl)
    exact hsame ▸ hid'
  · intro hid
    exact ⟨_, hm, mem_map.mpr ⟨id, hid, rfl⟩⟩

theorem hostPass_keys (l : Limits) (now : ℕ) (h : Keyed hosts) : (hostPass l now hosts).Nodup ∧
    ∀ k ∈ hostPass l now hosts, ∃ r, hot hosts k = some r := by
  have htrim : ∀ e ∈ hosts.entries, (evictHost l now e.2).Nodup ∧
      ∀ id ∈ evictHost l now e.2, ∃ r, e.2.get? id = some r := by
    intro e he
    obtain ⟨dropped, kept, hids, ht⟩ := evictHost_trim l now (h.rows he)
    have hnodup := ((ht.split.map Row.id).nodup_iff).mpr (h.rows he).nodup
    rw [map_append] at hnodup
    rw [hids]
    refine ⟨(nodup_append.mp hnodup).1, fun id hid => ?_⟩
    obtain ⟨r, hr, rfl⟩ := mem_map.mp hid
    have hmem : r ∈ e.2.values := ht.split.mem_iff.mp (mem_append_left _ hr)
    exact ⟨r, (h.rows he).get?.mpr ⟨hmem, rfl⟩⟩
  constructor
  · rw [hostPass, nodup_flatMap]
    refine ⟨fun e he => (htrim e he).1.map fun a b hab => (Prod.mk.inj hab).2, ?_⟩
    refine (pairwise_map.mp hosts.nodup).imp fun hne => ?_
    intro k hk hk'
    obtain ⟨_, _, rfl⟩ := mem_map.mp hk
    obtain ⟨_, _, heq⟩ := mem_map.mp hk'
    exact hne (Prod.mk.inj heq).1.symm
  · intro k hk
    obtain ⟨e, he, hk⟩ := mem_flatMap.mp hk
    obtain ⟨id, hid, rfl⟩ := mem_map.mp hk
    obtain ⟨r, hr⟩ := (htrim e he).2 id hid
    exact ⟨r, hot_eq_some.mpr ⟨e.2, he, hr⟩⟩

/-- What a host keeps behind both passes. -/
theorem host_left (h : Keyed hosts) (ks : List Key) {e : JsString × Rows}
    (he : e ∈ (dropKeys (dropKeys hosts (hostPass l now hosts)) ks).entries) :
    ∃ m dropped kept, (e.1, m) ∈ hosts.entries ∧ HostTrim l now m.values dropped kept ∧
      ∃ rows, e.2.values.Sublist rows ∧ rows.Perm kept := by
  obtain ⟨⟨host, m'⟩, hm', rfl⟩ := mem_map.mp (mem_filter.mp he).1
  obtain ⟨⟨host', m⟩, hm, heq⟩ := mem_map.mp (mem_filter.mp hm').1
  obtain ⟨rfl, rfl⟩ := Prod.mk.inj heq
  obtain ⟨dropped, kept, hids, ht⟩ := evictHost_trim l now (h.rows hm)
  have hpass : (m.filterKeys fun id => (host', id) ∉ hostPass l now hosts) =
      m.filterKeys fun id => id ∉ dropped.map Row.id := by
    rw [← hids]
    refine eq_of_entries (filter_congr fun e _ => ?_)
    rw [decide_eq_decide, mem_hostPass hm]
  refine ⟨m, dropped, kept, hm, ht, _, ?_, ht.stays (h.rows hm)⟩
  rw [hpass]
  exact filter_sublist.map _

theorem newestFirst_sorted (held : Held) :
    (newestFirst held).Pairwise fun a b => b.2.openedAt ≤ a.2.openedAt := by
  refine pairwise_mergeSort_of (fun a b c hab hbc => hbc.trans hab) (fun a b h => ?_)
    (fun a b h => ?_) held
  · simp only [Bool.or_eq_true, Bool.and_eq_true, decide_eq_true_eq] at h
    omega
  · simp only [Bool.or_eq_false_iff, decide_eq_false_iff_not] at h
    omega

/-- The loop starts with the rows by their tenants. -/
theorem shares_tenants (rows : Held) :
    Shares ((OrdMap.groupBy (fun e => tenantOfHostKey e.1) rows).values.map newestFirst) rows := by
  have hgroup : ∀ e ∈ (OrdMap.groupBy (fun e : JsString × Row => tenantOfHostKey e.1) rows).entries,
      ∀ x ∈ newestFirst e.2, tenantOfHostKey x.1 = e.1 := by
    intro e he x hx
    have hget := get?_eq_some.mpr he
    rw [get?_groupBy] at hget
    split_ifs at hget
    rw [newestFirst, mem_mergeSort, ← Option.some.inj hget] at hx
    exact of_decide_eq_true (mem_filter.mp hx).2
  constructor
  · refine Perm.trans ?_ (flatten_groupBy (fun e => tenantOfHostKey e.1) rows)
    generalize (OrdMap.groupBy (fun e : JsString × Row => tenantOfHostKey e.1) rows).values = groups
    induction groups with
    | nil => exact .refl _
    | cons held groups ih =>
      rw [map_cons, flatten_cons, flatten_cons]
      exact (mergeSort_perm _ _).append ih
  · intro held hheld e he e' he'
    rw [OrdMap.values, map_map] at hheld
    obtain ⟨g, hg, rfl⟩ := mem_map.mp hheld
    rw [hgroup g hg e he, hgroup g hg e' he']
  · rw [OrdMap.values, map_map, pairwise_map]
    have hkeys := pairwise_map.mp
      (OrdMap.groupBy (fun e : JsString × Row => tenantOfHostKey e.1) rows).nodup
    refine hkeys.imp_of_mem fun {g g'} hg hg' hne e he e' he' => ?_
    rw [hgroup g hg e he, hgroup g' hg' e' he']
    exact hne
  · intro held hheld
    obtain ⟨g, _, rfl⟩ := mem_map.mp hheld
    exact newestFirst_sorted g

theorem storePass_trims (l : Limits) (hosts : Hosts) :
    Trims l (allRows hosts) (storePass l hosts) :=
  (evictStore_trims l (shares_tenants (allRows hosts)) le_rfl).1

/-- The loop of the store pass, given more turns than there are rows, ends as it does. -/
theorem storePass_ends (l : Limits) (hosts : Hosts) (extra : ℕ) :
    evictStore ((allRows hosts).length + extra) ((allRows hosts).length - l.maxRows)
        (heldBytes (allRows hosts) - l.maxBytes)
        ((OrdMap.groupBy (fun e => tenantOfHostKey e.1) (allRows hosts)).values.map newestFirst) =
      storePass l hosts := by
  induction extra with
  | zero => rfl
  | succ extra ih =>
    rw [← ih, ← Nat.add_assoc]
    exact (evictStore_trims l (shares_tenants _) (Nat.le_add_right _ _)).2

def betweenPasses (l : Limits) (now : ℕ) (hosts : Hosts) : Hosts :=
  dropKeys hosts (hostPass l now hosts)

structure EvictsFairly (l : Limits) (now : ℕ) (hosts : Hosts) : Prop where
  ends : ∀ extra, evictStore ((allRows (betweenPasses l now hosts)).length + extra)
      ((allRows (betweenPasses l now hosts)).length - l.maxRows)
      (heldBytes (allRows (betweenPasses l now hosts)) - l.maxBytes)
      ((OrdMap.groupBy (fun e => tenantOfHostKey e.1)
        (allRows (betweenPasses l now hosts))).values.map newestFirst) =
    storePass l (betweenPasses l now hosts)
  rows : (allRows (evict l now hosts).1).length ≤ l.maxRows
  bytes : heldBytes (allRows (evict l now hosts).1) ≤ l.maxBytes
  host : ∀ e ∈ (evict l now hosts).1.entries,
    e.2.size ≤ l.hostMaxRows ∧ rowBytes e.2.values ≤ l.maxBytes / 4
  retained : ∀ e ∈ allRows (evict l now hosts).1, now ≤ e.2.openedAt + l.days * dayMs
  host_oldest : ∀ host id id' r r', (host, id) ∈ hostPass l now hosts →
    hot hosts (host, id) = some r → hot (betweenPasses l now hosts) (host, id') = some r' →
      r.openedAt ≤ r'.openedAt
  tenant_oldest : ∀ k k' r r', k ∈ storePass l (betweenPasses l now hosts) →
    hot (betweenPasses l now hosts) k = some r → hot (evict l now hosts).1 k' = some r' →
      tenantOfHostKey k'.1 = tenantOfHostKey k.1 → r.openedAt ≤ r'.openedAt
  pays : ∀ before k after, storePass l (betweenPasses l now hosts) = before ++ k :: after →
    ∃ r, hot (dropKeys (betweenPasses l now hosts) before) k = some r ∧
      Pays l (allRows (dropKeys (betweenPasses l now hosts) before)) (k.1, r)
  returned : (evict l now hosts).2 =
    hostPass l now hosts ++ storePass l (betweenPasses l now hosts)
  once : (evict l now hosts).2.Nodup
  exact : ∀ k, k ∈ (evict l now hosts).2 ↔
    (∃ r, hot hosts k = some r) ∧ hot (evict l now hosts).1 k = none
  others : ∀ k ∉ (evict l now hosts).2, hot (evict l now hosts).1 k = hot hosts k

theorem Keyed.pays_at (h : Keyed hosts) {before after : List Key} {k : Key}
    (hks : storePass l hosts = before ++ k :: after) :
    ∃ r, hot (PermissionLedger.dropKeys hosts before) k = some r ∧
      Pays l (allRows (PermissionLedger.dropKeys hosts before)) (k.1, r) := by
  obtain ⟨e, rfl, hpays⟩ := (storePass_trims l hosts).pays_at h.nodup hks
  rw [← h.allRows_dropKeys] at hpays
  exact ⟨e.2, (h.dropKeys before).hot_of_mem.mp hpays.held, hpays⟩

/-- Eviction, of a model whose rows stand under their ids. -/
theorem evict_keeps_bounds (l : Limits) (now : ℕ) (hosts : Hosts) (h : Keyed hosts) :
    EvictsFairly l now hosts := by
  have hmid : Keyed (betweenPasses l now hosts) := h.dropKeys _
  have htrims := storePass_trims l (betweenPasses l now hosts)
  have hfitted := htrims.fitted hmid.nodup
  obtain ⟨hstoreNodup, hstoreMem⟩ := htrims.keys hmid.nodup
  rw [← hmid.allRows_dropKeys] at hfitted
  have hmem : ∀ k ∈ storePass l (betweenPasses l now hosts),
      ∃ r, hot (betweenPasses l now hosts) k = some r := by
    intro k hk
    obtain ⟨e, he, rfl⟩ := mem_map.mp (hstoreMem k hk)
    exact ⟨e.2, hmid.hot_of_mem.mp he⟩
  -- no key of the second pass is one of the first
  have hapart : ∀ k ∈ storePass l (betweenPasses l now hosts), k ∉ hostPass l now hosts := by
    intro k hk hhost
    obtain ⟨r, hr⟩ := hmem k hk
    rw [betweenPasses, hot_dropKeys, if_pos hhost] at hr
    cases hr
  obtain ⟨hhostNodup, hhostMem⟩ := hostPass_keys l now h
  have hnone : ∀ k ∈ (evict l now hosts).2, ∃ r, hot hosts k = some r := by
    intro k hk
    rcases mem_append.mp hk with hk | hk
    · exact hhostMem k hk
    · obtain ⟨r, hr⟩ := hmem k hk
      rw [betweenPasses, hot_dropKeys, if_neg (hapart k hk)] at hr
      exact ⟨r, hr⟩
  constructor
  · exact storePass_ends l _
  · exact hfitted.1
  · exact hfitted.2
  · intro e he
    obtain ⟨m, dropped, kept, hm, ht, rows, hsub, hperm⟩ := host_left h _ he
    constructor
    · have hsize : e.2.size = e.2.values.length := (length_map _).symm
      rw [hsize]
      exact (hsub.length_le.trans hperm.length_eq.le).trans ht.rows
    · refine le_trans ?_ ht.bytes
      rw [← rowBytes_perm hperm]
      exact (hsub.map bytesOf).sum_le_sum fun _ _ => Nat.zero_le _
  · intro e he
    obtain ⟨m', hm', hr⟩ := mem_allRows.mp he
    obtain ⟨m, dropped, kept, hm, ht, rows, hsub, hperm⟩ := host_left h _ hm'
    exact ht.retained e.2 (hperm.mem_iff.mp (hsub.mem hr))
  · intro host id id' r r' hk hr hr'
    rw [betweenPasses, hot_dropKeys] at hr'
    split_ifs at hr' with hkept
    obtain ⟨m, hm, hget⟩ := hot_eq_some.mp hr
    obtain ⟨m', hm', hget'⟩ := hot_eq_some.mp hr'
    obtain rfl : m' = m := congrArg Prod.snd (inj_on_of_nodup_map hosts.nodup hm' hm rfl)
    obtain ⟨dropped, kept, hids, ht⟩ := evictHost_trim l now (h.rows hm)
    rw [mem_hostPass hm, hids] at hk hkept
    obtain ⟨hrmem, rfl⟩ := (h.rows hm).get?.mp hget
    obtain ⟨hrmem', rfl⟩ := (h.rows hm).get?.mp hget'
    obtain ⟨r₁, hr₁, hid⟩ := mem_map.mp hk
    have hsame : r₁ = r := inj_on_of_nodup_map (h.rows hm).nodup
      (ht.split.mem_iff.mp (mem_append_left _ hr₁)) hrmem hid
    refine ht.oldest r (hsame ▸ hr₁) r' ?_
    rcases mem_append.mp (ht.split.mem_iff.mpr hrmem') with hd | hk'
    · exact absurd (mem_map_of_mem hd) hkept
    · exact hk'
  · intro k k' r r' hk hr hr' hsame
    obtain ⟨before, after, hks⟩ := append_of_mem hk
    obtain ⟨r₁, hr₁, hpays⟩ := hmid.pays_at hks
    rw [hot_dropKeys] at hr₁
    split_ifs at hr₁
    obtain rfl : r = r₁ := Option.some.inj (hr.symm.trans hr₁)
    rw [evict_eq] at hr'
    have hr'' : hot (dropKeys (betweenPasses l now hosts) (storePass l (betweenPasses l now hosts))) k' =
        some r' := hr'
    rw [hot_dropKeys, hks] at hr''
    split_ifs at hr'' with hkept
    have hid : r'.id = k'.2 := hmid k' r' hr''
    have hthere : hot (dropKeys (betweenPasses l now hosts) before) k' = some r' := by
      rw [hot_dropKeys, if_neg fun hb => hkept (mem_append_left _ hb), hr'']
    refine hpays.oldest (k'.1, r') ((hmid.dropKeys before).hot_of_mem.mpr ?_) hsame
    rw [keyOf, hid]
    exact hthere
  · exact fun before k after hks => hmid.pays_at hks
  · rfl
  · rw [evict_eq, nodup_append]
    exact ⟨hhostNodup, hstoreNodup, fun a ha b hb heq => hapart b hb (heq ▸ ha)⟩
  · intro k
    constructor
    · intro hk
      exact ⟨hnone k hk, by rw [hot_evict, if_pos hk]⟩
    · rintro ⟨⟨r, hr⟩, hgone⟩
      by_contra hk
      rw [hot_evict, if_neg hk, hr] at hgone
      cases hgone
  · intro k hk
    rw [hot_evict, if_neg hk]

def twoHosts : Hosts where
  entries := [(ofString "box", ⟨[(question.id, question)], nodup_singleton _⟩),
    (ofString "lab", ⟨[(question.id, { question with openedAt := 900 })],
      nodup_singleton _⟩)]
  nodup := by decide

theorem keyed_twoHosts : Keyed twoHosts := by
  intro k r hr
  obtain ⟨m, hm, hget⟩ := hot_eq_some.mp hr
  simp only [twoHosts, mem_cons, not_mem_nil, or_false, Prod.mk.injEq] at hm
  rcases hm with ⟨-, rfl⟩ | ⟨-, rfl⟩
  · have hmem := get?_eq_some.mp hget
    obtain ⟨hid, rfl⟩ := Prod.mk.inj (mem_singleton.mp hmem)
    exact hid.symm
  · have hmem := get?_eq_some.mp hget
    obtain ⟨hid, rfl⟩ := Prod.mk.inj (mem_singleton.mp hmem)
    exact hid.symm

theorem evict_keeps_bounds_twoHosts : EvictsFairly { defaultLimits with maxRows := 1 } 2000 twoHosts :=
  evict_keeps_bounds _ _ _ keyed_twoHosts

end Turma.PermissionLedger
