import Mathlib.Data.List.MinMax
import Mathlib.Logic.Relation
import Turma.Ledger.FileSize
import Turma.Ledger.Share

/-! What `evictOverflow` gives up. Every host it drops is one of the tenant that weighs the most
at that moment, counted in hosts over the count ceiling and in bytes over the byte ceiling. -/

namespace Turma.Ledger

open Turma.Lib Relation List OrdMap
open Option hiding min_eq_left

def tenantWeight (hosts : Hosts) (weight : JsString → ℕ) (t : JsString) : ℕ :=
  (((ownKeys hosts).filter fun k => tenantOfHostKey k = t).map weight).sum

/-- `k` is a host that may go, its tenant is the heaviest of those with such a host, and none of
the tenant's others goes before it. -/
structure Victim (hosts : Hosts) (weight : JsString → ℕ) (victimFirst : JsString → JsString → Prop)
    (eligible : JsString → Bool) (k : JsString) : Prop where
  held : k ∈ hosts.keys
  may_go : eligible k = true
  heaviest : ∀ k' ∈ hosts.keys, eligible k' = true →
    tenantWeight hosts weight (tenantOfHostKey k') ≤ tenantWeight hosts weight (tenantOfHostKey k)
  first : ∀ k' ∈ hosts.keys, eligible k' = true → tenantOfHostKey k' = tenantOfHostKey k →
    victimFirst k k'

def tenantsOf (hosts : Hosts) (weight : JsString → ℕ) (eligible : JsString → Bool) :
    List (List JsString × ℕ) :=
  (OrdMap.groupBy tenantOfHostKey (ownKeys hosts)).values.map fun held =>
    (held.filter eligible, (held.map weight).sum)

/-- The loop that looks for the heaviest passes over the tenants without an eligible host. -/
theorem foldl_heaviest {α : Type*} (skip : α → Prop) [DecidablePred skip] (w : α → ℕ)
    (xs : List α) :
    xs.foldl (fun (big : Option α) x =>
      if skip x then big
      else match big with
        | none => some x
        | some b => if w b < w x then some x else some b) none =
      (xs.filter fun x => !decide (skip x)).argmax w := by
  rw [List.argmax, foldl_filter]
  congr 1
  funext big x
  by_cases hx : skip x
  · simp [hx]
  · cases big <;> simp [hx, List.argAux]

theorem fromBiggestTenant_eq (hosts : Hosts) (weight : JsString → ℕ)
    (victimFirst : JsString → JsString → Prop) [DecidableRel victimFirst]
    (eligible : JsString → Bool) :
    fromBiggestTenant hosts weight victimFirst eligible =
      (((tenantsOf hosts weight eligible).filter fun held => !decide (held.1 = [])).argmax
        Prod.snd).bind fun b => (b.1.insertionSort victimFirst).head? := by
  rw [← foldl_heaviest fun held : List JsString × ℕ => held.1 = []]
  unfold fromBiggestTenant tenantsOf
  dsimp only
  congr 2
  funext big held
  cases big <;> rfl

theorem mem_tenantsOf {hosts : Hosts} {weight : JsString → ℕ} {eligible : JsString → Bool}
    {held : List JsString × ℕ} : held ∈ tenantsOf hosts weight eligible ↔
      ∃ k ∈ hosts.keys, held =
        (((ownKeys hosts).filter fun k' => tenantOfHostKey k' = tenantOfHostKey k).filter eligible,
          tenantWeight hosts weight (tenantOfHostKey k)) := by
  have hgroup (t : JsString) (g : List JsString) :
      (t, g) ∈ (OrdMap.groupBy tenantOfHostKey (ownKeys hosts)).entries ↔
        (∃ k ∈ hosts.keys, tenantOfHostKey k = t) ∧
          g = (ownKeys hosts).filter fun k' => tenantOfHostKey k' = t := by
    rw [← get?_eq_some, get?_groupBy]
    split_ifs with hempty
    · refine iff_of_false nofun (not_and.mpr ?_)
      rintro ⟨k, hk, rfl⟩
      exact absurd hempty (ne_nil_of_mem
        (mem_filter.mpr ⟨mem_ownKeys.mpr hk, decide_eq_true rfl⟩))
    · obtain ⟨k, hk⟩ := exists_mem_of_ne_nil _ hempty
      obtain ⟨hk, ht⟩ := mem_filter.mp hk
      rw [Option.some.injEq, eq_comm]
      exact ⟨fun h => ⟨⟨k, mem_ownKeys.mp hk, of_decide_eq_true ht⟩, h⟩, And.right⟩
  simp only [tenantsOf, OrdMap.values, List.map_map, List.mem_map, Function.comp_apply]
  constructor
  · rintro ⟨⟨t, g⟩, he, rfl⟩
    obtain ⟨⟨k, hk, rfl⟩, rfl⟩ := (hgroup t g).mp he
    exact ⟨k, hk, rfl⟩
  · rintro ⟨k, hk, rfl⟩
    exact ⟨(tenantOfHostKey k, _), (hgroup _ _).mpr ⟨⟨k, hk, rfl⟩, rfl⟩, rfl⟩

section

variable {hosts : Hosts} {weight : JsString → ℕ} {victimFirst : JsString → JsString → Prop}
  [DecidableRel victimFirst] {eligible : JsString → Bool} {k : JsString}

theorem victim_of_fromBiggestTenant [Std.Total victimFirst] [IsTrans JsString victimFirst]
    (h : fromBiggestTenant hosts weight victimFirst eligible = some k) :
    Victim hosts weight victimFirst eligible k := by
  rw [fromBiggestTenant_eq, bind_eq_some_iff] at h
  obtain ⟨b, hb, hhead⟩ := h
  obtain ⟨hmem, hne⟩ := mem_filter.mp (argmax_mem hb)
  obtain ⟨k₀, -, rfl⟩ := mem_tenantsOf.mp hmem
  obtain ⟨ks, hks⟩ := head?_eq_some_iff.mp hhead
  have hin (k' : JsString) : k' ∈ k :: ks ↔
      (k' ∈ hosts.keys ∧ tenantOfHostKey k' = tenantOfHostKey k₀) ∧ eligible k' = true := by
    rw [← hks, mem_insertionSort, mem_filter, mem_filter, mem_ownKeys,
      decide_eq_true_eq]
  obtain ⟨⟨hheld, ht⟩, helig⟩ := (hin k).mp mem_cons_self
  refine ⟨hheld, helig, fun k' hk' he' => ?_, fun k' hk' he' ht' => ?_⟩
  · have hgroup : (((ownKeys hosts).filter fun x => tenantOfHostKey x = tenantOfHostKey k').filter
        eligible, tenantWeight hosts weight (tenantOfHostKey k')) ∈
          (tenantsOf hosts weight eligible).filter fun held => !decide (held.1 = []) := by
      refine mem_filter.mpr ⟨mem_tenantsOf.mpr ⟨k', hk', rfl⟩, ?_⟩
      have hne' : k' ∈ ((ownKeys hosts).filter fun x =>
          tenantOfHostKey x = tenantOfHostKey k').filter eligible :=
        mem_filter.mpr ⟨mem_filter.mpr ⟨mem_ownKeys.mpr hk', decide_eq_true rfl⟩, he'⟩
      simpa using ne_nil_of_mem hne'
    rw [ht]
    exact le_of_mem_argmax (f := Prod.snd) hgroup hb
  · have hsorted := pairwise_insertionSort victimFirst
      (((ownKeys hosts).filter fun x => tenantOfHostKey x = tenantOfHostKey k₀).filter eligible)
    rw [hks, pairwise_cons] at hsorted
    rcases mem_cons.mp ((hin k').mpr ⟨⟨hk', ht'.trans ht⟩, he'⟩) with rfl | hmem'
    · exact (Std.Total.total k' k').elim id id
    · exact hsorted.1 k' hmem'

/-- With an eligible host there is a victim. -/
theorem fromBiggestTenant_isSome (hk : k ∈ hosts.keys) (he : eligible k = true) :
    (fromBiggestTenant hosts weight victimFirst eligible).isSome = true := by
  have hmem : k ∈ ((ownKeys hosts).filter fun x =>
      tenantOfHostKey x = tenantOfHostKey k).filter eligible :=
    mem_filter.mpr ⟨mem_filter.mpr ⟨mem_ownKeys.mpr hk, decide_eq_true rfl⟩, he⟩
  have hgroup : (((ownKeys hosts).filter fun x => tenantOfHostKey x = tenantOfHostKey k).filter
      eligible, tenantWeight hosts weight (tenantOfHostKey k)) ∈
        (tenantsOf hosts weight eligible).filter fun held => !decide (held.1 = []) :=
    mem_filter.mpr ⟨mem_tenantsOf.mpr ⟨k, hk, rfl⟩, by simpa using ne_nil_of_mem hmem⟩
  rw [fromBiggestTenant_eq]
  cases hbig : ((tenantsOf hosts weight eligible).filter fun held =>
      !decide (held.1 = [])).argmax Prod.snd with
  | none =>
    rw [argmax_eq_none] at hbig
    rw [hbig] at hgroup
    exact absurd hgroup not_mem_nil
  | some b =>
    obtain ⟨-, hne⟩ := mem_filter.mp (argmax_mem hbig)
    cases hsort : b.1.insertionSort victimFirst with
    | nil =>
      have hnil : b.1 = [] := by
        have hlen := length_insertionSort victimFirst b.1
        rw [hsort] at hlen
        exact length_eq_zero_iff.mp hlen.symm
      simp [hnil] at hne
    | cons => simp [hsort]

end

/-- The hosts that the count ceiling may take: the quiet ones, or all when all are live. -/
def mayGo (hosts : Hosts) (now : ℕ) (k : JsString) : Bool :=
  quiet hosts now k || !(ownKeys hosts).any (quiet hosts now)

structure CountEviction (ledgerHosts now : ℕ) (hosts hosts' : Hosts) : Prop where
  too_many : ledgerHosts < hosts.size
  evicts : ∃ k, hosts' = hosts.erase k ∧
    (quiet hosts now k = false → ∀ k' ∈ hosts.keys, quiet hosts now k' = false) ∧
    Victim hosts (fun _ => 1) (fun a b => lastSeenOf hosts a ≤ lastSeenOf hosts b)
      (mayGo hosts now) k

/-- One host of a store over the byte ceiling is held to its share. -/
structure Trim (L : Limits) (hosts hosts' : Hosts) : Prop where
  too_big : fits L hosts = false
  trims : ∃ k ∈ hosts.keys, hosts' = hosts.adjust k (enforceHostShare L)

structure ByteEviction (L : Limits) (hosts hosts' : Hosts) : Prop where
  too_big : fits L hosts = false
  not_last : 1 < hosts.size
  evicts : ∃ k, hosts' = hosts.erase k ∧
    Victim hosts (sizeOf hosts) (fun a b => sizeOf hosts b ≤ sizeOf hosts a) (fun _ => true) k

theorem size_erase {hosts : Hosts} {k : JsString} (hk : k ∈ hosts.keys) :
    (hosts.erase k).size + 1 = hosts.size := by
  have hsize := size_filterKeys_not_mem (nodup_singleton k) fun k' hk' =>
    (mem_singleton.mp hk').symm ▸ hk
  simp only [mem_singleton, length_singleton] at hsize
  exact hsize

theorem exists_key {hosts : Hosts} (h : 0 < hosts.size) : ∃ k, k ∈ hosts.keys := by
  by_contra hnone
  exact h.ne' (size_eq_zero.mpr (not_exists.mp hnone))

theorem stalest_spec {hosts : Hosts} (now : ℕ) (h : 0 < hosts.size) :
    ∃ k, stalest hosts now = some k ∧
      (quiet hosts now k = false → ∀ k' ∈ hosts.keys, quiet hosts now k' = false) ∧
      Victim hosts (fun _ => 1) (fun a b => lastSeenOf hosts a ≤ lastSeenOf hosts b)
        (mayGo hosts now) k := by
  have heligible : ∃ k ∈ hosts.keys, mayGo hosts now k = true := by
    obtain ⟨k, hk⟩ := exists_key h
    by_cases hquiet : (ownKeys hosts).any (quiet hosts now) = true
    · obtain ⟨k', hk', hq⟩ := List.any_eq_true.mp hquiet
      exact ⟨k', mem_ownKeys.mp hk', by simp [mayGo, hq]⟩
    · exact ⟨k, hk, by simp [mayGo, hquiet]⟩
  obtain ⟨k₀, hk₀, hgo⟩ := heligible
  have hsome : (stalest hosts now).isSome = true := fromBiggestTenant_isSome hk₀ hgo
  obtain ⟨k, hk⟩ := isSome_iff_exists.mp hsome
  have hvictim := victim_of_fromBiggestTenant hk
  refine ⟨k, hk, fun hlive k' hk' => ?_, hvictim⟩
  have hnone : (ownKeys hosts).any (quiet hosts now) = false := by
    simpa [mayGo, hlive] using hvictim.may_go
  simpa using List.any_eq_false.mp hnone k' (mem_ownKeys.mpr hk')

theorem biggest_spec {hosts : Hosts} (h : 0 < hosts.size) :
    ∃ k, biggest hosts = some k ∧
      Victim hosts (sizeOf hosts) (fun a b => sizeOf hosts b ≤ sizeOf hosts a) (fun _ => true) k := by
  obtain ⟨k₀, hk₀⟩ := exists_key h
  have hsome : (biggest hosts).isSome = true := fromBiggestTenant_isSome hk₀ rfl
  obtain ⟨k, hk⟩ := isSome_iff_exists.mp hsome
  exact ⟨k, hk, victim_of_fromBiggestTenant hk⟩

theorem evictCount_run {ledgerHosts n : ℕ} (now : ℕ) {hosts : Hosts}
    (h : ledgerHosts + n ≤ hosts.size) :
    ReflTransGen (CountEviction ledgerHosts now) hosts (evictCount now n hosts) ∧
      (evictCount now n hosts).size + n = hosts.size := by
  induction n generalizing hosts with
  | zero => exact ⟨ReflTransGen.refl, rfl⟩
  | succ n ih =>
    have hpos : 0 < hosts.size := by omega
    obtain ⟨k, hk, hlive, hvictim⟩ := stalest_spec now hpos
    have hsize := size_erase hvictim.held
    have hn : ledgerHosts + n ≤ (hosts.erase k).size := by omega
    obtain ⟨hrun, hleft⟩ := ih hn
    rw [evictCount, hk, evict]
    exact ⟨hrun.head ⟨by omega, k, rfl, hlive, hvictim⟩, by omega⟩

theorem trimBiggest_run {L : Limits} {ks : List JsString} {hosts : Hosts}
    (hks : ∀ k ∈ ks, k ∈ hosts.keys) (hbig : fits L hosts = false) :
    ReflTransGen (Trim L) hosts (trimBiggest L ks hosts) ∧
      (trimBiggest L ks hosts).size = hosts.size := by
  induction ks generalizing hosts with
  | nil => exact ⟨ReflTransGen.refl, rfl⟩
  | cons k ks ih =>
    have hstep : Trim L hosts (hosts.adjust k (enforceHostShare L)) :=
      ⟨hbig, k, hks k mem_cons_self, rfl⟩
    have hsize := size_adjust hosts k (enforceHostShare L)
    rw [trimBiggest]
    split_ifs with hfits
    · exact ⟨ReflTransGen.single hstep, hsize⟩
    · have hkeys : ∀ k' ∈ ks, k' ∈ (hosts.adjust k (enforceHostShare L)).keys := by
        intro k' hk'
        obtain ⟨e, he⟩ := OrdMap.mem_keys.mp (hks k' (mem_cons_of_mem k hk'))
        rw [OrdMap.mem_keys, get?_adjust, he]
        split_ifs
        · exact ⟨_, rfl⟩
        · exact ⟨e, rfl⟩
      obtain ⟨hrun, hleft⟩ := ih hkeys (Bool.eq_false_iff.mpr hfits)
      exact ⟨hrun.head hstep, hleft.trans hsize⟩

/-- As many rounds as there are hosts end the loop: the store fits or one host is left. -/
theorem evictBytes_run (L : Limits) {n : ℕ} {hosts : Hosts} (hn : hosts.size ≤ n + 1)
    (hsome : 0 < hosts.size) :
    ReflTransGen (ByteEviction L) hosts (evictBytes L n hosts) ∧
      0 < (evictBytes L n hosts).size ∧ (evictBytes L n hosts).size ≤ hosts.size ∧
      (fits L (evictBytes L n hosts) = true ∨ (evictBytes L n hosts).size = 1) := by
  induction n generalizing hosts with
  | zero => exact ⟨ReflTransGen.refl, hsome, le_rfl, Or.inr (by rw [evictBytes]; omega)⟩
  | succ n ih =>
    rw [evictBytes]
    split_ifs with hgo
    · obtain ⟨hbig, hmany⟩ := hgo
      obtain ⟨k, hk, hvictim⟩ := biggest_spec hsome
      have hsize := size_erase hvictim.held
      have hn' : (hosts.erase k).size ≤ n + 1 := by omega
      have hsome' : 0 < (hosts.erase k).size := by omega
      obtain ⟨hrun, hpos, hle, hend⟩ := ih hn' hsome'
      rw [hk, evict]
      exact ⟨hrun.head ⟨hbig, hmany, k, rfl, hvictim⟩, hpos, by omega, hend⟩
    · refine ⟨ReflTransGen.refl, hsome, le_rfl, ?_⟩
      rcases Bool.eq_false_or_eq_true (fits L hosts) with hfits | hfits
      · exact Or.inl hfits
      · have hlast : ¬1 < hosts.size := fun hmany => hgo ⟨hfits, hmany⟩
        exact Or.inr (by omega)

/-- The tenant's hosts take no more than an even share of the bytes. -/
def AtEvenShare (hosts : Hosts) (t : JsString) : Prop :=
  ((ownKeys hosts).map tenantOfHostKey).dedup.length * tenantWeight hosts (sizeOf hosts) t ≤
    ((ownKeys hosts).map (sizeOf hosts)).sum

/-- A tenant within its even share loses a host only when every tenant is. -/
theorem ByteEviction.spares {L : Limits} {hosts hosts' : Hosts} (h : ByteEviction L hosts hosts')
    {k : JsString} (hk : k ∈ hosts.keys) (hgone : k ∉ hosts'.keys)
    (hshare : AtEvenShare hosts (tenantOfHostKey k)) :
    ∀ k' ∈ hosts.keys, AtEvenShare hosts (tenantOfHostKey k') := by
  intro k' hk'
  obtain ⟨v, rfl, hvictim⟩ := h.evicts
  have hv : k = v := by
    by_contra hne
    exact hgone (mem_keys_filterKeys.mpr ⟨decide_eq_true hne, hk⟩)
  rw [hv] at hshare
  exact (Nat.mul_le_mul_left _ (hvictim.heaviest k' hk' rfl)).trans hshare

structure EvictsFairly (L : Limits) (now : ℕ) (hosts out : Hosts) : Prop where
  some_host : 1 ≤ out.size
  host_count : out.size ≤ L.ledgerHosts
  phases : ∃ kept trimmed left, ReflTransGen (CountEviction L.ledgerHosts now) hosts kept ∧
    ReflTransGen (Trim L) kept trimmed ∧ ReflTransGen (ByteEviction L) trimmed left ∧
    (out = left ∧ fits L out = true ∨
      fits L left = false ∧ left.size = 1 ∧
        ∃ last ∈ left.keys, out = left.adjust last (enforceHostShare L))
  spares : ∀ a b, ByteEviction L a b → ∀ k ∈ a.keys, k ∉ b.keys →
    AtEvenShare a (tenantOfHostKey k) → ∀ k' ∈ a.keys, AtEvenShare a (tenantOfHostKey k')

theorem keptHosts_run (ledgerHosts now : ℕ) (hosts : Hosts) :
    ReflTransGen (CountEviction ledgerHosts now) hosts (keptHosts ledgerHosts now hosts) ∧
      (keptHosts ledgerHosts now hosts).size = min hosts.size ledgerHosts := by
  rcases Nat.le_total hosts.size ledgerHosts with hle | hle
  · rw [keptHosts, Nat.sub_eq_zero_of_le hle, evictCount]
    exact ⟨ReflTransGen.refl, (min_eq_left hle).symm⟩
  · have hn : ledgerHosts + (hosts.size - ledgerHosts) ≤ hosts.size := by omega
    obtain ⟨hrun, hsize⟩ := evictCount_run now hn
    exact ⟨hrun, by rw [keptHosts]; omega⟩

/-- What `squeeze` does to a store of at least one host. -/
theorem squeeze_run {L : Limits} {hosts : Hosts} (hbig : fits L hosts = false)
    (hsome : 0 < hosts.size) :
    ∃ trimmed left, ReflTransGen (Trim L) hosts trimmed ∧
      ReflTransGen (ByteEviction L) trimmed left ∧ 0 < left.size ∧ left.size ≤ hosts.size ∧
      (squeeze L hosts = left ∧ fits L left = true ∨
        fits L left = false ∧ left.size = 1 ∧
          ∃ last ∈ left.keys, squeeze L hosts = left.adjust last (enforceHostShare L)) := by
  have hks : ∀ k ∈ (ownKeys hosts).insertionSort fun a b => sizeOf hosts b ≤ sizeOf hosts a,
      k ∈ hosts.keys := by
    intro k hk
    exact mem_ownKeys.mp ((mem_insertionSort _).mp hk)
  obtain ⟨htrims, htsize⟩ := trimBiggest_run hks hbig
  unfold squeeze
  dsimp only
  generalize htrimmed : trimBiggest L _ hosts = trimmed at htrims htsize ⊢
  have hsome' : 0 < trimmed.size := by omega
  obtain ⟨hbytes, hpos, hle, hend⟩ := evictBytes_run L (Nat.le_succ trimmed.size) hsome'
  generalize hleft : evictBytes L trimmed.size trimmed = left at hbytes hpos hle hend ⊢
  refine ⟨trimmed, left, htrims, hbytes, hpos, by omega, ?_⟩
  have hlen : (ownKeys left).length = left.size :=
    (ownKeys_perm left).length_eq.trans (length_keys left)
  rcases hkeys : ownKeys left with _ | ⟨last, _ | ⟨k, ks⟩⟩
  · rw [hkeys, length_nil] at hlen
    omega
  · rw [hkeys, length_singleton] at hlen
    split_ifs with hfits
    · exact Or.inl ⟨rfl, hfits⟩
    · have hlast : last ∈ left.keys := mem_ownKeys.mp (hkeys ▸ mem_singleton_self last)
      exact Or.inr ⟨Bool.eq_false_iff.mpr hfits, hlen.symm, last, hlast, rfl⟩
  · rw [hkeys, length_cons, length_cons] at hlen
    exact Or.inl ⟨rfl, hend.resolve_right (by omega)⟩

theorem evictsFairly {L : Limits} {now : ℕ} {hosts : Hosts} (hsome : 1 ≤ hosts.size)
    (h : 0 < L.ledgerHosts) : EvictsFairly L now hosts (evictOverflow L now hosts) := by
  obtain ⟨hcount, hkept⟩ := keptHosts_run L.ledgerHosts now hosts
  unfold evictOverflow
  generalize keptHosts L.ledgerHosts now hosts = kept at hcount hkept ⊢
  split_ifs with hfits
  · exact ⟨by omega, by omega,
      ⟨kept, kept, kept, hcount, ReflTransGen.refl, ReflTransGen.refl, Or.inl ⟨rfl, hfits⟩⟩,
      fun _ _ hev _ hk hgone => hev.spares hk hgone⟩
  · have hpos : 0 < kept.size := by omega
    obtain ⟨trimmed, left, htrims, hbytes, hpos, hle, hend⟩ :=
      squeeze_run (Bool.eq_false_iff.mpr hfits) hpos
    have hsize : (squeeze L kept).size = left.size := by
      rcases hend with ⟨heq, -⟩ | ⟨-, -, last, -, heq⟩
      · rw [heq]
      · rw [heq, size_adjust]
    refine ⟨by omega, by omega, ⟨kept, trimmed, left, hcount, htrims, hbytes, ?_⟩,
      fun _ _ hev _ hk hgone => hev.spares hk hgone⟩
    rcases hend with ⟨heq, hfit⟩ | hlast
    · exact Or.inl ⟨heq, by rw [heq]; exact hfit⟩
    · exact Or.inr hlast

/-- `positiveEnv`, of the number that the variable spells; `none` for what is not finite. -/
def positiveEnv (n : Option ℚ) (fallback : ℕ) : ℕ :=
  match n with
  | none => fallback
  | some n => if 0 < n then n.floor.toNat else fallback

/-- A positive setting below one is floored to zero, and then no host may stay. -/
theorem evictOverflow_iff {L : Limits} {now : ℕ} {hosts : Hosts} (hsome : 1 ≤ hosts.size) :
    EvictsFairly L now hosts (evictOverflow L now hosts) ↔ 0 < L.ledgerHosts :=
  ⟨fun h => lt_of_lt_of_le h.some_host h.host_count, evictsFairly hsome⟩

/-- Three hosts without a tenant, and one of another tenant's. -/
def crowded : Hosts :=
  [("box@00000000000000000000000000000000", 0), ("desk", 0), ("rack", 1), ("shed", 2)].foldl
    (fun hosts e => ingest shipped hosts (JsString.ofString e.1)
      ⟨[], [], some ⟨inputOnly 10, .empty, [(JsString.ofString "m", inputOnly 10)], none, 1, none⟩,
        []⟩ e.2)
    .empty

/-- A budget of three hosts, and of the bytes of two. -/
def narrow : Limits := { shipped with ledgerHosts := 3, ledgerMax := 700 }

/-- The count takes `desk`, and the bytes take `rack`. -/
theorem evictOverflow_iff_crowded :
    (evictOverflow narrow 5 crowded).keys =
        [JsString.ofString "box@00000000000000000000000000000000", JsString.ofString "shed"] ∧
      (EvictsFairly narrow 5 crowded (evictOverflow narrow 5 crowded) ↔
        0 < narrow.ledgerHosts) :=
  ⟨by decide +kernel, evictOverflow_iff (by decide)⟩

/-- With half a host allowed, the one host there is goes. -/
theorem half_host_evicts_all :
    1 ≤ accented.size ∧
      (evictOverflow { shipped with ledgerHosts := positiveEnv (some (1 / 2)) 32 } 0
        accented).size = 0 ∧
      ¬EvictsFairly { shipped with ledgerHosts := positiveEnv (some (1 / 2)) 32 } 0 accented
        (evictOverflow { shipped with ledgerHosts := positiveEnv (some (1 / 2)) 32 } 0 accented) := by
  have hempty : (evictOverflow { shipped with ledgerHosts := positiveEnv (some (1 / 2)) 32 } 0
      accented).size = 0 := by
    decide +kernel
  refine ⟨by decide, hempty, fun h => ?_⟩
  have hsome := h.some_host
  omega

end Turma.Ledger
