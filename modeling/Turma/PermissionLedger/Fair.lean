import Turma.Lib.Sort
import Turma.PermissionLedger.Model
import Turma.Tenancy.HostKey

/-! What eviction leaves of a host: its rows within the window, within its share of rows and bytes,
the older ones gone first. -/

namespace Turma.PermissionLedger

open Turma.Lib List

def keyOf (e : JsString × Row) : Key := (e.1, e.2.id)

def hostPass (l : Limits) (now : ℕ) (hosts : Hosts) : List Key :=
  hosts.entries.flatMap fun e => (evictHost l now e.2).map fun id => (e.1, id)

def storePass (l : Limits) (hosts : Hosts) : List Key :=
  evictStore (allRows hosts).length ((allRows hosts).length - l.maxRows)
    (rowBytes ((allRows hosts).map Prod.snd) - l.maxBytes)
    ((OrdMap.groupBy (fun e => Tenancy.tenantOfHostKey e.1) (allRows hosts)).values.map newestFirst)

theorem evict_eq (l : Limits) (now : ℕ) (hosts : Hosts) :
    evict l now hosts =
      (dropKeys (dropKeys hosts (hostPass l now hosts))
          (storePass l (dropKeys hosts (hostPass l now hosts))),
        hostPass l now hosts ++ storePass l (dropKeys hosts (hostPass l now hosts))) := rfl

theorem rowBytes_perm {rows rows' : List Row} (h : rows.Perm rows') : rowBytes rows = rowBytes rows' :=
  (h.map bytesOf).sum_eq

theorem rowBytes_cons (r : Row) (rows : List Row) :
    rowBytes (r :: rows) = bytesOf r + rowBytes rows := by
  simp [rowBytes]

def KeyedRows (m : Rows) : Prop := ∀ e ∈ m.entries, e.2.id = e.1

variable {m : Rows}

theorem Keyed.rows {hosts : Hosts} (h : Keyed hosts) {host : JsString}
    (hm : (host, m) ∈ hosts.entries) : KeyedRows m := fun e he =>
  h (host, e.1) e.2 (hot_eq_some.mpr ⟨m, hm, OrdMap.get?_eq_some.mpr he⟩)

theorem KeyedRows.ids (h : KeyedRows m) : m.values.map Row.id = m.keys := by
  rw [OrdMap.values, OrdMap.keys, map_map]
  exact map_congr_left fun e he => h e he

theorem KeyedRows.nodup (h : KeyedRows m) : (m.values.map Row.id).Nodup := by
  rw [h.ids]
  exact m.nodup

theorem KeyedRows.values_filterKeys (h : KeyedRows m) (p : JsString → Bool) :
    (m.filterKeys p).values = m.values.filter fun r => p r.id := by
  rw [OrdMap.values, OrdMap.values, OrdMap.filterKeys, filter_map]
  refine congrArg (List.map Prod.snd) (filter_congr fun e he => ?_)
  rw [Function.comp_apply, h e he]

theorem KeyedRows.get? (h : KeyedRows m) {id : JsString} {r : Row} :
    m.get? id = some r ↔ r ∈ m.values ∧ r.id = id := by
  rw [OrdMap.get?_eq_some]
  constructor
  · intro hmem
    exact ⟨mem_map.mpr ⟨_, hmem, rfl⟩, h _ hmem⟩
  · rintro ⟨hmem, rfl⟩
    obtain ⟨e, he, rfl⟩ := mem_map.mp hmem
    rw [h e he]
    exact he

theorem oldestFirst_perm (rows : List Row) : (oldestFirst rows).Perm rows := mergeSort_perm _ _

theorem oldestFirst_sorted (rows : List Row) :
    (oldestFirst rows).Pairwise fun a b => a.openedAt ≤ b.openedAt := by
  refine pairwise_mergeSort_of (fun a b c hab hbc => hab.trans hbc) (fun a b h => ?_)
    (fun a b h => ?_) rows
  · simp only [Bool.or_eq_true, Bool.and_eq_true, decide_eq_true_eq] at h
    omega
  · simp only [Bool.or_eq_false_iff, decide_eq_false_iff_not] at h
    omega

/-- The surplus is the first rows; what is behind is within both shares. -/
theorem surplus_spec (hostMaxBytes overRows : ℕ) (rows : List Row) :
    ∃ rest, rows = surplus hostMaxBytes overRows (rowBytes rows) rows ++ rest ∧
      rest.length ≤ rows.length - overRows ∧ rowBytes rest ≤ hostMaxBytes := by
  induction rows generalizing overRows with
  | nil => exact ⟨[], rfl, Nat.zero_le _, Nat.zero_le _⟩
  | cons r rows ih =>
    rw [surplus]
    split_ifs with hfits
    · exact ⟨r :: rows, rfl, by omega, hfits.2⟩
    · obtain ⟨rest, hrest, hlength, hbytes⟩ := ih (overRows - 1)
      rw [rowBytes_cons, Nat.add_sub_cancel_left]
      refine ⟨rest, by rw [cons_append, ← hrest], ?_, hbytes⟩
      by_cases hover : overRows = 0
      · rw [length_cons]
        omega
      · rw [length_cons]
        omega

def expired (l : Limits) (now : ℕ) (r : Row) : Bool := r.openedAt + l.days * dayMs < now

/-- What the host pass promises of the rows that it drops and of those that it keeps. -/
structure HostTrim (l : Limits) (now : ℕ) (rows dropped kept : List Row) : Prop where
  split : (dropped ++ kept).Perm rows
  rows : kept.length ≤ l.hostMaxRows
  bytes : rowBytes kept ≤ l.maxBytes / 4
  retained : ∀ r ∈ kept, now ≤ r.openedAt + l.days * dayMs
  oldest : ∀ r ∈ dropped, ∀ r' ∈ kept, r.openedAt ≤ r'.openedAt

theorem evictHost_trim (l : Limits) (now : ℕ) (h : KeyedRows m) :
    ∃ dropped kept, evictHost l now m = dropped.map Row.id ∧
      HostTrim l now m.values dropped kept := by
  have hexpired : (m.entries.filter fun e => e.2.openedAt + l.days * dayMs < now).map Prod.fst =
      (m.values.filter (expired l now)).map Row.id := by
    rw [OrdMap.values, filter_map, map_map]
    exact map_congr_left fun e he => (h e (mem_filter.mp he).1).symm
  have hleft : (m.filterKeys fun id => id ∉ (m.values.filter (expired l now)).map Row.id).values =
      m.values.filter fun r => !expired l now r := by
    rw [h.values_filterKeys]
    refine filter_congr fun r hr => ?_
    cases hold : expired l now r with
    | true =>
      rw [Bool.not_true, decide_eq_false_iff_not, not_not]
      exact mem_map_of_mem (mem_filter.mpr ⟨hr, hold⟩)
    | false =>
      rw [Bool.not_false, decide_eq_true_eq]
      intro hmem
      obtain ⟨r', hr', hid⟩ := mem_map.mp hmem
      have hsame : r' = r := inj_on_of_nodup_map h.nodup (mem_filter.mp hr').1 hr hid
      rw [← hsame, (mem_filter.mp hr').2] at hold
      cases hold
  have hsplit := filter_append_perm (expired l now) m.values
  have hretained : ∀ r ∈ m.values.filter fun r => !expired l now r,
      now ≤ r.openedAt + l.days * dayMs := by
    intro r hr
    have hold := (mem_filter.mp hr).2
    simpa [expired] using hold
  have holder : ∀ r ∈ m.values.filter (expired l now),
      ∀ r' ∈ m.values.filter fun r => !expired l now r, r.openedAt ≤ r'.openedAt := by
    intro r hr r' hr'
    have hold := (mem_filter.mp hr).2
    have hnew := hretained r' hr'
    simp only [expired, decide_eq_true_eq] at hold
    omega
  unfold evictHost
  dsimp only
  rw [hexpired, hleft]
  have hsize : (m.filterKeys fun id => id ∉ (m.values.filter (expired l now)).map Row.id).size =
      (m.values.filter fun r => !expired l now r).length := by
    rw [← hleft]
    exact (length_map _).symm
  rw [hsize]
  generalize hkept : (m.values.filter fun r => !expired l now r) = kept at *
  by_cases hover : l.hostMaxRows < kept.length ∨ l.maxBytes / 4 < rowBytes kept
  · rw [if_pos hover]
    obtain ⟨rest, hrest, hlength, hbytes⟩ :=
      surplus_spec (l.maxBytes / 4) (kept.length - l.hostMaxRows) (oldestFirst kept)
    rw [rowBytes_perm (oldestFirst_perm kept)] at hrest
    generalize hlost : surplus (l.maxBytes / 4) (kept.length - l.hostMaxRows) (rowBytes kept)
      (oldestFirst kept) = lost at *
    have hperm : (lost ++ rest).Perm kept := hrest ▸ oldestFirst_perm kept
    refine ⟨m.values.filter (expired l now) ++ lost, rest, by rw [map_append], ?_⟩
    constructor
    · rw [append_assoc]
      exact (hperm.append_left _).trans hsplit
    · have hlen := hperm.length_eq
      rw [(oldestFirst_perm kept).length_eq] at hlength
      omega
    · exact hbytes
    · exact fun r hr => hretained r (hperm.mem_iff.mp (mem_append_right _ hr))
    · intro r hr r' hr'
      rcases mem_append.mp hr with hr | hr
      · exact holder r hr r' (hperm.mem_iff.mp (mem_append_right _ hr'))
      · have hsorted := oldestFirst_sorted kept
        rw [hrest, pairwise_append] at hsorted
        exact hsorted.2.2 r hr r' hr'
  · rw [if_neg hover]
    rw [not_or, Nat.not_lt, Nat.not_lt] at hover
    exact ⟨_, kept, rfl, hsplit, hover.1, hover.2, hretained, holder⟩

variable {l : Limits}

/-- What stays of the host in the model is what is kept. -/
theorem HostTrim.stays {now : ℕ} {dropped kept : List Row}
    (h : KeyedRows m) (ht : HostTrim l now m.values dropped kept) :
    (m.filterKeys fun id => id ∉ dropped.map Row.id).values.Perm kept := by
  rw [h.values_filterKeys]
  have hnodup : ((dropped ++ kept).map Row.id).Nodup :=
    ((ht.split.map Row.id).nodup_iff).mpr h.nodup
  rw [← filter_outside hnodup]
  exact (ht.split.symm.filter _)

end Turma.PermissionLedger

/-! Eviction from the store as a whole: one row after the other is paid by the tenant that holds the
most of what is exceeded, and by its oldest row. -/

namespace Turma.PermissionLedger

open Turma.Lib Turma.Tenancy

def share (rows : Held) (t : JsString) : Held := rows.filter fun e => tenantOfHostKey e.1 = t

/-- Row `e` may go next: the store is over a limit, no tenant holds more of the exceeded resource,
bytes before rows, than that of `e`, and it has no older row. -/
structure Pays (l : Limits) (rows : Held) (e : JsString × Row) : Prop where
  held : e ∈ rows
  exceeded : l.maxBytes < heldBytes rows ∨ l.maxRows < rows.length
  bytes : l.maxBytes < heldBytes rows →
    ∀ t, heldBytes (share rows t) ≤ heldBytes (share rows (tenantOfHostKey e.1))
  count : ¬ l.maxBytes < heldBytes rows →
    ∀ t, (share rows t).length ≤ (share rows (tenantOfHostKey e.1)).length
  oldest : ∀ e' ∈ rows, tenantOfHostKey e'.1 = tenantOfHostKey e.1 → e.2.openedAt ≤ e'.2.openedAt

/-- The keys of rows that go one by one, each as it may, until the store is within its limits. -/
inductive Trims (l : Limits) : Held → List Key → Prop
  | fits {rows : Held} : rows.length ≤ l.maxRows → heldBytes rows ≤ l.maxBytes → Trims l rows []
  | pays {rows rows' : Held} {e : JsString × Row} {ks : List Key} : Pays l rows e →
    rows.Perm (e :: rows') → Trims l rows' ks → Trims l rows (keyOf e :: ks)

theorem heldBytes_perm {rows rows' : Held} (h : rows.Perm rows') :
    heldBytes rows = heldBytes rows' := rowBytes_perm (h.map Prod.snd)

theorem heldBytes_cons (e : JsString × Row) (rows : Held) :
    heldBytes (e :: rows) = bytesOf e.2 + heldBytes rows := rowBytes_cons _ _

/-- The rows split into the tenants, each with the oldest last. -/
structure Shares (tenants : List Held) (rows : Held) : Prop where
  flat : tenants.flatten.Perm rows
  one : ∀ held ∈ tenants, ∀ e ∈ held, ∀ e' ∈ held, tenantOfHostKey e.1 = tenantOfHostKey e'.1
  apart : tenants.Pairwise fun a b => ∀ e ∈ a, ∀ e' ∈ b, tenantOfHostKey e.1 ≠ tenantOfHostKey e'.1
  sorted : ∀ held ∈ tenants, held.Pairwise fun a b => b.2.openedAt ≤ a.2.openedAt

variable {tenants : List Held} {e : JsString × Row}

theorem Shares.share {rows held : Held} (h : Shares tenants rows)
    (hheld : held ∈ tenants) (he : e ∈ held) :
    (share rows (tenantOfHostKey e.1)).Perm held := by
  obtain ⟨before, after, rfl⟩ := List.append_of_mem hheld
  have hapart := h.apart
  rw [List.pairwise_append, List.pairwise_cons] at hapart
  refine (h.flat.symm.filter _).trans ?_
  have hmine : held.filter (fun e' => decide (tenantOfHostKey e'.1 = tenantOfHostKey e.1)) = held :=
    List.filter_eq_self.mpr fun e' he' => decide_eq_true (h.one held (by simp) e' he' e he)
  have hothers : ∀ others : List Held, (∀ other ∈ others, ∀ e' ∈ other,
      tenantOfHostKey e'.1 ≠ tenantOfHostKey e.1) → others.flatten.filter
        (fun e' => decide (tenantOfHostKey e'.1 = tenantOfHostKey e.1)) = [] := by
    intro others hne
    rw [List.filter_eq_nil_iff]
    intro e' he'
    obtain ⟨other, hother, he'⟩ := List.mem_flatten.mp he'
    simpa using hne other hother e' he'
  rw [List.flatten_append, List.flatten_cons, List.filter_append, List.filter_append, hmine,
    hothers before fun other hother e' he' =>
      hapart.2.2 other hother held List.mem_cons_self e' he' e he,
    hothers after fun other hother e' he' => (hapart.2.1.1 other hother e he e' he').symm,
    List.nil_append, List.append_nil]

/-- A tenant's rows are one of the lists, or there is none. -/
theorem Shares.share_cases {rows : Held} (h : Shares tenants rows)
    (t : JsString) : PermissionLedger.share rows t = [] ∨
      ∃ held ∈ tenants, held ≠ [] ∧ (PermissionLedger.share rows t).Perm held := by
  rcases List.eq_nil_or_concat (PermissionLedger.share rows t) with hnil | ⟨_, e, hlast⟩
  · exact .inl hnil
  · have he : e ∈ PermissionLedger.share rows t := by simp [hlast]
    obtain ⟨hmem, ht⟩ := List.mem_filter.mp he
    obtain ⟨held, hheld, hin⟩ := List.mem_flatten.mp (h.flat.mem_iff.mpr hmem)
    rw [decide_eq_true_eq] at ht
    subst ht
    exact .inr ⟨held, hheld, List.ne_nil_of_mem hin, h.share hheld hin⟩

/-- The loop's tenant: its list occurs once, and no list is larger. -/
theorem biggest_spec (size : Held → ℕ) (tenants : List Held) :
    match biggest size tenants with
    | none => tenants.flatten = []
    | some big => big ∈ tenants ∧ big ≠ [] ∧ ∀ held ∈ tenants, held ≠ [] → size held ≤ size big := by
  have hargmax : biggest size tenants = (tenants.filter fun held => held ≠ []).argmax size := by
    rw [← foldl_largest]
    simp only [decide_eq_true_eq]
    rfl
  rw [hargmax]
  cases hbig : (tenants.filter fun held => held ≠ []).argmax size with
  | none =>
    have hnil := List.argmax_eq_none.mp hbig
    rw [List.filter_eq_nil_iff] at hnil
    rw [List.flatten_eq_nil_iff]
    simpa using hnil
  | some big =>
    have hmem := List.mem_filter.mp (List.argmax_mem hbig)
    refine ⟨hmem.1, of_decide_eq_true hmem.2, fun held hheld hne => ?_⟩
    exact List.le_of_mem_argmax (List.mem_filter.mpr ⟨hheld, decide_eq_true hne⟩) hbig

/-- One turn: the tenant's last row goes, and the others stay as they are. -/
theorem Shares.pop {rows big : Held}
    (h : Shares tenants rows) (hbig : big ∈ tenants) (hlast : big.getLast? = some e) :
    ∃ rows', rows.Perm (e :: rows') ∧
      Shares (tenants.map fun held => if held = big then held.dropLast else held) rows' := by
  obtain ⟨before, after, rfl⟩ := List.append_of_mem hbig
  have hsplit : big.dropLast ++ [e] = big := List.dropLast_append_getLast? e hlast
  have he : e ∈ big := List.mem_of_getLast? hlast
  have hapart := h.apart
  rw [List.pairwise_append, List.pairwise_cons] at hapart
  -- no other list is the same
  have hbefore : ∀ held ∈ before, held ≠ big := by
    rintro held hheld rfl
    exact hapart.2.2 held hheld held List.mem_cons_self e he e he rfl
  have hafter : ∀ held ∈ after, held ≠ big := by
    rintro held hheld rfl
    exact hapart.2.1.1 held hheld e he e he rfl
  have hmap : (before ++ big :: after).map (fun held => if held = big then held.dropLast else held) =
      before ++ big.dropLast :: after := by
    rw [List.map_append, List.map_cons, if_pos rfl,
      List.map_congr_left fun held hheld => if_neg (hbefore held hheld),
      List.map_congr_left fun held hheld => if_neg (hafter held hheld), List.map_id', List.map_id']
  have hsub : big.dropLast.Sublist big := List.dropLast_sublist big
  rw [hmap]
  refine ⟨(before ++ big.dropLast :: after).flatten, h.flat.symm.trans ?_, .refl _, ?_, ?_, ?_⟩
  · have hmiddle : (e :: (before ++ big.dropLast :: after).flatten).Perm
        (before.flatten ++ ((big.dropLast ++ [e]) ++ after.flatten)) := by
      rw [List.flatten_append, List.flatten_cons, List.append_assoc]
      refine List.perm_middle.symm.trans (List.Perm.append_left _ ?_)
      exact List.perm_middle.symm
    rw [List.flatten_append, List.flatten_cons]
    rw [hsplit] at hmiddle
    exact hmiddle.symm
  · intro held hheld a ha b hb
    rcases List.mem_append.mp hheld with hm | hm
    · exact h.one held (List.mem_append_left _ hm) a ha b hb
    · rcases List.mem_cons.mp hm with rfl | hm
      · exact h.one big (by simp) a (hsub.mem ha) b (hsub.mem hb)
      · exact h.one held (by simp [hm]) a ha b hb
  · rw [List.pairwise_append, List.pairwise_cons]
    refine ⟨hapart.1, ⟨fun b hb a ha => hapart.2.1.1 b hb a (hsub.mem ha), hapart.2.1.2⟩, ?_⟩
    intro a ha b hb
    rcases List.mem_cons.mp hb with rfl | hb
    · exact fun x hx y hy => hapart.2.2 a ha big List.mem_cons_self x hx y (hsub.mem hy)
    · exact hapart.2.2 a ha b (.tail _ hb)
  · intro held hheld
    rcases List.mem_append.mp hheld with hm | hm
    · exact h.sorted held (List.mem_append_left _ hm)
    · rcases List.mem_cons.mp hm with rfl | hm
      · exact (h.sorted big (by simp)).sublist hsub
      · exact h.sorted held (by simp [hm])

/-- The row that the loop takes is one that may go. -/
theorem Shares.pays {rows big : Held}
    (h : Shares tenants rows) (hover : l.maxBytes < heldBytes rows ∨ l.maxRows < rows.length)
    (hbig : big ∈ tenants) (hlast : big.getLast? = some e)
    (hmost : ∀ held ∈ tenants, held ≠ [] →
      (if l.maxBytes < heldBytes rows then heldBytes else List.length) held ≤
        (if l.maxBytes < heldBytes rows then heldBytes else List.length) big) : Pays l rows e := by
  have he : e ∈ big := List.mem_of_getLast? hlast
  have hmine := h.share hbig he
  have hsize : ∀ size : Held → ℕ, (∀ a b, a.Perm b → size a = size b) → size [] = 0 →
      (∀ held ∈ tenants, held ≠ [] → size held ≤ size big) →
      ∀ t, size (PermissionLedger.share rows t) ≤
        size (PermissionLedger.share rows (tenantOfHostKey e.1)) := by
    intro size hperm hzero hmost t
    rw [hperm _ _ hmine]
    rcases h.share_cases t with hnil | ⟨held, hheld, hne, hshare⟩
    · rw [hnil, hzero]
      exact Nat.zero_le _
    · rw [hperm _ _ hshare]
      exact hmost held hheld hne
  refine ⟨h.flat.mem_iff.mp (List.mem_flatten.mpr ⟨big, hbig, he⟩), hover, fun hbytes => ?_,
    fun hbytes => ?_, fun e' he' hsame => ?_⟩
  · rw [if_pos hbytes] at hmost
    exact hsize heldBytes (fun _ _ => heldBytes_perm) rfl hmost
  · rw [if_neg hbytes] at hmost
    exact hsize List.length (fun _ _ => List.Perm.length_eq) rfl hmost
  · have hin : e' ∈ big :=
      hmine.mem_iff.mp (List.mem_filter.mpr ⟨he', decide_eq_true hsame⟩)
    have hsorted := h.sorted big hbig
    rw [← List.dropLast_append_getLast? e hlast] at hin hsorted
    rcases List.mem_append.mp hin with hin | hin
    · exact (List.pairwise_append.mp hsorted).2.2 e' hin e (by simp)
    · rw [List.mem_singleton.mp hin]

/-- With fuel for every row the loop ends within the limits, and more fuel changes nothing. -/
theorem evictStore_trims (l : Limits) {fuel : ℕ} {rows : Held}
    (h : Shares tenants rows) (hfuel : rows.length ≤ fuel) :
    Trims l rows (evictStore fuel (rows.length - l.maxRows) (heldBytes rows - l.maxBytes) tenants) ∧
      evictStore (fuel + 1) (rows.length - l.maxRows) (heldBytes rows - l.maxBytes) tenants =
        evictStore fuel (rows.length - l.maxRows) (heldBytes rows - l.maxBytes) tenants := by
  induction fuel generalizing tenants rows with
  | zero =>
    have hnil : rows = [] := List.length_eq_zero_iff.mp (Nat.le_zero.mp hfuel)
    subst hnil
    have hend : evictStore 1 (([] : Held).length - l.maxRows) (heldBytes [] - l.maxBytes) tenants =
        [] := by
      rw [evictStore, if_pos]
      exact ⟨Nat.zero_sub _, Nat.zero_sub _⟩
    exact ⟨.fits (Nat.zero_le _) (Nat.zero_le _), hend⟩
  | succ fuel ih =>
    rw [evictStore.eq_def (fuel + 1 + 1), evictStore.eq_def (fuel + 1)]
    dsimp only
    by_cases hfits : rows.length - l.maxRows = 0 ∧ heldBytes rows - l.maxBytes = 0
    · rw [if_pos hfits, if_pos hfits]
      exact ⟨.fits (by omega) (by omega), rfl⟩
    · rw [if_neg hfits, if_neg hfits]
      have hover : l.maxBytes < heldBytes rows ∨ l.maxRows < rows.length := by omega
      have hsize : (if 0 < heldBytes rows - l.maxBytes then heldBytes else List.length) =
          if l.maxBytes < heldBytes rows then heldBytes else List.length := by
        simp only [Nat.sub_pos_iff_lt]
      rw [hsize]
      have hbig := biggest_spec (if l.maxBytes < heldBytes rows then heldBytes else List.length) tenants
      cases hfound : biggest (if l.maxBytes < heldBytes rows then heldBytes else List.length) tenants with
      | none =>
        rw [hfound] at hbig
        have hrows : rows = [] := List.perm_nil.mp (hbig ▸ h.flat).symm
        subst hrows
        rcases hover with hno | hno
        · exact absurd hno (Nat.not_lt_zero _)
        · exact absurd hno (Nat.not_lt_zero _)
      | some big =>
        rw [hfound] at hbig
        obtain ⟨hmem, hne, hmost⟩ := hbig
        obtain ⟨⟨host, r⟩, hlast⟩ : ∃ e, big.getLast? = some e :=
          ⟨_, List.getLast?_eq_some_getLast hne⟩
        obtain ⟨rows', hperm, hshares⟩ := h.pop hmem hlast
        have hlength := hperm.length_eq
        have hbytes := heldBytes_perm hperm
        rw [List.length_cons] at hlength
        rw [heldBytes_cons] at hbytes
        dsimp only
        rw [hlast]
        dsimp only at hbytes ⊢
        have hrows : rows.length - l.maxRows - 1 = rows'.length - l.maxRows := by omega
        have hleft : heldBytes rows - l.maxBytes - bytesOf r = heldBytes rows' - l.maxBytes := by
          omega
        rw [hrows, hleft]
        obtain ⟨htrims, hmore⟩ := ih hshares (by omega)
        exact ⟨.pays (h.pays hover hmem hlast hmost) hperm htrims, congrArg _ hmore⟩

def without (rows : Held) (ks : List Key) : Held := rows.filter fun e => keyOf e ∉ ks

theorem without_nil (rows : Held) : without rows [] = rows := by
  simp [without]

theorem Pays.perm {rows rows' : Held} (h : Pays l rows e)
    (hperm : rows.Perm rows') : Pays l rows' e := by
  have hbytes := heldBytes_perm hperm
  have hlength := hperm.length_eq
  have hshare : ∀ t, (share rows t).Perm (share rows' t) := fun t => hperm.filter _
  refine ⟨hperm.mem_iff.mp h.held, by rw [← hbytes, ← hlength]; exact h.exceeded, fun hover t => ?_,
    fun hover t => ?_, fun e' he' => h.oldest e' (hperm.mem_iff.mpr he')⟩
  · rw [← heldBytes_perm (hshare t), ← heldBytes_perm (hshare _)]
    exact h.bytes (hbytes ▸ hover) t
  · rw [← (hshare t).length_eq, ← (hshare _).length_eq]
    exact h.count (hbytes ▸ hover) t

theorem without_cons {rows rows' : Held} (hperm : rows.Perm (e :: rows'))
    (hnodup : (rows.map keyOf).Nodup) (ks : List Key) :
    (without rows (keyOf e :: ks)).Perm (without rows' ks) := by
  have hcons := (hperm.map keyOf).nodup_iff.mp hnodup
  rw [List.map_cons, List.nodup_cons] at hcons
  refine (hperm.filter _).trans ?_
  rw [List.filter_cons_of_neg (by simp)]
  refine .of_eq (List.filter_congr fun e' he' => ?_)
  have hne : keyOf e' ≠ keyOf e := fun heq => hcons.1 (heq ▸ List.mem_map_of_mem he')
  simp [hne]

variable {ks : List Key}

/-- What is left is within the limits. -/
theorem Trims.fitted {rows : Held} (h : Trims l rows ks)
    (hnodup : (rows.map keyOf).Nodup) :
    (without rows ks).length ≤ l.maxRows ∧ heldBytes (without rows ks) ≤ l.maxBytes := by
  induction h with
  | fits hrows hbytes =>
    rw [without_nil]
    exact ⟨hrows, hbytes⟩
  | pays hpays hperm _ ih =>
    have hcons := (hperm.map keyOf).nodup_iff.mp hnodup
    have hleft := without_cons hperm hnodup
    rw [(hleft _).length_eq, heldBytes_perm (hleft _)]
    exact ih (List.nodup_cons.mp hcons).2

theorem Trims.keys {rows : Held} (h : Trims l rows ks)
    (hnodup : (rows.map keyOf).Nodup) : ks.Nodup ∧ ∀ k ∈ ks, k ∈ rows.map keyOf := by
  induction h with
  | fits hrows hbytes => exact ⟨List.nodup_nil, fun k hk => absurd hk List.not_mem_nil⟩
  | pays hpays hperm _ ih =>
    have hmap := hperm.map keyOf
    have hcons := List.nodup_cons.mp (hmap.nodup_iff.mp hnodup)
    obtain ⟨hks, hmem⟩ := ih hcons.2
    refine ⟨List.nodup_cons.mpr ⟨fun hk => hcons.1 (hmem _ hk), hks⟩, fun k hk => ?_⟩
    rw [hmap.mem_iff]
    exact List.mem_cons.mpr ((List.mem_cons.mp hk).imp_right (hmem k))

/-- Each row may go at its moment. -/
theorem Trims.pays_at {rows : Held} (h : Trims l rows ks)
    (hnodup : (rows.map keyOf).Nodup) {before after : List Key} {k : Key}
    (hks : ks = before ++ k :: after) : ∃ e, keyOf e = k ∧ Pays l (without rows before) e := by
  induction h generalizing before with
  | fits hrows hbytes => exact absurd hks (by simp)
  | @pays rows rows' e ks hpays hperm _ ih =>
    cases before with
    | nil =>
      rw [without_nil]
      exact ⟨e, (List.cons.inj hks).1, hpays⟩
    | cons k' before =>
      obtain ⟨rfl, hrest⟩ := List.cons.inj hks
      have hcons := (hperm.map keyOf).nodup_iff.mp hnodup
      obtain ⟨e', he', hpays'⟩ := ih (List.nodup_cons.mp hcons).2 hrest
      exact ⟨e', he', hpays'.perm (without_cons hperm hnodup before).symm⟩

end Turma.PermissionLedger
