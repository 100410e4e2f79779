import Turma.Lib.Sort
import Turma.OutcomeLedger.Evict

/-! The org pass: one unit after the other, a live row with its shadows or an orphaned shadow, goes
from the org that holds the most within the tenant that holds the most. -/

namespace Turma.OutcomeLedger

open Turma.Lib List Option List OrdMap

/-- The row that a row's unit is ranked by: the live row that a shadow is paired with, if that is
there, and otherwise the row itself. -/
def ownerOf (rows : List Row) (r : Row) : Row :=
  if r.isShadow = true then (rows.find? fun q => q.key = r.pairOf && !q.isShadow).getD r else r

def ofTenant (tenant : Row → JsString) (rows : List Row) (t : JsString) : List Row :=
  rows.filter fun r => tenant r = t

def ofOrg (tenant site : Row → JsString) (rows : List Row) (t s : JsString) : List Row :=
  rows.filter fun r => tenant r = t && site r = s

/-- The keys of units that go one by one while there are more than `maxRows` rows. Each is the whole
unit of a row `head`, no tenant has more rows than that of `head`, and no org of this tenant has more
than that of `head`. -/
inductive Sheds (maxRows : ℕ) (owner : Row → Row) (tenant site : Row → JsString) :
    List Row → List JsString → Prop
  | fits {rows : List Row} : rows.length ≤ maxRows → Sheds maxRows owner tenant site rows []
  | pays {rows unit rest : List Row} {head : Row} {ks : List JsString} :
    maxRows < rows.length → rows.Perm (unit ++ rest) → unit ≠ [] →
    (∀ r ∈ unit, owner r = head ∧ tenant r = tenant head ∧ site r = site head) →
    (∀ r ∈ rest, owner r ≠ head) →
    (∀ t, (ofTenant tenant rows t).length ≤ (ofTenant tenant rows (tenant head)).length) →
    (∀ s, (ofOrg tenant site rows (tenant head) s).length ≤
      (ofOrg tenant site rows (tenant head) (site head)).length) →
    Sheds maxRows owner tenant site rest ks →
    Sheds maxRows owner tenant site rows (unit.map Row.key ++ ks)

theorem ofTenant_perm {tenant : Row → JsString} {rows unit rest : List Row}
    (h : rows.Perm (unit ++ rest)) (t : JsString) :
    (ofTenant tenant rows t).length =
      (ofTenant tenant unit t).length + (ofTenant tenant rest t).length := by
  have hsplit := (h.filter fun r => decide (tenant r = t)).length_eq
  rw [filter_append, length_append] at hsplit
  exact hsplit

variable {tenant site : Row → JsString}

theorem ofOrg_perm {rows unit rest : List Row}
    (h : rows.Perm (unit ++ rest)) (t s : JsString) :
    (ofOrg tenant site rows t s).length =
      (ofOrg tenant site unit t s).length + (ofOrg tenant site rest t s).length := by
  have hsplit := (h.filter fun r => decide (tenant r = t) && decide (site r = s)).length_eq
  rw [filter_append, length_append] at hsplit
  exact hsplit

theorem ofTenant_unit {tenant : Row → JsString} {unit : List Row} {u : JsString}
    (h : ∀ r ∈ unit, tenant r = u) (t : JsString) :
    (ofTenant tenant unit t).length = if t = u then unit.length else 0 := by
  rw [ofTenant]
  split_ifs with ht
  · rw [filter_eq_self.mpr fun r hr => by rw [h r hr, ht]; simp]
  · rw [length_eq_zero_iff, filter_eq_nil_iff]
    intro r hr
    rw [h r hr]
    simpa using Ne.symm ht

theorem ofOrg_unit {unit : List Row} {u v : JsString}
    (h : ∀ r ∈ unit, tenant r = u ∧ site r = v) (t s : JsString) :
    (ofOrg tenant site unit t s).length = if t = u ∧ s = v then unit.length else 0 := by
  rw [ofOrg]
  split_ifs with hts
  · rw [filter_eq_self.mpr fun r hr => by rw [(h r hr).1, (h r hr).2, hts.1, hts.2]; simp]
  · rw [length_eq_zero_iff, filter_eq_nil_iff]
    intro r hr
    rw [(h r hr).1, (h r hr).2]
    simpa using fun ht => fun hs => hts ⟨ht.symm, hs.symm⟩

variable {rows : List Row} {r : Row}

theorem ownerOf_live (h : r.isShadow = false) : ownerOf rows r = r := by
  rw [ownerOf, h]
  rfl

theorem ownerOf_cases (rows : List Row) (r : Row) :
    (ownerOf rows r = r ∧ (r.isShadow = true → paired rows r = false)) ∨
      r.isShadow = true ∧ paired rows r = true ∧ ownerOf rows r ∈ rows ∧
        (ownerOf rows r).key = r.pairOf ∧ (ownerOf rows r).isShadow = false := by
  cases hkind : r.isShadow with
  | false => exact .inl ⟨ownerOf_live hkind, fun h => nomatch h⟩
  | true =>
    rw [ownerOf, if_pos hkind]
    cases hfind : rows.find? fun q => q.key = r.pairOf && !q.isShadow with
    | none =>
      refine .inl ⟨rfl, fun _ => ?_⟩
      rw [paired, Bool.eq_false_iff]
      intro hany
      obtain ⟨q, hq, hpair⟩ := any_eq_true.mp hany
      exact (find?_eq_none.mp hfind) q hq hpair
    | some q =>
      have hmem := mem_of_find?_eq_some hfind
      have hq := find?_some hfind
      refine .inr ⟨rfl, any_eq_true.mpr ⟨q, hmem, hq⟩, hmem, ?_⟩
      simpa using hq

theorem ownerOf_mem (h : r ∈ rows) : ownerOf rows r ∈ rows := by
  rcases ownerOf_cases rows r with ⟨hown, -⟩ | ⟨-, -, hmem, -⟩
  · rw [hown]
    exact h
  · exact hmem

/-- How far `units` is made: of the rows `done`. -/
structure Drafting (rows done : List Row) (units : OrdMap JsString Draft) : Prop where
  flat : (units.entries.flatMap fun e => e.2.rows).Perm done
  owned : ∀ k d, units.get? k = some d → d.rows ≠ [] ∧ ∀ r ∈ d.rows, (ownerOf rows r).key = k
  head : ∀ k d, units.get? k = some d → ∀ q ∈ done, q.key = k → ownerOf rows q = q →
    d.head = some q

theorem Drafting.known {rows done : List Row} {units : OrdMap JsString Draft}
    (h : Drafting rows done units) (hr : r ∈ done) :
    ∃ d, units.get? (ownerOf rows r).key = some d ∧ r ∈ d.rows := by
  obtain ⟨⟨k, d⟩, he, hmem⟩ := mem_flatMap.mp (h.flat.mem_iff.mpr hr)
  have hget := get?_eq_some.mpr he
  exact ⟨d, (h.owned k d hget).2 r hmem ▸ hget, hmem⟩

/-- A row joins the draft under its owner's key. -/
theorem Drafting.join {rows done : List Row} {units : OrdMap JsString Draft}
    (h : Drafting rows done units) {f : Option Draft → Draft}
    (hnone : (f none).rows = [r])
    (hsome : ∀ d, units.get? (ownerOf rows r).key = some d → (f (some d)).rows = d.rows ++ [r])
    (hhead : ∀ q ∈ done ++ [r], q.key = (ownerOf rows r).key → ownerOf rows q = q →
      (f (units.get? (ownerOf rows r).key)).head = some q) :
    Drafting rows (done ++ [r]) (units.upsert (ownerOf rows r).key f) where
  flat := by
    refine (flatMap_upsertEntry Draft.rows _ hnone fun d hd => hsome d hd).trans ?_
    exact (h.flat.cons r).trans (perm_append_singleton r done).symm
  owned k d hd := by
    rw [get?_upsert] at hd
    split_ifs at hd with hk
    · cases hd
      cases hold : units.get? (ownerOf rows r).key with
      | none =>
        rw [hnone]
        refine ⟨cons_ne_nil _ _, fun r' hr' => ?_⟩
        rw [mem_singleton.mp hr', hk]
      | some old =>
        rw [hsome old hold]
        refine ⟨by simp, fun r' hr' => ?_⟩
        rcases mem_append.mp hr' with hr' | hr'
        · rw [hk]
          exact (h.owned _ old hold).2 r' hr'
        · rw [mem_singleton.mp hr', hk]
    · exact h.owned k d hd
  head k d hd q hq hkey hown := by
    rw [get?_upsert] at hd
    split_ifs at hd with hk
    · rw [← some.inj hd]
      exact hhead q hq (hkey.trans hk) hown
    · rcases mem_append.mp hq with hq | hq
      · exact h.head k d hd q hq hkey hown
      · rw [mem_singleton.mp hq] at hkey hown
        rw [hown] at hk
        exact absurd hkey.symm hk

theorem Drafting.add {rows done rest : List Row} {units : OrdMap JsString Draft}
    (h : Drafting rows done units) (hrows : rows = done ++ r :: rest)
    (hnodup : (rows.map Row.key).Nodup) :
    Drafting rows (done ++ [r]) (addToUnits rows units r) := by
  have hr : r ∈ rows := by simp [hrows]
  have hsub : ∀ q ∈ done ++ [r], q ∈ rows := fun q hq => by
    rw [hrows]
    rcases mem_append.mp hq with hq | hq
    · exact mem_append_left _ hq
    · rw [mem_singleton.mp hq]
      exact mem_append_right _ mem_cons_self
  have hsame : ∀ q ∈ done ++ [r], q.key = r.key → q = r := fun q hq hkey =>
    inj_on_of_nodup_map hnodup (hsub q hq) hr hkey
  have hnew : r ∉ done := by
    intro hmem
    rw [hrows, map_append, map_cons] at hnodup
    exact (nodup_append.mp hnodup).2.2 _ (mem_map_of_mem hmem) _ mem_cons_self rfl
  rw [addToUnits]
  rcases ownerOf_cases rows r with ⟨hown, horphan⟩ | ⟨hshadow, hpaired, hmem, hkey, hlive⟩
  · cases hkind : r.isShadow with
    | false =>
      rw [if_pos rfl]
      nth_rewrite 2 [← hown]
      refine h.join rfl (fun d hd => ?_) fun q hq hkey _ => ?_
      · rfl
      · rw [hown] at hkey
        rw [hsame q hq hkey]
        cases units.get? (ownerOf rows r).key <;> rfl
    | true =>
      rw [if_neg Bool.noConfusion, if_neg (by rw [horphan hkind]; exact Bool.noConfusion)]
      have habsent : units.get? (ownerOf rows r).key = none := by
        by_contra hsome
        obtain ⟨d, hd⟩ := ne_none_iff_exists'.mp hsome
        obtain ⟨hne, howned⟩ := h.owned _ d hd
        obtain ⟨r', hr'⟩ := exists_mem_of_ne_nil _ hne
        have hdone : r' ∈ done := h.flat.mem_iff.mp
          (mem_flatMap.mpr ⟨_, get?_eq_some.mp hd, hr'⟩)
        have hrow : ownerOf rows r' = ownerOf rows r :=
          inj_on_of_nodup_map hnodup (ownerOf_mem (hsub r' (mem_append_left _ hdone)))
            (ownerOf_mem hr) (howned r' hr')
        rw [hown] at hrow
        rcases ownerOf_cases rows r' with ⟨hown', -⟩ | ⟨-, -, -, -, hlive⟩
        · exact hnew ((hown'.symm.trans hrow) ▸ hdone)
        · rw [hrow, hkind] at hlive
          cases hlive
      nth_rewrite 2 [← hown]
      refine h.join rfl (fun d hd => ?_) fun q hq hkey _ => ?_
      · rw [habsent] at hd
        cases hd
      · rw [hown] at hkey
        rw [hsame q hq hkey]
  · rw [if_neg (by simp [hshadow]), if_pos hpaired, ← hkey]
    refine h.join rfl (fun d hd => rfl) fun q hq hq' hroot => ?_
    rcases mem_append.mp hq with hq | hq
    · obtain ⟨d, hd, -⟩ := h.known hq
      rw [hroot, hq'] at hd
      rw [hd]
      exact h.head _ d hd q hq hq' hroot
    · rw [mem_singleton.mp hq] at hroot
      rw [hroot, hshadow] at hlive
      cases hlive

structure Units (owner : Row → Row) (units : List Unit) (rows : List Row) : Prop where
  flat : (unitRows units).Perm rows
  owned : ∀ u ∈ units, u.rows ≠ [] ∧ ∀ r ∈ u.rows, owner r = u.head
  heads : (units.map fun u => u.head.key).Nodup

/-- The rows by their orgs, with the running counts of the loop. -/
structure Loaded (owner : Row → Row) (orgs : List Org) (tenantRows : JsString → ℕ)
    (rows : List Row) : Prop where
  flat : (orgs.flatMap fun o => unitRows o.units).Perm rows
  n : ∀ o ∈ orgs, o.n =
    (ofOrg (fun r => rowTenant (owner r)) (fun r => (owner r).site) rows o.tenant o.site).length
  tenants : ∀ t, tenantRows t = (ofTenant (fun r => rowTenant (owner r)) rows t).length
  owned : ∀ o ∈ orgs, ∀ u ∈ o.units, u.rows ≠ [] ∧ (∀ r ∈ u.rows, owner r = u.head) ∧
    rowTenant u.head = o.tenant ∧ u.head.site = o.site
  apart : (orgs.map fun o => (o.tenant, o.site)).Nodup
  heads : ∀ o ∈ orgs, (o.units.map fun u => u.head.key).Nodup

theorem unitRows_append (units units' : List Unit) :
    unitRows (units ++ units') = unitRows units ++ unitRows units' := flatMap_append

variable (sweep : Option Sweep)

/-- The loop's choice: no org with units is before it. -/
theorem bigOrg_spec (tenantRows : JsString → ℕ) (orgs : List Org) :
    match bigOrg sweep tenantRows orgs with
    | none => ∀ o ∈ orgs, o.units = []
    | some big => big ∈ orgs ∧ big.units ≠ [] ∧ ∀ o ∈ orgs, o.units ≠ [] →
        tenantRows o.tenant < tenantRows big.tenant ∨
          tenantRows o.tenant = tenantRows big.tenant ∧ o.n ≤ big.n := by
  unfold bigOrg
  induction orgs using List.reverseRecOn with
  | nil => exact fun o ho => absurd ho not_mem_nil
  | append_singleton orgs x ih =>
    rw [foldl_append, foldl_cons, foldl_nil]
    generalize orgs.foldl _ none = big at ih ⊢
    have hsplit : ∀ o ∈ orgs ++ [x], o ∈ orgs ∨ o = x := fun o ho =>
      (mem_append.mp ho).imp_right mem_singleton.mp
    by_cases hx : x.units = []
    · rw [if_pos hx]
      cases big with
      | none =>
        intro o ho
        rcases hsplit o ho with ho | rfl
        · exact ih o ho
        · exact hx
      | some b =>
        refine ⟨mem_append_left _ ih.1, ih.2.1, fun o ho hne => ?_⟩
        rcases hsplit o ho with ho | rfl
        · exact ih.2.2 o ho hne
        · exact absurd hx hne
    · rw [if_neg hx]
      cases big with
      | none =>
        refine ⟨by simp, hx, fun o ho hne => ?_⟩
        rcases hsplit o ho with ho | rfl
        · exact absurd (ih o ho) hne
        · exact .inr ⟨rfl, le_rfl⟩
      | some b =>
        dsimp only
        split_ifs with hmore
        · refine ⟨by simp, hx, fun o ho hne => ?_⟩
          rcases hsplit o ho with ho | rfl
          · have hold := ih.2.2 o ho hne
            omega
          · exact .inr ⟨rfl, le_rfl⟩
        · refine ⟨mem_append_left _ ih.1, ih.2.1, fun o ho hne => ?_⟩
          rcases hsplit o ho with ho | rfl
          · exact ih.2.2 o ho hne
          · omega

variable {tenantRows : JsString → ℕ} {orgs : List Org}

/-- One turn: the last unit of `big` goes, and the counts go with it. -/
theorem Loaded.pop {owner : Row → Row}
    {big : Org} {u : Unit} (h : Loaded owner orgs tenantRows rows)
    (hbig : big ∈ orgs) (hlast : big.units.getLast? = some u) :
    ∃ rest, rows.Perm (u.rows ++ rest) ∧ (∀ r ∈ rest, owner r ≠ u.head) ∧
      Loaded owner
        (orgs.map fun org =>
          if org.tenant = big.tenant ∧ org.site = big.site then org.pop u else org)
        (Function.update tenantRows big.tenant (tenantRows big.tenant - u.rows.length)) rest := by
  obtain ⟨before, after, rfl⟩ := append_of_mem hbig
  have hunits : big.units.dropLast ++ [u] = big.units := dropLast_append_getLast? u hlast
  have hu : u ∈ big.units := mem_of_getLast? hlast
  obtain ⟨hne, howned, htenant, hsite⟩ := h.owned big hbig u hu
  have hids := h.apart
  rw [map_append, map_cons, nodup_append, nodup_cons] at hids
  have hothers : ∀ o ∈ before ++ after, ¬ (o.tenant = big.tenant ∧ o.site = big.site) := by
    rintro o ho ⟨ht, hs⟩
    have hid : (o.tenant, o.site) = (big.tenant, big.site) := by rw [ht, hs]
    rcases mem_append.mp ho with ho | ho
    · exact hids.2.2 _ (mem_map_of_mem ho) _ mem_cons_self hid
    · exact hids.2.1.1 (hid ▸ mem_map_of_mem (f := fun o : Org => (o.tenant, o.site)) ho)
  have hmap : (before ++ big :: after).map (fun org =>
      if org.tenant = big.tenant ∧ org.site = big.site then org.pop u else org) =
        before ++ big.pop u :: after := by
    rw [map_append, map_cons, if_pos ⟨rfl, rfl⟩,
      map_congr_left fun o ho => if_neg (hothers o (mem_append_left _ ho)),
      map_congr_left fun o ho => if_neg (hothers o (mem_append_right _ ho)),
      List.map_id', List.map_id']
  rw [hmap]
  have hperm : rows.Perm
      (u.rows ++ (before ++ big.pop u :: after).flatMap fun o => unitRows o.units) := by
    refine h.flat.symm.trans ?_
    rw [flatMap_append, flatMap_cons, ← hunits, unitRows_append]
    have hone : unitRows [u] = u.rows := append_nil _
    rw [hone, flatMap_append, flatMap_cons]
    rw [← append_assoc u.rows]
    refine Perm.trans ?_ (perm_append_comm.append_right _)
    rw [append_assoc (before.flatMap _), ← append_assoc u.rows]
    exact (perm_append_comm.append_right _).append_left _
  have hfrom : ∀ o ∈ before ++ big.pop u :: after, ∃ o' ∈ before ++ big :: after,
      o.tenant = o'.tenant ∧ o.site = o'.site ∧ o.units.Sublist o'.units := by
    intro o ho
    rcases mem_append.mp ho with ho | ho
    · exact ⟨o, mem_append_left _ ho, rfl, rfl, .refl _⟩
    · rcases mem_cons.mp ho with rfl | ho
      · exact ⟨big, hbig, rfl, rfl, dropLast_sublist _⟩
      · exact ⟨o, by simp [ho], rfl, rfl, .refl _⟩
  have hshare : ∀ r ∈ u.rows, rowTenant (owner r) = big.tenant ∧ (owner r).site = big.site :=
    fun r hr => by rw [howned r hr]; exact ⟨htenant, hsite⟩
  refine ⟨_, hperm, fun r hr hown => ?_, ⟨.refl _, ?_, ?_, ?_, ?_, ?_⟩⟩
  · obtain ⟨o, ho, hr⟩ := mem_flatMap.mp hr
    obtain ⟨u', hu', hr⟩ := mem_flatMap.mp hr
    obtain ⟨o', ho', ht, hs, hsub⟩ := hfrom o ho
    obtain ⟨-, howned', htenant', hsite'⟩ := h.owned o' ho' u' (hsub.mem hu')
    have hhead : u'.head = u.head := (howned' r hr).symm.trans hown
    rw [hhead, htenant, ← ht] at htenant'
    rw [hhead, hsite, ← hs] at hsite'
    -- the same org, where no two units have one head
    have hpop : o = big.pop u := by
      rcases mem_append.mp ho with ho | ho
      · exact absurd ⟨htenant'.symm, hsite'.symm⟩ (hothers o (mem_append_left _ ho))
      · rcases mem_cons.mp ho with ho | ho
        · exact ho
        · exact absurd ⟨htenant'.symm, hsite'.symm⟩ (hothers o (mem_append_right _ ho))
    subst hpop
    have hheads := h.heads big hbig
    rw [← hunits, map_append, nodup_append] at hheads
    exact hheads.2.2 _ (mem_map_of_mem hu') _ (by simp) (congrArg Row.key hhead)
  · intro o ho
    have hsplit := (ofOrg_perm hperm o.tenant o.site).trans
      (congrArg (· + _) (ofOrg_unit (fun r hr => hshare r hr) o.tenant o.site))
    rcases mem_append.mp ho with hmem | hmem
    · have hno := hothers o (mem_append_left _ hmem)
      have ho := h.n o (mem_append_left _ hmem)
      rw [hsplit, if_neg hno] at ho
      omega
    · rcases mem_cons.mp hmem with rfl | hmem
      · have ho := h.n big hbig
        rw [show big.tenant = (big.pop u).tenant from rfl, show big.site = (big.pop u).site from rfl,
          hsplit, if_pos ⟨rfl, rfl⟩] at ho
        change big.n - u.rows.length = _
        omega
      · have hno := hothers o (mem_append_right _ hmem)
        have ho := h.n o (by simp [hmem])
        rw [hsplit, if_neg hno] at ho
        omega
  · intro t
    have hsplit := (ofTenant_perm hperm t).trans
      (congrArg (· + _) (ofTenant_unit (fun r hr => (hshare r hr).1) t))
    have ht := h.tenants t
    by_cases hbigT : t = big.tenant
    · subst hbigT
      rw [if_pos rfl] at hsplit
      rw [Function.update_self]
      omega
    · rw [if_neg hbigT] at hsplit
      rw [Function.update_of_ne hbigT]
      omega
  · intro o ho u' hu'
    obtain ⟨o', ho', ht, hs, hsub⟩ := hfrom o ho
    rw [ht, hs]
    exact h.owned o' ho' u' (hsub.mem hu')
  · have hsame : (before ++ big.pop u :: after).map (fun o => (o.tenant, o.site)) =
        (before ++ big :: after).map fun o => (o.tenant, o.site) := by
      rw [map_append, map_append]
      rfl
    rw [hsame]
    exact h.apart
  · intro o ho
    obtain ⟨o', ho', -, -, hsub⟩ := hfrom o ho
    exact (h.heads o' ho').sublist (hsub.map _)

theorem Loaded.mem {owner : Row → Row}
    (h : Loaded owner orgs tenantRows rows) (hr : r ∈ rows) :
    ∃ o ∈ orgs, o.units ≠ [] ∧ o.tenant = rowTenant (owner r) ∧ o.site = (owner r).site := by
  obtain ⟨o, ho, hr⟩ := mem_flatMap.mp (h.flat.mem_iff.mpr hr)
  obtain ⟨u, hu, hr⟩ := mem_flatMap.mp hr
  obtain ⟨-, howned, htenant, hsite⟩ := h.owned o ho u hu
  rw [howned r hr]
  exact ⟨o, ho, ne_nil_of_mem hu, htenant.symm, hsite.symm⟩

/-- The loop's choice, by the rows: no tenant has more, and no org of the tenant has more. -/
theorem Loaded.biggest {owner : Row → Row}
    (h : Loaded owner orgs tenantRows rows) (sweep : Option Sweep)
    (hne : rows ≠ []) :
    ∃ big, bigOrg sweep tenantRows orgs = some big ∧ big ∈ orgs ∧ big.units ≠ [] ∧
      (∀ t, (ofTenant (fun r => rowTenant (owner r)) rows t).length ≤
        (ofTenant (fun r => rowTenant (owner r)) rows big.tenant).length) ∧
      ∀ s, (ofOrg (fun r => rowTenant (owner r)) (fun r => (owner r).site) rows big.tenant s).length ≤
        (ofOrg (fun r => rowTenant (owner r)) (fun r => (owner r).site) rows
          big.tenant big.site).length := by
  have hspec := bigOrg_spec sweep tenantRows orgs
  cases hbig : bigOrg sweep tenantRows orgs with
  | none =>
    rw [hbig] at hspec
    obtain ⟨r, hr⟩ := exists_mem_of_ne_nil _ hne
    obtain ⟨o, ho, hunits, -⟩ := h.mem hr
    exact absurd (hspec o ho) hunits
  | some big =>
    rw [hbig] at hspec
    obtain ⟨hmem, hunits, hmax⟩ := hspec
    refine ⟨big, rfl, hmem, hunits, fun t => ?_, fun s => ?_⟩
    · rcases (ofTenant (fun r => rowTenant (owner r)) rows t).eq_nil_or_concat' with
        hnil | ⟨init, r, hcons⟩
      · rw [hnil]
        exact Nat.zero_le _
      · have hr : r ∈ ofTenant (fun r => rowTenant (owner r)) rows t := by simp [hcons]
        rw [ofTenant, mem_filter, decide_eq_true_eq] at hr
        obtain ⟨o, ho, hunits, hot, -⟩ := h.mem hr.1
        have hle := hmax o ho hunits
        rw [h.tenants, h.tenants, hot, hr.2] at hle
        omega
    · rcases (ofOrg (fun r => rowTenant (owner r)) (fun r => (owner r).site) rows
          big.tenant s).eq_nil_or_concat' with hnil | ⟨init, r, hcons⟩
      · rw [hnil]
        exact Nat.zero_le _
      · have hr : r ∈ ofOrg (fun r => rowTenant (owner r)) (fun r => (owner r).site) rows
          big.tenant s := by simp [hcons]
        rw [ofOrg, mem_filter, Bool.and_eq_true, decide_eq_true_eq, decide_eq_true_eq] at hr
        obtain ⟨o, ho, hunits, hot, hos⟩ := h.mem hr.1
        have hle := hmax o ho hunits
        rw [h.n o ho, h.n big hmem, hot, hos, hr.2.1, hr.2.2] at hle
        omega

variable {ks : List JsString}

/-- The rows that go and those that stay are rows of different units. -/
theorem Sheds.split {maxRows : ℕ} {owner : Row → Row}
    (h : Sheds maxRows owner tenant site rows ks) :
    ∃ gone rest, rows.Perm (gone ++ rest) ∧ gone.map Row.key = ks ∧ rest.length ≤ maxRows ∧
      ∀ r ∈ gone, ∀ q ∈ rest, owner q ≠ owner r := by
  induction h with
  | fits hfits => exact ⟨[], _, .refl _, rfl, hfits, fun r hr => absurd hr not_mem_nil⟩
  | @pays rows unit rest head ks hover hperm hne hunit hrest htenant horg _ ih =>
    obtain ⟨gone, left, hleft, hks, hlen, hapart⟩ := ih
    refine ⟨unit ++ gone, left, ?_, ?_, hlen, fun r hr q hq => ?_⟩
    · rw [append_assoc]
      exact hperm.trans (hleft.append_left unit)
    · rw [map_append, hks]
    · rcases mem_append.mp hr with hr | hr
      · rw [(hunit r hr).1]
        exact hrest q (hleft.mem_iff.mpr (mem_append_right _ hq))
      · exact hapart r hr q hq

/-- Counts by another tenant and site, where these are the same for all that is counted. -/
theorem Sheds.congr {maxRows : ℕ} {owner : Row → Row} {tenant site tenant' site' : Row → JsString}
    (h : Sheds maxRows owner tenant site rows ks)
    (hrows : ∀ r ∈ rows, tenant' r = tenant r ∧ site' r = site r)
    (howners : ∀ r ∈ rows, tenant' (owner r) = tenant (owner r) ∧ site' (owner r) = site (owner r)) :
    Sheds maxRows owner tenant' site' rows ks := by
  induction h with
  | fits hfits => exact .fits hfits
  | @pays rows unit rest head ks hover hperm hne hunit hrest htenant horg _ ih =>
    have hmem : ∀ r ∈ unit, r ∈ rows := fun r hr => hperm.mem_iff.mpr (mem_append_left _ hr)
    have hleft : ∀ r ∈ rest, r ∈ rows := fun r hr => hperm.mem_iff.mpr (mem_append_right _ hr)
    obtain ⟨r, hr⟩ := exists_mem_of_ne_nil _ hne
    have hhead := howners r (hmem r hr)
    rw [(hunit r hr).1] at hhead
    have htenants : ∀ t, ofTenant tenant' rows t = ofTenant tenant rows t := fun t =>
      filter_congr fun r hr => by rw [(hrows r hr).1]
    have horgs : ∀ t s, ofOrg tenant' site' rows t s = ofOrg tenant site rows t s := fun t s =>
      filter_congr fun r hr => by rw [(hrows r hr).1, (hrows r hr).2]
    refine .pays hover hperm hne (fun r hr => ?_) hrest (fun t => ?_) (fun s => ?_)
      (ih (fun r hr => hrows r (hleft r hr)) fun r hr => howners r (hleft r hr))
    · rw [hhead.1, hhead.2, (hrows r (hmem r hr)).1, (hrows r (hmem r hr)).2]
      exact hunit r hr
    · rw [htenants, htenants, hhead.1]
      exact htenant t
    · rw [horgs, horgs, hhead.1, hhead.2]
      exact horg s

end Turma.OutcomeLedger
