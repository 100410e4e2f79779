import Mathlib.Data.List.Sort
import Mathlib.Data.List.Dedup
import Turma.Lib.JsString
import Turma.Lib.OrdMap
import Turma.Lib.Sort

/-! The bound on a store that all tenants share: what is over it goes from the tenant that holds the
most, its oldest record first. -/

namespace Turma.OrgStores

open Turma.Lib List OrdMap

variable {α A : Type*} [LinearOrder A] [Zero A]

abbrev Rec (α : Type*) := JsString × α

/-- What a call reads its map by. -/
structure Rule (α A : Type*) where
  tenantOf : JsString → α → JsString
  /-- Nothing where the record has no number there. -/
  age : α → Option A
  keep : Option JsString

def Rule.ageOf (R : Rule α A) (e : Rec α) : A := (R.age e.2).getD 0

def Rule.tenant (R : Rule α A) (e : Rec α) : JsString := R.tenantOf e.1 e.2

def Rule.isVictim (R : Rule α A) (e : Rec α) : Bool := some e.1 ≠ R.keep

def Rule.countOf (R : Rule α A) (m : OrdMap JsString α) : OrdMap JsString ℕ :=
  m.entries.foldl (fun c e => c.upsert (R.tenant e) fun n => n.getD 0 + 1) .empty

def Rule.victimsOf (R : Rule α A) (m : OrdMap JsString α) : OrdMap JsString (List (Rec α)) :=
  (OrdMap.groupBy R.tenant (m.entries.filter R.isVictim)).mapValues
    (List.insertionSort fun a b => R.ageOf a ≤ R.ageOf b)

structure Pick (α : Type*) where
  tenant : JsString
  first : Rec α
  rest : List (Rec α)

def Rule.prefer (R : Rule α A) (count : OrdMap JsString ℕ) (pick : Option (Pick α))
    (v : JsString × List (Rec α)) : Option (Pick α) :=
  match v.2, pick with
  | [], _ => pick
  | e :: es, none => some ⟨v.1, e, es⟩
  | e :: es, some p =>
    if count.figure id p.tenant < count.figure id v.1 ∨
        count.figure id v.1 = count.figure id p.tenant ∧ R.ageOf e < R.ageOf p.first then
      some ⟨v.1, e, es⟩
    else some p

def Rule.evict (R : Rule α A) :
    ℕ → OrdMap JsString ℕ → OrdMap JsString (List (Rec α)) → List JsString
  | 0, _, _ => []
  | over' + 1, count, victims =>
    match victims.entries.foldl (R.prefer count) none with
    | none => []
    | some p =>
      p.first.1 :: R.evict over' (count.adjust p.tenant fun n => n - 1)
        (victims.adjust p.tenant fun _ => p.rest)

/-- The map without its evicted keys, and these. -/
def trimByTenant (R : Rule α A) (m : OrdMap JsString α) (max : ℕ) :
    OrdMap JsString α × List JsString :=
  let evicted :=
    if m.size ≤ max then [] else R.evict (m.size - max) (R.countOf m) (R.victimsOf m)
  (m.filterKeys fun k => k ∉ evicted, evicted)

end Turma.OrgStores

/-! What the bound takes: as many records as are over it, each from a tenant that holds the most of
those that have a victim, and each its tenant's oldest. -/

namespace Turma.OrgStores

open Turma.Lib List OrdMap

variable {α A : Type*} {R : Rule α A} {m : OrdMap JsString α}

def without (m : OrdMap JsString α) (gone : List JsString) : List (Rec α) :=
  m.entries.filter fun e => e.1 ∉ gone

def Rule.held (R : Rule α A) (es : List (Rec α)) (t : JsString) : ℕ :=
  (es.filter fun e => R.tenant e = t).length

def Rule.tenants (R : Rule α A) (m : OrdMap JsString α) : List JsString :=
  (m.entries.map R.tenant).dedup

theorem held_perm {es es' : List (Rec α)} (h : es.Perm es') (t : JsString) :
    R.held es t = R.held es' t := (h.filter _).length_eq

theorem held_cons (e : Rec α) (es : List (Rec α)) (t : JsString) :
    R.held (e :: es) t = R.held es t + if R.tenant e = t then 1 else 0 := by
  rw [Rule.held, filter_cons]
  split_ifs with h h' h'
  · rfl
  · exact absurd (by simpa using h) h'
  · exact absurd (by simpa using h') h
  · rfl

/-- No tenant with at most `n` records is more than its share of them. -/
theorem length_le_of_held {es : List (Rec α)} {ts : List JsString} {n : ℕ}
    (hin : ∀ e ∈ es, R.tenant e ∈ ts) (hheld : ∀ t ∈ ts, R.held es t ≤ n) :
    es.length ≤ ts.length * n := by
  induction ts generalizing es with
  | nil =>
    cases es with
    | nil => exact Nat.zero_le _
    | cons e es => exact absurd (hin e mem_cons_self) not_mem_nil
  | cons t ts ih =>
    have hrest : (es.filter fun e => !decide (R.tenant e = t)).length ≤ ts.length * n := by
      refine ih (fun e he => ?_) fun t' ht' => ?_
      · obtain ⟨he, hne⟩ := mem_filter.mp he
        rcases mem_cons.mp (hin e he) with heq | hmem
        · simp [heq] at hne
        · exact hmem
      · exact (filter_sublist.filter _).length_le.trans
          (hheld t' (.tail _ ht'))
    have hsplit := length_eq_length_filter_add (l := es) fun e => decide (R.tenant e = t)
    have hown := hheld t mem_cons_self
    rw [Rule.held] at hown
    rw [length_cons, Nat.succ_mul]
    omega

variable {gone : List JsString} {e : Rec α}

theorem mem_without :
    e ∈ without m gone ↔ e ∈ m.entries ∧ e.1 ∉ gone := by
  simp [without]

theorem without_append (gone ks : List JsString) :
    without m (gone ++ ks) = (without m gone).filter fun e => e.1 ∉ ks := by
  rw [without, without, filter_filter]
  refine filter_congr fun e _ => ?_
  simp [Bool.and_comm]

/-- One record less is left. -/
theorem without_perm (he : e ∈ without m gone) :
    (without m gone).Perm (e :: without m (gone ++ [e.1])) := by
  have hkeys : ((without m gone).map Prod.fst).Nodup :=
    m.nodup.sublist (filter_sublist.map _)
  obtain ⟨a, b, hsplit⟩ := append_of_mem he
  have hperm : (without m gone).Perm (e :: (a ++ b)) := by
    rw [hsplit]
    exact perm_middle
  have hnodup := (hperm.map Prod.fst).nodup_iff.mp hkeys
  have hleft := @filter_outside _ _ _ _ Prod.fst [e] (a ++ b) hnodup
  rw [without_append]
  refine hperm.trans (Perm.cons e ?_)
  refine .trans (.of_eq hleft.symm) ?_
  exact ((hperm.filter _).trans (.of_eq rfl)).symm

/-- At most one record is kept from eviction. -/
theorem length_kept_le (R : Rule α A) (m : OrdMap JsString α) :
    (m.entries.filter fun e => !R.isVictim e).length ≤ 1 := by
  cases hkeep : R.keep with
  | none =>
    have hnil : (m.entries.filter fun e => !R.isVictim e) = [] := by
      rw [filter_eq_nil_iff]
      intro e _
      simp [Rule.isVictim, hkeep]
    rw [hnil]
    exact Nat.zero_le 1
  | some k =>
    have hsame : (m.entries.filter fun e => !R.isVictim e) = m.entries.filter fun e => e.1 = k :=
      filter_congr fun e _ => by simp [Rule.isVictim, hkeep, eq_comm]
    rw [hsame, m.filter_key k]
    cases m.get? k <;> simp

theorem length_victims (R : Rule α A) (m : OrdMap JsString α) :
    m.size ≤ (m.entries.filter R.isVictim).length + 1 := by
  have hsplit : m.entries.length = (m.entries.filter R.isVictim).length +
      (m.entries.filter fun e => !R.isVictim e).length := length_eq_length_filter_add _
  have hkept := length_kept_le R m
  rw [OrdMap.size]
  omega

variable {count : OrdMap JsString ℕ} {victims : OrdMap JsString (List (Rec α))}

section

variable [LinearOrder A] [Zero A]

/-- Of the records `es`, the one at `k` is to go: no tenant with a victim holds more than its own,
and no victim of its own tenant, or of one that holds as much, is older. -/
def Rule.Pays (R : Rule α A) (es : List (Rec α)) (k : JsString) : Prop :=
  ∃ e ∈ es, e.1 = k ∧ R.isVictim e = true ∧
    ∀ v ∈ es, R.isVictim v = true →
      R.held es (R.tenant v) < R.held es (R.tenant e) ∨
        R.held es (R.tenant v) = R.held es (R.tenant e) ∧ R.ageOf e ≤ R.ageOf v

/-- How far the loop is: the keys `gone` are evicted. -/
structure Rule.Running (R : Rule α A) (m : OrdMap JsString α) (gone : List JsString)
    (count : OrdMap JsString ℕ) (victims : OrdMap JsString (List (Rec α))) : Prop where
  counts : ∀ t, count.figure id t = R.held (without m gone) t
  lists : ∀ t, ((victims.get? t).getD []).Perm
    ((without m gone).filter fun e => R.isVictim e && R.tenant e = t)
  sorted : ∀ t es, victims.get? t = some es → es.Pairwise fun a b => R.ageOf a ≤ R.ageOf b

def Rule.Picks (R : Rule α A) (count : OrdMap JsString ℕ) (vs : List (JsString × List (Rec α))) :
    Option (Pick α) → Prop
  | none => ∀ v ∈ vs, v.2 = []
  | some p => (p.tenant, p.first :: p.rest) ∈ vs ∧ ∀ v ∈ vs, ∀ e es, v.2 = e :: es →
      count.figure id v.1 < count.figure id p.tenant ∨
        count.figure id v.1 = count.figure id p.tenant ∧ R.ageOf p.first ≤ R.ageOf e

theorem Rule.Picks.prefer {vs : List (JsString × List (Rec α))}
    {pick : Option (Pick α)} (h : R.Picks count vs pick) (v : JsString × List (Rec α)) :
    R.Picks count (vs ++ [v]) (R.prefer count pick v) := by
  obtain ⟨t, list⟩ := v
  cases list with
  | nil =>
    cases pick with
    | none =>
      intro v hv
      rcases mem_append.mp hv with hv | hv
      · exact h v hv
      · rw [mem_singleton.mp hv]
    | some p =>
      refine ⟨mem_append_left _ h.1, fun v hv e es hes => ?_⟩
      rcases mem_append.mp hv with hv | hv
      · exact h.2 v hv e es hes
      · rw [mem_singleton.mp hv] at hes
        cases hes
  | cons e₀ es₀ =>
    have hlast : (t, e₀ :: es₀) ∈ vs ++ [(t, e₀ :: es₀)] := by simp
    cases pick with
    | none =>
      refine ⟨hlast, fun v hv e es hes => ?_⟩
      rcases mem_append.mp hv with hv | hv
      · rw [h v hv] at hes
        cases hes
      · obtain rfl := mem_singleton.mp hv
        obtain ⟨rfl, rfl⟩ := List.cons.inj hes
        exact .inr ⟨rfl, le_refl _⟩
    | some p =>
      change R.Picks count _ (if _ then _ else _)
      split_ifs with hmore
      · refine ⟨hlast, fun v hv e es hes => ?_⟩
        rcases mem_append.mp hv with hv | hv
        · rcases h.2 v hv e es hes with hlt | ⟨heq, hage⟩
          · rcases hmore with hgt | ⟨hsame, -⟩
            · exact .inl (hlt.trans hgt)
            · exact .inl (hlt.trans_eq hsame.symm)
          · rcases hmore with hgt | ⟨hsame, hold⟩
            · exact .inl (heq.trans_lt hgt)
            · exact .inr ⟨heq.trans hsame.symm, hold.le.trans hage⟩
        · obtain rfl := mem_singleton.mp hv
          obtain ⟨rfl, rfl⟩ := List.cons.inj hes
          exact .inr ⟨rfl, le_refl _⟩
      · refine ⟨mem_append_left _ h.1, fun v hv e es hes => ?_⟩
        rcases mem_append.mp hv with hv | hv
        · exact h.2 v hv e es hes
        · obtain rfl := mem_singleton.mp hv
          obtain ⟨rfl, rfl⟩ := List.cons.inj hes
          rw [not_or, not_and] at hmore
          rcases (not_lt.mp hmore.1).lt_or_eq with hlt | heq
          · exact .inl hlt
          · exact .inr ⟨heq, not_lt.mp (hmore.2 heq)⟩

theorem Rule.picks (R : Rule α A) (count : OrdMap JsString ℕ)
    (vs : List (JsString × List (Rec α))) :
    R.Picks count vs (vs.foldl (R.prefer count) none) := by
  induction vs using List.reverseRecOn with
  | nil => exact fun v hv => absurd hv not_mem_nil
  | append_singleton vs v ih =>
    rw [foldl_append]
    exact ih.prefer v

theorem Rule.Running.start (R : Rule α A) (m : OrdMap JsString α) :
    R.Running m [] (R.countOf m) (R.victimsOf m) where
  counts t := by
    have hall : without m [] = m.entries := by simp [without]
    have hcount : ∀ (es : List (Rec α)) (c : OrdMap JsString ℕ),
        (es.foldl (fun c e => c.upsert (R.tenant e) fun n => n.getD 0 + 1) c).figure id t =
          c.figure id t + R.held es t := by
      intro es
      induction es with
      | nil => exact fun c => rfl
      | cons e es ih =>
        intro c
        rw [foldl_cons, ih, held_cons]
        have hstep : (c.upsert (R.tenant e) fun n => n.getD 0 + 1).figure id t =
            c.figure id t + if R.tenant e = t then 1 else 0 := by
          rw [OrdMap.figure, get?_upsert]
          split_ifs with h h' h'
          · subst h
            rw [OrdMap.figure]
            cases c.get? (R.tenant e) <;> rfl
          · exact absurd h.symm h'
          · exact absurd h'.symm h
          · rfl
        omega
    rw [hall, Rule.countOf, hcount]
    exact Nat.zero_add _
  lists t := by
    have hall : without m [] = m.entries := by simp [without]
    rw [hall, Rule.victimsOf, get?_mapValues, get?_groupBy, filter_filter]
    have hsame : (m.entries.filter fun e => decide (R.tenant e = t) && R.isVictim e) =
        m.entries.filter fun e => R.isVictim e && decide (R.tenant e = t) :=
      filter_congr fun e _ => Bool.and_comm _ _
    rw [hsame]
    split_ifs with hnone
    · rw [hnone]
      exact .refl _
    · exact perm_insertionSort _ _
  sorted t es hes := by
    rw [Rule.victimsOf, get?_mapValues] at hes
    obtain ⟨es', -, rfl⟩ := Option.map_eq_some_iff.mp hes
    exact pairwise_insertionSort _ es'

/-- One turn of the loop. -/
theorem Rule.Running.next
    {p : Pick α} (h : R.Running m gone count victims)
    (hpick : victims.entries.foldl (R.prefer count) none = some p) :
    R.Pays (without m gone) p.first.1 ∧
      R.Running m (gone ++ [p.first.1]) (count.adjust p.tenant fun n => n - 1)
        (victims.adjust p.tenant fun _ => p.rest) := by
  have hp := R.picks count victims.entries
  rw [hpick] at hp
  obtain ⟨hmem, hmost⟩ := hp
  have hget := get?_eq_some.mpr hmem
  have hlist := h.lists p.tenant
  rw [hget] at hlist
  have hfirst : p.first ∈ (without m gone).filter fun e => R.isVictim e && R.tenant e = p.tenant :=
    hlist.mem_iff.mp mem_cons_self
  obtain ⟨hleft, hvictim, htenant⟩ : p.first ∈ without m gone ∧ R.isVictim p.first = true ∧
      R.tenant p.first = p.tenant := by
    simpa using mem_filter.mp hfirst
  have hperm := without_perm hleft
  refine ⟨⟨p.first, hleft, rfl, hvictim, fun v hv hvv => ?_⟩, ?_, ?_, ?_⟩
  · have hv' := (h.lists (R.tenant v)).mem_iff.mpr
      (mem_filter.mpr ⟨hv, by simp [hvv]⟩)
    cases hes : victims.get? (R.tenant v) with
    | none =>
      rw [hes] at hv'
      exact absurd hv' not_mem_nil
    | some es =>
      rw [hes] at hv'
      have hsorted := h.sorted _ _ hes
      cases es with
      | nil => exact absurd hv' not_mem_nil
      | cons e es =>
        have hfirst : R.ageOf e ≤ R.ageOf v := by
          rcases mem_cons.mp hv' with rfl | hv'
          · exact le_refl _
          · exact (pairwise_cons.mp hsorted).1 v hv'
        have hpay := hmost _ (get?_eq_some.mp hes) e es rfl
        rw [h.counts, h.counts, ← htenant] at hpay
        rcases hpay with hlt | ⟨heq, hage⟩
        · exact .inl hlt
        · exact .inr ⟨heq, hage.trans hfirst⟩
  · intro t
    have hheld := held_perm (R := R) hperm t
    rw [held_cons, htenant] at hheld
    rw [OrdMap.figure, get?_adjust]
    have ht := h.counts t
    rw [OrdMap.figure] at ht
    split_ifs at hheld ⊢ with h₁ h₂ h₂
    · cases hn : count.get? t with
      | none =>
        rw [hn] at ht
        simp at ht
        omega
      | some n =>
        rw [hn] at ht
        simp at ht ⊢
        omega
    · exact absurd h₁.symm h₂
    · exact absurd h₂.symm h₁
    · omega
  · intro t
    have hsplit := hperm.filter fun e => R.isVictim e && decide (R.tenant e = t)
    rw [filter_cons, hvictim, htenant] at hsplit
    rw [get?_adjust]
    split_ifs with ht
    · subst ht
      rw [hget]
      rw [if_pos (by simp)] at hsplit
      exact (perm_cons _).mp (hlist.trans hsplit)
    · rw [if_neg (by simpa using Ne.symm ht)] at hsplit
      exact (h.lists t).trans hsplit
  · intro t es hes
    rw [get?_adjust] at hes
    split_ifs at hes with ht
    · subst ht
      rw [hget] at hes
      rw [← Option.some.inj hes]
      exact (pairwise_cons.mp (h.sorted _ _ hget)).2
    · exact h.sorted t es hes

/-- The loop ends early only where there is no victim. -/
theorem Rule.Running.done
    (h : R.Running m gone count victims)
    (hpick : victims.entries.foldl (R.prefer count) none = none) :
    ∀ e ∈ without m gone, R.isVictim e = false := by
  intro e he
  have hp := R.picks count victims.entries
  rw [hpick] at hp
  by_contra hvictim
  have hmem := (h.lists (R.tenant e)).mem_iff.mpr
    (mem_filter.mpr ⟨he, by simpa using hvictim⟩)
  cases hes : victims.get? (R.tenant e) with
  | none =>
    rw [hes] at hmem
    exact absurd hmem not_mem_nil
  | some es =>
    have hnil : es = [] := hp _ (get?_eq_some.mp hes)
    rw [hes, hnil] at hmem
    exact absurd hmem not_mem_nil

/-- The loop evicts as long as it is to and there is a victim. -/
theorem Rule.Running.run
    (h : R.Running m gone count victims) {n : ℕ}
    (hn : n ≤ ((without m gone).filter R.isVictim).length) :
    (R.evict n count victims).length = n ∧
      ∀ a k b, R.evict n count victims = a ++ k :: b → R.Pays (without m (gone ++ a)) k := by
  induction n generalizing gone count victims with
  | zero => exact ⟨rfl, fun a k b hsplit => by simp [Rule.evict] at hsplit⟩
  | succ n ih =>
    rw [Rule.evict]
    cases hpick : victims.entries.foldl (R.prefer count) none with
    | none =>
      rw [filter_eq_nil_iff.mpr fun e he => by simp [h.done hpick e he]] at hn
      exact absurd hn (Nat.not_succ_le_zero n)
    | some p =>
      obtain ⟨hpays, hnext⟩ := h.next hpick
      obtain ⟨e, he, hkey, hvictim, -⟩ := id hpays
      have hless := ((without_perm he).filter R.isVictim).length_eq
      rw [filter_cons, if_pos hvictim, length_cons, hkey] at hless
      obtain ⟨hlen, hrest⟩ := ih hnext (by omega)
      refine ⟨by rw [length_cons, hlen], fun a k b hsplit => ?_⟩
      cases a with
      | nil =>
        obtain ⟨rfl, -⟩ := List.cons.inj hsplit
        rw [append_nil]
        exact hpays
      | cons k₀ a =>
        obtain ⟨rfl, hlater⟩ := List.cons.inj hsplit
        have hpays' := hrest a k b hlater
        rwa [append_assoc] at hpays'

/-- What is left of `m`, and what is gone. -/
structure Rule.Trims (R : Rule α A) (m : OrdMap JsString α) (max : ℕ) (left : OrdMap JsString α)
    (evicted : List JsString) : Prop where
  bounded : left.size ≤ max
  kept : ∀ k, R.keep = some k → left.get? k = m.get? k
  exact : evicted.length = m.size - max
  nodup : evicted.Nodup
  known : ∀ k ∈ evicted, k ∈ m.keys
  rest : ∀ k, left.get? k = if k ∈ evicted then none else m.get? k
  fair : ∀ gone k later, evicted = gone ++ k :: later → R.Pays (without m gone) k
  share : ∀ e ∈ m.entries, R.held m.entries (R.tenant e) ≤ max / (R.tenants m).length →
    e.1 ∉ evicted

/-- Distinct keys of the map leave as many records fewer. -/
theorem length_without (hnodup : gone.Nodup)
    (hknown : ∀ k ∈ gone, k ∈ m.keys) : (without m gone).length = m.size - gone.length := by
  induction gone using List.reverseRecOn with
  | nil => simp [without, OrdMap.size]
  | append_singleton gone k ih =>
    obtain ⟨hgone, -, hnew⟩ := nodup_append.mp hnodup
    obtain ⟨e, he, rfl⟩ := mem_map.mp (hknown k (by simp))
    have hleft : e ∈ without m gone :=
      mem_without.mpr ⟨he, fun hmem => hnew _ hmem _ (mem_singleton_self _) rfl⟩
    have hless := (without_perm hleft).length_eq
    have hbefore := ih hgone fun k hk => hknown k (mem_append_left _ hk)
    rw [length_cons] at hless
    rw [length_append, length_singleton]
    omega

/-- The keys that a call evicts. -/
theorem evicted_pays (R : Rule α A) (m : OrdMap JsString α) {max : ℕ} (hmax : 1 ≤ max) :
    (trimByTenant R m max).2.length = m.size - max ∧
      ∀ gone k later, (trimByTenant R m max).2 = gone ++ k :: later → R.Pays (without m gone) k := by
  rw [trimByTenant]
  split_ifs with hfits
  · refine ⟨(Nat.sub_eq_zero_of_le hfits).symm, fun gone k later hsplit => ?_⟩
    simp at hsplit
  · have hvictims := length_victims R m
    have hall : without m [] = m.entries := by simp [without]
    obtain ⟨hlen, hpays⟩ := (Rule.Running.start R m).run (n := m.size - max) (by
      rw [hall]
      omega)
    exact ⟨hlen, hpays⟩

/-- Keys that go one after the other are distinct keys of the map. -/
theorem known_of_pays {evicted : List JsString}
    (h : ∀ gone k later, evicted = gone ++ k :: later → R.Pays (without m gone) k) :
    evicted.Nodup ∧ ∀ k ∈ evicted, k ∈ m.keys := by
  have hmem : ∀ gone k later, evicted = gone ++ k :: later → k ∈ m.keys ∧ k ∉ gone := by
    intro gone k later hsplit
    obtain ⟨e, he, rfl, -⟩ := h gone k later hsplit
    obtain ⟨he, hnew⟩ := mem_without.mp he
    exact ⟨mem_map_of_mem he, hnew⟩
  refine ⟨?_, fun k hk => ?_⟩
  · have hpre : ∀ gone later, evicted = gone ++ later → gone.Nodup := by
      intro gone
      induction gone using List.reverseRecOn with
      | nil => exact fun _ _ => nodup_nil
      | append_singleton gone k ih =>
        intro later hsplit
        have hsplit' : evicted = gone ++ k :: later := by rw [hsplit, append_assoc]; rfl
        refine nodup_append.mpr ⟨ih _ hsplit', nodup_singleton k, fun a ha b hb hab => ?_⟩
        rw [hab, mem_singleton.mp hb] at ha
        exact (hmem gone k later hsplit').2 ha
    exact hpre evicted [] (append_nil _).symm
  · obtain ⟨gone, later, hsplit⟩ := append_of_mem hk
    exact (hmem gone k later hsplit).1

/-- A tenant that pays while there are more than `max` records holds more than its share. -/
theorem Rule.Pays.over_share {max : ℕ}
    (h : R.Pays (without m gone) e.1) (he : e ∈ m.entries)
    (hover : max < (without m gone).length) :
    max / (R.tenants m).length < R.held m.entries (R.tenant e) := by
  obtain ⟨e', he', hkey, hvictim, hmost⟩ := h
  have hsame : e' = e :=
    inj_on_of_nodup_map m.nodup (mem_without.mp he').1 he hkey
  subst hsame
  by_contra hshare
  have hall : ∀ t ∈ R.tenants m,
      R.held (without m gone) t ≤ R.held (without m gone) (R.tenant e') := by
    intro t _
    by_cases hpaying : ∃ v ∈ without m gone, R.isVictim v = true ∧ R.tenant v = t
    · obtain ⟨v, hv, hvv, rfl⟩ := hpaying
      rcases hmost v hv hvv with hlt | ⟨heq, -⟩
      · exact hlt.le
      · exact heq.le
    · have hfew : R.held (without m gone) t ≤ 1 := by
        have hkept : (without m gone).filter (fun e => R.tenant e = t) =
            ((without m gone).filter fun e => !R.isVictim e).filter fun e => R.tenant e = t := by
          rw [filter_filter]
          refine filter_congr fun v hv => ?_
          cases hvv : R.isVictim v with
          | false => simp
          | true => simpa using fun ht => hpaying ⟨v, hv, hvv, ht⟩
        have hsub : (R.held (without m gone) t) ≤
            (m.entries.filter fun e => !R.isVictim e).length := by
          rw [Rule.held, hkept]
          exact (filter_sublist.trans (filter_sublist.filter _)).length_le
        exact hsub.trans (length_kept_le R m)
      have hone : 0 < R.held (without m gone) (R.tenant e') :=
        length_pos_of_mem (mem_filter.mpr ⟨he', by simp⟩)
      omega
  have hsum := length_le_of_held (fun v hv => ?_) hall
  · have hfall : R.held (without m gone) (R.tenant e') ≤ R.held m.entries (R.tenant e') :=
      (filter_sublist.filter _).length_le
    have hcap : R.held (without m gone) (R.tenant e') ≤ max / (R.tenants m).length := by omega
    have hprod := Nat.mul_le_mul_left (R.tenants m).length hcap
    have hdiv := Nat.mul_div_le max (R.tenants m).length
    omega
  · exact mem_dedup.mpr (mem_map_of_mem (mem_without.mp hv).1)

theorem trimByTenant_trims (R : Rule α A) (m : OrdMap JsString α) {max : ℕ} (hmax : 1 ≤ max) :
    R.Trims m max (trimByTenant R m max).1 (trimByTenant R m max).2 := by
  obtain ⟨hexact, hfair⟩ := evicted_pays R m hmax
  have hleft : (trimByTenant R m max).1 = m.filterKeys fun k => k ∉ (trimByTenant R m max).2 := rfl
  rw [hleft]
  generalize (trimByTenant R m max).2 = evicted at hexact hfair ⊢
  obtain ⟨hnodup, hknown⟩ := known_of_pays hfair
  have hrest : ∀ k, (m.filterKeys fun k => k ∉ evicted).get? k =
      if k ∈ evicted then none else m.get? k := by
    intro k
    rw [get?_filterKeys]
    by_cases hk : k ∈ evicted <;> simp [hk]
  refine ⟨?_, fun k hkeep => ?_, hexact, hnodup, hknown, hrest, hfair, fun e he hshare hk => ?_⟩
  · have hlen := length_without hnodup hknown
    change (without m evicted).length ≤ max
    omega
  · rw [hrest, if_neg]
    intro hk
    obtain ⟨gone, later, hsplit⟩ := append_of_mem hk
    obtain ⟨e, -, rfl, hvictim, -⟩ := hfair gone k later hsplit
    simp [Rule.isVictim, hkeep] at hvictim
  · obtain ⟨gone, later, hsplit⟩ := append_of_mem hk
    have hgone : ∀ k ∈ gone, k ∈ evicted := fun k hk => by
      rw [hsplit]
      exact mem_append_left _ hk
    have hlen := length_without (hnodup.sublist (hsplit ▸ sublist_append_left gone _))
      fun k hk => hknown k (hgone k hk)
    have hcount := congrArg List.length hsplit
    rw [length_append, length_cons] at hcount
    have hover : max < (without m gone).length := by omega
    have hmore := (hfair gone e.1 later hsplit).over_share he hover
    omega

end

/-- Two pins of one tenant, the last one just written, and an older one of another tenant. -/
def samplePins : OrdMap JsString (JsString × ℕ) :=
  ⟨[(.ofString "A-1", (.ofString "a", 7)), (.ofString "B-1", (.ofString "b", 3)),
    (.ofString "A-2", (.ofString "a", 9))], by decide⟩

def sampleRule : Rule (JsString × ℕ) ℕ where
  tenantOf _ r := r.1
  age r := some r.2
  keep := some (.ofString "A-2")

theorem trimByTenant_trims_pins :
    (trimByTenant sampleRule samplePins 2).2 = [JsString.ofString "A-1"] ∧
      sampleRule.Trims samplePins 2 (trimByTenant sampleRule samplePins 2).1
        (trimByTenant sampleRule samplePins 2).2 :=
  ⟨by decide, trimByTenant_trims sampleRule samplePins (by decide)⟩

end Turma.OrgStores
