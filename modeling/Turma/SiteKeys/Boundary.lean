import Turma.Lib.JsHeap
import Turma.SiteKeys.Places

/-! The copy that an agent is handed, made in memory: nothing that was there is written, and the
copy holds what `unscopeSiteKeys` says. -/

namespace Turma.SiteKeys

open Turma.Lib

/-- `unscopeSiteKeys` where objects have addresses; `levels` are left before `depth > 8`. -/
def unscopeObject : ℕ → JsVal → JsHeap → JsHeap × JsVal
  | levels + 1, .ref a, h =>
    match h[a]? with
    | none => (h, .ref a)
    | some cell =>
      let copied := JsHeap.copyOnWrite (fun k x h =>
        match k, x with
        | some k, .str s =>
          if k = siteKey then (h, .str (baseOfSite s)) else unscopeObject levels (.str s) h
        | _, x => unscopeObject levels x h) a 0 cell.slots h none
      (copied.1, copied.2.elim (.ref a) .ref)
  | _, x, h => (h, x)

/-- What the walk does with a part. -/
def unscopeSlot (levels : ℕ) (k : Option JsString) (x : JsVal) (h : JsHeap) : JsHeap × JsVal :=
  match k, x with
  | some k, .str s =>
    if k = siteKey then (h, .str (baseOfSite s)) else unscopeObject levels (.str s) h
  | _, x => unscopeObject levels x h

theorem unscopeObject_ref {levels a : ℕ} {h : JsHeap} {cell : JsCell} (hcell : h[a]? = some cell) :
    unscopeObject (levels + 1) (.ref a) h =
      ((JsHeap.copyOnWrite (unscopeSlot levels) a 0 cell.slots h none).1,
        (JsHeap.copyOnWrite (unscopeSlot levels) a 0 cell.slots h none).2.elim (.ref a) .ref) := by
  rw [unscopeObject, hcell]
  rfl

theorem unscopeObject_plain {levels : ℕ} {x : JsVal} {h : JsHeap} (hx : ∀ a, x ≠ .ref a) :
    unscopeObject levels x h = (h, x) := by
  cases x with
  | ref a => exact absurd rfl (hx a)
  | _ => cases levels <;> rfl

/-- What the copy of a value at `depth` comes to. -/
def Copies (levels depth : ℕ) : Prop := ∀ (P : ℕ → Prop) (h : JsHeap) (v : Json) (x : JsVal),
  (∀ b, P b → b < h.length) → JsHeap.Holds P h v x →
    h <+: (unscopeObject levels x h).1 ∧
      JsHeap.Holds (fun b => P b ∨ h.length ≤ b) (unscopeObject levels x h).1
        (unscopeSiteKeys depth v) (unscopeObject levels x h).2

theorem Copies.rewrites {levels depth : ℕ} (hrec : Copies levels (depth + 1)) {P : ℕ → Prop}
    {h₀ : JsHeap} (hP : ∀ b, P b → b < h₀.length) (parts : List (Option JsString × Json)) :
    JsHeap.Rewrites P (unscopeSlot levels) (unscopePart depth) h₀ parts := by
  intro k v x h _ hgrown hx
  have hbelow := hrec P h v x (fun b hb => (hP b hb).trans_le hgrown.length_le) hx
  by_cases hsite : k = some siteKey ∧ isString v = true
  · obtain ⟨rfl, hstring⟩ := hsite
    cases v with
    | str s =>
      obtain rfl := hx
      rw [unscopeSlot, if_pos rfl]
      refine ⟨List.prefix_refl _, ?_⟩
      rw [unscopePart, if_pos ⟨rfl, hstring⟩]
      rfl
    | _ => cases hstring
  · have hpart : unscopePart depth k v = unscopeSiteKeys (depth + 1) v := by
      cases k with
      | none => rfl
      | some k => exact if_neg fun hk => hsite ⟨congrArg some hk.1, hk.2⟩
    have hslot : unscopeSlot levels k x h = unscopeObject levels x h := by
      cases k with
      | none => rfl
      | some k =>
        cases x with
        | str s =>
          refine if_neg fun hk => hsite ⟨congrArg some hk, ?_⟩
          cases v with
          | str s => rfl
          | arr vs => obtain ⟨a, slots, hx, -⟩ := hx; cases hx
          | obj ms => obtain ⟨a, slots, hx, -⟩ := hx; cases hx
          | _ => cases hx
        | _ => rfl
    rw [hpart, hslot]
    exact hbelow

theorem copies (levels depth : ℕ) (hlevels : depth + levels = 9) : Copies levels depth := by
  induction levels generalizing depth with
  | zero =>
    intro P h v x _ hx
    have hsame : unscopeObject 0 x h = (h, x) := rfl
    rw [hsame, unscope_deep (by omega)]
    exact ⟨List.prefix_refl _, hx.mono fun b c hb hcell => ⟨.inl hb, hcell⟩⟩
  | succ levels ih =>
    intro P h v x hP hx
    have hrec := ih (depth + 1) (by omega)
    cases v with
    | arr vs =>
      obtain ⟨a, slots, rfl, ha, hcell, hslots⟩ := hx
      obtain ⟨hgrown, o, slots', hout, ho, hnew, hparts⟩ :=
        JsHeap.copyOnWrite_holds hP ha hcell (hrec.rewrites hP (Json.arr vs).parts)
          (JsHeap.holdsElements_iff.mp hslots)
      rw [unscopeObject_ref hcell, unscopeSiteKeys, if_neg (by omega)]
      refine ⟨hgrown, o, slots', hout, ho, hnew, JsHeap.holdsElements_iff.mpr ?_⟩
      rw [← parts_unscope (by omega), unscopeSiteKeys, if_neg (by omega)] at hparts
      exact hparts
    | obj ms =>
      obtain ⟨a, slots, rfl, ha, hcell, hslots⟩ := hx
      obtain ⟨hgrown, o, slots', hout, ho, hnew, hparts⟩ :=
        JsHeap.copyOnWrite_holds hP ha hcell (hrec.rewrites hP (Json.obj ms).parts)
          (JsHeap.holdsMembers_iff.mp hslots)
      rw [unscopeObject_ref hcell, unscopeSiteKeys, if_neg (by omega)]
      refine ⟨hgrown, o, slots', hout, ho, hnew, JsHeap.holdsMembers_iff.mpr ?_⟩
      rw [← parts_unscope (by omega), unscopeSiteKeys, if_neg (by omega)] at hparts
      exact hparts
    | _ =>
      obtain rfl := hx
      rw [unscopeObject_plain (fun a => JsVal.noConfusion)]
      exact ⟨List.prefix_refl _, rfl⟩

end Turma.SiteKeys

/-! A beat's orgs at the boundary: in the host's tenant on the way in, plain on the way out. -/

namespace Turma.SiteKeys

open Turma.Lib Turma.Tenancy

variable {t : JsString}

mutual

theorem scopeSiteKeys_again (ht : IsTenant t) : ∀ (depth : ℕ) (v : Json),
    scopeSiteKeys t depth (scopeSiteKeys t depth v) = scopeSiteKeys t depth v
  | depth, .arr vs => by
    rw [scopeSiteKeys]
    split_ifs with hdeep
    · rw [scopeSiteKeys, if_pos hdeep]
    · rw [scopeSiteKeys, if_neg hdeep, scopeElements_again ht (depth + 1) vs]
  | depth, .obj ms => by
    rw [scopeSiteKeys]
    split_ifs with hdeep
    · rw [scopeSiteKeys, if_pos hdeep]
    · rw [scopeSiteKeys, if_neg hdeep, scopeMembers_again ht depth ms]
  | _, .null => rfl
  | _, .bool _ => rfl
  | _, .num _ => rfl
  | _, .str _ => rfl

theorem scopeElements_again (ht : IsTenant t) : ∀ (depth : ℕ) (vs : JsonElements),
    scopeElements t depth (scopeElements t depth vs) = scopeElements t depth vs
  | _, .nil => rfl
  | depth, .cons v vs => by
    rw [scopeElements, scopeElements, scopeSiteKeys_again ht depth v,
      scopeElements_again ht depth vs]

theorem scopeMembers_again (ht : IsTenant t) : ∀ (depth : ℕ) (ms : JsonMembers),
    scopeMembers t depth (scopeMembers t depth ms) = scopeMembers t depth ms
  | _, .nil => rfl
  | depth, .cons k x ms => by
    rw [scopeMembers, scopeMembers, scopeMembers_again ht depth ms]
    split_ifs with hskip hsite
    · rfl
    · cases x with
      | str s =>
        rw [onString, onString, scopeSite_again ht]
      | _ => rfl
    · rw [scopeSiteKeys_again ht (depth + 1) x]

end

/-- The string that a changed place holds. -/
theorem find_of_seen {v w : Json} {place : List ℕ} {names : List (Option JsString)} {s : JsString}
    {P : List (Option JsString) → Prop} [DecidablePred P] {f : JsString → JsString}
    (h : (w.find place).map plainly = (v.find place).map (seen P f))
    (hfind : v.find place = some (names, .str s)) (hP : P names) :
    w.find place = some (names, .str (f s)) := by
  rw [hfind, Option.map_some, seen, if_pos hP] at h
  obtain ⟨⟨names', y⟩, hw, hq⟩ := Option.map_eq_some_iff.mp h
  obtain ⟨rfl, hy⟩ := Prod.mk.inj hq
  rw [hw]
  cases y with
  | str s' => rw [show Json.str s' = .str (f s) from hy]
  | _ => cases hy

theorem Rescoped.unscoped {depth : ℕ} {names : List (Option JsString)}
    (h : Rescoped depth names) : Unscoped depth names := ⟨h.1, h.2.1⟩

/-- A beat `v` of a host of tenant `t` as the hub reads it, `w`. -/
structure InTenant (t : JsString) (v w : Json) : Prop where
  own : ∀ place names s, v.find place = some (names, .str s) → Rescoped 0 names →
    ∃ s', w.find place = some (names, .str s') ∧ (s ≠ [] → tenantOfSite s' = t)
  /-- Nothing else is changed, added or removed. -/
  rest : ∀ place, (w.find place).map plainly =
    (v.find place).map (seen (Rescoped 0) fun s => scopeSite s t)
  again : scopeSiteKeys t 0 w = w
  back : ∀ place names s, v.find place = some (names, .str s) → Rescoped 0 names →
    ∃ (base : JsString) (suffixes : List JsString),
      (unscopeSiteKeys 0 w).find place = some (names, .str base) ∧
      s = base ++ suffixes.flatten ∧ (∀ c ∈ suffixes, tenantSuffix c = true) ∧
      tenantOfSite base = []
  /-- In memory, the copy leaves every object that was there as it was. -/
  copied : ∀ (h : JsHeap) (x : JsVal), JsHeap.Holds (fun a => a < h.length) h w x →
    ∃ more y, unscopeObject 9 x h = (h ++ more, y) ∧
      JsHeap.Holds (fun a => a < (h ++ more).length) (h ++ more) (unscopeSiteKeys 0 w) y

theorem scopeSiteKeys_inTenant (ht : IsTenant t) (v : Json) :
    InTenant t v (scopeSiteKeys t 0 v) where
  own place names s hfind hnames :=
    have hscoped := find_of_seen (find_scope t place 0 v) hfind hnames
    ⟨scopeSite s t, hscoped, tenantOfSite_scopeSite ht⟩
  rest place := find_scope t place 0 v
  again := scopeSiteKeys_again ht 0 v
  back place names s hfind hnames := by
    have hscoped := find_of_seen (find_scope t place 0 v) hfind hnames
    have hback := find_of_seen (find_unscope place 0 _) hscoped hnames.unscoped
    rw [baseOfSite_scopeSite ht] at hback
    obtain ⟨hplain, suffixes, hsite, hall⟩ := stripSiteTenantSuffixes_spec s
    exact ⟨_, suffixes, hback, hsite, hall, hplain⟩
  copied h x hx := by
    obtain ⟨⟨more, hgrown⟩, hy⟩ := copies 9 0 rfl _ h _ x (fun b hb => hb) hx
    refine ⟨more, (unscopeObject 9 x h).2, Prod.ext hgrown.symm rfl, ?_⟩
    rw [hgrown]
    refine hy.mono fun b c _ hcell => ⟨?_, hcell⟩
    exact (List.getElem?_eq_some_iff.mp hcell).1

/-- `n` objects around a value. -/
def nested : ℕ → Json → Json
  | 0, v => v
  | n + 1, v => .obj (.cons (.ofString "a") (nested n v) .nil)

def sampleTenant : JsString := .ofString "0123456789abcdef0123456789abcdef"

/-- The site `x` in an org of `sampleTenant`. -/
def forgedSite : JsString := .ofString "x" ++ .scalar '@' :: sampleTenant

/-- One object deeper than the walk goes, a forged suffix stays. -/
theorem scopeSiteKeys_too_deep : ¬∀ (t : JsString) (v : Json) (place : List ℕ)
    (names : List (Option JsString)) (s : JsString), IsTenant t →
    v.find place = some (names, .str s) → names.getLast? = some (some siteKey) →
    (∀ k ∈ SITE_SCOPE_SKIP, names.head? ≠ some (some k)) →
    ∃ s', (scopeSiteKeys t 0 v).find place = some (names, .str s') ∧ tenantOfSite s' = t := by
  intro h
  obtain ⟨s', hfind, htenant⟩ := h []
    (nested 9 (.obj (.cons siteKey (.str forgedSite) .nil))) (List.replicate 10 0)
    (List.replicate 9 (some (.ofString "a")) ++ [some siteKey]) forgedSite (.inl rfl)
    (by rfl) (by decide) (by decide)
  have hstays : (scopeSiteKeys [] 0 (nested 9 (.obj (.cons siteKey (.str forgedSite) .nil)))).find
      (List.replicate 10 0) =
      some (List.replicate 9 (some (.ofString "a")) ++ [some siteKey], .str forgedSite) := rfl
  rw [hstays] at hfind
  obtain rfl : forgedSite = s' := Json.str.inj (Prod.mk.inj (Option.some.inj hfind)).2
  cases htenant

/-- A beat that names an org of another tenant, twice over. -/
theorem scopeSiteKeys_inTenant_forged :
    InTenant sampleTenant
      (.obj (.cons siteKey (.str (forgedSite ++ .scalar '@' :: sampleTenant)) .nil))
      (.obj (.cons siteKey (.str forgedSite) .nil)) := by
  have hscoped : scopeSiteKeys sampleTenant 0
      (.obj (.cons siteKey (.str (forgedSite ++ .scalar '@' :: sampleTenant)) .nil)) =
      .obj (.cons siteKey (.str forgedSite) .nil) := by rfl
  rw [← hscoped]
  exact scopeSiteKeys_inTenant (.inr (by decide)) _

end Turma.SiteKeys
