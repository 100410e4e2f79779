import Turma.SiteKeys.Scope

/-! Where in a value the two walks change a site key, and that they change nothing else. -/

namespace Turma.SiteKeys

open Turma.Lib Turma.Registry Turma.Tenancy List Option

variable {t : JsString}

/-- A site key that the scoping of a value at `depth` rewrites: not in the content members of the
beat itself, not below another site key, and its object no deeper than the walk goes. -/
def Rescoped (depth : ℕ) (names : List (Option JsString)) : Prop :=
  depth + names.length ≤ 9 ∧ names.getLast? = some (some siteKey) ∧
    some siteKey ∉ names.dropLast ∧
    (depth = 0 → ∀ k ∈ SITE_SCOPE_SKIP, names.head? ≠ some (some k))

instance (depth : ℕ) (names : List (Option JsString)) : Decidable (Rescoped depth names) :=
  inferInstanceAs (Decidable (_ ∧ _))

/-- A site key that is made plain again. -/
def Unscoped (depth : ℕ) (names : List (Option JsString)) : Prop :=
  depth + names.length ≤ 9 ∧ names.getLast? = some (some siteKey)

instance (depth : ℕ) (names : List (Option JsString)) : Decidable (Unscoped depth names) :=
  inferInstanceAs (Decidable (_ ∧ _))

def scopePart (t : JsString) (depth : ℕ) : Option JsString → Json → Json
  | none, x => scopeSiteKeys t (depth + 1) x
  | some k, x =>
    if depth = 0 ∧ k ∈ SITE_SCOPE_SKIP then x
    else if k = siteKey then onString (fun s => scopeSite s t) x
    else scopeSiteKeys t (depth + 1) x

def unscopePart (depth : ℕ) : Option JsString → Json → Json
  | none, x => unscopeSiteKeys (depth + 1) x
  | some k, x =>
    if k = siteKey ∧ isString x = true then onString baseOfSite x
    else unscopeSiteKeys (depth + 1) x

theorem toList_scopeElements (depth : ℕ) (vs : JsonElements) :
    (scopeElements t depth vs).toList = vs.toList.map (scopeSiteKeys t depth) :=
  match vs with
  | .nil => rfl
  | .cons v vs => congrArg (scopeSiteKeys t depth v :: ·) (toList_scopeElements depth vs)

theorem toList_scopeMembers (depth : ℕ) (ms : JsonMembers) :
    (scopeMembers t depth ms).toList =
      ms.toList.map fun e => (e.1, scopePart t depth (some e.1) e.2) :=
  match ms with
  | .nil => rfl
  | .cons k x ms =>
    congrArg ((k, scopePart t depth (some k) x) :: ·) (toList_scopeMembers depth ms)

theorem toList_unscopeElements (depth : ℕ) (vs : JsonElements) :
    (unscopeElements depth vs).toList = vs.toList.map (unscopeSiteKeys depth) :=
  match vs with
  | .nil => rfl
  | .cons v vs => congrArg (unscopeSiteKeys depth v :: ·) (toList_unscopeElements depth vs)

theorem toList_unscopeMembers (depth : ℕ) (ms : JsonMembers) :
    (unscopeMembers depth ms).toList =
      ms.toList.map fun e => (e.1, unscopePart depth (some e.1) e.2) :=
  match ms with
  | .nil => rfl
  | .cons k x ms =>
    congrArg ((k, unscopePart depth (some k) x) :: ·) (toList_unscopeMembers depth ms)

theorem parts_scope {depth : ℕ} (hdepth : depth ≤ 8) (v : Json) :
    (scopeSiteKeys t depth v).parts = v.parts.map fun p => (p.1, scopePart t depth p.1 p.2) := by
  cases v with
  | arr vs =>
    rw [scopeSiteKeys, if_neg (by omega), Json.parts, Json.parts, toList_scopeElements,
      List.map_map, List.map_map]
    rfl
  | obj ms =>
    rw [scopeSiteKeys, if_neg (by omega), Json.parts, Json.parts, toList_scopeMembers,
      List.map_map, List.map_map]
    rfl
  | _ => rfl

theorem parts_unscope {depth : ℕ} (hdepth : depth ≤ 8) (v : Json) :
    (unscopeSiteKeys depth v).parts = v.parts.map fun p => (p.1, unscopePart depth p.1 p.2) := by
  cases v with
  | arr vs =>
    rw [unscopeSiteKeys, if_neg (by omega), Json.parts, Json.parts, toList_unscopeElements,
      List.map_map, List.map_map]
    rfl
  | obj ms =>
    rw [unscopeSiteKeys, if_neg (by omega), Json.parts, Json.parts, toList_unscopeMembers,
      List.map_map, List.map_map]
    rfl
  | _ => rfl

theorem scope_deep {depth : ℕ} (hdepth : 8 < depth) (v : Json) : scopeSiteKeys t depth v = v := by
  cases v <;> simp [scopeSiteKeys, hdepth]

theorem unscope_deep {depth : ℕ} (hdepth : 8 < depth) (v : Json) :
    unscopeSiteKeys depth v = v := by
  cases v <;> simp [unscopeSiteKeys, hdepth]

theorem bare_scope (t : JsString) (depth : ℕ) (v : Json) :
    (scopeSiteKeys t depth v).bare = v.bare := by
  cases v with
  | arr vs => rw [scopeSiteKeys]; split_ifs <;> rfl
  | obj ms => rw [scopeSiteKeys]; split_ifs <;> rfl
  | _ => rfl

theorem bare_unscope (depth : ℕ) (v : Json) : (unscopeSiteKeys depth v).bare = v.bare := by
  cases v with
  | arr vs => rw [unscopeSiteKeys]; split_ifs <;> rfl
  | obj ms => rw [unscopeSiteKeys]; split_ifs <;> rfl
  | _ => rfl

theorem bare_onString (f : JsString → JsString) (v : Json) :
    (onString f v).bare = onString f v.bare := by cases v <;> rfl

theorem onString_other {f : JsString → JsString} {v : Json} (h : isString v = false) :
    onString f v.bare = v.bare := by
  cases v with
  | str s => cases h
  | _ => rfl

theorem parts_onString (f : JsString → JsString) (v : Json) : (onString f v).parts = v.parts := by
  cases v <;> rfl

theorem rescoped_nil (depth : ℕ) : ¬Rescoped depth [] := fun h => by simp [Rescoped] at h

theorem not_unscoped_nil (depth : ℕ) : ¬Unscoped depth [] := fun h => by simp [Unscoped] at h

theorem rescoped_cons {depth : ℕ} {k : Option JsString} {names : List (Option JsString)}
    (hk : k ≠ some siteKey) (hskip : depth = 0 → ∀ k' ∈ SITE_SCOPE_SKIP, k ≠ some k') :
    Rescoped depth (k :: names) ↔ Rescoped (depth + 1) names := by
  cases names with
  | nil => simp [Rescoped, hk]
  | cons k' names =>
    have hlen : depth + (k :: k' :: names).length ≤ 9 ↔
        depth + 1 + (k' :: names).length ≤ 9 := by
      simp only [length_cons]
      omega
    simp only [Rescoped, hlen, getLast?_cons_cons, dropLast_cons_cons, mem_cons, not_or,
      head?_cons, Nat.succ_ne_zero, false_implies, and_true]
    constructor
    · rintro ⟨h₁, h₂, ⟨-, h₃⟩, -⟩
      exact ⟨h₁, h₂, h₃⟩
    · rintro ⟨h₁, h₂, h₃⟩
      refine ⟨h₁, h₂, ⟨Ne.symm hk, h₃⟩, fun hdepth k' hk' heq => ?_⟩
      exact hskip hdepth k' hk' (some.inj heq)

theorem unscoped_cons {depth : ℕ} {k k' : Option JsString} {names : List (Option JsString)} :
    Unscoped depth (k :: k' :: names) ↔ Unscoped (depth + 1) (k' :: names) := by
  simp only [Unscoped, getLast?_cons_cons, length_cons]
  refine and_congr_left fun _ => ?_
  omega

theorem find_cons (v : Json) (i : ℕ) (place : List ℕ) :
    v.find (i :: place) =
      v.parts[i]?.bind fun p => (p.2.find place).map fun q => (p.1 :: q.1, q.2) := by
  rw [Json.find]
  cases v.parts[i]? <;> rfl

/-- Where the members are walked, a place below one is a place of its value. -/
theorem find_walked {v w : Json} {f : Option JsString → Json → Json}
    (h : w.parts = v.parts.map fun p => (p.1, f p.1 p.2)) (i : ℕ) (place : List ℕ) :
    w.find (i :: place) =
      v.parts[i]?.bind fun p => ((f p.1 p.2).find place).map fun q => (p.1 :: q.1, q.2) := by
  rw [find_cons, h, getElem?_map, bind_map]
  rfl

/-- A place in a string or in what the string was is the same place. -/
theorem find_onString (f : JsString → JsString) (v : Json) (i : ℕ) (place : List ℕ) :
    (onString f v).find (i :: place) = v.find (i :: place) := by
  rw [find_cons, find_cons, parts_onString]

theorem names_of_find {v : Json} {i : ℕ} {place : List ℕ}
    {p : List (Option JsString) × Json} (h : v.find (i :: place) = some p) :
    ∃ k names, p.1 = k :: names := by
  rw [find_cons] at h
  obtain ⟨q, -, hq⟩ := bind_eq_some_iff.mp h
  obtain ⟨r, -, rfl⟩ := map_eq_some_iff.mp hq
  exact ⟨q.1, r.1, rfl⟩

/-- What stands at a place, without its parts, with the string at a place of `P` changed by `f`. -/
def seen (P : List (Option JsString) → Prop) [DecidablePred P] (f : JsString → JsString)
    (p : List (Option JsString) × Json) : List (Option JsString) × Json :=
  (p.1, if P p.1 then onString f p.2.bare else p.2.bare)

def plainly (p : List (Option JsString) × Json) : List (Option JsString) × Json := (p.1, p.2.bare)

theorem find_below {v w : Json} {k : Option JsString} {place : List ℕ}
    {P Q : List (Option JsString) → Prop} [DecidablePred P] [DecidablePred Q]
    {f : JsString → JsString} (hPQ : ∀ q, v.find place = some q →
      (P (k :: q.1) ↔ Q q.1) ∨ isString q.2 = false)
    (h : (w.find place).map plainly = (v.find place).map (seen Q f)) :
    ((w.find place).map fun q => (k :: q.1, q.2)).map plainly =
      ((v.find place).map fun q => (k :: q.1, q.2)).map (seen P f) := by
  have hstep := congrArg (Option.map fun q : List (Option JsString) × Json => (k :: q.1, q.2)) h
  rw [Option.map_map, Option.map_map] at hstep
  rw [Option.map_map, Option.map_map]
  refine hstep.trans ?_
  cases hfind : v.find place with
  | none => rfl
  | some q =>
    rcases hPQ q hfind with hsame | hother
    · simp only [map_some, Function.comp, seen, hsame]
    · simp only [map_some, Function.comp, seen, onString_other hother, ite_self]

/-- Nothing changes below a part that stays. -/
theorem find_same {v : Json} {k : Option JsString} {place : List ℕ}
    {P : List (Option JsString) → Prop} [DecidablePred P] {f : JsString → JsString}
    (hP : ∀ q, v.find place = some q → ¬P (k :: q.1)) :
    ((v.find place).map fun q => (k :: q.1, q.2)).map plainly =
      ((v.find place).map fun q => (k :: q.1, q.2)).map (seen P f) := by
  cases hfind : v.find place with
  | none => rfl
  | some q =>
    have hq := hP q hfind
    simp only [map_some, plainly, seen, if_neg hq]

/-- The string of a site key is changed, and nothing below it. -/
theorem find_siteKey {v : Json} {k : JsString} {place : List ℕ}
    {P : List (Option JsString) → Prop} [DecidablePred P] {f : JsString → JsString}
    (hP : P [some k]) (hbelow : ∀ i place', place = i :: place' →
      ∀ q, v.find place = some q → ¬P (some k :: q.1)) :
    (((onString f v).find place).map fun q => (some k :: q.1, q.2)).map plainly =
      ((v.find place).map fun q => (some k :: q.1, q.2)).map (seen P f) := by
  cases place with
  | nil =>
    simp only [Json.find, map_some, plainly, seen, if_pos hP, bare_onString]
  | cons i place =>
    rw [find_onString]
    exact find_same (hbelow i place rfl)

theorem find_scope (t : JsString) (place : List ℕ) : ∀ (depth : ℕ) (v : Json),
    ((scopeSiteKeys t depth v).find place).map plainly =
      (v.find place).map (seen (Rescoped depth) fun s => scopeSite s t) := by
  induction place with
  | nil =>
    intro depth v
    simp only [Json.find, map_some, plainly, seen, bare_scope, if_neg (rescoped_nil depth)]
  | cons i place ih =>
    intro depth v
    rcases Nat.lt_or_ge 8 depth with hdeep | hdepth
    · rw [scope_deep hdeep]
      cases hfind : v.find (i :: place) with
      | none => rfl
      | some q =>
        obtain ⟨k, names, hnames⟩ := names_of_find hfind
        have hq : ¬Rescoped depth q.1 := fun h => by
          have hlen := h.1
          rw [hnames, length_cons] at hlen
          omega
        simp only [map_some, plainly, seen, if_neg hq]
    · rw [find_walked (parts_scope hdepth v), find_cons]
      cases hpart : v.parts[i]? with
      | none => rfl
      | some p =>
        obtain ⟨k, x⟩ := p
        rw [bind_some, bind_some]
        cases k with
        | none =>
          refine find_below (fun q _ => .inl (rescoped_cons (by simp) fun _ k' _ => by simp)) ?_
          exact ih (depth + 1) x
        | some k =>
          rw [scopePart]
          split_ifs with hskip hsite
          · refine find_same fun q _ h => ?_
            exact h.2.2.2 hskip.1 k hskip.2 rfl
          · subst hsite
            refine find_siteKey ?_ fun i' place' hplace q hq h => ?_
            · have hkeep : ∀ k ∈ SITE_SCOPE_SKIP, siteKey ≠ k := by decide
              refine ⟨by rw [length_singleton]; omega, rfl, by simp, fun _ k hk heq => ?_⟩
              exact hkeep k hk (some.inj (some.inj heq))
            · rw [hplace] at hq
              obtain ⟨k', names, hnames⟩ := names_of_find hq
              refine h.2.2.1 ?_
              rw [hnames, dropLast_cons_cons]
              exact mem_cons_self
          · refine find_below (fun q _ => .inl (rescoped_cons (by simpa using hsite) ?_)) ?_
            · intro hzero k' hk' heq
              exact hskip ⟨hzero, (some.inj heq) ▸ hk'⟩
            · exact ih (depth + 1) x

theorem find_unscope (place : List ℕ) : ∀ (depth : ℕ) (v : Json),
    ((unscopeSiteKeys depth v).find place).map plainly =
      (v.find place).map (seen (Unscoped depth) baseOfSite) := by
  induction place with
  | nil =>
    intro depth v
    simp only [Json.find, map_some, plainly, seen, bare_unscope,
      if_neg (not_unscoped_nil depth)]
  | cons i place ih =>
    intro depth v
    rcases Nat.lt_or_ge 8 depth with hdeep | hdepth
    · rw [unscope_deep hdeep]
      cases hfind : v.find (i :: place) with
      | none => rfl
      | some q =>
        obtain ⟨k, names, hnames⟩ := names_of_find hfind
        have hq : ¬Unscoped depth q.1 := fun h => by
          have hlen := h.1
          rw [hnames, length_cons] at hlen
          omega
        simp only [map_some, plainly, seen, if_neg hq]
    · rw [find_walked (parts_unscope hdepth v), find_cons]
      cases hpart : v.parts[i]? with
      | none => rfl
      | some p =>
        obtain ⟨k, x⟩ := p
        rw [bind_some, bind_some]
        by_cases hstring : k = some siteKey ∧ isString x = true
        · obtain ⟨rfl, hstring⟩ := hstring
          have hpart : unscopePart depth (some siteKey) x = onString baseOfSite x :=
            if_pos ⟨rfl, hstring⟩
          rw [hpart]
          refine find_siteKey ⟨by rw [length_singleton]; omega, rfl⟩ fun i' place' hplace q hq h => ?_
          -- nothing stands below a string
          cases x with
          | str s =>
            rw [hplace, find_cons] at hq
            cases hq
          | _ => cases hstring
        · have hpart : unscopePart depth k x = unscopeSiteKeys (depth + 1) x := by
            cases k with
            | none => rfl
            | some k => exact if_neg fun h => hstring ⟨congrArg some h.1, h.2⟩
          rw [hpart]
          refine find_below (fun q hq => ?_) (ih (depth + 1) x)
          cases hnames : q.1 with
          | cons k' names => exact .inl unscoped_cons
          | nil =>
            by_cases hsite : k = some siteKey
            · cases place with
              | nil =>
                cases hq
                exact .inr (by simpa [hsite] using hstring)
              | cons i' place =>
                obtain ⟨k', names, hcons⟩ := names_of_find hq
                rw [hnames] at hcons
                cases hcons
            · exact .inl (by simp [Unscoped, hsite])

end Turma.SiteKeys
