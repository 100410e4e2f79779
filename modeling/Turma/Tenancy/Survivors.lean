import Turma.Tenancy.Again

/-! The records that `coerceTenancy` keeps, said of its input: the well formed ones whose tenant id
and login no earlier one has, up to the bound. -/

namespace Turma.Tenancy

open Turma.Lib List Option

variable {bytes : JsString → ℕ}

abbrev Entry := JsString × Json

def tenantIdOf (e : Entry) : Option Json := e.2.field (.ofString "tenantId")

def loginOf (u : Json) : Option JsString :=
  (asString (u.field (.ofString "source"))).bind fun source =>
    if source = .ofString "local" then
      (asString (u.field (.ofString "username"))).bind fun username =>
        if isUsername username = true then some (.ofString "l:" ++ lowerName username) else none
    else if source = .ofString "oidc" then
      (asString (u.field (.ofString "oidcSub"))).bind fun sub =>
        (asString (u.field (.ofString "oidcIss"))).bind fun iss =>
          if sub = [] ∨ 255 < sub.length16 ∨ iss = [] ∨ 500 < iss.length16 then none
          else some (.ofString "o:" ++ iss ++ .ofString "\n" ++ sub)
    else none

/-- The tenant id of an entry with an id for a key cannot be converted to a string. -/
def untestable (e : Entry) : Bool :=
  isId e.1 && (tenantIdOf e).any fun t => (textOf t).isNone

def claims (e : Entry) : Option (Json × JsString) :=
  if isId e.1 = false then none
  else
    (tenantIdOf e).bind fun t => (textOf t).bind fun text =>
      if isId text = false ∨ t = .str e.1 then none else (loginOf e.2).map fun login => (t, login)

def clashes (a b : Json × JsString) : Bool :=
  (match a.1 with
    | .str _ => decide (a.1 = b.1)
    | _ => false) || a.2 = b.2

def survivors : List (Json × JsString) → List Entry → List Entry
  | _, [] => []
  | kept, e :: es =>
    match claims e with
    | none => survivors kept es
    | some k =>
      if kept.any (clashes k) = true then survivors kept es else e :: survivors (kept ++ [k]) es

theorem loginOf_eq (bytes : JsString → ℕ) (u : Json) :
    loginOf u = (accountOf bytes u).map Account.loginKey := by
  simp only [loginOf, accountOf, Option.map_bind, Function.comp_def, apply_ite (Option.map _),
    map_some, map_none, Account.loginKey]

structure Coerces (bytes : JsString → ℕ) (e : Entry) (c : User) : Prop where
  coerced : coerceUser bytes e.1 e.2 = .ok (some c)
  tested : untestable e = false
  claims : claims e = some (c.tenantId, c.account.loginKey)
  record : coerceRecord bytes e.1 c.tenantId e.2 = some c

/-- Past its id and its tenant id, a record is kept when its account is well formed. -/
theorem coerceUser_tested (bytes : JsString → ℕ) {id text : JsString} {u t : Json} (hid : isId id = true)
    (ht : tenantIdOf (id, u) = some t) (htext : textOf t = some text)
    (hok : ¬(isId text = false ∨ t = .str id)) :
    coerceUser bytes id u = .ok (coerceRecord bytes id t u) ∧
      claims (id, u) = (loginOf u).map fun login => (t, login) := by
  refine ⟨?_, ?_⟩
  · cases u with
    | obj ms =>
      have hfield : (Json.obj ms).field (.ofString "tenantId") = some t := ht
      rw [coerceUser, if_neg (by simp [hid]), hfield]
      dsimp only
      rw [htext]
      dsimp only
      rw [if_neg hok]
    | _ => cases ht
  · rw [claims, if_neg (by simp [hid]), ht, bind_some, htext, bind_some, if_neg hok]

theorem coerceUser_cases (bytes : JsString → ℕ) (e : Entry) :
    (untestable e = true ∧ coerceUser bytes e.1 e.2 = .error .typeError) ∨
    (untestable e = false ∧ claims e = none ∧ coerceUser bytes e.1 e.2 = .ok none) ∨
    ∃ c, Coerces bytes e c := by
  obtain ⟨id, u⟩ := e
  by_cases hid : isId id = true
  · cases ht : tenantIdOf (id, u) with
    | none =>
      refine .inr (.inl ⟨by simp [untestable, ht], by simp [claims, hid, ht], ?_⟩)
      cases u with
      | obj ms =>
        have hfield : (Json.obj ms).field (.ofString "tenantId") = none := ht
        rw [coerceUser, if_neg (by simp [hid]), hfield]
      | _ => exact if_neg (by simp [hid])
    | some t =>
      cases htext : textOf t with
      | none =>
        refine .inl ⟨by simp [untestable, hid, ht, htext], ?_⟩
        cases u with
        | obj ms =>
          have hfield : (Json.obj ms).field (.ofString "tenantId") = some t := ht
          rw [coerceUser, if_neg (by simp [hid]), hfield]
          dsimp only
          rw [htext]
        | _ => cases ht
      | some text =>
        have htested : untestable (id, u) = false := by simp [untestable, ht, htext]
        by_cases hok : isId text = false ∨ t = .str id
        · refine .inr (.inl ⟨htested, ?_, ?_⟩)
          · rw [claims, if_neg (by simp [hid]), ht, bind_some, htext, bind_some, if_pos hok]
          · cases u with
            | obj ms =>
              have hfield : (Json.obj ms).field (.ofString "tenantId") = some t := ht
              rw [coerceUser, if_neg (by simp [hid]), hfield]
              dsimp only
              rw [htext]
              dsimp only
              rw [if_pos hok]
            | _ => cases ht
        · obtain ⟨hcoerce, hclaims⟩ := coerceUser_tested bytes hid ht htext hok
          rw [loginOf_eq bytes] at hclaims
          cases hrecord : coerceRecord bytes id t u with
          | none =>
            have haccount : accountOf bytes u = none := map_eq_none_iff.mp hrecord
            exact .inr (.inl ⟨htested, by rw [hclaims, haccount]; rfl, by rw [hcoerce, hrecord]⟩)
          | some c =>
            obtain ⟨account, haccount, rfl⟩ := map_eq_some_iff.mp hrecord
            refine .inr (.inr ⟨_, by rw [hcoerce, hrecord], htested, ?_, hrecord⟩)
            rw [hclaims, haccount]
            rfl
  · rw [Bool.not_eq_true] at hid
    exact .inr (.inl ⟨by simp [untestable, hid], by simp [claims, hid], if_pos hid⟩)

structure Tracks (s : Seen) (kept : List (Json × JsString)) : Prop where
  tenants : s.tenants = kept.map Prod.fst
  logins : ∀ a, s.hasLogin a = true ↔ a.loginKey ∈ kept.map Prod.snd
  n : s.n = s.users.length

theorem loginKey_ne (username iss sub : JsString) {passwordHash : Option JsString} {must : Bool}
    {resets : List Reset} {roles : List Role} :
    Account.loginKey (.password username passwordHash must resets) ≠
      Account.loginKey (.oidc iss sub roles) := by
  intro h
  have hhead : some (CodePoint.scalar 'l') = some (.scalar 'o') := congrArg List.head? h
  cases hhead

variable {s : Seen} {kept : List (Json × JsString)}

theorem tracks_none : Tracks .none [] where
  tenants := rfl
  logins a := by cases a <;> simp [Seen.hasLogin, Seen.none]
  n := rfl

theorem Tracks.add (h : Tracks s kept) (id : JsString) (c : User) :
    Tracks (s.add id c) (kept ++ [(c.tenantId, c.account.loginKey)]) where
  tenants := by
    rw [map_append, ← h.tenants]
    rfl
  logins a := by
    have hold := h.logins a
    rw [map_append, mem_append, ← hold]
    cases a with
    | password =>
      cases hc : c.account with
      | password => simp [Seen.hasLogin, Seen.add, hc]
      | oidc => simp [Seen.hasLogin, Seen.add, hc, loginKey_ne]
    | oidc =>
      cases hc : c.account with
      | password => simp [Seen.hasLogin, Seen.add, hc, (loginKey_ne _ _ _).symm]
      | oidc => simp [Seen.hasLogin, Seen.add, hc]
  n := by simp [Seen.add, h.n]

theorem Tracks.clash (h : Tracks s kept) (t : Json) (a : Account) :
    (s.hasTenant t = true ∨ s.hasLogin a = true) ↔ kept.any (clashes (t, a.loginKey)) = true := by
  have htenant : s.hasTenant t = true ↔ ∃ k ∈ kept, (∃ text, t = .str text) ∧ t = k.1 := by
    unfold Seen.hasTenant
    rw [h.tenants]
    cases t <;> simp [eq_comm]
  rw [htenant, h.logins, List.any_eq_true]
  constructor
  · rintro (⟨k, hk, ⟨text, rfl⟩, heq⟩ | hlogin)
    · exact ⟨k, hk, by simp [clashes, heq]⟩
    · obtain ⟨k, hk, heq⟩ := List.mem_map.mp hlogin
      exact ⟨k, hk, by simp [clashes, heq]⟩
  · rintro ⟨k, hk, hclash⟩
    rw [clashes, Bool.or_eq_true] at hclash
    rcases hclash with htenant | hlogin
    · refine .inl ⟨k, hk, ?_⟩
      cases t with
      | str text => exact ⟨⟨text, rfl⟩, of_decide_eq_true htenant⟩
      | _ => cases htenant
    · exact .inr (List.mem_map.mpr ⟨k, hk, (of_decide_eq_true hlogin).symm⟩)

/-- One entry of the loop: it ends the call, it is passed over, or it is kept. -/
theorem coerceUsers_cons (bytes : JsString → ℕ) (h : Tracks s kept) (hn : s.n < 1000) (e : Entry) :
    (untestable e = true ∧ ∀ es, coerceUsers bytes (e :: es) s = .error .typeError) ∨
    (untestable e = false ∧ (∀ es, survivors kept (e :: es) = survivors kept es) ∧
      ∀ es, coerceUsers bytes (e :: es) s = coerceUsers bytes es s) ∨
    ∃ c, Coerces bytes e c ∧
      (∀ es, survivors kept (e :: es) =
        e :: survivors (kept ++ [(c.tenantId, c.account.loginKey)]) es) ∧
      ∀ es, coerceUsers bytes (e :: es) s = coerceUsers bytes es (s.add e.1 c) := by
  have hlt : ¬1000 ≤ s.n := by omega
  rcases coerceUser_cases bytes e with ⟨hun, herror⟩ | ⟨htested, hclaims, hnone⟩ | ⟨c, hc⟩
  · refine .inl ⟨hun, fun es => ?_⟩
    rw [coerceUsers, if_neg hlt, herror]
  · refine .inr (.inl ⟨htested, fun es => ?_, fun es => ?_⟩)
    · rw [survivors, hclaims]
    · rw [coerceUsers, if_neg hlt, hnone]
  · by_cases hclash : kept.any (clashes (c.tenantId, c.account.loginKey)) = true
    · refine .inr (.inl ⟨hc.tested, fun es => ?_, fun es => ?_⟩)
      · rw [survivors, hc.claims]
        exact if_pos hclash
      · rw [coerceUsers, if_neg hlt, hc.coerced]
        exact if_pos ((h.clash _ _).mpr hclash)
    · refine .inr (.inr ⟨c, hc, fun es => ?_, fun es => ?_⟩)
      · rw [survivors, hc.claims]
        exact if_neg hclash
      · rw [coerceUsers, if_neg hlt, hc.coerced]
        exact if_neg fun hhas => hclash ((h.clash _ _).mp hhas)

/-- The loop keeps the survivors, up to the bound. -/
theorem coerceUsers_survivors (bytes : JsString → ℕ) (es : List Entry) (h : Tracks s kept)
    (htested : ∀ a e b, es = a ++ e :: b → s.n + (survivors kept a).length < 1000 →
      untestable e = false) :
    ∃ s' us, coerceUsers bytes es s = .ok s' ∧ s'.users = s.users ++ us ∧
      List.Forall₂ (fun e p => p.1 = e.1 ∧ Coerces bytes e p.2)
        ((survivors kept es).take (1000 - s.n)) us := by
  induction es generalizing s kept with
  | nil => exact ⟨s, [], rfl, (append_nil _).symm, by simp [survivors]⟩
  | cons e es ih =>
    by_cases hn : 1000 ≤ s.n
    · refine ⟨s, [], by rw [coerceUsers, if_pos hn], (append_nil _).symm, ?_⟩
      rw [Nat.sub_eq_zero_of_le hn, take_zero]
      exact .nil
    · rcases coerceUsers_cons bytes h (not_le.mp hn) e with ⟨hun, -⟩ | ⟨-, hpass, hcall⟩ | ⟨c, hc, hkeep, hcall⟩
      · have hfalse := htested [] e es rfl (by simpa [survivors] using not_le.mp hn)
        exact absurd (hun.symm.trans hfalse) (by decide)
      · rw [hcall, hpass]
        refine ih h fun a e' b hes hlt => htested (e :: a) e' b (by rw [hes, cons_append]) ?_
        rwa [hpass]
      · rw [hcall, hkeep]
        obtain ⟨s', us, hs', husers, hall⟩ := ih (h.add e.1 c) fun a e' b hes hlt =>
          htested (e :: a) e' b (by rw [hes, cons_append]) (by
            rw [hkeep, length_cons]
            have hadd : (s.add e.1 c).n = s.n + 1 := rfl
            omega)
        refine ⟨s', (e.1, c) :: us, hs', ?_, ?_⟩
        · rw [husers, Seen.add, append_assoc]
          rfl
        · have hleft : 1000 - s.n = 1000 - (s.add e.1 c).n + 1 := by
            have hadd : (s.add e.1 c).n = s.n + 1 := rfl
            omega
          rw [hleft, take_succ_cons]
          exact .cons ⟨rfl, hc⟩ hall

/-- An entry whose tenant id cannot be converted ends the call when the loop gets to it. -/
theorem coerceUsers_error {es a b : List Entry} {e : Entry} (h : Tracks s kept)
    (hes : es = a ++ e :: b) (hn : s.n + (survivors kept a).length < 1000)
    (hun : untestable e = true) : coerceUsers bytes es s = .error .typeError := by
  induction a generalizing es s kept with
  | nil =>
    subst hes
    rcases coerceUsers_cons bytes h (by omega) e with ⟨-, hcall⟩ | ⟨htested, -⟩ | ⟨c, hc, -⟩
    · exact hcall b
    · exact absurd (hun.symm.trans htested) (by decide)
    · exact absurd (hun.symm.trans hc.tested) (by decide)
  | cons e' a ih =>
    subst hes
    rcases coerceUsers_cons bytes h (by omega) e' with ⟨-, hcall⟩ | ⟨-, hpass, hcall⟩ | ⟨c, -, hkeep, hcall⟩
    · exact hcall _
    · rw [cons_append, hcall]
      rw [hpass] at hn
      exact ih h rfl hn
    · rw [cons_append, hcall]
      rw [hkeep, length_cons] at hn
      refine ih (h.add e'.1 c) rfl ?_
      have hadd : (s.add e'.1 c).n = s.n + 1 := rfl
      omega

theorem survivors_sublist (kept : List (Json × JsString)) (es : List Entry) :
    (survivors kept es).Sublist es := by
  induction es generalizing kept with
  | nil => exact .slnil
  | cons e es ih =>
    unfold survivors
    split
    · exact (ih kept).cons _
    · split_ifs
      · exact (ih kept).cons _
      · exact (ih _).cons_cons _

/-- Two survivors do not clash, and none does with what was kept before. -/
theorem survivors_apart (kept : List (Json × JsString)) (es : List Entry) :
    (∀ e ∈ survivors kept es, ∀ k, claims e = some k → kept.any (clashes k) = false) ∧
      (survivors kept es).Pairwise fun e e' => ∀ k k', claims e = some k → claims e' = some k' →
        clashes k' k = false := by
  induction es generalizing kept with
  | nil => exact ⟨nofun, .nil⟩
  | cons e es ih =>
    unfold survivors
    split
    · exact ih kept
    · rename_i k hk
      by_cases hclash : kept.any (clashes k) = true
      · rw [if_pos hclash]
        exact ih kept
      · rw [if_neg hclash]
        obtain ⟨hbefore, hpairs⟩ := ih (kept ++ [k])
        refine ⟨?_, pairwise_cons.mpr ⟨?_, hpairs⟩⟩
        · rintro e' he' k' hk'
          rcases mem_cons.mp he' with rfl | he'
          · obtain rfl := some.inj (hk.symm.trans hk')
            exact Bool.not_eq_true _ ▸ hclash
          · have hall := hbefore e' he' k' hk'
            rw [any_append, Bool.or_eq_false_iff] at hall
            exact hall.1
        · intro e' he' k₁ k' hk₁ hk'
          obtain rfl := some.inj (hk.symm.trans hk₁)
          have hall := hbefore e' he' k' hk'
          rw [any_append, Bool.or_eq_false_iff] at hall
          simpa using hall.2

end Turma.Tenancy
