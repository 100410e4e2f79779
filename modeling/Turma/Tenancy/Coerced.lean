import Turma.Tenancy.Survivors

/-! `coerceTenancy` on what it returns. -/

namespace Turma.Tenancy

open Turma.Lib List Option JsString

variable {bytes : JsString → ℕ} {e : Entry} {c : User} {raw : Json}

def lastResets (u : Json) : List Json :=
  let resets := (elements (u.field (.ofString "passwordResets"))).filter fun r =>
    (finiteMs (r.field (.ofString "at"))).isSome
  resets.drop (resets.length - 10)

/-- No name of the record loses the white space that would have to go when it is read again. -/
def stands (e : Entry) : Bool :=
  !cutsBlank (e.2.field (.ofString "displayName")) 100 &&
    (e.2.field (.ofString "source") ≠ some (.str (.ofString "local")) ||
      (lastResets e.2).all fun r => !cutsBlank (r.field (.ofString "by")) 120)

theorem passwordResets_lastResets (u : Json) :
    passwordResets u = (lastResets u).filterMap resetOf := by
  have hsome : ∀ rs : List Json, (∀ r ∈ rs, (finiteMs (r.field (.ofString "at"))).isSome = true) →
      (rs.filterMap resetOf).length = rs.length ∧
        ∀ n, (rs.filterMap resetOf).drop n = (rs.drop n).filterMap resetOf := by
    intro rs hrs
    induction rs with
    | nil => exact ⟨rfl, fun n => by simp⟩
    | cons r rs ih =>
      obtain ⟨hlength, hdrop⟩ := ih fun r' hr' => hrs r' (.tail _ hr')
      obtain ⟨time, htime⟩ := isSome_iff_exists.mp (hrs r mem_cons_self)
      have hreset : ∃ x, resetOf r = some x := ⟨_, by rw [resetOf, htime]; rfl⟩
      obtain ⟨x, hx⟩ := hreset
      rw [filterMap_cons_some hx]
      refine ⟨by rw [length_cons, length_cons, hlength], fun n => ?_⟩
      cases n with
      | zero => rw [drop_zero, drop_zero, filterMap_cons_some hx]
      | succ n => exact hdrop n
  have hfilter : ∀ rs : List Json, rs.filterMap resetOf =
      (rs.filter fun r => (finiteMs (r.field (.ofString "at"))).isSome).filterMap resetOf := by
    intro rs
    rw [filterMap_filter]
    refine filterMap_congr fun r _ => ?_
    unfold resetOf
    cases finiteMs (r.field (.ofString "at")) <;> rfl
  rw [passwordResets_eq, hfilter]
  dsimp only
  obtain ⟨hlength, hdrop⟩ := hsome _ fun r hr => (mem_filter.mp hr).2
  rw [hlength, hdrop]
  rfl

theorem map_fixed {α : Type*} {f : α → α} {l : List α} : l.map f = l ↔ ∀ a ∈ l, f a = a := by
  conv_lhs =>
    rhs
    rw [← List.map_id l]
  exact map_inj_left

theorem resets_trimmed (u : Json) :
    (passwordResets u).map Reset.trimmed = passwordResets u ↔
      ∀ r ∈ lastResets u, cutsBlank (r.field (.ofString "by")) 120 = false := by
  have hreset : ∀ r ∈ lastResets u, ∃ x, resetOf r = some x ∧
      (x.trimmed = x ↔ cutsBlank (r.field (.ofString "by")) 120 = false) := by
    intro r hr
    obtain ⟨time, htime⟩ := isSome_iff_exists.mp (mem_filter.mp (mem_of_mem_drop hr)).2
    refine ⟨⟨time, named (r.field (.ofString "by")) 120 (.ofString "an administrator")⟩,
      by rw [resetOf, htime]; rfl, ?_⟩
    have hname : (ofString "an administrator").trim = .ofString "an administrator" := by decide
    rw [← trim_named (by decide) hname, Reset.trimmed, Reset.mk.injEq]
    exact and_iff_right rfl
  rw [passwordResets_lastResets, map_fixed]
  constructor
  · intro h r hr
    obtain ⟨x, hx, hiff⟩ := hreset r hr
    exact hiff.mp (h x (mem_filterMap.mpr ⟨r, hr, hx⟩))
  · intro h x hx
    obtain ⟨r, hr, hrx⟩ := mem_filterMap.mp hx
    obtain ⟨x', hx', hiff⟩ := hreset r hr
    obtain rfl := some.inj (hrx.symm.trans hx')
    exact hiff.mpr (h r hr)

theorem asString_eq_some {v : Option Json} {s : JsString} : asString v = some s ↔ v = some (.str s) := by
  unfold asString
  split
  · simp
  · rename_i hnot
    exact iff_of_false nofun fun h => hnot s h

theorem accountOf_source {u : Json} {a : Account} (h : accountOf bytes u = some a) :
    (u.field (.ofString "source") = some (.str (.ofString "local")) ∧ ∃ username passwordHash must,
      a = .password username passwordHash must (passwordResets u)) ∨
    (u.field (.ofString "source") ≠ some (.str (.ofString "local")) ∧ ∃ iss sub roles,
      a = .oidc iss sub roles) := by
  obtain ⟨source, hsource, h⟩ := bind_eq_some_iff.mp h
  rw [asString_eq_some] at hsource
  split_ifs at h with hlocal hoidc
  · obtain ⟨username, -, h⟩ := bind_eq_some_iff.mp h
    split_ifs at h
    exact .inl ⟨by rw [hsource, hlocal], _, _, _, (some.inj h).symm⟩
  · obtain ⟨sub, -, h⟩ := bind_eq_some_iff.mp h
    obtain ⟨iss, -, h⟩ := bind_eq_some_iff.mp h
    split_ifs at h
    refine .inr ⟨fun heq => hlocal ?_, _, _, _, (some.inj h).symm⟩
    exact Json.str.inj (some.inj (hsource.symm.trans heq))

/-- A kept record is read again as it is when none of its names was cut behind a word. -/
theorem trimmed_iff (h : Coerces bytes e c) : c.trimmed = c ↔ stands e = true := by
  obtain ⟨account, haccount, hc⟩ := map_eq_some_iff.mp h.record
  have hname : (ofString "user").trim = .ofString "user" := by decide
  have hdisplay : c.displayName.trim = c.displayName ↔
      cutsBlank (e.2.field (.ofString "displayName")) 100 = false := by
    rw [← hc]
    exact trim_named (by decide) hname
  have hkept : account.trimmed = account ↔
      (e.2.field (.ofString "source") ≠ some (.str (.ofString "local")) ∨
        ∀ r ∈ lastResets e.2, cutsBlank (r.field (.ofString "by")) 120 = false) := by
    rcases accountOf_source haccount with ⟨hlocal, username, hash, must, rfl⟩ | ⟨hother, iss, sub, roles, rfl⟩
    · rw [← resets_trimmed, Account.trimmed, Account.password.injEq]
      simp [hlocal]
    · exact iff_of_true rfl (.inl hother)
  have hsame : c.account = account := by rw [← hc]
  have hboth : c.trimmed = c ↔ c.displayName.trim = c.displayName ∧ c.account.trimmed = c.account := by
    constructor
    · intro heq
      exact ⟨congrArg User.displayName heq, congrArg User.account heq⟩
    · rintro ⟨hd, ha⟩
      rw [User.trimmed, hd, ha]
  rw [hboth, hdisplay, hsame, hkept, stands]
  simp

theorem loginKey_trimmed (a : Account) : a.trimmed.loginKey = a.loginKey := by
  cases a <;> rfl

def User.claim (c : User) : Json × JsString := (c.tenantId, c.account.loginKey)

/-- Valid records that do not clash are all kept again. -/
theorem coerceUsers_again (bytes : JsString → ℕ) {s : Seen} {kept : List (Json × JsString)} {us : List (JsString × User)}
    (h : Tracks s kept) (hvalid : ∀ p ∈ us, p.2.Valid bytes ∧ p.2.id = p.1)
    (hbefore : ∀ p ∈ us, kept.any (clashes p.2.claim) = false)
    (hpairs : us.Pairwise fun p q => clashes q.2.claim p.2.claim = false)
    (hn : s.n + us.length ≤ 1000) :
    ∃ s', coerceUsers bytes (us.map fun p => (p.1, p.2.toJson)) s = .ok s' ∧
      s'.users = s.users ++ us.map fun p => (p.1, p.2.trimmed) := by
  induction us generalizing s kept with
  | nil => exact ⟨s, rfl, (append_nil _).symm⟩
  | cons p us ih =>
    obtain ⟨hp, hus⟩ := pairwise_cons.mp hpairs
    obtain ⟨hvalidp, hid⟩ := hvalid p mem_cons_self
    have hcoerce : coerceUser bytes p.1 p.2.toJson = .ok (some p.2.trimmed) := by
      rw [← hid]
      exact coerceUser_again hvalidp
    have hfree : ¬(s.hasTenant p.2.trimmed.tenantId = true ∨ s.hasLogin p.2.trimmed.account = true) := by
      rw [h.clash, User.trimmed, loginKey_trimmed]
      exact Bool.eq_false_iff.mp (hbefore p mem_cons_self)
    rw [length_cons] at hn
    have hnext := h.add p.1 p.2.trimmed
    rw [User.trimmed, loginKey_trimmed] at hnext
    obtain ⟨s', hs', husers⟩ := ih hnext (fun q hq => hvalid q (.tail _ hq))
      (fun q hq => by
        rw [any_append, hbefore q (.tail _ hq)]
        simpa [User.claim] using hp q hq) hus (by
        have hadd : (s.add p.1 p.2.trimmed).n = s.n + 1 := rfl
        rw [User.trimmed] at hadd
        omega)
    refine ⟨s', ?_, ?_⟩
    · rw [map_cons, coerceUsers, if_neg (by omega), hcoerce]
      exact (if_neg hfree).trans hs'
    · rw [husers, map_cons, Seen.add, append_assoc]
      rfl

def groupEntry (e : Entry) : Option (JsString × Role) :=
  if isGroup e.1 = true then (roleOf (e.2.field (.ofString "role"))).map fun role => (e.1, role) else none

theorem coerceGroups_eq (es : List Entry) {g : ℕ} (hg : g ≤ 100) :
    coerceGroups es g = (es.filterMap groupEntry).take (100 - g) := by
  induction es generalizing g with
  | nil => simp [coerceGroups]
  | cons e es ih =>
    obtain ⟨name, v⟩ := e
    rw [coerceGroups]
    by_cases hfull : 100 ≤ g
    · rw [if_pos hfull, Nat.sub_eq_zero_of_le hfull, take_zero]
    · rw [if_neg hfull]
      cases hname : isGroup name with
      | false => rw [filterMap_cons_none (by simp [groupEntry, hname]), ← ih hg]
      | true =>
        cases hrole : roleOf (v.field (.ofString "role")) with
        | none => rw [filterMap_cons_none (by simp [groupEntry, hrole]), ← ih hg]
        | some role =>
          have hentry : groupEntry (name, v) = some (name, role) := by simp [groupEntry, hname, hrole]
          have hleft : 100 - g = 100 - (g + 1) + 1 := by omega
          rw [filterMap_cons_some hentry, hleft, take_succ_cons, ← ih (by omega)]

def groupJson (g : JsString × Role) : Entry := (g.1, record [("role", some (.str g.2.text))])

theorem groupEntry_json {e : Entry} {g : JsString × Role} (h : groupEntry e = some g) :
    groupEntry (groupJson g) = some g ∧ g.1 = e.1 := by
  unfold groupEntry at h
  split_ifs at h with hname
  obtain ⟨role, -, rfl⟩ := map_eq_some_iff.mp h
  refine ⟨?_, rfl⟩
  have hrole : (groupJson (e.1, role)).2.field (.ofString "role") = some (.str role.text) :=
    field_record (by simp) "role"
  rw [groupEntry, hrole, roleOf_text]
  exact if_pos hname

theorem coerceGroups_again (es : List Entry) :
    coerceGroups ((coerceGroups es 0).map groupJson) 0 = coerceGroups es 0 := by
  have hall : ((coerceGroups es 0).map groupJson).filterMap groupEntry = coerceGroups es 0 := by
    rw [filterMap_map]
    refine (filterMap_congr fun g hg => ?_).trans filterMap_some
    rw [coerceGroups_eq _ (by decide)] at hg
    obtain ⟨e, -, he⟩ := mem_filterMap.mp (mem_of_mem_take hg)
    exact (groupEntry_json he).1
  rw [coerceGroups_eq _ (by decide), hall]
  refine take_of_length_le ?_
  rw [coerceGroups_eq _ (by decide), length_take]
  omega

theorem keys_coerceGroups (es : List Entry) :
    ((coerceGroups es 0).map Prod.fst).Sublist (es.map Prod.fst) := by
  rw [coerceGroups_eq _ (by decide)]
  refine ((take_sublist _ _).map _).trans ?_
  induction es with
  | nil => exact .slnil
  | cons e es ih =>
    cases he : groupEntry e with
    | none =>
      rw [filterMap_cons_none he]
      exact ih.cons _
    | some g =>
      rw [filterMap_cons_some he, map_cons, map_cons, (groupEntry_json he).2]
      exact ih.cons_cons _

/-- No two users have one tenant, one user name but for its case, or one subject of one issuer. -/
structure UserStore.Unambiguous (t : UserStore) : Prop where
  tenants : t.users.Pairwise fun p q => p.2.tenantId ≠ q.2.tenantId
  usernames : t.users.Pairwise fun p q => ∀ name hash must resets name' hash' must' resets',
    p.2.account = .password name hash must resets → q.2.account = .password name' hash' must' resets' →
      lowerName name ≠ lowerName name'
  subjects : t.users.Pairwise fun p q => ∀ iss sub roles iss' sub' roles',
    p.2.account = .oidc iss sub roles → q.2.account = .oidc iss' sub' roles' → (iss, sub) ≠ (iss', sub')

def usersOf (raw : Json) : List Entry := (entriesOf (raw.field (.ofString "users"))).getD []

def keptOf (raw : Json) : List Entry := (survivors [] (usersOf raw)).take 1000

/-- The input that is coerced as it is meant to be: every tenant id that is looked at can be converted
to a string, no name of a kept record is cut behind a word, and no two kept records have one tenant id
that is not a string. -/
structure Regular (raw : Json) : Prop where
  tested : ∀ a e b, usersOf raw = a ++ e :: b → (survivors [] a).length < 1000 → untestable e = false
  stands : ∀ e ∈ keptOf raw, stands e = true
  tenants : (keptOf raw).Pairwise fun e e' => tenantIdOf e = tenantIdOf e' →
    ∃ text, tenantIdOf e = some (.str text)

theorem forall₂_right {α β : Type*} {R : α → β → Prop} {xs : List α} {ys : List β}
    (h : List.Forall₂ R xs ys) : ∀ y ∈ ys, ∃ x ∈ xs, R x y := by
  intro y hy
  obtain ⟨i, hi, rfl⟩ := getElem_of_mem hy
  have hi' : i < xs.length := h.length_eq ▸ hi
  exact ⟨xs[i], getElem_mem hi', h.get hi' hi⟩

theorem forall₂_left {α β : Type*} {R : α → β → Prop} {xs : List α} {ys : List β}
    (h : List.Forall₂ R xs ys) : ∀ x ∈ xs, ∃ y ∈ ys, R x y := forall₂_right h.flip

theorem pairwise_transfer {α β : Type*} {R : α → β → Prop} {P : α → α → Prop} {Q : β → β → Prop}
    {xs : List α} {ys : List β} (h : List.Forall₂ R xs ys) (hP : xs.Pairwise P)
    (hQ : ∀ a b x y, R a x → R b y → P a b → Q x y) : ys.Pairwise Q := by
  induction h with
  | nil => exact .nil
  | cons hax hrest ih =>
    obtain ⟨ha, hxs⟩ := pairwise_cons.mp hP
    refine pairwise_cons.mpr ⟨fun y hy => ?_, ih hxs⟩
    obtain ⟨b, hb, hby⟩ := forall₂_right hrest y hy
    exact hQ _ b _ y hax hby (ha b hb)

theorem tenantIdOf_of_coerces (h : Coerces bytes e c) : tenantIdOf e = some c.tenantId := by
  have hclaims := h.claims
  unfold claims at hclaims
  split_ifs at hclaims
  obtain ⟨t, ht, hclaims⟩ := bind_eq_some_iff.mp hclaims
  obtain ⟨text, -, hclaims⟩ := bind_eq_some_iff.mp hclaims
  split_ifs at hclaims
  obtain ⟨login, -, hlogin⟩ := map_eq_some_iff.mp hclaims
  rw [ht]
  exact congrArg some (congrArg Prod.fst hlogin)

abbrev Kept (bytes : JsString → ℕ) (raw : Json) (us : List (JsString × User)) : Prop :=
  List.Forall₂ (fun e p => p.1 = e.1 ∧ Coerces bytes e p.2) (keptOf raw) us

/-- The first pass. -/
theorem coerceTenancy_eq (h : ∀ a e b, usersOf raw = a ++ e :: b → (survivors [] a).length < 1000 →
    untestable e = false) :
    ∃ us, Kept bytes raw us ∧ coerceTenancy bytes raw = .ok
      ⟨us, (entriesOf (raw.field (.ofString "groups"))).map fun es => coerceGroups es 0⟩ := by
  obtain ⟨s', us, hs', husers, hall⟩ := coerceUsers_survivors bytes (usersOf raw) tracks_none
    fun a e b hes hlt => h a e b hes (by simpa [Seen.none] using hlt)
  refine ⟨us, hall, ?_⟩
  have hcall : coerceUsers bytes ((entriesOf (raw.field (.ofString "users"))).getD []) .none = .ok s' := hs'
  rw [coerceTenancy, hcall]
  dsimp only
  rw [husers]
  rfl

theorem keys_kept {us : List (JsString × User)} (h : Kept bytes raw us) :
    us.map Prod.fst = (keptOf raw).map Prod.fst := by
  have hkeys : List.Forall₂ (fun a b : JsString => b = a) ((keptOf raw).map Prod.fst) (us.map Prod.fst) :=
    forall₂_map_left_iff.mpr (forall₂_map_right_iff.mpr (h.imp fun _ _ hp => hp.1))
  have hflip := hkeys.flip
  rwa [forall₂_eq_eq_eq] at hflip

theorem kept_apart {us : List (JsString × User)} (h : Kept bytes raw us) :
    us.Pairwise fun p q => clashes q.2.claim p.2.claim = false := by
  have hpairs := (survivors_apart [] (usersOf raw)).2.sublist (take_sublist 1000 _)
  refine pairwise_transfer h hpairs fun a b p q hp hq hclash => ?_
  exact hclash _ _ hp.2.claims hq.2.claims

theorem listed_usersOf (raw : Json) : Listed ((usersOf raw).map Prod.fst) := by
  unfold usersOf entriesOf
  split
  · exact listed_listing _
  · exact .nil

/-- The second pass. -/
theorem coerceTenancy_again {us : List (JsString × User)} (h : Kept bytes raw us) :
    coerceTenancy bytes (UserStore.toJson
      ⟨us, (entriesOf (raw.field (.ofString "groups"))).map fun es => coerceGroups es 0⟩) =
    .ok ⟨us.map fun p => (p.1, p.2.trimmed),
      (entriesOf (raw.field (.ofString "groups"))).map fun es => coerceGroups es 0⟩ := by
  have hlisted : Listed ((us.map fun p => (p.1, p.2.toJson)).map Prod.fst) := by
    have hsub : (us.map Prod.fst).Sublist ((usersOf raw).map Prod.fst) := by
      rw [keys_kept h]
      exact (((take_sublist _ _).trans (survivors_sublist _ _)).map _)
    rw [List.map_map]
    exact (listed_usersOf raw).sublist hsub
  have husers : entriesOf ((UserStore.toJson ⟨us, (entriesOf (raw.field (.ofString "groups"))).map
      fun es => coerceGroups es 0⟩).field (.ofString "users")) =
        some (us.map fun p => (p.1, p.2.toJson)) := by
    rw [UserStore.toJson, field_record (by simp)]
    show some (listing _) = _
    rw [JsonMembers.toList_ofList, listing_of_listed hlisted]
  have hgroups : (entriesOf ((UserStore.toJson ⟨us, (entriesOf (raw.field (.ofString "groups"))).map
      fun es => coerceGroups es 0⟩).field (.ofString "groups"))).map (fun es => coerceGroups es 0) =
        (entriesOf (raw.field (.ofString "groups"))).map fun es => coerceGroups es 0 := by
    rw [UserStore.toJson, field_record (by simp)]
    cases hentries : entriesOf (raw.field (.ofString "groups")) with
    | none => rfl
    | some es =>
      have hes : Listed (es.map Prod.fst) := by
        unfold entriesOf at hentries
        split at hentries
        · exact some.inj hentries ▸ listed_listing _
        · exact nomatch hentries
      have hkept : Listed (((coerceGroups es 0).map groupJson).map Prod.fst) := by
        rw [List.map_map]
        exact hes.sublist (keys_coerceGroups es)
      show some (coerceGroups (listing _) 0) = _
      rw [JsonMembers.toList_ofList]
      exact congrArg some ((congrArg (coerceGroups · 0) (listing_of_listed hkept)).trans
        (coerceGroups_again es))
  obtain ⟨s', hs', husers'⟩ := coerceUsers_again bytes tracks_none
    (fun p hp => by
      obtain ⟨e, -, hpe, hc⟩ := forall₂_right h p hp
      have hvalid := valid_coerceUser hc.coerced
      exact ⟨hvalid.1, hvalid.2.trans hpe.symm⟩)
    (fun p _ => rfl) (kept_apart h) (by
      have hlength : us.length ≤ 1000 := by
        rw [← h.length_eq]
        exact length_take_le _ _
      simpa [Seen.none] using hlength)
  rw [coerceTenancy, husers, getD_some, hs']
  dsimp only
  rw [hgroups, husers']
  rfl

/-- Users that do not clash are told apart, unless two of them share a tenant id that is no string. -/
theorem unambiguous {t : UserStore} (hapart : t.users.Pairwise fun p q => clashes q.2.claim p.2.claim = false)
    (htenants : t.users.Pairwise fun p q => p.2.tenantId = q.2.tenantId →
      ∃ text, p.2.tenantId = .str text) : t.Unambiguous where
  tenants := by
    refine (hapart.and htenants).imp fun {p q} h heq => ?_
    obtain ⟨text, htext⟩ := h.2 heq
    have hclash := h.1
    rw [clashes, User.claim, User.claim, ← heq, htext] at hclash
    simp at hclash
  usernames := by
    refine hapart.imp fun {p q} h name hash must resets name' hash' must' resets' hp hq heq => ?_
    have hkeys : q.2.account.loginKey = p.2.account.loginKey := by
      rw [hp, hq, Account.loginKey, Account.loginKey, heq]
    simp [clashes, User.claim, hkeys] at h
  subjects := by
    refine hapart.imp fun {p q} h iss sub roles iss' sub' roles' hp hq heq => ?_
    have hkeys : q.2.account.loginKey = p.2.account.loginKey := by
      rw [hp, hq, Account.loginKey, Account.loginKey, (Prod.mk.inj heq).1, (Prod.mk.inj heq).2]
    simp [clashes, User.claim, hkeys] at h

/-- The call returns a store that it returns again, with no user that could be taken for another,
exactly on regular input. -/
theorem fixed_point_iff (bytes : JsString → ℕ) (raw : Json) :
    (∃ t, coerceTenancy bytes raw = .ok t ∧ coerceTenancy bytes t.toJson = .ok t ∧ t.Unambiguous) ↔
      Regular raw := by
  constructor
  · rintro ⟨t, ht, hagain, hunambiguous⟩
    have htested : ∀ a e b, usersOf raw = a ++ e :: b → (survivors [] a).length < 1000 →
        untestable e = false := by
      intro a e b hes hlt
      by_contra hun
      rw [Bool.not_eq_false] at hun
      have herror : coerceUsers bytes ((entriesOf (raw.field (.ofString "users"))).getD []) .none =
          .error .typeError :=
        coerceUsers_error (s := .none) tracks_none hes (by simpa [Seen.none] using hlt) hun
      rw [coerceTenancy, herror] at ht
      cases ht
    obtain ⟨us, hkept, heq⟩ := coerceTenancy_eq htested
    obtain rfl := Except.ok.inj (heq.symm.trans ht)
    refine ⟨htested, fun e he => ?_, ?_⟩
    · have hsame := congrArg UserStore.users (Except.ok.inj ((coerceTenancy_again hkept).symm.trans hagain))
      obtain ⟨p, hp, -, hc⟩ := forall₂_left hkept e he
      have hp' := map_fixed.mp hsame p hp
      exact (trimmed_iff hc).mp (congrArg Prod.snd hp')
    · refine pairwise_transfer hkept.flip hunambiguous.tenants fun p q e e' hp hq hne heq' => ?_
      rw [tenantIdOf_of_coerces hp.2, tenantIdOf_of_coerces hq.2] at heq'
      exact absurd (some.inj heq') hne
  · intro h
    obtain ⟨us, hkept, heq⟩ := coerceTenancy_eq h.tested
    have hsame : (us.map fun p => (p.1, p.2.trimmed)) = us := by
      refine map_fixed.mpr fun p hp => ?_
      obtain ⟨e, he, -, hc⟩ := forall₂_right hkept p hp
      rw [(trimmed_iff hc).mpr (h.stands e he)]
    refine ⟨_, heq, ?_, unambiguous (kept_apart hkept) ?_⟩
    · rw [coerceTenancy_again hkept, hsame]
    · refine pairwise_transfer hkept h.tenants fun e e' p q hp hq htenant heq' => ?_
      rw [tenantIdOf_of_coerces hp.2, tenantIdOf_of_coerces hq.2] at htenant
      obtain ⟨text, htext⟩ := htenant (congrArg some heq')
      exact ⟨text, some.inj htext⟩

/-- A local user whose name has a blank for its hundredth character, and another word behind it. -/
def longName : Json :=
  record [("users", some (object [(List.replicate 32 (.scalar 'a'), record [
    ("tenantId", some (.str (List.replicate 32 (.scalar 'b')))),
    ("source", some (.str (.ofString "local"))),
    ("username", some (.str (.ofString "ann"))),
    ("displayName", some (.str (List.replicate 99 (.scalar 'x') ++ ofString " y")))])]))]

theorem longName_shrinks : ¬∃ t, coerceTenancy (fun _ => 0) longName = .ok t ∧
    coerceTenancy (fun _ => 0) t.toJson = .ok t ∧ t.Unambiguous := by
  rintro ⟨t, ht, hagain, -⟩
  have hfirst : (coerceTenancy (fun _ => 0) longName).map
      (fun t => t.users.map fun p => p.2.displayName.length) = .ok [100] := by decide
  have hsecond : ((coerceTenancy (fun _ => 0) longName).bind fun t => coerceTenancy (fun _ => 0) t.toJson).map
      (fun t => t.users.map fun p => p.2.displayName.length) = .ok [99] := by decide
  rw [ht] at hfirst hsecond
  have hsame : (coerceTenancy (fun _ => 0) t.toJson).map
      (fun t => t.users.map fun p => p.2.displayName.length) = .ok [99] := hsecond
  rw [hagain] at hsame
  exact absurd (Except.ok.inj (hfirst.symm.trans hsame)) (by decide)

end Turma.Tenancy
