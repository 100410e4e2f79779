import Turma.Lib.JsCut
import Turma.Lib.Sort
import Turma.Tenancy.Users

/-! A coerced record that is coerced once more: nothing changes but the names, which are trimmed. -/

namespace Turma.Tenancy

open Turma.Lib List Option JsString

variable {bytes : JsString → ℕ} {id : JsString} {tenantId u : Json} {c : User}

theorem ofString_inj {a b : String} : ofString a = ofString b ↔ a = b := by
  constructor
  · intro h
    have hinj : Function.Injective CodePoint.scalar := fun _ _ => CodePoint.scalar.inj
    exact String.toList_inj.mp (hinj.list_map h)
  · exact congrArg _

theorem elements_array (vs : List Json) : elements (some (array vs)) = vs :=
  JsonElements.toList_ofList vs

theorem field_object (ms : List (JsString × Json)) (k : JsString) :
    (object ms).field k = OrdMap.lookup k ms := by
  rw [object, Json.field, JsonMembers.toList_ofList]

theorem field_record {ms : List (String × Option Json)} (h : (ms.map Prod.fst).Nodup) (k : String) :
    (record ms).field (.ofString k) = (ms.lookup k).join := by
  rw [record, field_object]
  induction ms with
  | nil => rfl
  | cons m ms ih =>
    obtain ⟨hnew, hms⟩ := nodup_cons.mp h
    by_cases hk : k = m.1
    · subst hk
      have hrest : ms.lookup m.1 = none := by
        rw [lookup_eq_none_iff]
        intro e he
        have hne : m.1 ≠ e.1 := fun heq => hnew (heq ▸ List.mem_map_of_mem he)
        simpa using hne
      rw [filterMap_cons, lookup_cons, beq_self_eq_true]
      cases hv : m.2 with
      | none =>
        rw [hrest] at ih
        exact ih hms
      | some v => simp [OrdMap.lookup]
    · rw [filterMap_cons, lookup_cons, beq_false_of_ne hk, ← ih hms]
      cases hv : m.2 with
      | none => rfl
      | some v => simp [OrdMap.lookup, ofString_inj, Ne.symm hk]

theorem nodup_members (c : User) : (c.members.map Prod.fst).Nodup := by
  cases hc : c.account with
  | password => simp [User.members, Account.members, hc]
  | oidc => simp [User.members, Account.members, hc]

theorem field_user (c : User) (k : String) : c.toJson.field (.ofString k) = (c.members.lookup k).join :=
  field_record (nodup_members c) k

theorem finiteMs_num {v : Option Json} {n : JsNumber} (h : finiteMs v = some n) :
    finiteMs (some (.num n)) = some n := by
  unfold finiteMs at h
  split at h
  · rename_i z exact plain
    split_ifs at h with hz
    cases h
    exact if_pos hz
  · cases h

variable (v : Option Json)

theorem finiteMs_again : finiteMs ((finiteMs v).map .num) = finiteMs v := by
  cases h : finiteMs v with
  | none => rfl
  | some n => exact finiteMs_num h

theorem createdAt_again :
    (finiteMs (some (.num ((finiteMs v).getD (.ofInt 0))))).getD (.ofInt 0) =
      (finiteMs v).getD (.ofInt 0) := by
  cases h : finiteMs v with
  | none =>
    have hzero : finiteMs (some (.num (.ofInt 0))) = none := by decide
    rw [getD_none, hzero, getD_none]
  | some n => rw [getD_some, finiteMs_num h, getD_some]

theorem roleOf_text (r : Role) : roleOf (some (.str r.text)) = some r := by
  cases r <;> decide

/-- A text without what `cleanText` takes out of it, before it is cut. -/
def cleaned (v : Option Json) : JsString :=
  match v with
  | some (.str s) => JsString.trim (s.filter fun c => !strips c)
  | _ => []

theorem cleanText_eq (max : ℕ) : cleanText v max = (cleaned v).slice max := by
  cases v with
  | none => rfl
  | some v => cases v <;> rfl

theorem bare_cleaned : (cleaned v).Bare JsString.blank := by
  unfold cleaned
  split
  · exact JsString.bare_stripEnds _ _
  · exact ⟨nofun, nofun⟩

theorem strips_cleaned {v : Option Json} {c : CodePoint} (h : c ∈ cleaned v) : strips c = false := by
  unfold cleaned at h
  split at h
  · have hmem := (JsString.stripEnds_sublist _ _).subset h
    simpa using (mem_filter.mp hmem).2
  · exact nomatch h

theorem head_cleanText {max : ℕ} (hmax : 2 ≤ max) :
    ∀ c ∈ (cleanText v max).head?, JsString.blank c = false := by
  rw [cleanText_eq, JsString.head?_slice hmax]
  exact (bare_cleaned v).head

/-- A name that is coerced is clean, and short enough: it stands as it is, but for white space that
the cut has left at its end. -/
theorem cleanText_again {max : ℕ} (hmax : 2 ≤ max) :
    cleanText (some (.str (cleanText v max))) max = (cleanText v max).trim := by
  have hclean : (cleanText v max).filter (fun c => !strips c) = cleanText v max := by
    refine filter_eq_self.mpr fun c hc => ?_
    rw [cleanText_eq] at hc
    rcases JsString.mem_slice hc with hc | ⟨u, rfl⟩
    · simp [strips_cleaned hc]
    · rfl
  obtain ⟨rest, hrest⟩ : (cleanText v max).trim <+: cleanText v max :=
    JsString.stripEnds_prefix (head_cleanText v hmax)
  have hlength : (cleanText v max).trim.length16 ≤ max := by
    have hle := JsString.length16_slice max (cleaned v)
    rw [← cleanText_eq, ← hrest, JsString.length16_append] at hle
    omega
  show JsString.slice max (JsString.trim ((cleanText v max).filter fun c => !strips c)) = _
  rw [hclean, JsString.slice_of_le hlength]

theorem trim_cleanText_ne_nil {v : Option Json} {max : ℕ} (hmax : 2 ≤ max)
    (h : cleanText v max ≠ []) : (cleanText v max).trim ≠ [] :=
  JsString.stripEnds_ne_nil (head_cleanText v hmax) h

def cutsBlank (v : Option Json) (max : ℕ) : Bool :=
  max < (cleaned v).length16 && ((cleaned v).slice max).getLast?.any JsString.blank

theorem trim_cleanText {max : ℕ} (hmax : 2 ≤ max) :
    (cleanText v max).trim = cleanText v max ↔ cutsBlank v max = false := by
  constructor
  · intro h
    have hbare : (cleanText v max).Bare JsString.blank := h ▸ JsString.bare_stripEnds _ _
    rw [cutsBlank, ← cleanText_eq, Bool.and_eq_false_iff]
    right
    cases hlast : (cleanText v max).getLast? with
    | none => rfl
    | some c => exact hbare.last c hlast
  · intro h
    refine JsString.stripEnds_of_bare ⟨head_cleanText v hmax, ?_⟩
    rw [cleanText_eq]
    intro c hc
    rw [cutsBlank, mem_def.mp hc, any_some, Bool.and_eq_false_iff] at h
    rcases h with hshort | hlast
    · rw [decide_eq_false_iff_not, Nat.not_lt] at hshort
      rw [JsString.slice_of_le hshort] at hc
      exact (bare_cleaned v).last c hc
    · exact hlast

def named (v : Option Json) (max : ℕ) (default : JsString) : JsString :=
  if cleanText v max = [] then default else cleanText v max

/-- A name that coerces to itself, trimmed. -/
structure Standing (max : ℕ) (name : JsString) : Prop where
  again : cleanText (some (.str name)) max = name.trim
  named : name.trim ≠ []

variable {default : JsString}

theorem standing_named {max : ℕ} (hmax : 2 ≤ max)
    (h : Standing max default) : Standing max (named v max default) := by
  unfold named
  by_cases hempty : cleanText v max = []
  · rw [if_pos hempty]
    exact h
  · rw [if_neg hempty]
    exact ⟨cleanText_again v hmax, trim_cleanText_ne_nil hmax hempty⟩

theorem named_standing {max : ℕ} {name : JsString} (h : Standing max name) (default : JsString) :
    named (some (.str name)) max default = name.trim := by
  rw [named, h.again, if_neg h.named]

theorem trim_named {v : Option Json} {max : ℕ} (hmax : 2 ≤ max)
    (h : default.trim = default) :
    (named v max default).trim = named v max default ↔ cutsBlank v max = false := by
  rw [← trim_cleanText v hmax, named]
  by_cases hempty : cleanText v max = []
  · rw [if_pos hempty, hempty]
    exact iff_of_true h rfl
  · rw [if_neg hempty]

theorem standing_user : Standing 100 (.ofString "user") := ⟨by decide, by decide⟩

theorem standing_administrator : Standing 120 (.ofString "an administrator") := ⟨by decide, by decide⟩

def Reset.trimmed (r : Reset) : Reset := { r with admin := r.admin.trim }

def Account.trimmed : Account → Account
  | .password username passwordHash mustChangePassword passwordResets =>
    .password username passwordHash mustChangePassword (passwordResets.map Reset.trimmed)
  | .oidc oidcIss oidcSub idpRoles => .oidc oidcIss oidcSub idpRoles

def User.trimmed (c : User) : User :=
  { c with displayName := c.displayName.trim, account := c.account.trimmed }

def resetOf (r : Json) : Option Reset :=
  (finiteMs (r.field (.ofString "at"))).map fun time =>
    ⟨time, named (r.field (.ofString "by")) 120 (.ofString "an administrator")⟩

theorem passwordResets_eq (u : Json) : passwordResets u =
    let resets := (elements (u.field (.ofString "passwordResets"))).filterMap resetOf
    resets.drop (resets.length - 10) := rfl

theorem field_at (r : Reset) : r.toJson.field (.ofString "at") = some (.num r.time) :=
  field_record (by simp) "at"

theorem field_by (r : Reset) : r.toJson.field (.ofString "by") = some (.str r.admin) :=
  field_record (by simp) "by"

theorem resetOf_toJson {v : Json} {r : Reset} (h : resetOf v = some r) :
    resetOf r.toJson = some r.trimmed := by
  obtain ⟨time, htime, rfl⟩ := map_eq_some_iff.mp h
  rw [resetOf, field_at, finiteMs_num htime, map_some, field_by,
    named_standing (standing_named _ (by decide) standing_administrator)]
  rfl

theorem mem_passwordResets {u : Json} {r : Reset} (h : r ∈ passwordResets u) :
    ∃ v, resetOf v = some r := by
  have hmem := mem_of_mem_drop h
  obtain ⟨v, -, hv⟩ := mem_filterMap.mp hmem
  exact ⟨v, hv⟩

theorem length_passwordResets (u : Json) : (passwordResets u).length ≤ 10 := by
  rw [passwordResets_eq, length_drop]
  omega

theorem passwordResets_again {rs : List Reset} (hrs : ∀ r ∈ rs, ∃ v, resetOf v = some r)
    (hlength : rs.length ≤ 10) {u : Json}
    (hu : elements (u.field (.ofString "passwordResets")) = rs.map Reset.toJson) :
    passwordResets u = rs.map Reset.trimmed := by
  have hmap : (rs.map Reset.toJson).filterMap resetOf = rs.map Reset.trimmed := by
    rw [filterMap_map, ← filterMap_eq_map]
    refine filterMap_congr fun r hr => ?_
    obtain ⟨v, hv⟩ := hrs r hr
    exact resetOf_toJson hv
  rw [passwordResets_eq, hu, hmap]
  dsimp only
  rw [length_map, Nat.sub_eq_zero_of_le hlength, drop_zero]

def Account.Valid (bytes : JsString → ℕ) : Account → Prop
  | .password username passwordHash _ passwordResets =>
    isUsername username = true ∧ (∀ stored ∈ passwordHash, parseHash bytes stored = true) ∧
      (∀ r ∈ passwordResets, ∃ v, resetOf v = some r) ∧ passwordResets.length ≤ 10
  | .oidc oidcIss oidcSub idpRoles =>
    ¬(oidcSub = [] ∨ 255 < oidcSub.length16 ∨ oidcIss = [] ∨ 500 < oidcIss.length16) ∧ idpRoles.Nodup

theorem valid_accountOf {a : Account} (h : accountOf bytes u = some a) : a.Valid bytes := by
  obtain ⟨source, -, h⟩ := bind_eq_some_iff.mp h
  split_ifs at h with hlocal hoidc
  · obtain ⟨username, -, h⟩ := bind_eq_some_iff.mp h
    split_ifs at h with hname
    cases h
    exact ⟨hname, fun stored hstored => (mem_filter_iff.mp hstored).2,
      fun _ => mem_passwordResets, length_passwordResets u⟩
  · obtain ⟨sub, -, h⟩ := bind_eq_some_iff.mp h
    obtain ⟨iss, -, h⟩ := bind_eq_some_iff.mp h
    split_ifs at h with hbounds
    cases h
    exact ⟨hbounds, nodup_eraseDups _⟩

theorem accountOf_password {username : JsString} {passwordHash : Option JsString} {must : Bool}
    {resets : List Reset} (h : Account.Valid bytes (.password username passwordHash must resets))
    (hc : c.account = .password username passwordHash must resets) :
    accountOf bytes c.toJson = some (.password username passwordHash must (resets.map Reset.trimmed)) := by
  obtain ⟨hname, hhashes, hresets, hlength⟩ := h
  have hsource : c.toJson.field (.ofString "source") = some (.str (.ofString "local")) := by
    rw [field_user, User.members, hc]
    rfl
  have husername : c.toJson.field (.ofString "username") = some (.str username) := by
    rw [field_user, User.members, hc]
    rfl
  have hhash : c.toJson.field (.ofString "passwordHash") = passwordHash.map .str := by
    rw [field_user, User.members, hc]
    rfl
  have hmust : c.toJson.field (.ofString "mustChangePassword") =
      if must = true then some (.bool true) else none := by
    rw [field_user, User.members, hc]
    rfl
  have hlist : elements (c.toJson.field (.ofString "passwordResets")) = resets.map Reset.toJson := by
    rw [field_user, User.members, hc]
    show elements (if resets = [] then none else some (array (resets.map Reset.toJson))) = _
    split_ifs with hnone
    · rw [hnone]
      rfl
    · exact elements_array _
  have hagain := passwordResets_again hresets hlength hlist
  have hstored : (asString (passwordHash.map .str)).filter (parseHash bytes) = passwordHash := by
    cases passwordHash with
    | none => rfl
    | some stored => exact filter_some_pos (hhashes stored rfl)
  rw [accountOf, hsource, asString, bind_some, if_pos rfl, husername, asString, bind_some,
    if_pos hname, hhash, hstored, hmust, hagain]
  cases must <;> rfl

theorem accountOf_oidc {iss sub : JsString} {idpRoles : List Role}
    (h : Account.Valid bytes (.oidc iss sub idpRoles)) (hc : c.account = .oidc iss sub idpRoles) :
    accountOf bytes c.toJson = some (.oidc iss sub idpRoles) := by
  have hsource : c.toJson.field (.ofString "source") = some (.str (.ofString "oidc")) := by
    rw [field_user, User.members, hc]
    rfl
  have hsub : c.toJson.field (.ofString "oidcSub") = some (.str sub) := by
    rw [field_user, User.members, hc]
    rfl
  have hiss : c.toJson.field (.ofString "oidcIss") = some (.str iss) := by
    rw [field_user, User.members, hc]
    rfl
  have hlist : elements (c.toJson.field (.ofString "idpRoles")) = idpRoles.map fun r => .str r.text := by
    rw [field_user, User.members, hc]
    exact elements_array _
  have hroles : (idpRoles.map fun r => Json.str r.text).filterMap (fun r => roleOf (some r)) =
      idpRoles := by
    rw [filterMap_map]
    exact (filterMap_congr fun r _ => roleOf_text r).trans filterMap_some
  have hne : ofString "oidc" ≠ .ofString "local" := by decide
  rw [accountOf, hsource, asString, bind_some, if_neg hne, if_pos rfl, hsub, asString,
    bind_some, hiss, asString, bind_some, if_neg h.1, hlist, hroles,
    eraseDups_of_nodup h.2]

theorem accountOf_again (h : c.account.Valid bytes) :
    accountOf bytes c.toJson = some c.account.trimmed := by
  cases hc : c.account with
  | password => exact accountOf_password (hc ▸ h) hc
  | oidc => exact accountOf_oidc (hc ▸ h) hc

structure User.Valid (bytes : JsString → ℕ) (c : User) : Prop where
  id : isId c.id = true
  tenant : ∃ text, textOf c.tenantId = some text ∧ isId text = true
  other : c.tenantId ≠ .str c.id
  account : c.account.Valid bytes
  displayName : Standing 100 c.displayName
  groups : ∀ g ∈ c.groups, isGroup g = true
  distinct : c.groups.Nodup
  few : c.groups.length ≤ 20
  byIdp : c.byIdp = true → c.disabled = true ∧ ∃ iss sub roles, c.account = .oidc iss sub roles
  createdAt : (finiteMs (some (.num c.createdAt))).getD (.ofInt 0) = c.createdAt
  lastLoginAt : finiteMs (c.lastLoginAt.map .num) = c.lastLoginAt
  sessionEpoch : finiteMs (c.sessionEpoch.map .num) = c.sessionEpoch

theorem coerceRecord_again (h : c.Valid bytes) :
    coerceRecord bytes c.id c.tenantId c.toJson = some c.trimmed := by
  have hname : c.toJson.field (.ofString "displayName") = some (.str c.displayName) := by
    rw [field_user, User.members]
    rfl
  have hlist : elements (c.toJson.field (.ofString "groups")) = c.groups.map .str := by
    rw [field_user, User.members]
    cases c.account <;> exact elements_array _
  have hdisabled : c.toJson.field (.ofString "disabled") = some (.bool c.disabled) := by
    rw [field_user, User.members]
    cases c.account <;> rfl
  have hby : c.toJson.field (.ofString "disabledBy") =
      if c.byIdp = true then some (.str (.ofString "idp")) else none := by
    rw [field_user, User.members]
    cases c.account <;> rfl
  have hcreated : c.toJson.field (.ofString "createdAt") = some (.num c.createdAt) := by
    rw [field_user, User.members]
    cases c.account <;> rfl
  have hlast : c.toJson.field (.ofString "lastLoginAt") = c.lastLoginAt.map .num := by
    rw [field_user, User.members]
    cases c.account <;> rfl
  have hepoch : c.toJson.field (.ofString "sessionEpoch") = c.sessionEpoch.map .num := by
    rw [field_user, User.members]
    cases c.account <;> rfl
  have hgroups : (c.groups.map Json.str).filterMap groupOf = c.groups := by
    rw [filterMap_map]
    refine (filterMap_congr fun g hg => ?_).trans filterMap_some
    exact if_pos (h.groups g hg)
  have hflag : decide (some (Json.bool c.disabled) = some (Json.bool true)) = c.disabled := by
    cases c.disabled <;> rfl
  have hidp : (c.disabled && c.account.trimmed.source = "oidc" &&
      (if c.byIdp = true then some (Json.str (.ofString "idp")) else none) =
        some (.str (.ofString "idp"))) = c.byIdp := by
    cases hc : c.byIdp with
    | false => simp
    | true =>
      obtain ⟨hdis, iss, sub, roles, haccount⟩ := h.byIdp hc
      rw [hdis, haccount]
      rfl
  have hdisplay := named_standing h.displayName (.ofString "user")
  rw [named] at hdisplay
  rw [coerceRecord, accountOf_again h.account, map_some, hname, hlist, hdisabled, hby, hcreated,
    hlast, hepoch, hgroups, eraseDups_of_nodup h.distinct, take_of_length_le h.few, h.createdAt,
    h.lastLoginAt, h.sessionEpoch]
  dsimp only
  rw [hflag, hidp, hdisplay]
  rfl

theorem valid_coerceRecord (hid : isId id = true) {text : JsString} (htext : textOf tenantId = some text)
    (htenant : isId text = true) (hother : tenantId ≠ .str id)
    (h : coerceRecord bytes id tenantId u = some c) : c.Valid bytes := by
  obtain ⟨account, haccount, rfl⟩ := map_eq_some_iff.mp h
  constructor
  case id => exact hid
  case tenant => exact ⟨text, htext, htenant⟩
  case other => exact hother
  case account => exact valid_accountOf haccount
  case displayName => exact standing_named _ (by decide) standing_user
  case groups =>
    intro g hg
    obtain ⟨v, -, hv⟩ := mem_filterMap.mp (mem_eraseDups.mp (mem_of_mem_take hg))
    unfold groupOf at hv
    split at hv
    · split_ifs at hv with hgroup
      exact Option.some.inj hv ▸ hgroup
    · cases hv
  case distinct => exact (nodup_eraseDups _).sublist (take_sublist _ _)
  case few => exact length_take_le _ _
  case byIdp =>
    intro hby
    cases account with
    | password => simp [Account.source] at hby
    | oidc iss sub roles =>
      rw [Bool.and_eq_true, Bool.and_eq_true] at hby
      exact ⟨hby.1.1, iss, sub, roles, rfl⟩
  case createdAt => exact createdAt_again _
  case lastLoginAt => exact finiteMs_again _
  case sessionEpoch => exact finiteMs_again _

theorem valid_coerceUser (h : coerceUser bytes id u = .ok (some c)) : c.Valid bytes ∧ c.id = id := by
  unfold coerceUser at h
  split_ifs at h with hid
  · exact nomatch h
  · rw [Bool.not_eq_false] at hid
    split at h
    · split at h
      · exact nomatch h
      · rename_i tenantId _
        split at h
        · exact nomatch h
        · rename_i text htext
          split_ifs at h with hnot
          · exact nomatch h
          · rw [not_or, Bool.not_eq_false] at hnot
            have hrecord := Except.ok.inj h
            refine ⟨valid_coerceRecord hid htext hnot.1 hnot.2 hrecord, ?_⟩
            obtain ⟨account, -, rfl⟩ := map_eq_some_iff.mp hrecord
            rfl
    · exact nomatch h

theorem coerceUser_again (h : c.Valid bytes) :
    coerceUser bytes c.id c.toJson = .ok (some c.trimmed) := by
  obtain ⟨text, htext, htenant⟩ := h.tenant
  have hfield : c.toJson.field (.ofString "tenantId") = some c.tenantId := by
    rw [field_user, User.members]
    rfl
  have hobject : ∃ ms, c.toJson = .obj ms := ⟨_, rfl⟩
  have hrecord := coerceRecord_again h
  obtain ⟨ms, hms⟩ := hobject
  rw [hms] at hfield hrecord ⊢
  rw [coerceUser, if_neg (by simp [h.id]), hfield]
  dsimp only
  rw [htext]
  dsimp only
  rw [if_neg (by simp [htenant, h.other]), hrecord]

end Turma.Tenancy
