import Turma.Lib.JsObject

/-! The push devices of the mobile clients. Each belongs to the tenant that registered it and, where
a login did, counts against that login; over a cap a device makes way for the new one. -/

namespace Turma.Devices

open Turma.Lib List

/-- `tenantId` and `byLogin` are empty where the record has none. -/
structure Device where
  token : JsString
  platform : JsString
  features : List JsString
  addedAt : ℕ
  seenAt : ℕ
  tenantId : JsString
  byLogin : JsString
deriving DecidableEq

/-- `DEVICES_PER_TENANT_MAX` and `DEVICES_PER_PRINCIPAL_MAX`. -/
structure Knobs where
  perTenant : ℕ
  perPrincipal : ℕ

def DEVICES_DISPLACE_MAX : ℕ := 3

/-- The least recently seen of a list; of an empty one `reduce` throws. -/
def oldest : List Device → Option Device
  | [] => none
  | d :: ds => some (ds.foldl (fun a b => if b.seenAt < a.seenAt then b else a) d)

def bucket (devices : List Device) (tenantId : JsString) : List Device :=
  devices.filter fun d => d.tenantId = tenantId

def own (devices : List Device) (tenantId byLogin : JsString) : List Device :=
  if byLogin = [] then [] else (bucket devices tenantId).filter fun d => d.byLogin = byLogin

inductive Turn
  | stop
  | throws
  | drop (d : Device)

def Turn.dropOldest (ds : List Device) : Turn :=
  match oldest ds with
  | none => .throws
  | some d => .drop d

def dropLoop (next : List Device → Turn) : ℕ → List Device → Option (List Device)
  | 0, devices => some devices
  | fuel + 1, devices =>
    match next devices with
    | .stop => some devices
    | .throws => none
    | .drop d => dropLoop next fuel (devices.filter fun x => x ≠ d)

def overOwn (K : Knobs) (tenantId byLogin : JsString) (devices : List Device) : Turn :=
  if (own devices tenantId byLogin).length ≥ K.perPrincipal then
    .dropOldest (own devices tenantId byLogin)
  else .stop

def overBucket (K : Knobs) (tenantId byLogin : JsString) (devices : List Device) : Turn :=
  if (bucket devices tenantId).length ≥ K.perTenant then
    let mine := own devices tenantId byLogin
    let others := (bucket devices tenantId).filter fun x => x ∉ mine
    .dropOldest (if mine.length ≥ DEVICES_DISPLACE_MAX ∨ others = [] then mine else others)
  else .stop

def makeRoom (K : Knobs) (tenantId byLogin : JsString) (devices : List Device) :
    Option (List Device) :=
  (dropLoop (overOwn K tenantId byLogin) (devices.length + 1) devices).bind fun devices =>
    dropLoop (overBucket K tenantId byLogin) (devices.length + 1) devices

def featureNames (features : List Json) : List JsString :=
  features.filterMap fun
    | .str s => some s
    | _ => none

/-- A call of `registerDevice`; `features` is nothing where it is no array. -/
structure Registration where
  token : JsString
  platform : JsString
  features : Option (List Json)
  tenantId : JsString
  byLogin : JsString
  now : ℕ

/-- The registry after it and what it returns; nothing where it throws. -/
def registerDevice (K : Knobs) (devices : List Device) (r : Registration) :
    Option (List Device × Bool) :=
  let caps := r.features.map featureNames
  match devices.find? fun d => d.token = r.token with
  | some existing =>
    if existing.tenantId ≠ r.tenantId then some (devices, false)
    else
      let seen : Device :=
        { existing with
          platform := if r.platform = [] then existing.platform else r.platform
          features := caps.getD existing.features
          seenAt := r.now }
      some (devices.map fun d => if d = existing then seen else d, true)
  | none =>
    let d : Device :=
      { token := r.token
        platform := if r.platform = [] then .ofString "android" else r.platform
        features := caps.getD []
        addedAt := r.now
        seenAt := r.now
        tenantId := r.tenantId
        byLogin := r.byLogin }
    (makeRoom K r.tenantId r.byLogin devices).map fun devices => (devices ++ [d], true)

/-- Without a tenant the call is the hub's own, for any. -/
def unregisterDevice (devices : List Device) (token : JsString) (tenantId : Option JsString) :
    List Device :=
  devices.filter fun d => d.token ≠ token ∨ tenantId.any (fun t => d.tenantId ≠ t) = true

/-- A call, with the login that made it; the registry is not told whose an unregistration is. -/
inductive Call
  | register (r : Registration)
  | unregister (token : JsString) (tenantId : Option JsString) (byLogin : JsString)

def Call.run (K : Knobs) (devices : List Device) : Call → Option (List Device)
  | .register r => (registerDevice K devices r).map Prod.fst
  | .unregister token tenantId _ => some (unregisterDevice devices token tenantId)

def runCalls (K : Knobs) : List Device → List Call → Option (List Device)
  | devices, [] => some devices
  | devices, c :: cs => (c.run K devices).bind fun devices => runCalls K devices cs

/-! How a registration makes room: each cap holds after its loop, and what is dropped is the
tenant's own. -/

variable {K : Knobs} {devices : List Device} {t who : JsString}

theorem foldl_oldest_mem (ds : List Device) (d : Device) :
    ds.foldl (fun a b => if b.seenAt < a.seenAt then b else a) d ∈ d :: ds := by
  induction ds generalizing d with
  | nil => exact mem_cons_self
  | cons e ds ih =>
    rw [foldl_cons]
    have hmem := ih (if e.seenAt < d.seenAt then e else d)
    rcases mem_cons.mp hmem with hfirst | hrest
    · rw [hfirst]
      split_ifs
      · exact .tail _ mem_cons_self
      · exact mem_cons_self
    · exact .tail _ (.tail _ hrest)

variable {ds : List Device}

theorem dropOldest_cases (h : ds ≠ []) :
    ∃ d ∈ ds, Turn.dropOldest ds = .drop d := by
  cases ds with
  | nil => exact absurd rfl h
  | cons d ds => exact ⟨_, foldl_oldest_mem ds d, rfl⟩

/-- A loop whose turns drop devices of the list ends. What a turn keeps to, the loop does. -/
theorem dropLoop_spec {next : List Device → Turn} {R : List Device → List Device → Prop}
    (hturn : ∀ ds, next ds = .stop ∨ ∃ d ∈ ds, next ds = .drop d ∧ R ds (ds.filter fun x => x ≠ d))
    (hrefl : ∀ ds, R ds ds) (htrans : ∀ a b c, R a b → R b c → R a c) {fuel : ℕ}
    (hfuel : devices.length < fuel) :
    ∃ left, dropLoop next fuel devices = some left ∧ next left = .stop ∧ R devices left := by
  induction fuel generalizing devices with
  | zero => exact absurd hfuel (Nat.not_lt_zero _)
  | succ fuel ih =>
    rw [dropLoop]
    rcases hturn devices with hstop | ⟨d, hd, hdrop, hR⟩
    · rw [hstop]
      exact ⟨devices, rfl, hstop, hrefl devices⟩
    · rw [hdrop]
      have hfewer : (devices.filter fun x => x ≠ d).length < devices.length :=
        length_filter_lt_length_iff_exists.mpr ⟨d, hd, by simp⟩
      obtain ⟨left, hleft, hstop, hrest⟩ := @ih (devices.filter fun x => x ≠ d) (by omega)
      exact ⟨left, hleft, hstop, htrans _ _ _ hR hrest⟩

def others (devices : List Device) (t who : JsString) : List Device :=
  (bucket devices t).filter fun d => d.byLogin ≠ who

theorem bucket_filter (p : Device → Bool) (t : JsString) :
    bucket (devices.filter p) t = (bucket devices t).filter p := by
  rw [bucket, bucket, filter_filter, filter_filter]
  exact filter_congr fun d _ => Bool.and_comm _ _

theorem others_filter (p : Device → Bool) :
    others (devices.filter p) t who = (others devices t who).filter p := by
  rw [others, others, bucket_filter, filter_filter, filter_filter]
  exact filter_congr fun d _ => Bool.and_comm _ _

variable {d : Device}

theorem mem_own (h : d ∈ own devices t who) :
    d ∈ devices ∧ d.tenantId = t ∧ d.byLogin = who := by
  rw [own] at h
  split_ifs at h
  · exact absurd h not_mem_nil
  · obtain ⟨hd, hwho⟩ := mem_filter.mp h
    obtain ⟨hmem, ht⟩ := mem_filter.mp hd
    exact ⟨hmem, by simpa using ht, by simpa using hwho⟩

theorem mem_bucket : d ∈ bucket devices t ↔ d ∈ devices ∧ d.tenantId = t := by
  simp [bucket]

theorem mem_others :
    d ∈ others devices t who ↔ d ∈ bucket devices t ∧ d.byLogin ≠ who := by
  rw [others, mem_filter, decide_eq_true_eq]

theorem length_bucket (hwho : who ≠ []) :
    (bucket devices t).length = (own devices t who).length + (others devices t who).length := by
  have hsplit := length_eq_length_filter_add (l := bucket devices t)
    fun d => decide (d.byLogin = who)
  rw [own, if_neg hwho, others, hsplit]
  congr 2
  exact filter_congr fun d _ => by simp

/-- What the second loop takes for the others. -/
theorem rest_eq_others (hwho : who ≠ []) :
    (bucket devices t).filter (fun x => x ∉ own devices t who) = others devices t who := by
  refine filter_congr fun d hd => ?_
  rw [own, if_neg hwho]
  simp [hd]

theorem length_drop_one (hnodup : ds.Nodup) (hd : d ∈ ds) :
    (ds.filter fun x => x ≠ d).length + 1 = ds.length := by
  have herase : ds.filter (fun x => x ≠ d) = ds.erase d := by
    rw [hnodup.erase_eq_filter]
    exact filter_congr fun x _ => by cases hx : x != d <;> simpa using hx
  rw [herase, length_erase_of_mem hd]
  have hpos := length_pos_of_mem hd
  omega

theorem drop_absent (hd : d ∉ ds) :
    ds.filter (fun x => x ≠ d) = ds :=
  filter_eq_self.mpr fun x hx => by simpa using fun heq : x = d => hd (heq ▸ hx)

/-- The tenant's devices alone are dropped, and the login's own before those of others where it has
enough. -/
structure Frees (K : Knobs) (t who : JsString) (devices left : List Device) : Prop where
  sub : left.Sublist devices
  apart : ∀ t', t' ≠ t → bucket left t' = bucket devices t'
  displaced : who ≠ [] → devices.Nodup →
    (others left t who).length = (others devices t who).length ∨
      K.perTenant ≤ (others left t who).length + DEVICES_DISPLACE_MAX

theorem Frees.refl (K : Knobs) (t who : JsString) (devices : List Device) :
    Frees K t who devices devices :=
  ⟨.refl _, fun _ _ => rfl, fun _ _ => .inl rfl⟩

theorem Frees.trans {a b c : List Device} (h : Frees K t who a b) (h' : Frees K t who b c) :
    Frees K t who a c where
  sub := h'.sub.trans h.sub
  apart t' ht' := (h'.apart t' ht').trans (h.apart t' ht')
  displaced hwho hnodup := by
    rcases h'.displaced hwho (hnodup.sublist h.sub) with hsame | hmany
    · rw [hsame]
      exact h.displaced hwho hnodup
    · exact .inr hmany

/-- A device of the tenant is dropped: the login's own, or another while the login has few. -/
theorem Frees.drop (hd : d ∈ bucket devices t)
    (hfew : who ≠ [] → d ∉ own devices t who → K.perTenant ≤ (bucket devices t).length ∧
      (own devices t who).length < DEVICES_DISPLACE_MAX) :
    Frees K t who devices (devices.filter fun x => x ≠ d) where
  sub := filter_sublist
  apart t' ht' := by
    rw [bucket_filter]
    exact drop_absent fun hmem =>
      ht' ((mem_bucket.mp hmem).2.symm.trans (mem_bucket.mp hd).2)
  displaced hwho hnodup := by
    rw [others_filter]
    by_cases hown : d ∈ own devices t who
    · left
      rw [drop_absent fun hmem => (mem_others.mp hmem).2 (mem_own hown).2.2]
    · right
      obtain ⟨hfull, hless⟩ := hfew hwho hown
      have hother : d ∈ others devices t who := by
        rw [← rest_eq_others hwho]
        exact mem_filter.mpr ⟨hd, by simpa using hown⟩
      have hothers : (others devices t who).Nodup :=
        hnodup.sublist (filter_sublist.trans filter_sublist)
      have hone := length_drop_one hothers hother
      have hsplit := @length_bucket devices t who hwho
      omega

theorem overOwn_turn (hK : 1 ≤ K.perPrincipal) (devices : List Device) :
    overOwn K t who devices = .stop ∨ ∃ d ∈ devices, overOwn K t who devices = .drop d ∧
      Frees K t who devices (devices.filter fun x => x ≠ d) := by
  rw [overOwn]
  split_ifs with hfull
  · right
    have hne : own devices t who ≠ [] := fun hnil => by
      rw [hnil] at hfull
      exact absurd (hK.trans hfull) (Nat.not_succ_le_zero 0)
    obtain ⟨d, hd, hdrop⟩ := dropOldest_cases hne
    obtain ⟨hmem, htenant, -⟩ := mem_own hd
    exact ⟨d, hmem, hdrop, .drop (mem_bucket.mpr ⟨hmem, htenant⟩) fun _ hno => absurd hd hno⟩
  · exact .inl rfl

theorem overBucket_turn (hK : 1 ≤ K.perTenant) (devices : List Device) :
    overBucket K t who devices = .stop ∨ ∃ d ∈ devices, overBucket K t who devices = .drop d ∧
      Frees K t who devices (devices.filter fun x => x ≠ d) := by
  rw [overBucket]
  split_ifs with hfull
  · right
    dsimp only
    split_ifs with hmine
    · have hne : own devices t who ≠ [] := by
        rintro hnil
        rcases hmine with hmany | hnone
        · rw [hnil] at hmany
          cases hmany
        · rw [hnil] at hnone
          have hempty : bucket devices t = [] := by simpa using hnone
          rw [hempty] at hfull
          exact absurd (hK.trans hfull) (Nat.not_succ_le_zero 0)
      obtain ⟨d, hd, hdrop⟩ := dropOldest_cases hne
      obtain ⟨hmem, htenant, -⟩ := mem_own hd
      exact ⟨d, hmem, hdrop, .drop (mem_bucket.mpr ⟨hmem, htenant⟩) fun _ hno => absurd hd hno⟩
    · rw [not_or] at hmine
      obtain ⟨d, hd, hdrop⟩ := dropOldest_cases hmine.2
      obtain ⟨hbucket, -⟩ := mem_filter.mp hd
      exact ⟨d, (mem_bucket.mp hbucket).1, hdrop, .drop hbucket fun _ _ =>
        ⟨hfull, Nat.lt_of_not_le hmine.1⟩⟩
  · exact .inl rfl

/-- There is room for one more in both caps. -/
theorem makeRoom_spec (hprincipal : 1 ≤ K.perPrincipal) (htenant : 1 ≤ K.perTenant)
    (devices : List Device) (t who : JsString) :
    ∃ left, makeRoom K t who devices = some left ∧ Frees K t who devices left ∧
      (own left t who).length < K.perPrincipal ∧ (bucket left t).length < K.perTenant := by
  obtain ⟨mid, hmid, hownStop, hfirst⟩ := dropLoop_spec (R := Frees K t who)
    (overOwn_turn hprincipal) (Frees.refl K t who) (fun _ _ _ => Frees.trans)
    (Nat.lt_succ_self devices.length)
  obtain ⟨left, hleft, hstop, hsecond⟩ := dropLoop_spec (R := Frees K t who)
    (overBucket_turn htenant) (Frees.refl K t who) (fun _ _ _ => Frees.trans)
    (Nat.lt_succ_self mid.length)
  refine ⟨left, ?_, hfirst.trans hsecond, ?_, ?_⟩
  · rw [makeRoom, hmid]
    exact hleft
  · have hmidOwn : (own mid t who).length < K.perPrincipal := by
      by_contra hmany
      rw [overOwn, if_pos (Nat.le_of_not_lt hmany)] at hownStop
      cases hcases : own mid t who with
      | nil =>
        rw [hcases] at hmany
        exact hmany hprincipal
      | cons d ds =>
        rw [hcases] at hownStop
        cases hownStop
    have hsub : (own left t who).length ≤ (own mid t who).length := by
      rw [own, own]
      split_ifs
      · exact Nat.le_refl _
      · exact ((hsecond.sub.filter _).filter _).length_le
    omega
  · by_contra hmany
    rcases overBucket_turn htenant left with _ | ⟨d, -, hdrop, -⟩
    · rw [overBucket, if_pos (Nat.le_of_not_lt hmany)] at hstop
      dsimp only [Turn.dropOldest] at hstop
      split at hstop <;> cases hstop
    · rw [hstop] at hdrop
      cases hdrop

end Turma.Devices
