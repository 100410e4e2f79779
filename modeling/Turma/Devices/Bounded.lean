import Turma.Devices.Registry

/-! The registry over whole runs: it stays within its caps, a tenant's calls leave the devices of the
others, and a login that registers alone displaces few devices of other logins. -/

namespace Turma.Devices

open Turma.Lib List

variable {K : Knobs} {devices : List Device} {t who : JsString}

def tokens (devices : List Device) : List JsString := devices.map Device.token

structure Kept (K : Knobs) (devices : List Device) : Prop where
  once : (tokens devices).Nodup
  tenants : ∀ t, (bucket devices t).length ≤ K.perTenant
  logins : ∀ t who, who ≠ [] → (own devices t who).length ≤ K.perPrincipal

theorem Kept.nodup (h : Kept K devices) : devices.Nodup := h.once.of_map

variable {left : List Device}

theorem Kept.sub (h : Kept K devices) (hsub : left.Sublist devices) :
    Kept K left where
  once := h.once.sublist (hsub.map _)
  tenants t := (hsub.filter _).length_le.trans (h.tenants t)
  logins t who hwho := by
    refine Nat.le_trans ?_ (h.logins t who hwho)
    rw [own, own, if_neg hwho, if_neg hwho]
    exact ((hsub.filter _).filter _).length_le

/-- A change that leaves a device's token, tenant and login. -/
def Seen (f : Device → Device) : Prop :=
  ∀ d, (f d).token = d.token ∧ (f d).tenantId = d.tenantId ∧ (f d).byLogin = d.byLogin

variable {f : Device → Device}

theorem Seen.bucket (h : Seen f) (devices : List Device) (t : JsString) :
    bucket (devices.map f) t = (bucket devices t).map f := by
  rw [Devices.bucket, Devices.bucket, filter_map]
  congr 1
  exact filter_congr fun d _ => by simp [(h d).2.1]

theorem Seen.own (h : Seen f) (devices : List Device) (t who : JsString) :
    own (devices.map f) t who = (own devices t who).map f := by
  rw [Devices.own, Devices.own]
  split_ifs
  · rfl
  · rw [h.bucket, filter_map]
    congr 1
    exact filter_congr fun d _ => by simp [(h d).2.2]

theorem Seen.tokens (h : Seen f) (devices : List Device) :
    tokens (devices.map f) = tokens devices := by
  rw [Devices.tokens, map_map]
  exact map_congr_left fun d _ => (h d).1

theorem Seen.kept (h : Seen f) (hk : Kept K devices) :
    Kept K (devices.map f) where
  once := by
    rw [h.tokens]
    exact hk.once
  tenants t := by
    rw [h.bucket, length_map]
    exact hk.tenants t
  logins t who hwho := by
    rw [h.own, length_map]
    exact hk.logins t who hwho

inductive Registers (K : Knobs) (devices : List Device) (r : Registration) :
    List Device → Bool → Prop
  | refused : r.token ∈ tokens devices → Registers K devices r devices false
  | seen (f : Device → Device) : r.token ∈ tokens devices → Seen f →
    (∀ d ∈ devices, d.tenantId ≠ r.tenantId → f d = d) → Registers K devices r (devices.map f) true
  | added (left : List Device) (d : Device) : r.token ∉ tokens devices →
    Frees K r.tenantId r.byLogin devices left →
    (own left r.tenantId r.byLogin).length < K.perPrincipal →
    (bucket left r.tenantId).length < K.perTenant →
    d.token = r.token → d.tenantId = r.tenantId → d.byLogin = r.byLogin →
    Registers K devices r (left ++ [d]) true

theorem registerDevice_registers (hprincipal : 1 ≤ K.perPrincipal) (htenant : 1 ≤ K.perTenant)
    (devices : List Device) (r : Registration) :
    ∃ after ok, registerDevice K devices r = some (after, ok) ∧
      Registers K devices r after ok := by
  rw [registerDevice]
  cases hfind : devices.find? fun d => d.token = r.token with
  | some existing =>
    have hmem := mem_of_find?_eq_some hfind
    have htoken : existing.token = r.token := by simpa using find?_some hfind
    have hknown : r.token ∈ tokens devices := htoken ▸ mem_map_of_mem hmem
    dsimp only
    by_cases hother : existing.tenantId ≠ r.tenantId
    · rw [if_pos hother]
      exact ⟨devices, false, rfl, .refused hknown⟩
    · rw [if_neg hother]
      refine ⟨_, true, rfl, .seen _ hknown (fun d => ?_) fun d _ hd => ?_⟩
      · by_cases heq : d = existing
        · rw [if_pos heq, heq]
          exact ⟨rfl, rfl, rfl⟩
        · rw [if_neg heq]
          exact ⟨rfl, rfl, rfl⟩
      · rw [if_neg]
        rintro rfl
        exact hd (not_not.mp hother)
  | none =>
    have hnew : r.token ∉ tokens devices := fun hmem => by
      obtain ⟨d, hd, htoken⟩ := mem_map.mp hmem
      have hno := find?_eq_none.mp hfind d hd
      exact hno (by simpa using htoken)
    obtain ⟨left, hleft, hfrees, hown, hbucket⟩ :=
      makeRoom_spec hprincipal htenant devices r.tenantId r.byLogin
    rw [hleft]
    exact ⟨_, true, rfl, .added left _ hnew hfrees hown hbucket rfl rfl rfl⟩

variable {after : List Device} {r : Registration} {ok : Bool}

theorem Registers.apart
    (h : Registers K devices r after ok) (ht : t ≠ r.tenantId) :
    bucket after t = bucket devices t := by
  cases h with
  | refused => rfl
  | seen f _ hf hsame =>
    rw [hf.bucket]
    refine (map_congr_left fun d hd => ?_).trans (map_id _)
    obtain ⟨hmem, htenant⟩ := mem_bucket.mp hd
    exact hsame d hmem (htenant ▸ ht)
  | added left d _ hfrees _ _ _ htenant _ =>
    rw [bucket, filter_append, filter_cons_of_neg (by simpa [htenant] using Ne.symm ht)]
    exact (append_nil _).trans (hfrees.apart t ht)

theorem bucket_append (devices : List Device) (d : Device) (t : JsString) :
    bucket (devices ++ [d]) t = bucket devices t ++ if d.tenantId = t then [d] else [] := by
  rw [bucket, filter_append, filter_singleton]
  simp [bucket]

theorem own_append (hwho : who ≠ []) (devices : List Device) (d : Device) (t : JsString) :
    own (devices ++ [d]) t who =
      own devices t who ++ if d.tenantId = t ∧ d.byLogin = who then [d] else [] := by
  rw [own, own, if_neg hwho, if_neg hwho, bucket_append, filter_append]
  split_ifs with ht hboth hboth
  · simp [hboth.2]
  · simpa using fun hby => hboth ⟨ht, hby⟩
  · exact absurd hboth.1 ht
  · rfl

theorem Registers.kept
    (h : Registers K devices r after ok) (hk : Kept K devices) : Kept K after := by
  cases h with
  | refused => exact hk
  | seen f _ hf _ => exact hf.kept hk
  | added left d hnew hfrees hown hbucket htoken htenant hby =>
    have hleft := hk.sub hfrees.sub
    refine ⟨?_, fun t => ?_, fun t who hwho => ?_⟩
    · rw [tokens, map_append]
      refine nodup_append.mpr ⟨hleft.once, nodup_singleton _, fun a ha b hb hab => ?_⟩
      rw [hab, mem_singleton.mp hb, htoken] at ha
      exact hnew ((hfrees.sub.map _).mem ha)
    · rw [bucket_append, length_append]
      have hle := hleft.tenants t
      split_ifs with ht
      · rw [htenant] at ht
        rw [← ht, length_singleton]
        exact hbucket
      · exact hle
    · rw [own_append hwho, length_append]
      have hle := hleft.logins t who hwho
      split_ifs with hboth
      · rw [htenant, hby] at hboth
        rw [← hboth.1, ← hboth.2, length_singleton]
        exact hown
      · exact hle

theorem kept_unregister (hk : Kept K devices) (token : JsString) (tenantId : Option JsString) :
    Kept K (unregisterDevice devices token tenantId) := hk.sub filter_sublist

/-- A call of a run. -/
theorem call_kept (hprincipal : 1 ≤ K.perPrincipal) (htenant : 1 ≤ K.perTenant)
    (hk : Kept K devices) (c : Call) : ∃ after, c.run K devices = some after ∧ Kept K after := by
  cases c with
  | register r =>
    obtain ⟨after, ok, hrun, hr⟩ := registerDevice_registers hprincipal htenant devices r
    exact ⟨after, by rw [Call.run, hrun]; rfl, hr.kept hk⟩
  | unregister token tenantId byLogin => exact ⟨_, rfl, kept_unregister hk token tenantId⟩

theorem run_kept (hprincipal : 1 ≤ K.perPrincipal) (htenant : 1 ≤ K.perTenant) (cs : List Call) :
    ∀ devices, Kept K devices → ∃ after, runCalls K devices cs = some after ∧ Kept K after := by
  induction cs with
  | nil => exact fun devices hk => ⟨devices, rfl, hk⟩
  | cons c cs ih =>
    intro devices hk
    obtain ⟨mid, hrun, hmid⟩ := call_kept hprincipal htenant hk c
    obtain ⟨after, hafter, hkept⟩ := ih mid hmid
    exact ⟨after, by rw [runCalls, hrun]; exact hafter, hkept⟩

def Device.isOf (d : Device) (t who : JsString) : Bool := d.tenantId = t && d.byLogin = who

def lost (t who : JsString) (devices after : List Device) : List Device :=
  devices.filter fun d => !d.isOf t who && decide (d.token ∉ tokens after)

def Call.isOf (t who : JsString) : Call → Bool
  | .register r => r.tenantId = t && r.byLogin = who
  | .unregister _ tenantId byLogin => tenantId = some t && byLogin = who

def Call.isRegister : Call → Bool
  | .register _ => true
  | .unregister .. => false

/-- How many devices of other logins go in the calls of a run that `p` picks out. -/
def lostBy (K : Knobs) (t who : JsString) (p : Call → Bool) : List Device → List Call → ℕ
  | _, [] => 0
  | devices, c :: cs =>
    match c.run K devices with
    | none => 0
    | some after =>
      (if p c = true then (lost t who devices after).length else 0) + lostBy K t who p after cs

/-- In this run the login is the only one to register new tokens in its tenant. -/
def Sole (K : Knobs) (t who : JsString) : List Device → List Call → Prop
  | _, [] => True
  | devices, c :: cs =>
    (∀ r, c = .register r → r.tenantId = t → r.token ∉ tokens devices → r.byLogin = who) ∧
      ∀ after, c.run K devices = some after → Sole K t who after cs

theorem others_append (devices : List Device) (d : Device) :
    others (devices ++ [d]) t who =
      others devices t who ++ if d.tenantId = t ∧ d.byLogin ≠ who then [d] else [] := by
  rw [others, bucket_append, filter_append]
  split_ifs with ht hboth hboth
  · simp [others, hboth.2]
  · simpa [others] using fun hby => hboth ⟨ht, hby⟩
  · exact absurd hboth.1 ht
  · rfl

theorem Seen.others (h : Seen f) (devices : List Device) (t who : JsString) :
    others (devices.map f) t who = (others devices t who).map f := by
  rw [Devices.others, Devices.others, h.bucket, filter_map]
  congr 1
  exact filter_congr fun d _ => by simp [(h d).2.2]

/-- Who is not the login's and not gone is still one of the others. -/
theorem length_others_of_frees (hk : Kept K devices)
    (hsub : left.Sublist devices) :
    (others devices t who).length =
      (others left t who).length +
        ((others devices t who).filter fun d => d.token ∉ tokens left).length := by
  have hsplit := length_eq_length_filter_add (l := others devices t who)
    fun d => decide (d.token ∈ tokens left)
  have hstay : ((others devices t who).filter fun d => d.token ∈ tokens left).Perm
      (others left t who) := by
    have hnodup := hk.nodup
    refine (perm_ext_iff_of_nodup ?_ ?_).mpr fun d => ?_
    · exact ((hnodup.filter _).filter _).filter _
    · exact ((hnodup.sublist hsub).filter _).filter _
    · rw [mem_filter, mem_others, mem_others, mem_bucket, mem_bucket, decide_eq_true_eq]
      constructor
      · rintro ⟨⟨⟨hd, ht⟩, hby⟩, htoken⟩
        obtain ⟨d', hd', hsame⟩ := mem_map.mp htoken
        obtain rfl := inj_on_of_nodup_map hk.once (hsub.mem hd') hd hsame
        exact ⟨⟨hd', ht⟩, hby⟩
      · rintro ⟨⟨hd, ht⟩, hby⟩
        exact ⟨⟨⟨hsub.mem hd, ht⟩, hby⟩, mem_map_of_mem hd⟩
  rw [hsplit, hstay.length_eq]
  congr 2
  exact filter_congr fun d _ => by simp

theorem lost_of_tokens (h : tokens after = tokens devices) :
    lost t who devices after = [] := by
  rw [lost, filter_eq_nil_iff]
  intro d hd
  have htoken : d.token ∈ tokens after := by
    rw [h]
    exact mem_map_of_mem hd
  simp [htoken]

/-- What a registration of the login takes away is of its own tenant. -/
theorem lost_added {d : Device} (hnew : d.token ∉ tokens devices)
    (happ : ∀ t', t' ≠ t → bucket left t' = bucket devices t') :
    lost t who devices (left ++ [d]) =
      (others devices t who).filter fun d => d.token ∉ tokens left := by
  rw [lost, others, bucket, filter_filter, filter_filter]
  refine filter_congr fun x hx => ?_
  have hx' : x.token ≠ d.token := fun heq => hnew (heq ▸ mem_map_of_mem hx)
  by_cases ht : x.tenantId = t
  · simp [Device.isOf, tokens, ht, hx', Bool.and_comm]
  · have hstay : x ∈ bucket left x.tenantId := by
      rw [happ _ ht]
      exact mem_bucket.mpr ⟨hx, rfl⟩
    have htoken : x.token ∈ tokens (left ++ [d]) :=
      mem_map_of_mem (mem_append_left _ (mem_bucket.mp hstay).1)
    simp [ht, htoken]

/-- What a registration costs the others, and what it leaves of them. -/
theorem Registers.costs
    (h : Registers K devices r after ok) (hk : Kept K devices) (hwho : who ≠ [])
    (hsole : r.tenantId = t → r.token ∉ tokens devices → r.byLogin = who) :
    (others after t who).length ≤ (others devices t who).length ∧
      (r.tenantId = t → r.byLogin = who →
        (others after t who).length + (lost t who devices after).length =
            (others devices t who).length ∧
          (lost t who devices after ≠ [] →
            K.perTenant ≤ (others after t who).length + DEVICES_DISPLACE_MAX)) := by
  have hidle : ∀ after', tokens after' = tokens devices →
      (others after' t who).length = (others devices t who).length →
      (others after' t who).length ≤ (others devices t who).length ∧
      (r.tenantId = t → r.byLogin = who →
        (others after' t who).length + (lost t who devices after').length =
            (others devices t who).length ∧
          (lost t who devices after' ≠ [] →
            K.perTenant ≤ (others after' t who).length + DEVICES_DISPLACE_MAX)) := by
    intro after' htokens hothers
    have hnone : lost t who devices after' = [] := lost_of_tokens htokens
    rw [hothers, hnone]
    exact ⟨le_refl _, fun _ _ => ⟨rfl, fun hne => absurd rfl hne⟩⟩
  cases h with
  | refused => exact hidle devices rfl rfl
  | seen f _ hf _ =>
    refine hidle _ (hf.tokens devices) ?_
    rw [hf.others, length_map]
  | added left d hnew hfrees _ _ htoken htenant hby =>
    by_cases ht : r.tenantId = t
    · subst ht
      have hmine := hsole rfl hnew
      have hothers : others (left ++ [d]) r.tenantId who = others left r.tenantId who := by
        rw [others_append, if_neg, append_nil]
        exact fun hd => hd.2 (hby.trans hmine)
      have hsplit := @length_others_of_frees K devices r.tenantId who left hk hfrees.sub
      rw [hothers, lost_added (htoken ▸ hnew) hfrees.apart]
      refine ⟨by omega, fun _ _ => ⟨by omega, fun hlost => ?_⟩⟩
      have hpos := length_pos_of_ne_nil hlost
      rcases hmine ▸ hfrees.displaced (hmine ▸ hwho) hk.nodup with hsame | hmany
      · omega
      · exact hmany
    · have hsame : others (left ++ [d]) t who = others devices t who := by
        rw [others_append, if_neg fun hd => ht (htenant.symm.trans hd.1), append_nil, others,
          hfrees.apart t (Ne.symm ht)]
        rfl
      rw [hsame]
      exact ⟨le_refl _, fun hown => absurd hown ht⟩

/-- What a login that registers alone displaces, of what it can reach. -/
theorem displaced_le (hprincipal : 1 ≤ K.perPrincipal) (htenant : 1 ≤ K.perTenant)
    (hwho : who ≠ []) (cs : List Call) : ∀ devices, Kept K devices → Sole K t who devices cs →
    lostBy K t who (fun c => c.isRegister && c.isOf t who) devices cs ≤
      (others devices t who).length - (K.perTenant - DEVICES_DISPLACE_MAX) := by
  induction cs with
  | nil => exact fun devices _ _ => Nat.zero_le _
  | cons c cs ih =>
    intro devices hk hsole
    obtain ⟨after, hrun, hkept⟩ := call_kept hprincipal htenant hk c
    have hrest := ih after hkept (hsole.2 after hrun)
    rw [lostBy, hrun]
    dsimp only
    cases c with
    | unregister token tenantId byLogin =>
      cases hrun
      have hfewer : (others (unregisterDevice devices token tenantId) t who).length ≤
          (others devices t who).length :=
        ((filter_sublist.filter _).filter _).length_le
      rw [Call.isRegister, Bool.false_and, if_neg Bool.noConfusion]
      omega
    | register r =>
      obtain ⟨after', ok, hreg, hr⟩ := registerDevice_registers hprincipal htenant devices r
      rw [Call.run, hreg] at hrun
      cases hrun
      dsimp only at hrest ⊢
      obtain ⟨hle, hcost⟩ := hr.costs (t := t) hk hwho (hsole.1 r rfl)
      split_ifs with hmine
      · obtain ⟨ht, hby⟩ : r.tenantId = t ∧ r.byLogin = who := by
          simpa [Call.isRegister, Call.isOf] using hmine
        obtain ⟨hsum, hfew⟩ := hcost ht hby
        by_cases hnone : lost t who devices after' = []
        · rw [hnone, length_nil] at hsum ⊢
          omega
        · have hleft := hfew hnone
          omega
      · omega

structure Accepts (K : Knobs) (devices : List Device) (r : Registration) : Prop where
  apart : ∃ after ok, registerDevice K devices r = some (after, ok) ∧
    ∀ t, t ≠ r.tenantId → bucket after t = bucket devices t
  new : r.token ∉ tokens devices → ∃ after, registerDevice K devices r = some (after, true) ∧
    ∃ d ∈ after, d.token = r.token ∧ d.tenantId = r.tenantId ∧ d.byLogin = r.byLogin

theorem registerDevice_accepts (hprincipal : 1 ≤ K.perPrincipal) (htenant : 1 ≤ K.perTenant)
    (devices : List Device) (r : Registration) : Accepts K devices r := by
  obtain ⟨after, ok, hrun, hr⟩ := registerDevice_registers hprincipal htenant devices r
  refine ⟨⟨after, ok, hrun, fun t ht => hr.apart ht⟩, fun hnew => ?_⟩
  cases hr with
  | refused hknown => exact absurd hknown hnew
  | seen f hknown => exact absurd hknown hnew
  | added left d _ _ _ _ htoken htenant' hby =>
    exact ⟨_, hrun, d, by simp, htoken, htenant', hby⟩

/-- Calls of any logins of any tenants, in any order, from the empty registry: none throws, and what
they leave is within its caps. From there a login that registers alone in its tenant displaces few. -/
theorem devices_bounded {K : Knobs} (hprincipal : 1 ≤ K.perPrincipal) (htenant : 1 ≤ K.perTenant)
    (cs : List Call) :
    ∃ devices, runCalls K [] cs = some devices ∧ Kept K devices ∧
      (∀ r, Accepts K devices r) ∧
      ∀ (t who : JsString) (more : List Call), who ≠ [] → Sole K t who devices more →
        lostBy K t who (fun c => c.isRegister && c.isOf t who) devices more ≤
          DEVICES_DISPLACE_MAX := by
  have hempty : Kept K [] :=
    ⟨nodup_nil, fun _ => Nat.zero_le _, fun t who _ => by
      rw [own]
      split_ifs <;> exact Nat.zero_le _⟩
  obtain ⟨devices, hrun, hk⟩ := run_kept hprincipal htenant cs [] hempty
  refine ⟨devices, hrun, hk, registerDevice_accepts hprincipal htenant devices,
    fun t who more hwho hsole => ?_⟩
  have hle := displaced_le hprincipal htenant hwho more devices hk hsole
  have hothers : (others devices t who).length ≤ (bucket devices t).length :=
    length_filter_le _ _
  have hbucket := hk.tenants t
  omega

def defaultKnobs : Knobs := ⟨50, 10⟩

def sampleLogin : JsString := .ofString "user:b"

def samplePhone (token : String) : Call :=
  .register ⟨.ofString token, [], none, [], sampleLogin, 0⟩

def sampleRelease (token : String) : Call :=
  .unregister (.ofString token) (some []) (.ofString "user:a")

theorem sole_of_isOf (K : Knobs) {t who : JsString} {more : List Call}
    (h : ∀ c ∈ more, c.isOf t who = true) (devices : List Device) : Sole K t who devices more := by
  induction more generalizing devices with
  | nil => trivial
  | cons c more ih =>
    refine ⟨?_, fun after _ => ih (fun c' hc' => h c' (.tail _ hc')) after⟩
    rintro r rfl - -
    have hr := h _ mem_cons_self
    simp only [Call.isOf, Bool.and_eq_true, decide_eq_true_eq] at hr
    exact hr.2

/-- A sign-out releases a device whoever registered it, so a login can remove any number. -/
theorem released_unbounded : ¬∀ (K : Knobs) (cs : List Call) (devices : List Device)
    (t who : JsString) (more : List Call), runCalls K [] cs = some devices → who ≠ [] →
    Sole K t who devices more →
    lostBy K t who (fun c => c.isOf t who) devices more ≤ DEVICES_DISPLACE_MAX := by
  intro h
  have hrun : (runCalls defaultKnobs []
      [samplePhone "p", samplePhone "q", samplePhone "r", samplePhone "s"]).isSome = true := by
    decide
  obtain ⟨devices, hdevices⟩ := Option.isSome_iff_exists.mp hrun
  have hbound := h defaultKnobs _ devices [] (.ofString "user:a")
    [sampleRelease "p", sampleRelease "q", sampleRelease "r", sampleRelease "s"] hdevices (by decide)
    (sole_of_isOf _ (by decide) devices)
  have hfour : ((runCalls defaultKnobs []
      [samplePhone "p", samplePhone "q", samplePhone "r", samplePhone "s"]).map fun devices =>
        lostBy defaultKnobs [] (.ofString "user:a") (fun c => c.isOf [] (.ofString "user:a")) devices
          [sampleRelease "p", sampleRelease "q", sampleRelease "r", sampleRelease "s"]) =
      some 4 := by
    decide
  rw [hdevices] at hfour
  have hlost := Option.some.inj hfour
  dsimp only at hlost
  rw [hlost] at hbound
  exact absurd hbound (by decide)

/-- A tenant filled by two logins, and a third one that then registers alone. -/
def fullTenant : List Call :=
  [samplePhone "p", samplePhone "q", samplePhone "r",
    .register ⟨.ofString "s", [], none, [], .ofString "user:c", 0⟩, samplePhone "p"]

def newLogin : List Call :=
  ["t", "u", "v", "w", "x"].map fun token =>
    .register ⟨.ofString token, [], none, [], .ofString "user:a", 0⟩

theorem devices_bounded_displaced :
    ∃ devices, runCalls ⟨4, 10⟩ [] fullTenant = some devices ∧ Kept ⟨4, 10⟩ devices ∧
      (∀ r, Accepts ⟨4, 10⟩ devices r) ∧
      lostBy ⟨4, 10⟩ [] (.ofString "user:a") (fun c => c.isRegister && c.isOf [] (.ofString "user:a"))
        devices newLogin = DEVICES_DISPLACE_MAX := by
  obtain ⟨devices, hrun, hkept, haccepts, hlost⟩ :=
    devices_bounded (K := ⟨4, 10⟩) (by decide) (by decide) fullTenant
  have hle := hlost [] (.ofString "user:a") newLogin (by decide)
    (sole_of_isOf _ (by decide) devices)
  have hthree : (runCalls ⟨4, 10⟩ [] fullTenant).all (fun devices => DEVICES_DISPLACE_MAX ≤
      lostBy ⟨4, 10⟩ [] (.ofString "user:a")
        (fun c => c.isRegister && c.isOf [] (.ofString "user:a")) devices newLogin) = true := by
    decide
  rw [hrun, Option.all_some, decide_eq_true_eq] at hthree
  exact ⟨devices, hrun, hkept, haccepts, le_antisymm hle hthree⟩

end Turma.Devices
