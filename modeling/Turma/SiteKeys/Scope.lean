import Turma.Lib.JsObject
import Turma.Registry.Identities

/-! Org keys at the agent boundary: a beat's site keys are scoped into the tenant of its host, and
what an agent is handed has them plain again. -/

namespace Turma.SiteKeys

open Turma.Lib Turma.Registry Turma.Tenancy List

def tenantOfSite (site : JsString) : JsString := tenantOfHostKey site

def baseOfSite (site : JsString) : JsString := baseOfKey site

/-- The tail walk, a suffix a turn. -/
def stripTail : ℕ → JsString → JsString
  | 0, site => site
  | fuel + 1, site =>
    if tenantSuffix (site.drop (site.length - 33)) = true then
      stripTail fuel (site.take (site.length - 33))
    else site

def stripSiteTenantSuffixes (site : JsString) : JsString := stripTail site.length site

def scopeSite (site tenantId : JsString) : JsString :=
  if site = [] then site
  else
    let base := stripSiteTenantSuffixes site
    if tenantId = [] then base else base ++ .scalar '@' :: tenantId

def SITE_SCOPE_SKIP : List JsString :=
  [.ofString "historyResults", .ofString "trajectoryTailResults",
    .ofString "subagentHistoryResults", .ofString "logTail", .ofString "jiraIssueResults",
    .ofString "permissionEvents", .ofString "archiveManifest"]

def siteKey : JsString := .ofString "siteKey"

def onString (f : JsString → JsString) : Json → Json
  | .str s => .str (f s)
  | v => v

mutual

def scopeSiteKeys (tenantId : JsString) (depth : ℕ) : Json → Json
  | .arr vs => if depth > 8 then .arr vs else .arr (scopeElements tenantId (depth + 1) vs)
  | .obj ms => if depth > 8 then .obj ms else .obj (scopeMembers tenantId depth ms)
  | v => v

def scopeElements (tenantId : JsString) (depth : ℕ) : JsonElements → JsonElements
  | .nil => .nil
  | .cons v vs => .cons (scopeSiteKeys tenantId depth v) (scopeElements tenantId depth vs)

def scopeMembers (tenantId : JsString) (depth : ℕ) : JsonMembers → JsonMembers
  | .nil => .nil
  | .cons k x ms =>
    .cons k
      (if depth = 0 ∧ k ∈ SITE_SCOPE_SKIP then x
      else if k = siteKey then onString (fun s => scopeSite s tenantId) x
      else scopeSiteKeys tenantId (depth + 1) x)
      (scopeMembers tenantId depth ms)

end

def isString : Json → Bool
  | .str _ => true
  | _ => false

mutual

/-- The value that the copy holds. -/
def unscopeSiteKeys (depth : ℕ) : Json → Json
  | .arr vs => if depth > 8 then .arr vs else .arr (unscopeElements (depth + 1) vs)
  | .obj ms => if depth > 8 then .obj ms else .obj (unscopeMembers depth ms)
  | v => v

def unscopeElements (depth : ℕ) : JsonElements → JsonElements
  | .nil => .nil
  | .cons v vs => .cons (unscopeSiteKeys depth v) (unscopeElements depth vs)

def unscopeMembers (depth : ℕ) : JsonMembers → JsonMembers
  | .nil => .nil
  | .cons k x ms =>
    .cons k
      (if k = siteKey ∧ isString x = true then onString baseOfSite x
      else unscopeSiteKeys (depth + 1) x)
      (unscopeMembers depth ms)

end

def Plain (site : JsString) : Prop := tenantOfSite site = []

variable {site : JsString}

theorem plain_iff :
    Plain site ↔ tenantSuffix (site.drop (site.length - 33)) = false := by
  rw [Plain, tenantOfSite, tenantOfHostKey]
  cases h : tenantSuffix (site.drop (site.length - 33)) with
  | false => simp
  | true =>
    have hlen := tenantSuffix_length h
    have hne : (site.drop (site.length - 33)).drop 1 ≠ [] := by
      intro hnil
      have hzero := congrArg List.length hnil
      rw [length_drop, hlen] at hzero
      cases hzero
    simpa using hne

theorem not_plain_append {site c : JsString} (hc : tenantSuffix c = true) :
    tenantSuffix ((site ++ c).drop ((site ++ c).length - 33)) = true ∧
      (site ++ c).take ((site ++ c).length - 33) = site := by
  have hlen := tenantSuffix_length hc
  have hcut : (site ++ c).length - 33 = site.length := by
    rw [length_append, hlen]
    omega
  rw [hcut, drop_left, take_left]
  exact ⟨hc, rfl⟩

/-- The walk takes suffixes off the end until there are none. -/
theorem stripTail_spec {fuel : ℕ} (hfuel : site.length ≤ fuel) :
    Plain (stripTail fuel site) ∧
      ∃ suffixes : List JsString, site = stripTail fuel site ++ suffixes.flatten ∧
        ∀ c ∈ suffixes, tenantSuffix c = true := by
  induction fuel generalizing site with
  | zero =>
    obtain rfl := length_eq_zero_iff.mp (Nat.le_zero.mp hfuel)
    exact ⟨rfl, [], rfl, fun c hc => absurd hc not_mem_nil⟩
  | succ fuel ih =>
    rw [stripTail]
    split_ifs with hsuffix
    · have hlen := tenantSuffix_length hsuffix
      rw [length_drop] at hlen
      have hshort : (site.take (site.length - 33)).length ≤ fuel := by
        rw [length_take]
        omega
      obtain ⟨hplain, suffixes, hsite, hall⟩ := ih hshort
      refine ⟨hplain, suffixes ++ [site.drop (site.length - 33)], ?_, fun c hc => ?_⟩
      · rw [flatten_append, ← append_assoc, ← hsite]
        simp
      · rcases mem_append.mp hc with hc | hc
        · exact hall c hc
        · rw [mem_singleton.mp hc]
          exact hsuffix
    · exact ⟨plain_iff.mpr (by simpa using hsuffix), [], by simp,
        fun c hc => absurd hc not_mem_nil⟩

theorem stripSiteTenantSuffixes_spec (site : JsString) :
    Plain (stripSiteTenantSuffixes site) ∧
      ∃ suffixes : List JsString, site = stripSiteTenantSuffixes site ++ suffixes.flatten ∧
        ∀ c ∈ suffixes, tenantSuffix c = true := stripTail_spec (le_refl _)

theorem stripTail_plain {fuel : ℕ} (h : Plain site) :
    stripTail fuel site = site := by
  cases fuel with
  | zero => rfl
  | succ fuel =>
    rw [stripTail, plain_iff.mp h]
    rfl

theorem stripSiteTenantSuffixes_append {site c : JsString} (h : Plain site)
    (hc : tenantSuffix c = true) : stripSiteTenantSuffixes (site ++ c) = site := by
  obtain ⟨hsuffix, htake⟩ := @not_plain_append site c hc
  have hlen := tenantSuffix_length hc
  obtain ⟨n, hn⟩ : ∃ n, (site ++ c).length = n + 1 :=
    ⟨site.length + 32, by rw [length_append, hlen]⟩
  rw [stripSiteTenantSuffixes, hn, stripTail, if_pos hsuffix, htake, stripTail_plain h]

/-- A tenant's id, or the empty one. -/
def IsTenant (t : JsString) : Prop := t = [] ∨ isTenantId t = true

variable {s t : JsString}

theorem scopeSite_eq (hs : s ≠ []) :
    scopeSite s t = tenantHostKey (stripSiteTenantSuffixes s) t := by
  rw [scopeSite, if_neg hs]
  rfl

theorem tenantOfSite_scopeSite (ht : IsTenant t) (hs : s ≠ []) :
    tenantOfSite (scopeSite s t) = t := by
  rw [scopeSite_eq hs]
  rcases ht with rfl | ht
  · exact (stripSiteTenantSuffixes_spec s).1
  · exact tenantOfHostKey_tenantHostKey ht

theorem stripSiteTenantSuffixes_scopeSite (ht : IsTenant t) :
    stripSiteTenantSuffixes (scopeSite s t) = stripSiteTenantSuffixes s := by
  by_cases hs : s = []
  · rw [scopeSite, if_pos hs]
  · have hplain := (stripSiteTenantSuffixes_spec s).1
    rw [scopeSite_eq hs, tenantHostKey]
    split_ifs with hnone
    · exact stripTail_plain hplain
    · exact stripSiteTenantSuffixes_append hplain
        (tenantSuffix_of_isTenantId (ht.resolve_left hnone))

theorem scopeSite_again (ht : IsTenant t) :
    scopeSite (scopeSite s t) t = scopeSite s t := by
  have hstrip := @stripSiteTenantSuffixes_scopeSite s t ht
  by_cases hs : s = []
  · simp [hs, scopeSite]
  · by_cases hnil : scopeSite s t = []
    · rw [hnil]
      rfl
    · rw [scopeSite_eq hnil, hstrip, ← scopeSite_eq hs]

theorem baseOfSite_scopeSite (ht : IsTenant t) :
    baseOfSite (scopeSite s t) = stripSiteTenantSuffixes s := by
  by_cases hs : s = []
  · subst hs
    rfl
  · have htenant := tenantOfSite_scopeSite ht hs
    rw [tenantOfSite] at htenant
    rw [baseOfSite, baseOfKey, htenant, scopeSite_eq hs, tenantHostKey]
    split_ifs with hnone
    · rfl
    · exact (not_plain_append (tenantSuffix_of_isTenantId (ht.resolve_left hnone))).2

end Turma.SiteKeys
