import Mathlib.Data.List.MinMax
import Turma.Lib.JsObject
import Turma.Tenancy.HostKey

/-! What of the fleet payload, and of an event of its stream, a view is served. -/

namespace Turma.Tenancy

open Turma.Lib List Option

structure View where
  mayHost : Option Json → Bool
  maySite : JsString → Bool
  repoTenant : Option JsString

def name (s : String) : JsString := JsString.ofString s

def orgVisible (view : View) : Option Json → Bool
  | some (.str site) => view.maySite site
  | _ => false

/-- `siteOfTicketKey`: what stands before the last slash. -/
def siteOfTicketKey (key : JsString) : JsString :=
  (key.reverse.dropWhile fun c => c ≠ .scalar '/').tail.reverse

example : siteOfTicketKey (name "acme.net/jira/OPS-7") = name "acme.net/jira" := by decide

def filterMap (keep : JsString → Json → Bool) : Json → Json
  | .obj ms => .obj (.ofList (listing (ms.toList.filter fun e => keep e.1 e.2)))
  | v => v

/-- `Array.isArray(list) ? list.filter(keep) : list`. -/
def filterList (keep : Json → Bool) : Json → Json
  | .arr vs => .arr (.ofList (vs.toList.filter keep))
  | v => v

/-- `v && typeof v[k] === "string" && !view.mayHost(v[k])`. -/
def hiddenHost (view : View) (v : Json) (k : JsString) : Bool :=
  v.truthy && match v.field k with
    | some (.str host) => !view.mayHost (some (.str host))
    | _ => false

/-- The same of a builder, for which an empty name is none. -/
def hiddenBuilderHost (view : View) (r : Json) (k : JsString) : Bool :=
  match r.field k with
  | some (.str host) => host ≠ [] && !view.mayHost (some (.str host))
  | _ => false

/-- `m.srcHost == null || view.mayHost(m.srcHost)`. -/
def sourceVisible (view : View) : Option Json → Bool
  | none => true
  | some .null => true
  | some host => view.mayHost (some host)

def tierName (key : JsString) : JsString :=
  if tenantOfHostKey key = [] then key else key.take (key.length - 33)

def repoTiersFor (tenant : Option JsString) : Json → Json
  | .obj ms =>
    match tenant with
    | none => .obj .nil
    | some tenant =>
      .obj (.ofList (listing ((ms.toList.filter fun e => tenantOfHostKey e.1 = tenant).map fun e =>
        (tierName e.1, e.2))))
  | v => v

inductive Scoper
  | hubWide
  | byHost
  | bySite
  | byTicket
  | ticketAgents
  | epicBuilders
  | ticketQueue
  | migrations
  | repoTiers
deriving DecidableEq

def scopers : List (JsString × Scoper) :=
  [(name "now", .hubWide), (name "pushEnabled", .hubWide), (name "error", .hubWide),
    (name "modelPolicy", .hubWide), (name "agents", .byHost), (name "retiredUsage", .byHost),
    (name "autoStartOrgs", .bySite), (name "autoMergeOrgs", .bySite),
    (name "priorityWriteBackOrgs", .bySite), (name "dedupeLinkOrgs", .bySite),
    (name "orgColors", .bySite), (name "triagePolicies", .bySite), (name "decisions", .bySite),
    (name "decisionCounts", .bySite), (name "dailyBriefSchedules", .bySite),
    (name "dailyBriefs", .bySite), (name "meetingProposals", .bySite), (name "meetingLabels", .bySite),
    (name "meetingLabelMisses", .bySite), (name "meetingFocus", .bySite),
    (name "ticketModels", .byTicket), (name "ticketRuntimes", .byTicket),
    (name "ticketPlatforms", .byTicket), (name "ticketTriageActions", .byTicket),
    (name "epicRuns", .byTicket), (name "ticketAgents", .ticketAgents),
    (name "epicBuilders", .epicBuilders), (name "ticketQueue", .ticketQueue),
    (name "migrations", .migrations), (name "repoTiers", .repoTiers)]

def scoperOf (key : JsString) : Option Scoper := OrdMap.lookup key scopers

/-- What the scopers that filter keep of a list or a map. The entries of a list have no key. -/
def Scoper.keeps (view : View) : Scoper → JsString → Json → Bool
  | .byHost, _, a => a.truthy && view.mayHost (a.field (name "key"))
  | .bySite, site, _ => orgVisible view (some (.str site))
  | .byTicket, key, _ => orgVisible view (some (.str (siteOfTicketKey key)))
  | .ticketAgents, key, v =>
    orgVisible view (some (.str (siteOfTicketKey key))) && !hiddenHost view v (name "host")
  | .epicBuilders, _, r =>
    r.truthy && orgVisible view (r.field (name "siteKey")) && !hiddenBuilderHost view r (name "host") &&
      !hiddenBuilderHost view r (name "targetHost")
  | .ticketQueue, _, e => e.truthy && orgVisible view (e.field (name "siteKey"))
  | .migrations, _, m =>
    m.truthy && sourceVisible view (m.field (name "srcHost")) && view.mayHost (m.field (name "targetHost"))
  | .hubWide, _, _ => true
  | .repoTiers, key, _ => view.repoTenant = some (tenantOfHostKey key)

def Scoper.scope (view : View) (s : Scoper) : Json → Json :=
  match s with
  | .hubWide => fun v => v
  | .byHost | .ticketQueue | .migrations => filterList (s.keeps view [])
  | .bySite | .byTicket | .ticketAgents | .epicBuilders => filterMap (s.keeps view)
  | .repoTiers => repoTiersFor view.repoTenant

def sizeOf : Json → ℕ
  | .arr vs => vs.toList.length
  | .obj ms => ms.toList.length
  | _ => 0

/-- `sameKeys`. What is no object beside an object does not come up. -/
def sameKeys : Json → Json → Bool
  | .obj ms, .obj ns => ms.toList.map Prod.fst = ns.toList.map Prod.fst
  | _, _ => true

/-- What `SCOPERS` finds in `Object.prototype`, where the call of it fails. -/
def inherited : List JsString :=
  [name "constructor", name "__defineGetter__", name "__defineSetter__", name "hasOwnProperty",
    name "__lookupGetter__", name "__lookupSetter__", name "isPrototypeOf",
    name "propertyIsEnumerable", name "toString", name "valueOf", name "__proto__",
    name "toLocaleString"]

structure Scoped where
  out : List (JsString × Json)
  changed : Bool
deriving DecidableEq

def scopeKey (view : View) (acc : Scoped) (e : JsString × Json) : Option Scoped :=
  match scoperOf e.1 with
  | none => if e.1 ∈ inherited then none else some { acc with changed := true }
  | some s =>
    let nv := s.scope view e.2
    some ⟨acc.out ++ [(e.1, nv)],
      acc.changed || sizeOf nv ≠ sizeOf e.2 || !sameKeys nv e.2⟩

/-- `scopePayload`, for an object by its members; `none` where it throws. -/
def scopePayload (view : View) (obj : List (JsString × Json)) : Option Scoped :=
  (obj.foldlM (scopeKey view) ⟨[], false⟩).map fun acc => { acc with out := listing acc.out }

/-- `EVENT_ALIASES`. -/
def aliasOf (event : JsString) : JsString :=
  if event = name "triageActions" then name "ticketTriageActions" else event

def singleHostEvents : List JsString := [name "agent", name "removed"]

/-- `data && typeof data.key === "string" && view.mayHost(data.key)`. -/
def hostOfEventVisible (view : View) (data : Json) : Bool :=
  data.truthy && match data.field (name "key") with
    | some (.str key) => view.mayHost (some (.str key))
    | _ => false

/-- `scopeEvent`, `none` for nothing to send. -/
def scopeEvent (view : View) (event : JsString) (data : Json) : Option Json :=
  if event ∈ singleHostEvents then if hostOfEventVisible view data = true then some data else none
  else
    match scoperOf (aliasOf event) with
    | none => none
    | some s => if event = name "agents" then none else some (s.scope view data)

/-- The entries of a list or a map that a view may see: of its hosts, its orgs, the tickets of its
orgs, builders and migrations between its hosts, and its own tenant's tiers. -/
def Scoper.visible (view : View) : Scoper → JsString → Json → Bool
  | .byHost, _, a => view.mayHost (a.field (name "key"))
  | .bySite, site, _ => view.maySite site
  | .byTicket, key, _ => view.maySite (siteOfTicketKey key)
  | .ticketAgents, key, _ => view.maySite (siteOfTicketKey key)
  | .epicBuilders, _, r =>
    !hiddenBuilderHost view r (name "host") && !hiddenBuilderHost view r (name "targetHost")
  | .ticketQueue, _, e => orgVisible view (e.field (name "siteKey"))
  | .migrations, _, m =>
    sourceVisible view (m.field (name "srcHost")) && view.mayHost (m.field (name "targetHost"))
  | .repoTiers, key, _ => view.repoTenant = some (tenantOfHostKey key)
  | .hubWide, _, _ => true

def Scoper.overList : Scoper → Bool
  | .byHost | .ticketQueue | .migrations => true
  | _ => false

def Scoper.overMap : Scoper → Bool
  | .bySite | .byTicket | .ticketAgents | .epicBuilders | .repoTiers => true
  | _ => false

/-- Two values agree on what a view may see of them. -/
inductive Agree (view : View) (s : Scoper) : Json → Json → Prop
  | same (v : Json) : Agree view s v v
  | list (vs ws : JsonElements) (hs : s.overList = true)
      (h : vs.toList.filter (s.visible view []) = ws.toList.filter (s.visible view [])) :
      Agree view s (.arr vs) (.arr ws)
  | map (ms ns : JsonMembers) (hs : s.overMap = true)
      (h : ms.toList.filter (fun e => s.visible view e.1 e.2) =
        ns.toList.filter fun e => s.visible view e.1 e.2) :
      Agree view s (.obj ms) (.obj ns)

/-- Two payloads have the same keys, and agree below each one that is served. -/
def AgreePayload (view : View) (p q : List (JsString × Json)) : Prop :=
  List.Forall₂ (fun e f => e.1 = f.1 ∧ ∀ s, scoperOf e.1 = some s → Agree view s e.2 f.2) p q

def AgreeEvent (view : View) (event : JsString) (d e : Json) : Prop :=
  if event ∈ singleHostEvents then
    [d].filter (hostOfEventVisible view) = [e].filter (hostOfEventVisible view)
  else ∀ s, scoperOf (aliasOf event) = some s → Agree view s d e

variable {view : View} {s : Scoper}

/-- No scoper keeps what the view may not see. -/
theorem visible_of_keeps {key : JsString} {v : Json} (h : s.keeps view key v = true) :
    s.visible view key v = true := by
  cases s with
  | hubWide => rfl
  | byHost =>
    simp only [Scoper.keeps, Bool.and_eq_true] at h
    exact h.2
  | bySite => exact h
  | byTicket => exact h
  | ticketAgents =>
    simp only [Scoper.keeps, Bool.and_eq_true] at h
    exact h.1
  | epicBuilders =>
    simp only [Scoper.keeps, Bool.and_eq_true] at h
    simp only [Scoper.visible, Bool.and_eq_true]
    exact ⟨h.1.2, h.2⟩
  | ticketQueue =>
    simp only [Scoper.keeps, Bool.and_eq_true] at h
    exact h.2
  | migrations =>
    simp only [Scoper.keeps, Bool.and_eq_true] at h
    simp only [Scoper.visible, Bool.and_eq_true]
    exact ⟨h.1.2, h.2⟩
  | repoTiers => exact h

/-- A filter sees no more than a wider one leaves. -/
theorem filter_eq_of_wider {α : Type*} {p q : α → Bool} {xs ys : List α} (hpq : ∀ x, p x = true → q x = true)
    (h : xs.filter q = ys.filter q) : xs.filter p = ys.filter p := by
  have hthrough : ∀ zs : List α, (zs.filter q).filter p = zs.filter p := by
    intro zs
    rw [List.filter_filter]
    refine filter_congr fun z _ => ?_
    cases hp : p z with
    | false => rfl
    | true => simp [hpq z hp]
  rw [← hthrough xs, h, hthrough ys]

theorem Agree.scope_eq {v w : Json} (h : Agree view s v w) : s.scope view v = s.scope view w := by
  cases h with
  | same => rfl
  | list vs ws hs h =>
    have hkeeps := filter_eq_of_wider (fun _ => visible_of_keeps) h
    cases s
    case byHost | ticketQueue | migrations => exact congrArg (fun vs => Json.arr (.ofList vs)) hkeeps
    all_goals exact absurd hs (by simp [Scoper.overList])
  | map ms ns hs h =>
    have hkeeps : ms.toList.filter (fun e => s.keeps view e.1 e.2) =
        ns.toList.filter fun e => s.keeps view e.1 e.2 :=
      filter_eq_of_wider (fun _ => visible_of_keeps) h
    cases s
    case repoTiers =>
      simp only [Scoper.keeps] at hkeeps
      simp only [Scoper.scope, repoTiersFor]
      cases htenant : view.repoTenant with
      | none => rfl
      | some tenant =>
        have hmine : (fun e : JsString × Json => decide (tenantOfHostKey e.1 = tenant)) = fun e =>
            decide (view.repoTenant = some (tenantOfHostKey e.1)) := by
          funext e
          rw [htenant]
          simp [eq_comm]
        dsimp only
        rw [hmine, hkeeps]
    case bySite | byTicket | ticketAgents | epicBuilders =>
      exact congrArg (fun ms => Json.obj (.ofList (listing ms))) hkeeps
    all_goals exact absurd hs (by simp [Scoper.overMap])

/-- One key of a payload. -/
theorem scopeKey_out {a b : Scoped} {e f : JsString × Json} (hout : a.out = b.out) (hkey : e.1 = f.1)
    (h : ∀ s, scoperOf e.1 = some s → Agree view s e.2 f.2) :
    (scopeKey view a e).map Scoped.out = (scopeKey view b f).map Scoped.out := by
  unfold scopeKey
  rw [← hkey]
  cases hs : scoperOf e.1 with
  | none =>
    split_ifs
    · rfl
    · exact congrArg some hout
  | some s =>
    dsimp only [map_some]
    rw [(h s hs).scope_eq, hout]

theorem foldlM_out {p q : List (JsString × Json)} (h : AgreePayload view p q) {a b : Scoped}
    (hout : a.out = b.out) :
    (p.foldlM (scopeKey view) a).map Scoped.out = (q.foldlM (scopeKey view) b).map Scoped.out := by
  induction h generalizing a b with
  | nil => exact congrArg some hout
  | cons hhead _ ih =>
    have hstep : (scopeKey view a _).map Scoped.out = (scopeKey view b _).map Scoped.out :=
      scopeKey_out hout hhead.1 hhead.2
    simp only [foldlM_cons]
    cases ha : scopeKey view a _ with
    | none =>
      rw [ha] at hstep
      rw [map_eq_none_iff.mp hstep.symm]
      rfl
    | some a' =>
      rw [ha] at hstep
      obtain ⟨b', hb, hout'⟩ := map_eq_some_iff.mp hstep.symm
      rw [hb]
      exact ih hout'.symm

/-- Every object lists its members as JavaScript does. -/
def WellListed (p : List (JsString × Json)) : Prop :=
  listing p = p ∧ ∀ e ∈ p, ∀ ms, e.2 = .obj ms → listing ms.toList = ms.toList

/-- A tier key under a tenant's name is shorter. -/
theorem length_tierName {key : JsString} (h : tenantOfHostKey key ≠ []) :
    (tierName key).length + 33 = key.length := by
  have hlength : (key.drop (key.length - 33)).length = 33 := by
    refine tenantSuffix_length ?_
    by_contra hnot
    exact h (by simp [tenantOfHostKey, hnot])
  rw [length_drop] at hlength
  rw [tierName, if_neg h, length_take]
  omega

theorem tiers_unchanged {ms : List (JsString × Json)} {tenant : JsString}
    (hlist : listing ms = ms)
    (hsize : (listing ((ms.filter fun e => tenantOfHostKey e.1 = tenant).map fun e =>
      (tierName e.1, e.2))).length = ms.length)
    (hkeys : (listing ((ms.filter fun e => tenantOfHostKey e.1 = tenant).map fun e =>
      (tierName e.1, e.2))).map Prod.fst = ms.map Prod.fst) :
    listing ((ms.filter fun e => tenantOfHostKey e.1 = tenant).map fun e => (tierName e.1, e.2)) = ms := by
  have hall : ms.filter (fun e => tenantOfHostKey e.1 = tenant) = ms := by
    refine filter_sublist.eq_of_length_le ?_
    have hle := length_listing_le ((ms.filter fun e => tenantOfHostKey e.1 = tenant).map fun e =>
      (tierName e.1, e.2))
    rw [length_map] at hle
    omega
  rw [hall] at hkeys ⊢
  have htenant : ∀ e ∈ ms, tenantOfHostKey e.1 = tenant := by
    intro e he
    rw [← hall] at he
    exact of_decide_eq_true (mem_filter.mp he).2
  by_cases hnone : tenant = []
  · -- nothing is renamed for the untenanted fleet
    have hsame : ms.map (fun e => (tierName e.1, e.2)) = ms := by
      conv_rhs => rw [← List.map_id ms]
      refine map_congr_left fun e he => ?_
      rw [tierName, if_pos ((htenant e he).trans hnone)]
      rfl
    rw [hsame]
    exact hlist
  · cases hlongest : ms.argmax fun e => e.1.length with
    | none =>
      rw [argmax_eq_none.mp hlongest]
      rfl
    | some e =>
      -- the longest key is the name of a longer one
      exfalso
      have he : e ∈ ms := argmax_mem hlongest
      have hmax : ∀ f ∈ ms, f.1.length ≤ e.1.length := fun f hf =>
        le_of_mem_argmax (f := fun e : JsString × Json => e.1.length) hf hlongest
      have hmem : e.1 ∈ (ms.map fun e => (tierName e.1, e.2)).map Prod.fst :=
        mem_keys_listing (hkeys ▸ List.mem_map_of_mem he)
      obtain ⟨x, hx, hxe⟩ := List.mem_map.mp hmem
      obtain ⟨f, hf, rfl⟩ := List.mem_map.mp hx
      have hshort : (tierName f.1).length + 33 = f.1.length :=
        length_tierName (by rw [htenant f hf]; exact hnone)
      have hle := hmax f hf
      rw [← hxe] at hle
      dsimp only at hle
      omega

theorem scope_unchanged {v : Json} (hlist : ∀ ms, v = .obj ms → listing ms.toList = ms.toList)
    (hsize : sizeOf (s.scope view v) = sizeOf v) (hkeys : sameKeys (s.scope view v) v = true) :
    s.scope view v = v := by
  have hfilter : ∀ keep : Json → Bool, sizeOf (filterList keep v) = sizeOf v → filterList keep v = v := by
    intro keep hsize
    cases v with
    | arr vs =>
      simp only [filterList, sizeOf, JsonElements.toList_ofList] at hsize ⊢
      have hall : vs.toList.filter keep = vs.toList := filter_sublist.eq_of_length_le hsize.ge
      rw [hall, JsonElements.ofList_toList]
    | _ => rfl
  have hmap : ∀ keep : JsString → Json → Bool, sizeOf (filterMap keep v) = sizeOf v → filterMap keep v = v := by
    intro keep hsize
    cases v with
    | obj ms =>
      simp only [filterMap, sizeOf, JsonMembers.toList_ofList] at hsize ⊢
      have hle := length_listing_le (ms.toList.filter fun e => keep e.1 e.2)
      have hall : ms.toList.filter (fun e => keep e.1 e.2) = ms.toList :=
        filter_sublist.eq_of_length_le (by omega)
      rw [hall, hlist ms rfl, JsonMembers.ofList_toList]
    | _ => rfl
  cases s with
  | hubWide => rfl
  | byHost => exact hfilter _ hsize
  | ticketQueue => exact hfilter _ hsize
  | migrations => exact hfilter _ hsize
  | bySite => exact hmap _ hsize
  | byTicket => exact hmap _ hsize
  | ticketAgents => exact hmap _ hsize
  | epicBuilders => exact hmap _ hsize
  | repoTiers =>
    cases v with
    | obj ms =>
      simp only [Scoper.scope, repoTiersFor] at hsize hkeys ⊢
      cases htenant : view.repoTenant with
      | none =>
        rw [htenant] at hsize
        have hempty : ms.toList = [] := eq_nil_of_length_eq_zero hsize.symm
        rw [← JsonMembers.ofList_toList ms, hempty]
        rfl
      | some tenant =>
        rw [htenant] at hsize hkeys
        simp only [sizeOf, sameKeys, JsonMembers.toList_ofList, decide_eq_true_eq] at hsize hkeys
        dsimp only
        rw [tiers_unchanged (hlist ms rfl) hsize hkeys, JsonMembers.ofList_toList]
    | _ => rfl

/-- What is served of a payload as far as it is unchanged is what came in. -/
theorem foldlM_unchanged {p : List (JsString × Json)}
    (hlist : ∀ e ∈ p, ∀ ms, e.2 = .obj ms → listing ms.toList = ms.toList) {acc r : Scoped}
    (h : p.foldlM (scopeKey view) acc = some r) (hr : r.changed = false) :
    acc.changed = false ∧ r.out = acc.out ++ p := by
  induction p generalizing acc with
  | nil =>
    cases h
    exact ⟨hr, (append_nil _).symm⟩
  | cons e p ih =>
    rw [foldlM_cons] at h
    obtain ⟨acc', hstep, hrest⟩ := bind_eq_some_iff.mp h
    obtain ⟨hsame, hout⟩ := ih (fun f hf => hlist f (mem_cons_of_mem e hf)) hrest
    unfold scopeKey at hstep
    cases hs : scoperOf e.1 with
    | none =>
      rw [hs] at hstep
      split_ifs at hstep
      rw [← Option.some.inj hstep] at hsame
      cases hsame
    | some s =>
      rw [hs] at hstep
      cases hstep
      simp only [Bool.or_eq_false_iff, decide_eq_false_iff_not, not_not, Bool.not_eq_false'] at hsame
      refine ⟨hsame.1.1, ?_⟩
      rw [hout, scope_unchanged (hlist e mem_cons_self) hsame.1.2 hsame.2, append_assoc]
      rfl

/-- What a view is served of a payload, and of an event, is settled by the entries that it may see;
and a payload that is reported unchanged is served as it is. -/
theorem scoped_reveals_nothing (view : View) :
    (∀ p q, AgreePayload view p q →
      (scopePayload view p).map Scoped.out = (scopePayload view q).map Scoped.out) ∧
    (∀ event d e, AgreeEvent view event d e → scopeEvent view event d = scopeEvent view event e) ∧
    ∀ p r, WellListed p → scopePayload view p = some r → r.changed = false → r.out = p := by
  refine ⟨fun p q h => ?_, fun event d e h => ?_, fun p r hlist h hr => ?_⟩
  · have hout := foldlM_out h (rfl : (⟨[], false⟩ : Scoped).out = (⟨[], false⟩ : Scoped).out)
    simp only [scopePayload, Option.map_map]
    have hlisted := congrArg (Option.map listing) hout
    rw [Option.map_map, Option.map_map] at hlisted
    exact hlisted
  · unfold AgreeEvent at h
    unfold scopeEvent
    by_cases hsingle : event ∈ singleHostEvents
    · rw [if_pos hsingle] at h ⊢
      rw [if_pos hsingle]
      simp only [filter_cons, filter_nil] at h
      split_ifs at h ⊢
      · rw [singleton_inj.mp h]
      · rfl
    · rw [if_neg hsingle] at h ⊢
      rw [if_neg hsingle]
      cases hs : scoperOf (aliasOf event) with
      | none => rfl
      | some s =>
        dsimp only
        rw [(h s hs).scope_eq]
  · obtain ⟨acc, hacc, rfl⟩ := map_eq_some_iff.mp h
    obtain ⟨_, hout⟩ := foldlM_unchanged hlist.2 hacc hr
    dsimp only
    rw [hout, nil_append]
    exact hlist.1

end Turma.Tenancy
