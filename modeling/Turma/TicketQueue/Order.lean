import Mathlib.Data.List.MinMax
import Turma.Lib.JsSort
import Turma.Lib.OrdMap
import Turma.Lib.RoundRobin
import Turma.Lib.Sort
import Turma.SiteKeys.Scope

/-! The order in which the drain visits the ticket queue: by urgency within an org's line, and the
lines dealt round-robin. -/

namespace Turma.TicketQueue

open Turma.Lib Turma.SiteKeys List OrdMap JsString

inductive Tier
  | ignore | archive | active | live

/-- The place in `REPO_TIERS`. -/
def Tier.rank : Tier → ℕ
  | ignore => 0
  | archive => 1
  | active => 2
  | live => 3

inductive Band
  | p0 | p1 | p2 | p3
deriving DecidableEq

/-- A triage block as `sanitizeTicketTriage` leaves it. -/
structure Triage where
  priority : Option Band
  type : Option JsString

/-- A ticket as the board shows it; `created` is `none` where it is no string, and `repo` is
`repoGuess.repo`. -/
structure Row where
  triage : Option Triage
  created : Option JsString
  repo : Option JsString

/-- A place in line; `queuedAt` is the entry's `at`. -/
structure Entry where
  siteKey : JsString
  issueKey : JsString
  queuedAt : ℤ
deriving DecidableEq

/-- What the order reads of the hub: `Date.parse`, `none` for `NaN`, and the tiers that are set. -/
structure Hub where
  dateParse : JsString → Option ℤ
  repoTiers : JsString → Option Tier

def ticketQueueKey (siteKey issueKey : JsString) : JsString :=
  siteKey ++ .scalar '\x00' :: issueKey

abbrev Rows := JsString → Option Row

def ticketRepo (siteKey issueKey : JsString) (rows : Rows) : Option JsString :=
  ((rows (ticketQueueKey siteKey issueKey)).bind Row.repo).filter (· ≠ [])

def DEFAULT_REPO_TIER : Tier := .active

def repoTierKey (repo tenantId : JsString) : JsString :=
  if tenantId = [] then repo else repo ++ .scalar '@' :: tenantId

def repoTier (h : Hub) (repo : Option JsString) (scope : JsString) : Tier :=
  (repo.bind fun r => h.repoTiers (repoTierKey r (tenantOfSite scope))).getD DEFAULT_REPO_TIER

def repoTierRank (h : Hub) (repo : Option JsString) (scope : JsString) : ℕ :=
  (repoTier h repo scope).rank

/-- What a lookup of a type's weight finds: a number, or what every object inherits. -/
inductive Weight
  | num (n : ℕ)
  | inherited (name : JsString)
deriving DecidableEq

/-- The table's own entries. -/
def ownWeight (type : JsString) : Option ℕ :=
  ([("bug", 0), ("task", 1), ("feature", 2), ("improvement", 3), ("chore", 4),
    ("documentation", 5), ("other", 6)].find? fun e => ofString e.1 = type).map Prod.snd

/-- The names that `Object.prototype` carries. -/
def inherited : List JsString :=
  ["constructor", "__defineGetter__", "__defineSetter__", "hasOwnProperty", "__lookupGetter__",
    "__lookupSetter__", "isPrototypeOf", "propertyIsEnumerable", "toString", "valueOf",
    "__proto__", "toLocaleString"].map ofString

def TRIAGE_TYPE_WEIGHT (type : JsString) : Option Weight :=
  match ownWeight type with
  | some n => some (.num n)
  | none => if type ∈ inherited then some (.inherited type) else none

def NO_TYPE_WEIGHT : ℕ := 7

structure SortKey where
  preempt : ℕ
  created : WithTop ℤ
  weight : Weight
  tier : ℤ

-- Of the orders on the integers and on an arrival that may be unknown, the ones that compute.
local instance preorderInt : Preorder ℤ := Int.instLinearOrder.toPreorder

local instance ordArrival : Ord (WithTop ℤ) := WithTop.linearOrder.toOrd

def preempts (t : Option Row) : ℕ :=
  if (t.bind Row.triage).bind Triage.priority = some .p0 then 0 else 1

def createdAt (h : Hub) (t : Option Row) : WithTop ℤ :=
  match (t.bind Row.created).bind h.dateParse with
  | some ms => ms
  | none => ⊤

def typeOf (t : Option Row) : Option JsString := (t.bind Row.triage).bind Triage.type

def triageSortKey (h : Hub) (t : Option Row) (repo : Option JsString) (siteKey : JsString) :
    SortKey where
  preempt := preempts t
  created := createdAt h t
  weight := ((typeOf t).bind TRIAGE_TYPE_WEIGHT).getD (.num NO_TYPE_WEIGHT)
  tier := -(repoTierRank h repo siteKey)

/-- `a - b`, of which the sort reads the sign; the `NaN` of a weight that is no number reads as
zero. -/
def Weight.minus : Weight → Weight → Ordering
  | .num m, .num n => compare m n
  | _, _ => .eq

/-- The comparator of a line: the first component that differs, then the time in line. -/
def compareWaiting (a b : Entry × SortKey) : Ordering :=
  if a.2.preempt ≠ b.2.preempt then compare a.2.preempt b.2.preempt
  else if a.2.created ≠ b.2.created then compare a.2.created b.2.created
  else if a.2.weight ≠ b.2.weight then a.2.weight.minus b.2.weight
  else if a.2.tier ≠ b.2.tier then compare a.2.tier b.2.tier
  else compare a.1.queuedAt b.1.queuedAt

/-- `x[0].e.at`. -/
def anchor (line : List (Entry × SortKey)) : ℤ := (line.head?.map fun w => w.1.queuedAt).getD 0

def keyed (h : Hub) (rows : Rows) (e : Entry) : Entry × SortKey :=
  (e, triageSortKey h (rows (ticketQueueKey e.siteKey e.issueKey))
    (ticketRepo e.siteKey e.issueKey rows) e.siteKey)

def siteOf (w : Entry × SortKey) : JsString := w.1.siteKey

def byAge (js : JsSort) (h : Hub) (rows : Rows) (ticketQueue : List Entry) :
    List (List (Entry × SortKey)) :=
  js.sort (fun x y => compare (anchor x) (anchor y))
    ((OrdMap.groupBy siteOf (ticketQueue.map (keyed h rows))).values.map (js.sort compareWaiting))

def ticketQueueOrder (js : JsSort) (h : Hub) (rows : Rows) (ticketQueue : List Entry) :
    List Entry :=
  if ticketQueue.length ≤ 1 then ticketQueue
  else (RoundRobin.deal (byAge js h rows ticketQueue)).map Prod.fst

def waiting (ticketQueue : List Entry) (org : JsString) : List Entry :=
  ticketQueue.filter fun e => e.siteKey = org

/-- The queue time of an org's oldest waiting entry. -/
def oldest (ticketQueue : List Entry) (org : JsString) : WithTop ℤ :=
  ((waiting ticketQueue org).map Entry.queuedAt).minimum

/-- A ticket's urgency: P0 first, then the oldest, then its type, an unknown one last, then the tier
of its repo. -/
def urgency (h : Hub) (rows : Rows) (e : Entry) : ℕ ×ₗ WithTop ℤ ×ₗ ℕ ×ₗ ℤ :=
  let t := rows (ticketQueueKey e.siteKey e.issueKey)
  toLex (preempts t, toLex (createdAt h t,
    toLex (((typeOf t).bind ownWeight).getD NO_TYPE_WEIGHT,
      -(repoTierRank h (ticketRepo e.siteKey e.issueKey rows) e.siteKey : ℤ))))

/-- The whole order of an org's line. -/
def due (h : Hub) (rows : Rows) (e : Entry) : (ℕ ×ₗ WithTop ℤ ×ₗ ℕ ×ₗ ℤ) ×ₗ ℤ :=
  toLex (urgency h rows e, e.queuedAt)

def countOf (org : JsString) (es : List Entry) : ℕ := es.countP fun e => e.siteKey = org

/-- A fair order `out` of the queue: each entry once; an org's entries by urgency and then by queue
time; two orgs within one entry of each other in each prefix, unless the one behind has no more;
and the orgs of a round by their oldest entries. -/
structure Fair (h : Hub) (rows : Rows) (ticketQueue out : List Entry) : Prop where
  once : out.Perm ticketQueue
  sorted : ∀ org, (waiting out org).Pairwise fun e f => due h rows e ≤ due h rows f
  even : ∀ org org' p, p <+: out → countOf org' p + 1 < countOf org p →
    countOf org' p = countOf org' ticketQueue
  rounds : ∀ before e between f after, out = before ++ e :: between ++ f :: after →
    countOf e.siteKey before = countOf f.siteKey (before ++ e :: between) →
    oldest ticketQueue e.siteKey ≤ oldest ticketQueue f.siteKey

def rowAt (rows : Rows) (e : Entry) : Option Row := rows (ticketQueueKey e.siteKey e.issueKey)

/-- Two tickets of one org of which the types are compared. -/
def Tied (h : Hub) (rows : Rows) (e f : Entry) : Prop :=
  e ≠ f ∧ e.siteKey = f.siteKey ∧ preempts (rowAt rows e) = preempts (rowAt rows f) ∧
    createdAt h (rowAt rows e) = createdAt h (rowAt rows f)

/-- No two queued tickets are compared by a type that every object inherits a member under. -/
def Plain (h : Hub) (rows : Rows) (ticketQueue : List Entry) : Prop :=
  ∀ e ∈ ticketQueue, ∀ f ∈ ticketQueue, Tied h rows e f →
    ∀ type ∈ typeOf (rowAt rows e), type ∉ inherited

/-- No entry of its org comes before it. -/
def Leads (h : Hub) (rows : Rows) (ticketQueue : List Entry) (e : Entry) : Prop :=
  ∀ f ∈ waiting ticketQueue e.siteKey, due h rows e ≤ due h rows f

/-- The orgs stand by the queue times of the entries that lead their lines, and then as they came
up in the queue, as they do by those of their oldest entries. -/
def Anchored (h : Hub) (rows : Rows) (ticketQueue : List Entry) : Prop :=
  ∀ e ∈ ticketQueue, ∀ f ∈ ticketQueue, Leads h rows ticketQueue e → Leads h rows ticketQueue f →
    (e.queuedAt < f.queuedAt ∨ e.queuedAt = f.queuedAt ∧
      (ticketQueue.map Entry.siteKey).idxOf e.siteKey <
        (ticketQueue.map Entry.siteKey).idxOf f.siteKey) →
    oldest ticketQueue e.siteKey ≤ oldest ticketQueue f.siteKey

variable {org : JsString} {w : Entry × SortKey}

section

variable {js : JsSort} {h : Hub} {rows : Rows} {ticketQueue : List Entry}

theorem weight_plain {type : Option JsString} (hplain : ∀ s ∈ type, s ∉ inherited) :
    (type.bind TRIAGE_TYPE_WEIGHT).getD (.num NO_TYPE_WEIGHT) =
      .num ((type.bind ownWeight).getD NO_TYPE_WEIGHT) := by
  cases type with
  | none => rfl
  | some s =>
    rw [Option.bind_some, Option.bind_some, TRIAGE_TYPE_WEIGHT]
    cases ownWeight s with
    | some n => rfl
    | none => rw [if_neg (hplain s rfl)]; rfl

theorem then_of_ne {β : Type} [LinearOrder β] {a a' : β} (hne : a ≠ a') (o o' : Ordering) :
    (compare a a').then o = (compare a a').then o' := by
  cases hcompare : compare a a' with
  | eq => exact absurd (compare_eq_iff_eq.mp hcompare) hne
  | lt | gt => rfl

/-- On two tickets of plain types the comparator is the order by urgency and queue time. -/
theorem compareWaiting_keyed {e f : Entry} (hplain : Plain h rows [e, f])
    (horg : e.siteKey = f.siteKey) :
    compareWaiting (keyed h rows e) (keyed h rows f) =
      compare (due h rows e) (due h rows f) := by
  rw [compareWaiting, compare_else, compare_else]
  simp only [due, urgency, compare_toLex, Ordering.then_assoc, keyed, triageSortKey]
  by_cases hpreempt : preempts (rowAt rows e) = preempts (rowAt rows f)
  swap
  · exact then_of_ne hpreempt _ _
  refine congrArg _ ?_
  by_cases hcreated : createdAt h (rowAt rows e) = createdAt h (rowAt rows f)
  swap
  · exact then_of_ne hcreated _ _
  refine congrArg _ ?_
  by_cases heq : e = f
  · subst heq
    simp
  have he := weight_plain (hplain e (by simp) f (by simp) ⟨heq, horg, hpreempt, hcreated⟩)
  have hf := weight_plain (hplain f (by simp) e (by simp)
    ⟨Ne.symm heq, horg.symm, hpreempt.symm, hcreated.symm⟩)
  have hweight : ∀ {m n : ℕ} {o : Ordering},
      (if Weight.num m ≠ .num n then (Weight.num m).minus (.num n) else o) =
        (compare m n).then o := by
    intro m n o
    rw [← compare_else]
    simp only [ne_eq, Weight.num.injEq, Weight.minus]
  rw [rowAt] at he hf
  simp only [he, hf, hweight]
  exact congrArg _ (compare_else _ _ _)

variable (js h rows ticketQueue)

/-- The orgs in line, as they came up in the queue. -/
def orgs : List JsString := (OrdMap.groupBy siteOf (ticketQueue.map (keyed h rows))).keys

def lineOf (org : JsString) : List (Entry × SortKey) :=
  js.sort compareWaiting ((ticketQueue.map (keyed h rows)).filter fun w => siteOf w = org)

variable {js h rows ticketQueue}

theorem map_siteOf : (ticketQueue.map (keyed h rows)).map siteOf = ticketQueue.map Entry.siteKey := by
  rw [map_map]
  rfl

theorem mem_orgs :
    org ∈ orgs h rows ticketQueue ↔ ∃ e ∈ ticketQueue, e.siteKey = org := by
  rw [orgs, mem_keys_groupBy, map_siteOf, mem_map]

theorem nodup_orgs : (orgs h rows ticketQueue).Nodup := OrdMap.nodup _

theorem orgs_first : (orgs h rows ticketQueue).Pairwise fun org org' =>
    (ticketQueue.map Entry.siteKey).idxOf org < (ticketQueue.map Entry.siteKey).idxOf org' := by
  have hfirst := keys_groupBy_first siteOf (ticketQueue.map (keyed h rows))
  rw [map_siteOf] at hfirst
  exact hfirst

theorem lines_eq : (OrdMap.groupBy siteOf (ticketQueue.map (keyed h rows))).values.map
      (js.sort compareWaiting) = (orgs h rows ticketQueue).map (lineOf js h rows ticketQueue) := by
  rw [values_groupBy, map_map]
  rfl

theorem mem_lineOf :
    w ∈ lineOf js h rows ticketQueue org ↔
      ∃ e ∈ ticketQueue, e.siteKey = org ∧ keyed h rows e = w := by
  rw [lineOf, (js.perm _ _).mem_iff, mem_filter, mem_map, decide_eq_true_eq]
  constructor
  · rintro ⟨⟨e, he, rfl⟩, hsite⟩
    exact ⟨e, he, hsite, rfl⟩
  · rintro ⟨e, he, hsite, rfl⟩
    exact ⟨⟨e, he, rfl⟩, hsite⟩

theorem siteOf_lineOf
    (hw : w ∈ lineOf js h rows ticketQueue org) : siteOf w = org := by
  obtain ⟨e, -, hsite, rfl⟩ := mem_lineOf.mp hw
  exact hsite

variable (js h rows ticketQueue) in
theorem lineOf_fst (org : JsString) :
    ((lineOf js h rows ticketQueue org).map Prod.fst).Perm (waiting ticketQueue org) := by
  refine ((js.perm _ _).map Prod.fst).trans ?_
  rw [filter_map, map_map]
  exact .of_eq (map_id _)

variable (js h) in
theorem lineOf_sorted (hplain : Plain h rows ticketQueue) (org : JsString) :
    (lineOf js h rows ticketQueue org).Pairwise fun a b =>
      due h rows a.1 ≤ due h rows b.1 := by
  have hcmp : ∀ a ∈ (ticketQueue.map (keyed h rows)).filter (fun w => siteOf w = org),
      ∀ b ∈ (ticketQueue.map (keyed h rows)).filter (fun w => siteOf w = org),
      compareWaiting a b = compare (due h rows a.1) (due h rows b.1) := by
    intro a ha b hb
    obtain ⟨e, he, rfl⟩ := mem_map.mp (mem_filter.mp ha).1
    obtain ⟨f, hf, rfl⟩ := mem_map.mp (mem_filter.mp hb).1
    have hsite := of_decide_eq_true (mem_filter.mp ha).2
    have hsite' := of_decide_eq_true (mem_filter.mp hb).2
    refine compareWaiting_keyed (fun g hg g' hg' => ?_) (hsite.trans hsite'.symm)
    have hpair : ∀ x ∈ [e, f], x ∈ ticketQueue := by simp [he, hf]
    exact hplain g (hpair g hg) g' (hpair g' hg')
  refine (js.ordered (consistent_of_compare _ hcmp)).imp_of_mem fun {a b} ha hb hle => ?_
  have ha' := (js.perm _ _).mem_iff.mp ha
  have hb' := (js.perm _ _).mem_iff.mp hb
  rwa [hcmp a ha' b hb', isLE_compare] at hle

theorem anchor_consistent (lines : List (List (Entry × SortKey))) :
    Consistent (fun x y => compare (anchor x) (anchor y)) lines :=
  consistent_of_compare anchor fun _ _ _ _ => rfl

theorem byAge_perm : (byAge js h rows ticketQueue).Perm
    ((orgs h rows ticketQueue).map (lineOf js h rows ticketQueue)) := by
  rw [byAge, lines_eq]
  exact js.perm _ _

variable (js) in
theorem lineOf_ne_nil (horg : org ∈ orgs h rows ticketQueue) :
    ∃ w, w ∈ lineOf js h rows ticketQueue org := by
  obtain ⟨e, he, hsite⟩ := mem_orgs.mp horg
  exact ⟨_, mem_lineOf.mpr ⟨e, he, hsite, rfl⟩⟩

theorem lineOf_ne {org org' : JsString} (horg : org ∈ orgs h rows ticketQueue) (hne : org ≠ org') :
    lineOf js h rows ticketQueue org ≠ lineOf js h rows ticketQueue org' := by
  obtain ⟨w, hw⟩ := lineOf_ne_nil js horg
  intro heq
  exact hne ((siteOf_lineOf hw).symm.trans (siteOf_lineOf (heq ▸ hw)))

variable (js h rows ticketQueue) in
theorem byAge_apart : (byAge js h rows ticketQueue).Pairwise fun l l' =>
    ∀ x ∈ l, ∀ y ∈ l', siteOf x ≠ siteOf y := by
  refine (byAge_perm.pairwise_iff fun {l l'} hll x hx y hy => (hll y hy x hx).symm).mpr ?_
  refine pairwise_map.mpr (nodup_orgs.imp fun hne x hx y hy => ?_)
  rwa [siteOf_lineOf hx, siteOf_lineOf hy]

theorem byAge_nodup : (byAge js h rows ticketQueue).Nodup := by
  refine byAge_perm.nodup_iff.mpr (pairwise_map.mpr ?_)
  exact nodup_orgs.imp_of_mem fun horg _ hne => lineOf_ne horg hne

variable (js) in
theorem mem_byAge (horg : org ∈ orgs h rows ticketQueue) :
    lineOf js h rows ticketQueue org ∈ byAge js h rows ticketQueue :=
  byAge_perm.mem_iff.mpr (mem_map_of_mem horg)

variable (js) in
theorem alone (horg : org ∈ orgs h rows ticketQueue) :
    RoundRobin.Alone siteOf org (lineOf js h rows ticketQueue org)
      (byAge js h rows ticketQueue) := by
  obtain ⟨before, after, heq⟩ := append_of_mem (mem_byAge js horg)
  obtain ⟨w, hw⟩ := lineOf_ne_nil js horg
  have hapart := byAge_apart js h rows ticketQueue
  rw [heq, pairwise_append, pairwise_cons] at hapart
  refine ⟨before, after, heq, fun x hx => siteOf_lineOf hx, fun other ho x hx => ?_⟩
  rw [← siteOf_lineOf hw]
  rcases mem_append.mp ho with ho | ho
  · exact hapart.2.2 other ho _ mem_cons_self x hx w hw
  · exact (hapart.2.1.1 other ho w hw x hx).symm

variable (js) in
theorem anchor_lead {e : Entry} (hplain : Plain h rows ticketQueue) (he : e ∈ ticketQueue)
    (hlead : Leads h rows ticketQueue e) :
    anchor (lineOf js h rows ticketQueue e.siteKey) = e.queuedAt := by
  have hsorted := lineOf_sorted js h hplain e.siteKey
  have hmem : keyed h rows e ∈ lineOf js h rows ticketQueue e.siteKey :=
    mem_lineOf.mpr ⟨e, he, rfl, rfl⟩
  cases hline : lineOf js h rows ticketQueue e.siteKey with
  | nil => rw [hline] at hmem; cases hmem
  | cons w line =>
    obtain ⟨f, hf, hsite, rfl⟩ := mem_lineOf.mp (hline ▸ mem_cons_self : w ∈ _)
    have hfirst := hlead f (mem_filter.mpr ⟨hf, decide_eq_true hsite⟩)
    have hlast : due h rows f ≤ due h rows e := by
      rw [hline] at hmem hsorted
      rcases mem_cons.mp hmem with heq | hin
      · rw [show e = f from congrArg Prod.fst heq]
      · exact (pairwise_cons.mp hsorted).1 _ hin
    exact congrArg (fun d => (ofLex d).2) (le_antisymm hlast hfirst)

variable (js) in
/-- Who starts a line leads it. -/
theorem exists_lead (hplain : Plain h rows ticketQueue)
    (horg : org ∈ orgs h rows ticketQueue) :
    ∃ e ∈ ticketQueue, e.siteKey = org ∧ Leads h rows ticketQueue e ∧
      ∃ line, lineOf js h rows ticketQueue org = keyed h rows e :: line := by
  have hsorted := lineOf_sorted js h hplain org
  obtain ⟨x, hx⟩ := lineOf_ne_nil js horg
  cases hline : lineOf js h rows ticketQueue org with
  | nil => rw [hline] at hx; cases hx
  | cons w line =>
    obtain ⟨e, he, hsite, rfl⟩ := mem_lineOf.mp (hline ▸ mem_cons_self : w ∈ _)
    refine ⟨e, he, hsite, fun f hf => ?_, line, rfl⟩
    have hf' := mem_filter.mp hf
    have hmem : keyed h rows f ∈ lineOf js h rows ticketQueue org := mem_lineOf.mpr
      ⟨f, hf'.1, (of_decide_eq_true hf'.2).trans hsite, rfl⟩
    rw [hline] at hmem hsorted
    rcases mem_cons.mp hmem with heq | hin
    · rw [show f = e from congrArg Prod.fst heq]
    · exact (pairwise_cons.mp hsorted).1 _ hin

/-- Which of two lines is visited first. -/
def Ahead (js : JsSort) (h : Hub) (rows : Rows) (ticketQueue : List Entry) (org org' : JsString) :
    Prop :=
  anchor (lineOf js h rows ticketQueue org) < anchor (lineOf js h rows ticketQueue org') ∨
    anchor (lineOf js h rows ticketQueue org) = anchor (lineOf js h rows ticketQueue org') ∧
      (ticketQueue.map Entry.siteKey).idxOf org < (ticketQueue.map Entry.siteKey).idxOf org'

variable (js) in
theorem ahead_or {org org' : JsString} (horg : org ∈ orgs h rows ticketQueue)
    (hne : org ≠ org') :
    Ahead js h rows ticketQueue org org' ∨ Ahead js h rows ticketQueue org' org := by
  have hidx : (ticketQueue.map Entry.siteKey).idxOf org ≠
      (ticketQueue.map Entry.siteKey).idxOf org' := by
    have hmem : org ∈ ticketQueue.map Entry.siteKey := mem_map.mpr (mem_orgs.mp horg)
    exact fun heq => hne ((idxOf_inj hmem).mp heq)
  unfold Ahead
  omega

theorem ahead_visited {org org' : JsString} (horg : org ∈ orgs h rows ticketQueue)
    (horg' : org' ∈ orgs h rows ticketQueue) (hne : org ≠ org')
    (hahead : Ahead js h rows ticketQueue org org') :
    [lineOf js h rows ticketQueue org, lineOf js h rows ticketQueue org'].Sublist
      (byAge js h rows ticketQueue) := by
  have hsorted : (byAge js h rows ticketQueue).Pairwise fun x y => anchor x ≤ anchor y :=
    (js.ordered (anchor_consistent _)).imp fun hle => (isLE_compare _ _).mp hle
  rcases hahead with hlt | ⟨heq, hidx⟩
  · rcases pair_sublist_or (mem_byAge js horg) (mem_byAge js horg')
      (lineOf_ne horg hne) with hsub | hsub
    · exact hsub
    · have hle := (pairwise_cons.mp (hsorted.sublist hsub)).1 _ mem_cons_self
      omega
  · have hkeys : [org, org'].Sublist (orgs h rows ticketQueue) := by
      rcases pair_sublist_or horg horg' hne with hsub | hsub
      · exact hsub
      · have hlt := (pairwise_cons.mp (orgs_first.sublist hsub)).1 _ mem_cons_self
        omega
    have hlines := hkeys.map (lineOf js h rows ticketQueue)
    rw [← lines_eq] at hlines
    exact js.stable (anchor_consistent _) hlines ((isLE_compare _ _).mpr heq.le)

theorem visited_ahead {org org' : JsString} (horg : org ∈ orgs h rows ticketQueue)
    (horg' : org' ∈ orgs h rows ticketQueue) (hne : org ≠ org')
    (hsub : [lineOf js h rows ticketQueue org, lineOf js h rows ticketQueue org'].Sublist
      (byAge js h rows ticketQueue)) : Ahead js h rows ticketQueue org org' := by
  rcases ahead_or js horg hne with hahead | hahead
  · exact hahead
  · exact absurd (ahead_visited horg' horg hne.symm hahead) (not_both_sublist byAge_nodup hsub)

variable (js h rows ticketQueue) in
theorem dealt_perm :
    ((RoundRobin.deal (byAge js h rows ticketQueue)).map Prod.fst).Perm ticketQueue := by
  have hdeal := (RoundRobin.deal_perm (byAge js h rows ticketQueue)).trans
    (byAge_perm.flatten)
  have hlines : (((orgs h rows ticketQueue).map (lineOf js h rows ticketQueue)).flatten).Perm
      (OrdMap.groupBy siteOf (ticketQueue.map (keyed h rows))).values.flatten := by
    rw [← lines_eq, ← flatMap_def]
    conv_rhs => rw [← flatMap_id]
    exact Perm.flatMap_left _ fun line _ => js.perm _ line
  have hall := ((hdeal.trans hlines).trans
    (flatten_groupBy siteOf (ticketQueue.map (keyed h rows)))).map Prod.fst
  rw [map_map] at hall
  exact hall.trans (.of_eq (map_id _))

theorem ticketQueueOrder_eq : ticketQueueOrder js h rows ticketQueue =
    (RoundRobin.deal (byAge js h rows ticketQueue)).map Prod.fst := by
  rw [ticketQueueOrder]
  split_ifs with hlen
  · have hperm := dealt_perm js h rows ticketQueue
    match ticketQueue, hlen with
    | [], _ => exact hperm.eq_nil.symm
    | [e], _ => exact (perm_singleton.mp hperm).symm
  · rfl

theorem count_dealt (org : JsString) (p : List (Entry × SortKey)) :
    countOf org (p.map Prod.fst) = p.countP fun w => siteOf w = org := by
  rw [countOf, countP_map]
  rfl

theorem waiting_nil (horg : org ∉ orgs h rows ticketQueue) :
    waiting ticketQueue org = [] := by
  refine filter_eq_nil_iff.mpr fun e he hsite => ?_
  exact horg (mem_orgs.mpr ⟨e, he, of_decide_eq_true hsite⟩)

variable (js h rows) in
theorem countOf_queue (org : JsString) :
    countOf org ticketQueue = (lineOf js h rows ticketQueue org).length := by
  have hlen := (lineOf_fst js h rows ticketQueue org).length_eq
  rw [length_map] at hlen
  rw [hlen, countOf, countP_eq_length_filter]
  rfl

theorem order_sorted (hplain : Plain h rows ticketQueue) (org : JsString) :
    (waiting (ticketQueueOrder js h rows ticketQueue) org).Pairwise fun e f =>
      due h rows e ≤ due h rows f := by
  by_cases horg : org ∈ orgs h rows ticketQueue
  · have hline : waiting (ticketQueueOrder js h rows ticketQueue) org =
        (lineOf js h rows ticketQueue org).map Prod.fst := by
      rw [ticketQueueOrder_eq, waiting, filter_map, ← (alone js horg).filter_deal]
      rfl
    rw [hline]
    exact pairwise_map.mpr (lineOf_sorted js h hplain org)
  · have hperm : (waiting (ticketQueueOrder js h rows ticketQueue) org).Perm [] := by
      rw [ticketQueueOrder_eq, ← waiting_nil horg]
      exact (dealt_perm js h rows ticketQueue).filter _
    rw [hperm.eq_nil]
    exact .nil

theorem order_even {org org' : JsString} {p : List Entry}
    (hp : p <+: ticketQueueOrder js h rows ticketQueue)
    (hmore : countOf org' p + 1 < countOf org p) :
    countOf org' p = countOf org' ticketQueue := by
  have hsub : ∀ org, countOf org p ≤ countOf org ticketQueue := by
    intro o
    refine hp.sublist.countP_le.trans ?_
    rw [ticketQueueOrder_eq]
    exact ((dealt_perm js h rows ticketQueue).countP_eq _).le
  have hzero : ∀ {o}, o ∉ orgs h rows ticketQueue → countOf o ticketQueue = 0 := by
    intro o ho
    rw [countOf, countP_eq_length_filter]
    exact congrArg List.length (waiting_nil ho)
  by_cases horg : org ∈ orgs h rows ticketQueue
  · by_cases horg' : org' ∈ orgs h rows ticketQueue
    · rw [ticketQueueOrder_eq] at hp
      obtain ⟨q, hq, rfl⟩ := prefix_map_iff.mp hp
      rw [count_dealt, count_dealt] at hmore
      rw [count_dealt, countOf_queue js h rows]
      exact RoundRobin.even (alone js horg) (alone js horg') hq hmore
    · have h0 := hzero horg'
      have := hsub org'
      omega
  · have h0 := hzero horg
    have := hsub org
    omega

theorem order_rounds (hplain : Plain h rows ticketQueue) (hanchored : Anchored h rows ticketQueue)
    {before between after : List Entry} {e f : Entry}
    (heq : ticketQueueOrder js h rows ticketQueue = before ++ e :: between ++ f :: after)
    (hround : countOf e.siteKey before = countOf f.siteKey (before ++ e :: between)) :
    oldest ticketQueue e.siteKey ≤ oldest ticketQueue f.siteKey := by
  have hmem : ∀ g ∈ before ++ e :: between ++ f :: after, g.siteKey ∈ orgs h rows ticketQueue := by
    intro g hg
    rw [← heq, ticketQueueOrder_eq, (dealt_perm js h rows ticketQueue).mem_iff] at hg
    exact mem_orgs.mpr ⟨g, hg, rfl⟩
  have hvisit : (byAge js h rows ticketQueue).Pairwise fun l l' => ∀ a ∈ l, ∀ b ∈ l',
      oldest ticketQueue (siteOf a) ≤ oldest ticketQueue (siteOf b) := by
    refine pairwise_iff_forall_sublist.mpr fun {l l'} hsub a ha b hb => ?_
    obtain ⟨org, horg, rfl⟩ := mem_map.mp (byAge_perm.mem_iff.mp (hsub.subset
      mem_cons_self))
    obtain ⟨org', horg', rfl⟩ := mem_map.mp (byAge_perm.mem_iff.mp
      (hsub.subset (.tail _ mem_cons_self)))
    have hne : org ≠ org' := by
      rintro rfl
      exact not_both_sublist byAge_nodup hsub hsub
    rw [siteOf_lineOf ha, siteOf_lineOf hb]
    have hahead := visited_ahead horg horg' hne hsub
    obtain ⟨x, hx, rfl, hlead, -⟩ := exists_lead js hplain horg
    obtain ⟨y, hy, rfl, hlead', -⟩ := exists_lead js hplain horg'
    rw [Ahead, anchor_lead js hplain hx hlead, anchor_lead js hplain hy hlead'] at hahead
    exact hanchored x hx y hy hlead hlead' hahead
  rw [ticketQueueOrder_eq] at heq
  obtain ⟨pq, rest, hdeal, hpq, hrest⟩ := map_eq_append_iff.mp heq
  obtain ⟨p, q, rfl, rfl, hq⟩ := map_eq_append_iff.mp hpq
  obtain ⟨w, q', rfl, rfl, rfl⟩ := map_eq_cons_iff.mp hq
  obtain ⟨w', r, rfl, rfl, rfl⟩ := map_eq_cons_iff.mp hrest
  rw [← map_cons, ← map_append, count_dealt, count_dealt] at hround
  have hw := hmem w.1 (by simp)
  have hw' := hmem w'.1 (by simp)
  exact RoundRobin.same_round siteOf (alone js hw) (alone js hw') hvisit hdeal hround

theorem anchored_of_rounds (hplain : Plain h rows ticketQueue)
    (hfair : Fair h rows ticketQueue (ticketQueueOrder js h rows ticketQueue)) :
    Anchored h rows ticketQueue := by
  intro e he f hf hlead hlead' hahead
  have horg : e.siteKey ∈ orgs h rows ticketQueue := mem_orgs.mpr ⟨e, he, rfl⟩
  have horg' : f.siteKey ∈ orgs h rows ticketQueue := mem_orgs.mpr ⟨f, hf, rfl⟩
  by_cases hne : e.siteKey = f.siteKey
  · rw [hne]
  · rw [← anchor_lead js hplain he hlead, ← anchor_lead js hplain hf hlead']
      at hahead
    have hsub := ahead_visited horg horg' hne hahead
    obtain ⟨x, hx, hxe, -, line, hline⟩ := exists_lead js hplain horg
    obtain ⟨y, hy, hyf, -, line', hline'⟩ := exists_lead js hplain horg'
    have halone := alone js horg
    have halone' := alone js horg'
    rw [hline, hline'] at hsub
    rw [hline, ← hxe] at halone
    rw [hline', ← hyf] at halone'
    obtain ⟨before, between, after, hdeal, hzero, hzero'⟩ :=
      RoundRobin.heads_dealt siteOf halone halone' hsub
    rw [← hxe, ← hyf]
    refine hfair.rounds (before.map Prod.fst) x (between.map Prod.fst) y (after.map Prod.fst) ?_ ?_
    · rw [ticketQueueOrder_eq, hdeal]
      simp [keyed]
    · have hmap : before.map Prod.fst ++ x :: between.map Prod.fst =
          (before ++ keyed h rows x :: between).map Prod.fst := by simp [keyed]
      rw [hmap, count_dealt, count_dealt]
      exact hzero.trans hzero'.symm

end

/-- On tickets of plain types the drain's order is fair exactly when the entries that lead the lines
order the orgs as their oldest entries do. -/
theorem order_fair_iff (js : JsSort) (h : Hub) (rows : Rows) (ticketQueue : List Entry)
    (hplain : Plain h rows ticketQueue) :
    Fair h rows ticketQueue (ticketQueueOrder js h rows ticketQueue) ↔
      Anchored h rows ticketQueue := by
  refine ⟨anchored_of_rounds hplain, fun hanchored => ⟨?_, order_sorted hplain, ?_, ?_⟩⟩
  · rw [ticketQueueOrder_eq]
    exact dealt_perm js h rows ticketQueue
  · exact fun _ _ _ hp hmore => order_even hp hmore
  · exact fun _ _ _ _ _ heq hround => order_rounds hplain hanchored heq hround

section

def exampleHub : Hub := ⟨fun _ => none, fun _ => none⟩

/-- A ticket of org `org`, queued at `at`; its key is its place in the queue. -/
def entry (org key : String) (queuedAt : ℤ) : Entry :=
  ⟨.ofString org, .ofString key, queuedAt⟩

def rowOf (priority : Option Band) (type : String) : Row :=
  ⟨some ⟨priority, some (.ofString type)⟩, none, some (.ofString "app")⟩

/-- The older ticket of org `a` is no P0, the younger one is. -/
def preempted : List Entry := [entry "a" "A-1" 1, entry "b" "B-1" 3, entry "a" "A-2" 5]

def preemptedRows : Rows := fun k =>
  if k = ticketQueueKey (.ofString "a") (.ofString "A-2") then some (rowOf (some .p0) "bug")
  else some (rowOf none "bug")

def steadyRows : Rows := fun _ => some (rowOf none "bug")

def inheritedRows : Rows := fun k =>
  if k = ticketQueueKey (.ofString "a") (.ofString "A-1") then some (rowOf none "constructor")
  else some (rowOf none "bug")

instance (h : Hub) (rows : Rows) (ticketQueue : List Entry) : Decidable (Plain h rows ticketQueue) :=
  inferInstanceAs (Decidable (∀ e ∈ ticketQueue, ∀ f ∈ ticketQueue, (_ ∧ _ ∧ _ ∧ _) →
    ∀ type ∈ typeOf (rowAt rows e), type ∉ inherited))

instance (h : Hub) (rows : Rows) (ticketQueue : List Entry) (e : Entry) :
    Decidable (Leads h rows ticketQueue e) :=
  inferInstanceAs (Decidable (∀ f ∈ waiting ticketQueue e.siteKey, due h rows e ≤ due h rows f))

instance (h : Hub) (rows : Rows) (ticketQueue : List Entry) :
    Decidable (Anchored h rows ticketQueue) :=
  inferInstanceAs (Decidable (∀ e ∈ ticketQueue, ∀ f ∈ ticketQueue, Leads h rows ticketQueue e →
    Leads h rows ticketQueue f → (e.queuedAt < f.queuedAt ∨ e.queuedAt = f.queuedAt ∧
      (ticketQueue.map Entry.siteKey).idxOf e.siteKey <
        (ticketQueue.map Entry.siteKey).idxOf f.siteKey) →
    oldest ticketQueue e.siteKey ≤ oldest ticketQueue f.siteKey))

end

theorem order_fair_steady :
    Fair exampleHub steadyRows preempted (ticketQueueOrder insertion exampleHub steadyRows preempted) :=
  (order_fair_iff insertion exampleHub steadyRows preempted (by decide)).mpr
    (by decide)

/-- The org that has waited longest goes last where a younger P0 leads its line, and a type with an
inherited name stays ahead of a bug. -/
theorem order_unfair :
    ¬ Fair exampleHub preemptedRows preempted
        (ticketQueueOrder insertion exampleHub preemptedRows preempted) ∧
      ¬ Fair exampleHub inheritedRows preempted
        (ticketQueueOrder insertion exampleHub inheritedRows preempted) := by
  constructor
  · intro hfair
    have horder : ticketQueueOrder insertion exampleHub preemptedRows preempted =
        [] ++ entry "b" "B-1" 3 :: [] ++ entry "a" "A-2" 5 :: [entry "a" "A-1" 1] := by
      decide
    exact absurd (hfair.rounds _ _ _ _ _ horder (by decide)) (by decide)
  · intro hfair
    have hline : waiting (ticketQueueOrder insertion exampleHub inheritedRows preempted)
        (.ofString "a") = [entry "a" "A-1" 1, entry "a" "A-2" 5] := by decide
    have hsorted := hfair.sorted (.ofString "a")
    rw [hline] at hsorted
    exact absurd hsorted (by decide)

end Turma.TicketQueue
