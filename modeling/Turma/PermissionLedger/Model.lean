import Turma.PermissionLedger.Event
import Turma.Tenancy.HostKey
import Turma.Lib.WriteBehind

/-! The hot model of the permission ledger: the rows of each host by their ids, what a beat adds
to them, which rows are closed without their agent, and which are evicted. -/

namespace Turma.PermissionLedger

open Turma.Lib Turma.Tenancy OrdMap

abbrev Rows := OrdMap JsString Row

abbrev Hosts := OrdMap JsString Rows

abbrev Key := JsString × JsString

def hot (hosts : Hosts) (k : Key) : Option Row := (hosts.get? k.1).bind fun m => m.get? k.2

/-- `m.set(row.id, row)`. -/
def setRow (m : Rows) (r : Row) : Rows := m.upsert r.id fun _ => r

/-- The model without the rows at `ks`, and without the hosts that keep none. -/
def dropKeys (hosts : Hosts) (ks : List Key) : Hosts where
  entries :=
    (hosts.entries.map fun e => (e.1, e.2.filterKeys fun id => (e.1, id) ∉ ks)).filter
      fun e => e.2.size ≠ 0
  nodup := by
    refine List.Nodup.sublist (List.filter_sublist.map _) ?_
    rw [List.map_map]
    exact hosts.nodup

def oldestFirst (rows : List Row) : List Row :=
  rows.mergeSort fun a b =>
    a.openedAt < b.openedAt || (a.openedAt = b.openedAt && a.id.before b.id)

/-- The rows that a host over its share loses, from the oldest. -/
def surplus (hostMaxBytes : ℕ) : ℕ → ℕ → List Row → List Row
  | _, _, [] => []
  | overRows, hostBytes, r :: rs =>
    if overRows = 0 ∧ hostBytes ≤ hostMaxBytes then []
    else r :: surplus hostMaxBytes (overRows - 1) (hostBytes - bytesOf r) rs

def rowBytes (rows : List Row) : ℕ := (rows.map bytesOf).sum

/-- The ids of a host's rows that are past retention or over its share. -/
def evictHost (l : Limits) (now : ℕ) (m : Rows) : List JsString :=
  let expired := (m.entries.filter fun e => e.2.openedAt + l.days * dayMs < now).map Prod.fst
  let m := m.filterKeys fun id => id ∉ expired
  let hostBytes := rowBytes m.values
  let hostMaxBytes := l.maxBytes / 4
  if l.hostMaxRows < m.size ∨ hostMaxBytes < hostBytes then
    expired ++
      (surplus hostMaxBytes (m.size - l.hostMaxRows) hostBytes (oldestFirst m.values)).map Row.id
  else expired

/-- The rows of a tenant, the oldest last. -/
abbrev Held := List (JsString × Row)

def heldBytes (held : Held) : ℕ := rowBytes (held.map Prod.snd)

def newestFirst (held : Held) : Held :=
  held.mergeSort fun a b =>
    b.2.openedAt < a.2.openedAt || (b.2.openedAt = a.2.openedAt && !a.2.id.before b.2.id)

def biggest (size : Held → ℕ) (tenants : List Held) : Option Held :=
  tenants.foldl (fun big held =>
    if held ≠ [] ∧ big.all (fun b => size b < size held) = true then some held else big) none

/-- The tenant that holds the most pays, in bytes while these are over and else in rows, until
the store is within its limits. -/
def evictStore : ℕ → ℕ → ℕ → List Held → List Key
  | 0, _, _, _ => []
  | fuel + 1, overRows, overBytes, tenants =>
    if overRows = 0 ∧ overBytes = 0 then []
    else
      match biggest (if 0 < overBytes then heldBytes else List.length) tenants with
      | none => []
      | some big =>
        match big.getLast? with
        | none => []
        | some (host, r) =>
          (host, r.id) :: evictStore fuel (overRows - 1) (overBytes - bytesOf r)
            (tenants.map fun held => if held = big then held.dropLast else held)

def allRows (hosts : Hosts) : List (JsString × Row) :=
  hosts.entries.flatMap fun e => e.2.values.map fun r => (e.1, r)

/-- The model that is left, and what was dropped. -/
def evict (l : Limits) (now : ℕ) (hosts : Hosts) : Hosts × List Key :=
  let byHost := hosts.entries.flatMap fun e => (evictHost l now e.2).map fun id => (e.1, id)
  let hosts := dropKeys hosts byHost
  let rows := allRows hosts
  let tenants := (OrdMap.groupBy (fun e => tenantOfHostKey e.1) rows).values.map newestFirst
  let byTenant := evictStore rows.length (rows.length - l.maxRows)
    (rowBytes (rows.map Prod.snd) - l.maxBytes) tenants
  (dropKeys hosts byTenant, byHost ++ byTenant)

def Row.lost (r : Row) (time : ℕ) : Row :=
  { r with closedAt := some time, answer := some .unknown, via := some .unknown }

/-- When the newest row of the session was opened, among those of the kinds that count. -/
def newest (counts : Kind → Bool) (kept : List Row) (sessionId : JsString) : Option ℕ :=
  ((kept.filter fun r => r.sessionId = sessionId ∧ counts r.kind = true).map Row.openedAt).max?

def supersededAt (kept : List Row) (r : Row) : Option ℕ :=
  match r.kind with
  | .dialog => newest (fun k => k = .dialog) kept r.sessionId
  | .askInChat => newest (fun _ => true) kept r.sessionId
  | _ => none

/-- The older rows of a session that a newer row closes. -/
def closeSuperseded (m : Rows) (kept : List Row) : List Row :=
  m.values.filterMap fun r =>
    if r.sessionId = [] ∨ isOpen r = false then none
    else (supersededAt kept r).bind fun time =>
      if time ≤ r.openedAt then none else some (r.lost time)

def openMaxMs : ℕ := dayMs

def aged (now : ℕ) (r : Row) : Bool := r.openedAt + openMaxMs < now && isOpen r

/-- The model with the rows closed that were open for too long, and these rows by host. -/
def ageOut (now : ℕ) (hosts : Hosts) : Hosts × List (JsString × List Row) :=
  (hosts.mapValues fun m => m.mapValues fun r => if aged now r = true then r.lost now else r,
    (hosts.entries.map fun e =>
      (e.1, (e.2.values.filter (aged now)).map fun r => r.lost now)).filter fun e => e.2 ≠ [])

def eventsPerBeat : ℕ := 200

/-- The last row of each id: the ones that are still in the model by identity. -/
def lastOf : List Row → List Row
  | [] => []
  | r :: rs => if r.id ∈ rs.map Row.id then lastOf rs else r :: lastOf rs

def surviving (m : Rows) (written : List Row) : List Row :=
  (lastOf written).filter fun r => m.get? r.id = some r

def rowsOf (hosts : Hosts) (host : JsString) : Rows := (hosts.get? host).getD OrdMap.empty

/-- What a beat leaves: the model, the rows to write by host, and the keys to delete. -/
structure Ingested where
  hosts : Hosts
  changes : List (JsString × List Row)
  gone : List Key

/-- `ingest`, for a beat of which some row is kept. -/
def ingestKept (l : Limits) (now : ℕ) (hosts : Hosts) (host : JsString) (kept : List Row) :
    Ingested :=
  let m := kept.foldl setRow (rowsOf hosts host)
  let closed := closeSuperseded m kept
  let (hosts, old) := ageOut now (hosts.upsert host fun _ => closed.foldl setRow m)
  let oldOf := fun h => ((old.find? fun e => e.1 = h).map Prod.snd).getD []
  let (hosts, gone) := evict l now hosts
  { hosts := hosts
    changes := (host, surviving (rowsOf hosts host) (kept ++ closed ++ oldOf host)) ::
      (((old.filter fun e => e.1 ≠ host).map fun e =>
        (e.1, surviving (rowsOf hosts e.1) e.2)).filter fun e => e.2 ≠ [])
    gone := gone }

def ingest (l : Limits) (now : ℕ) (hosts : Hosts) (host : JsString) (events : List RawEvent) :
    Option Ingested :=
  if host = [] ∨ host = JsString.ofString "__proto__" then none
  else
    let kept := (events.take eventsPerBeat).filterMap (sanitizePermissionEvent l now)
    if kept = [] then none else some (ingestKept l now hosts host kept)

end Turma.PermissionLedger

/-! What the hot model holds at a key after each of the operations of a beat, and which rows of the
beat it still holds. -/

namespace Turma.PermissionLedger

open Turma.Lib OrdMap

variable {hosts : Hosts} {k : Key} {r : Row}

theorem hot_eq_some : hot hosts k = some r ↔ ∃ m, (k.1, m) ∈ hosts.entries ∧ m.get? k.2 = some r := by
  rw [hot, Option.bind_eq_some_iff]
  exact exists_congr fun m => and_congr_left' get?_eq_some

theorem rowsOf_get? (hosts : Hosts) (h i : JsString) :
    (rowsOf hosts h).get? i = hot hosts (h, i) := by
  unfold rowsOf hot
  cases hosts.get? h <;> rfl

theorem hot_upsert (hosts : Hosts) (host : JsString) (m : Rows) (k : Key) :
    hot (hosts.upsert host fun _ => m) k = if k.1 = host then m.get? k.2 else hot hosts k := by
  rw [hot, get?_upsert]
  split_ifs
  · rfl
  · rfl

theorem hot_dropKeys (hosts : Hosts) (ks : List Key) (k : Key) :
    hot (dropKeys hosts ks) k = if k ∈ ks then none else hot hosts k := by
  refine Option.ext fun r => ?_
  rw [hot_eq_some]
  constructor
  · rintro ⟨m', hm', hr⟩
    obtain ⟨⟨h, m⟩, hm, he⟩ := List.mem_map.mp (List.mem_filter.mp hm').1
    obtain ⟨rfl, rfl⟩ := Prod.mk.inj he
    rw [get?_filterKeys] at hr
    split_ifs at hr with hk
    rw [if_neg (of_decide_eq_true hk)]
    exact hot_eq_some.mpr ⟨m, hm, hr⟩
  · intro hr
    split_ifs at hr with hk
    obtain ⟨m, hm, hr⟩ := hot_eq_some.mp hr
    have hkept : (m.filterKeys fun id => (k.1, id) ∉ ks).get? k.2 = some r := by
      rw [get?_filterKeys, if_pos (decide_eq_true hk), hr]
    refine ⟨_, List.mem_filter.mpr ⟨List.mem_map.mpr ⟨_, hm, rfl⟩, decide_eq_true fun hsize => ?_⟩,
      hkept⟩
    exact size_eq_zero.mp hsize k.2 (OrdMap.mem_keys.mpr ⟨r, hkept⟩)

theorem hot_dropKeys_append (hosts : Hosts) (ks ks' : List Key) (k : Key) :
    hot (dropKeys (dropKeys hosts ks) ks') k = if k ∈ ks ++ ks' then none else hot hosts k := by
  rw [hot_dropKeys, hot_dropKeys]
  by_cases hk : k ∈ ks
  · simp [hk]
  · simp [hk]

theorem hot_evict (l : Limits) (now : ℕ) (hosts : Hosts) (k : Key) :
    hot (evict l now hosts).1 k = if k ∈ (evict l now hosts).2 then none else hot hosts k :=
  hot_dropKeys_append hosts _ _ k

theorem hot_ageOut (now : ℕ) (hosts : Hosts) (k : Key) :
    hot (ageOut now hosts).1 k =
      (hot hosts k).map fun r => if aged now r = true then r.lost now else r := by
  unfold hot ageOut
  rw [get?_mapValues]
  cases hosts.get? k.1 with
  | none => rfl
  | some m => exact get?_mapValues m _ k.2

def Keyed (hosts : Hosts) : Prop := ∀ k r, hot hosts k = some r → r.id = k.2

def byId (rows : List Row) : List (JsString × Row) := rows.map fun r => (r.id, r)

theorem get?_setRows (rows : List Row) (m : Rows) (i : JsString) :
    (rows.foldl setRow m).get? i = (latest i (byId rows)).or (m.get? i) := by
  rw [← get?_foldl_latest, byId, List.foldl_map]
  rfl

def rowsAt (old : List (JsString × List Row)) (h : JsString) : List Row :=
  ((old.find? fun e => e.1 = h).map Prod.snd).getD []

theorem rowsAt_filter {old : List (JsString × List Row)} (hnodup : (old.map Prod.fst).Nodup)
    (h : JsString) : rowsAt (old.filter fun e => e.2 ≠ []) h = rowsAt old h := by
  induction old with
  | nil => rfl
  | cons e old ih =>
    rw [List.map_cons, List.nodup_cons] at hnodup
    have ih := ih hnodup.2
    unfold rowsAt at ih ⊢
    by_cases he : e.1 = h
    · by_cases hrows : e.2 = []
      · have hnone : old.find? (fun e => e.1 = h) = none := by
          rw [List.find?_eq_none]
          intro e' he' heq
          rw [decide_eq_true_eq] at heq
          exact hnodup.1 (List.mem_map.mpr ⟨e', he', heq.trans he.symm⟩)
        rw [List.filter_cons_of_neg (by simp [hrows]), ih, hnone]
        simp [he, hrows]
      · rw [List.filter_cons_of_pos (by simp [hrows])]
        simp [he]
    · by_cases hrows : e.2 = []
      · rw [List.filter_cons_of_neg (by simp [hrows]), ih]
        simp [he]
      · rw [List.filter_cons_of_pos (by simp [hrows])]
        simpa [he] using ih

theorem rowsAt_map (es : List (JsString × Rows)) (rows : Rows → List Row) (h : JsString) :
    rowsAt (es.map fun e => (e.1, rows e.2)) h = ((OrdMap.lookup h es).map rows).getD [] := by
  induction es with
  | nil => rfl
  | cons e es ih =>
    unfold rowsAt at ih ⊢
    by_cases he : e.1 = h
    · simp [OrdMap.lookup, he]
    · simpa [OrdMap.lookup, he] using ih

theorem rowsAt_ageOut (now : ℕ) (hosts : Hosts) (h : JsString) :
    rowsAt (ageOut now hosts).2 h =
      ((rowsOf hosts h).values.filter (aged now)).map fun r => r.lost now := by
  have hnodup : ((hosts.entries.map fun e =>
      (e.1, (e.2.values.filter (aged now)).map fun r => r.lost now)).map Prod.fst).Nodup := by
    rw [List.map_map]
    exact hosts.nodup
  refine (rowsAt_filter hnodup h).trans ?_
  rw [rowsAt_map hosts.entries fun m => (m.values.filter (aged now)).map fun r => r.lost now, rowsOf,
    OrdMap.get?]
  cases OrdMap.lookup h hosts.entries with
  | none => rfl
  | some m => rfl

theorem latest_closed {m : Rows} (hkeyed : ∀ i r, m.get? i = some r → r.id = i) (now : ℕ)
    (i : JsString) :
    latest i (byId ((m.values.filter (aged now)).map fun r => r.lost now)) =
      (m.get? i).bind fun r => if aged now r = true then some (r.lost now) else none := by
  have hids : byId ((m.values.filter (aged now)).map fun r => r.lost now) =
      (m.entries.filter fun e => aged now e.2).map fun e => (e.1, e.2.lost now) := by
    rw [byId, OrdMap.values, List.filter_map, List.map_map, List.map_map]
    refine List.map_congr_left fun e he => ?_
    have hid : e.2.id = e.1 := hkeyed e.1 e.2 (get?_eq_some.mpr (List.mem_filter.mp he).1)
    exact Prod.ext hid rfl
  have hnodup : ((byId ((m.values.filter (aged now)).map fun r => r.lost now)).map Prod.fst).Nodup := by
    rw [hids, List.map_map]
    exact m.nodup.sublist (List.filter_sublist.map _)
  refine Option.ext fun r' => ?_
  rw [latest_eq_lookup i hnodup, lookup_eq_some hnodup, hids, List.mem_map,
    Option.bind_eq_some_iff]
  constructor
  · rintro ⟨e, he, heq⟩
    obtain ⟨hmem, haged⟩ := List.mem_filter.mp he
    obtain ⟨rfl, rfl⟩ := Prod.mk.inj heq
    exact ⟨e.2, get?_eq_some.mpr hmem, if_pos haged⟩
  · rintro ⟨r, hr, hlost⟩
    split_ifs at hlost with haged
    exact ⟨(i, r), List.mem_filter.mpr ⟨get?_eq_some.mp hr, haged⟩,
      Prod.ext rfl (Option.some.inj hlost)⟩

/-- What ageing leaves at a key is the last of the rows that it closed there, or what was there. -/
theorem hot_ageOut_eq (hkeyed : Keyed hosts) (now : ℕ) (h i : JsString) :
    hot (ageOut now hosts).1 (h, i) =
      (latest i (byId (rowsAt (ageOut now hosts).2 h))).or (hot hosts (h, i)) := by
  have hrows : ∀ i r, (rowsOf hosts h).get? i = some r → r.id = i := fun i r hr =>
    hkeyed (h, i) r ((rowsOf_get? hosts h i).symm.trans hr)
  rw [rowsAt_ageOut, latest_closed hrows, rowsOf_get?, hot_ageOut]
  cases hot hosts (h, i) with
  | none => rfl
  | some r =>
    rw [Option.map_some, Option.bind_some]
    split_ifs
    · rfl
    · rfl

theorem latest_cons (r : Row) (rs : List Row) (i : JsString) :
    latest i (byId (r :: rs)) = (latest i (byId rs)).or (if r.id = i then some r else none) :=
  rfl

theorem latest_byId_eq_none {rows : List Row} {i : JsString} :
    latest i (byId rows) = none ↔ i ∉ rows.map Row.id := by
  rw [latest_eq_none, byId, List.map_map]
  rfl

theorem lastOf_sublist (rows : List Row) : (lastOf rows).Sublist rows := by
  induction rows with
  | nil => exact List.Sublist.refl _
  | cons r rs ih =>
    rw [lastOf]
    split_ifs
    · exact ih.cons r
    · exact ih.cons_cons r

theorem lastOf_nodup (rows : List Row) : ((lastOf rows).map Row.id).Nodup := by
  induction rows with
  | nil => exact List.nodup_nil
  | cons r rs ih =>
    rw [lastOf]
    split_ifs with hmem
    · exact ih
    · rw [List.map_cons, List.nodup_cons]
      exact ⟨fun h => hmem (((lastOf_sublist rs).map Row.id).mem h), ih⟩

theorem latest_lastOf (rows : List Row) (i : JsString) :
    latest i (byId (lastOf rows)) = latest i (byId rows) := by
  induction rows with
  | nil => rfl
  | cons r rs ih =>
    rw [lastOf, latest_cons]
    split_ifs with hmem hi hi
    · obtain ⟨r', hr'⟩ := Option.ne_none_iff_exists'.mp
        (mt latest_byId_eq_none.mp (not_not.mpr (hi ▸ hmem)))
      rw [ih, hr', Option.some_or]
    · rw [ih, Option.or_none]
    · rw [latest_cons, ih, if_pos hi]
    · rw [latest_cons, ih, if_neg hi]

theorem latest_surviving (m : Rows) (written : List Row) (i : JsString) :
    latest i (byId (surviving m written)) =
      (latest i (byId written)).filter fun r => m.get? i = some r := by
  have hfilter : byId (surviving m written) =
      (byId (lastOf written)).filter fun e => m.get? e.1 = some e.2 := by
    rw [byId, byId, surviving, List.filter_map]
    rfl
  have hnodup : ((byId (lastOf written)).map Prod.fst).Nodup := by
    rw [byId, List.map_map]
    exact lastOf_nodup written
  have hnodup' : ((byId (surviving m written)).map Prod.fst).Nodup := by
    rw [hfilter]
    exact hnodup.sublist (List.filter_sublist.map _)
  refine Option.ext fun r => ?_
  rw [← latest_lastOf written, latest_eq_lookup i hnodup, latest_eq_lookup i hnodup',
    lookup_eq_some hnodup', hfilter, List.mem_filter, Option.filter_eq_some_iff,
    lookup_eq_some hnodup]

end Turma.PermissionLedger
