import Turma.PermissionLedger.Model
import Turma.PermissionLedger.PgStore

/-! The table of the permission ledger and its hot model agree whenever the queue has come to rest,
over every run in which the table takes every upsert. -/

namespace Turma.PermissionLedger

open Turma.Lib List Option WriteBehind

section

variable {hosts : Hosts} {host : JsString} {kept : List Row}

theorem byId_append (rows rows' : List Row) : byId (rows ++ rows') = byId rows ++ byId rows' :=
  map_append

/-- The model with the rows of a beat, before any is closed by its age. -/
def withBeat (hosts : Hosts) (host : JsString) (kept : List Row) : Hosts :=
  hosts.upsert host fun _ => (closeSuperseded (kept.foldl setRow (rowsOf hosts host)) kept).foldl
    setRow (kept.foldl setRow (rowsOf hosts host))

def written (now : ℕ) (hosts : Hosts) (host : JsString) (kept : List Row) (h : JsString) : List Row :=
  (if h = host then kept ++ closeSuperseded (kept.foldl setRow (rowsOf hosts host)) kept else []) ++
    rowsAt (ageOut now (withBeat hosts host kept)).2 h

theorem hot_withBeat (hosts : Hosts) (host : JsString) (kept : List Row) (h i : JsString) :
    hot (withBeat hosts host kept) (h, i) =
      (latest i (byId (if h = host then
        kept ++ closeSuperseded (kept.foldl setRow (rowsOf hosts host)) kept else []))).or
          (hot hosts (h, i)) := by
  rw [withBeat, hot_upsert]
  split_ifs with hh
  · rw [← foldl_append, get?_setRows, rowsOf_get?]
    rw [show h = host from hh]
  · rfl

theorem Keyed.withBeat (hkeyed : Keyed hosts) : Keyed (withBeat hosts host kept) := by
  rintro ⟨h, i⟩ r hr
  rw [hot_withBeat, or_eq_some_iff] at hr
  rcases hr with hr | ⟨_, hr⟩
  · obtain ⟨r', _, heq⟩ := List.mem_map.mp (mem_of_latest hr)
    obtain ⟨hid, rfl⟩ := Prod.mk.inj heq
    exact hid
  · exact hkeyed (h, i) r hr

theorem hot_written (hkeyed : Keyed hosts) (now : ℕ) (h i : JsString) :
    hot (ageOut now (withBeat hosts host kept)).1 (h, i) =
      (latest i (byId (written now hosts host kept h))).or (hot hosts (h, i)) := by
  rw [hot_ageOut_eq hkeyed.withBeat, hot_withBeat, written, byId_append, latest_append,
    Option.or_assoc]

/-- What a beat leaves at a key. -/
theorem hot_ingestKept (hkeyed : Keyed hosts) (l : Limits) (now : ℕ) (h i : JsString) :
    hot (ingestKept l now hosts host kept).hosts (h, i) =
      if (h, i) ∈ (ingestKept l now hosts host kept).gone then none
      else (latest i (byId (written now hosts host kept h))).or (hot hosts (h, i)) := by
  rw [← hot_written hkeyed]
  exact hot_evict l now (ageOut now (withBeat hosts host kept)).1 (h, i)

theorem Keyed.ingestKept (hkeyed : Keyed hosts) (l : Limits) (now : ℕ) :
    Keyed (ingestKept l now hosts host kept).hosts := by
  rintro ⟨h, i⟩ r hr
  rw [hot_ingestKept hkeyed] at hr
  split_ifs at hr
  rw [or_eq_some_iff] at hr
  rcases hr with hr | ⟨_, hr⟩
  · obtain ⟨r', _, heq⟩ := List.mem_map.mp (mem_of_latest hr)
    obtain ⟨hid, rfl⟩ := Prod.mk.inj heq
    exact hid
  · exact hkeyed (h, i) r hr

theorem rowsAt_mapRows {rows : JsString → List Row → List Row} {h : JsString} (hnil : rows h [] = [])
    (old : List (JsString × List Row)) :
    rowsAt (old.map fun e => (e.1, rows e.1 e.2)) h = rows h (rowsAt old h) := by
  induction old with
  | nil => exact hnil.symm
  | cons e old ih =>
    unfold rowsAt at ih ⊢
    by_cases he : e.1 = h
    · simp [he]
    · simpa [he] using ih

theorem rowsAt_others (old : List (JsString × List Row)) {h : JsString} (hh : h ≠ host) :
    rowsAt (old.filter fun e => e.1 ≠ host) h = rowsAt old h := by
  induction old with
  | nil => rfl
  | cons e old ih =>
    unfold rowsAt at ih ⊢
    by_cases he : e.1 = host
    · rw [filter_cons_of_neg (by simp [he]), ih]
      simp [he, Ne.symm hh]
    · rw [filter_cons_of_pos (by simp [he])]
      by_cases heh : e.1 = h
      · simp [heh]
      · simpa [heh] using ih

theorem ageOut_nodup (now : ℕ) (hosts : Hosts) : ((ageOut now hosts).2.map Prod.fst).Nodup := by
  refine List.Nodup.sublist (filter_sublist.map _) ?_
  rw [List.map_map]
  exact hosts.nodup

/-- The rows to write to the other hosts, as a beat hands them over. -/
theorem changes_eq (l : Limits) (now : ℕ) :
    (ingestKept l now hosts host kept).changes =
      (host, surviving (rowsOf (ingestKept l now hosts host kept).hosts host)
        (written now hosts host kept host)) ::
      ((((ageOut now (withBeat hosts host kept)).2.filter fun e => e.1 ≠ host).map fun e =>
        (e.1, surviving (rowsOf (ingestKept l now hosts host kept).hosts e.1) e.2)).filter
          fun e => e.2 ≠ []) := by
  rw [written, if_pos rfl]
  rfl

theorem others_nodup (now : ℕ) (rows : JsString → List Row → List Row) :
    ((((ageOut now (withBeat hosts host kept)).2.filter fun e => e.1 ≠ host).map fun e =>
      (e.1, rows e.1 e.2)).map Prod.fst).Nodup := by
  rw [List.map_map]
  exact (ageOut_nodup now _).sublist (filter_sublist.map _)

theorem changes_nodup (l : Limits) (now : ℕ) :
    ((ingestKept l now hosts host kept).changes.map Prod.fst).Nodup := by
  rw [changes_eq, map_cons, nodup_cons]
  refine ⟨fun hmem => ?_, (others_nodup now fun h rows =>
    surviving (rowsOf (ingestKept l now hosts host kept).hosts h) rows).sublist
      (filter_sublist.map _)⟩
  obtain ⟨e, he, hhost⟩ := List.mem_map.mp hmem
  obtain ⟨e', he', rfl⟩ := List.mem_map.mp (mem_filter.mp he).1
  exact of_decide_eq_true (mem_filter.mp he').2 hhost

/-- The rows that a beat hands to the store for a host are those it wrote that are still there. -/
theorem rowsAt_changes (l : Limits) (now : ℕ) (h : JsString) :
    rowsAt (ingestKept l now hosts host kept).changes h =
      surviving (rowsOf (ingestKept l now hosts host kept).hosts h)
        (written now hosts host kept h) := by
  have hothers := @others_nodup hosts host kept now fun h rows =>
    surviving (rowsOf (ingestKept l now hosts host kept).hosts h) rows
  rw [changes_eq]
  generalize (ingestKept l now hosts host kept).hosts = left at hothers ⊢
  by_cases hh : host = h
  · subst hh
    simp [rowsAt]
  · have hcons : ∀ (rows : List Row) (cs : List (JsString × List Row)),
        rowsAt ((host, rows) :: cs) h = rowsAt cs h := by
      intro rows cs
      simp [rowsAt, hh]
    rw [hcons, rowsAt_filter hothers,
      @rowsAt_mapRows (fun h rows => surviving (rowsOf left h) rows) _ rfl,
      rowsAt_others _ (Ne.symm hh), written, if_neg (Ne.symm hh), nil_append]

def upserts (changes : List (JsString × List Row)) : List (Key × Stored) :=
  changes.flatMap fun c => c.2.map (tuple c.1)

theorem latest_tuples (h : JsString) (rows : List Row) (i : JsString) :
    latest (h, i) (rows.map (tuple h)) = (latest i (byId rows)).map Row.stored := by
  induction rows with
  | nil => rfl
  | cons r rows ih =>
    rw [map_cons, latest, ih, latest_cons, map_or]
    congr 1
    by_cases hi : r.id = i
    · simp [tuple, hi]
    · simp [tuple, hi]

theorem latest_upserts {changes : List (JsString × List Row)}
    (hnodup : (changes.map Prod.fst).Nodup) (h i : JsString) :
    latest (h, i) (upserts changes) = (latest i (byId (rowsAt changes h))).map Row.stored := by
  induction changes with
  | nil => rfl
  | cons c changes ih =>
    rw [map_cons, nodup_cons] at hnodup
    have hcons : upserts (c :: changes) = c.2.map (tuple c.1) ++ upserts changes := rfl
    rw [hcons, latest_append]
    by_cases hc : c.1 = h
    · have hrest : latest (h, i) (upserts changes) = none := by
        rw [latest_eq_none]
        intro hmem
        obtain ⟨e, he, heq⟩ := List.mem_map.mp hmem
        obtain ⟨c', hc', he⟩ := mem_flatMap.mp he
        obtain ⟨r, _, rfl⟩ := List.mem_map.mp he
        have hh : c'.1 = h := congrArg Prod.fst heq
        exact hnodup.1 (List.mem_map.mpr ⟨c', hc', hh.trans hc.symm⟩)
      have hrows : rowsAt (c :: changes) h = c.2 := by simp [rowsAt, hc]
      rw [hrest, none_or, hrows, hc, latest_tuples]
    · have hfirst : latest (h, i) (c.2.map (tuple c.1)) = none := by
        rw [latest_eq_none]
        intro hmem
        obtain ⟨e, he, heq⟩ := List.mem_map.mp hmem
        obtain ⟨r, _, rfl⟩ := List.mem_map.mp he
        exact hc (congrArg Prod.fst heq)
      have hrows : rowsAt (c :: changes) h = rowsAt changes h := by simp [rowsAt, hc]
      rw [hfirst, or_none, hrows, ih hnodup.2]

def storeChanged (store : PgStore) (changes : List (JsString × List Row)) : PgStore :=
  changes.foldl (fun store c => onChange store c.1 c.2) store

theorem onChange_queue {store : PgStore} {h : JsString} {rows : List Row}
    (hroom : (store.queue ++ rows.map (tuple h)).length ≤ pgConfig.cap) :
    (onChange store h rows).queue = store.queue ++ rows.map (tuple h) := by
  rw [onChange, upsert_queue, trim_of_le hroom]

theorem storeChanged_spec {changes : List (JsString × List Row)} {store : PgStore}
    (hroom : (store.queue ++ upserts changes).length ≤ pgConfig.cap)
    (hapart : WriteBehind.Apart store) :
    WriteBehind.Apart (storeChanged store changes) ∧ ∀ k,
      due (storeChanged store changes) k =
        (latest k (upserts changes)).or (due store k) := by
  induction changes generalizing store with
  | nil => exact ⟨hapart, fun _ => rfl⟩
  | cons c changes ih =>
    have hcons : upserts (c :: changes) = c.2.map (tuple c.1) ++ upserts changes := rfl
    rw [hcons, ← append_assoc] at hroom
    have hfirst : (store.queue ++ c.2.map (tuple c.1)).length ≤ pgConfig.cap := by
      rw [length_append] at hroom
      exact le_trans (Nat.le_add_right _ _) hroom
    have hrest := @ih (onChange store c.1 c.2) (by rw [onChange_queue hfirst]; exact hroom)
      (apart_upsert hfirst hapart)
    refine ⟨hrest.1, fun k => ?_⟩
    have hdue : due (onChange store c.1 c.2) k =
        (latest k (c.2.map (tuple c.1))).or (due store k) :=
      due_upsert hfirst
    rw [hcons, latest_append, Option.or_assoc, ← hdue]
    exact hrest.2 k

/-- A beat leaves both queues within their bounds. -/
def Fits (l : Limits) (s : Ledger) : Event → Prop
  | .ingest now host events => ∀ out ∈ ingest l now s.hosts host events,
      (s.store.queue ++ upserts out.changes).length ≤ pgConfig.cap ∧
        ((storeChanged s.store out.changes).deletes ++ out.gone).length ≤ pgConfig.cap
  | _ => True

theorem storeIngested_spec {store : PgStore} {out : Ingested}
    (hroom : (store.queue ++ upserts out.changes).length ≤ pgConfig.cap)
    (hroom' : ((storeChanged store out.changes).deletes ++ out.gone).length ≤ pgConfig.cap)
    (hapart : WriteBehind.Apart store) :
    WriteBehind.Apart (storeIngested store out) ∧ ∀ k,
      due (storeIngested store out) k = if k ∈ out.gone then none
        else (latest k (upserts out.changes)).or (due store k) := by
  obtain ⟨hchanged, hdue⟩ := storeChanged_spec hroom hapart
  have hdef : storeIngested store out = if out.gone = [] then storeChanged store out.changes
      else onDelete (storeChanged store out.changes) out.gone := rfl
  rw [hdef]
  split_ifs with hgone
  · refine ⟨hchanged, fun k => ?_⟩
    rw [hgone, if_neg (by simp)]
    exact hdue k
  · refine ⟨apart_delete hroom' hchanged, fun k => ?_⟩
    have hdelete : due (onDelete (storeChanged store out.changes) out.gone) k = _ :=
      due_delete hroom'
    rw [hdelete, hdue k]
    by_cases hk : k ∈ out.gone
    · simp only [hk, if_true]
    · simp only [hk, if_false]

/-- What the table is going to hold is what the model holds. -/
structure Agrees (s : Ledger) : Prop where
  due : ∀ k, due s.store k = (hot s.hosts k).map Row.stored
  keyed : Keyed s.hosts
  apart : WriteBehind.Apart s.store
  purges : s.purges = []

variable {l : Limits} {s : Ledger}

theorem Agrees.ingest (h : Agrees s) {now : ℕ} {events : List RawEvent} {out : Ingested}
    (hout : ingest l now s.hosts host events = some out)
    (hroom : (s.store.queue ++ upserts out.changes).length ≤ pgConfig.cap)
    (hroom' : ((storeChanged s.store out.changes).deletes ++ out.gone).length ≤ pgConfig.cap) :
    Agrees { s with hosts := out.hosts, store := storeIngested s.store out } := by
  obtain ⟨hapart, hdue⟩ := storeIngested_spec hroom hroom' h.apart
  obtain ⟨kept, rfl⟩ : ∃ kept, out = ingestKept l now s.hosts host kept := by
    unfold PermissionLedger.ingest at hout
    dsimp only at hout
    split_ifs at hout
    exact ⟨_, (Option.some.inj hout).symm⟩
  refine ⟨?_, h.keyed.ingestKept l now, hapart, h.purges⟩
  rintro ⟨h', i⟩
  have hhot := @hot_ingestKept _ host kept h.keyed l now h' i
  rw [hdue, hhot, latest_upserts (changes_nodup l now), rowsAt_changes, latest_surviving, h.due]
  split_ifs with hgone
  · rfl
  rw [if_neg hgone] at hhot
  cases hlast : latest i (byId (written now s.hosts host kept h')) with
  | none => rfl
  | some r =>
    -- what was written last is what the model holds
    rw [hlast, some_or] at hhot
    have hheld : (rowsOf (ingestKept l now s.hosts host kept).hosts h').get? i = some r :=
      (rowsOf_get? _ h' i).trans hhot
    rw [filter_some, if_pos (decide_eq_true hheld)]
    rfl

def Alone : Event → Prop
  | .ingest _ _ _ | .drain | .resume true | .close => True
  | _ => False

/-- The table takes every upsert that lands: it holds no row that is further along. -/
def Takes (s : Ledger) : Event → Prop
  | .resume _ => WriteBehind.Accepted pgConfig s.store
  | _ => True

instance (l : Limits) (s : Ledger) (e : Event) : Decidable (Fits l s e) := by
  cases e <;> unfold Fits <;> infer_instance

instance (s : Ledger) (e : Event) : Decidable (Takes s e) := by
  cases e <;> unfold Takes <;> infer_instance

theorem Agrees.resume (h : Agrees s) (hok : WriteBehind.Accepted pgConfig s.store) :
    Agrees (step l s (.resume true)) := by
  have hdue : ∀ k, WriteBehind.due (s.store.resume pgConfig true) k = WriteBehind.due s.store k :=
    fun k => WriteBehind.due_resume h.apart (fun _ => hok) nofun
  have hapart : WriteBehind.Apart (s.store.resume pgConfig true) := WriteBehind.apart_resume h.apart
  dsimp only [step, wakePurges]
  cases (s.store.resume pgConfig true).flight with
  | idle =>
    -- no purge waits for the drain
    refine ⟨fun k => ?_, h.keyed, ?_, ?_⟩
    · rw [h.purges, ← h.due k]
      exact hdue k
    · rw [h.purges]
      exact hapart
    · rw [h.purges]
      rfl
  | begun | upserting | deleting =>
    exact ⟨fun k => (hdue k).trans (h.due k), h.keyed, hapart, h.purges⟩

theorem Agrees.step (h : Agrees s) (e : Event) (halone : Alone e) (hfits : Fits l s e)
    (htakes : Takes s e) : Agrees (step l s e) := by
  cases e with
  | ingest now host events =>
    dsimp only [PermissionLedger.step]
    cases hout : PermissionLedger.ingest l now s.hosts host events with
    | none => exact h
    | some out =>
      obtain ⟨hroom, hroom'⟩ := hfits out hout
      exact h.ingest hout hroom hroom'
  | drain =>
    exact ⟨fun k => due_drain.trans (h.due k), h.keyed, apart_drain h.apart,
      h.purges⟩
  | resume ok =>
    cases ok with
    | true => exact h.resume htakes
    | false => exact halone.elim
  | close => exact ⟨h.due, h.keyed, h.apart, h.purges⟩
  | rescan | prune | select | merge | giveUp | purge | purgeLands | sweep => exact halone.elim

theorem agrees_init {hosts : Hosts} {table : Key → Option Stored}
    (htable : ∀ k, table k = (hot hosts k).map Row.stored) (hkeyed : Keyed hosts) :
    Agrees (Ledger.init hosts table) := by
  refine ⟨fun k => ?_, hkeyed, fun _ hf => absurd hf (by simp [Ledger.init, init]), rfl⟩
  refine Eq.trans ?_ (htable k)
  simp [due, Ledger.init, init, latest, Flight.applied]

/-- Whenever the queue has come to rest, the table holds the rows of the model, in every run in
which it takes every upsert that lands. -/
theorem table_agrees (l : Limits) (hosts : Hosts) (table : Key → Option Stored)
    (htable : ∀ k, table k = (hot hosts k).map Row.stored) (hkeyed : Keyed hosts)
    (evs : List Event) (halone : ∀ e ∈ evs, Alone e)
    (hfits : Along (step l) (Fits l) (Ledger.init hosts table) evs)
    (htakes : Along (step l) Takes (Ledger.init hosts table) evs)
    (hrest : WriteBehind.AtRest (run (step l) (Ledger.init hosts table) evs).store) (k : Key) :
    (run (step l) (Ledger.init hosts table) evs).store.table k =
      (hot (run (step l) (Ledger.init hosts table) evs).hosts k).map Row.stored := by
  have hok : Along (step l) (fun s e => Alone e ∧ Fits l s e ∧ Takes s e)
      (Ledger.init hosts table) evs := (along_of_forall _ halone).and _ (hfits.and _ htakes)
  have hagrees : Agrees (run (step l) (Ledger.init hosts table) evs) :=
    run_inv (step l) (fun s e h hok => h.step e hok.1 hok.2.1 hok.2.2) (agrees_init htable hkeyed) hok
  exact (table_of_atRest hrest k).trans (hagrees.due k)

def answered : Row := { question with closedAt := some 1500, answer := some .allow }

def boxKey : Key := (JsString.ofString "box", question.id)

def send (now : ℕ) (r : Row) : Event := .ingest now boxKey.1 [r.raw]

def opened : List Event :=
  [send 2000 question, .resume true, .resume true, send 3000 answered, .resume true, .resume true]

def reopened : List Event :=
  [send 2000 answered, .resume true, .resume true, send 3000 question, .resume true, .resume true]

theorem table_agrees_opened :
    let s := run (step defaultLimits) (Ledger.init OrdMap.empty fun _ => none) opened
    s.store.table boxKey = (hot s.hosts boxKey).map Row.stored :=
  table_agrees defaultLimits OrdMap.empty (fun _ => none) (fun _ => rfl)
    (fun _ _ h => absurd h (by simp [hot])) opened (by simp [opened, send, Alone])
    (by decide +kernel) (by decide +kernel) (by decide +kernel) boxKey

theorem reopened_disagrees :
    let s := run (step defaultLimits) (Ledger.init OrdMap.empty fun _ => none) reopened
    (∀ e ∈ reopened, Alone e) ∧
      Along (step defaultLimits) (Fits defaultLimits) (Ledger.init OrdMap.empty fun _ => none)
        reopened ∧
      WriteBehind.AtRest s.store ∧ hot s.hosts boxKey = some question ∧
      s.store.table boxKey = some answered.stored := by
  exact ⟨by simp [reopened, send, Alone], by decide +kernel, by decide +kernel, by decide +kernel,
    by decide +kernel⟩

end

end Turma.PermissionLedger
