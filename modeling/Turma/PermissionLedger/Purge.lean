import Turma.PermissionLedger.PgStore

/-! A purged tenant stays purged, over every run in which no rescan brings rows of it back that it
had read before. -/

namespace Turma.PermissionLedger

open Turma.Lib Turma.Tenancy List OrdMap JsString WriteBehind

variable {host : JsString} {acc : ReadBack}

section

variable {P : JsString → Prop} {hosts : Hosts}

/-- Every host of the model is one of those. -/
def Within (P : JsString → Prop) (hosts : Hosts) : Prop := ∀ h ∈ hosts.keys, P h

theorem Within.dropKeys (h : Within P hosts) (ks : List Key) : Within P (dropKeys hosts ks) := by
  intro host hmem
  refine h host ?_
  obtain ⟨e, he, rfl⟩ := mem_map.mp hmem
  obtain ⟨e', he', rfl⟩ := mem_map.mp (mem_filter.mp he).1
  exact mem_map.mpr ⟨e', he', rfl⟩

theorem Within.evict (l : Limits) (now : ℕ) (h : Within P hosts) : Within P (evict l now hosts).1 :=
  (h.dropKeys _).dropKeys _

theorem Within.ageOut (now : ℕ) (h : Within P hosts) : Within P (ageOut now hosts).1 := by
  intro host hmem
  refine h host ?_
  obtain ⟨e, he, rfl⟩ := mem_map.mp hmem
  obtain ⟨e', he', rfl⟩ := mem_map.mp he
  exact mem_map.mpr ⟨e', he', rfl⟩

theorem ageOut_hosts (now : ℕ) (h : Within P hosts) : ∀ e ∈ (ageOut now hosts).2, P e.1 := by
  intro e he
  obtain ⟨e', he', rfl⟩ := mem_map.mp (mem_filter.mp he).1
  exact h e'.1 (mem_map.mpr ⟨e', he', rfl⟩)

theorem Within.upsert (h : Within P hosts) (hhost : P host)
    (f : Option Rows → Rows) : Within P (hosts.upsert host f) := by
  intro host' hmem
  rcases mem_keys_upsert.mp hmem with rfl | hmem
  · exact hhost
  · exact h host' hmem

theorem allRows_hosts (h : Within P hosts) : ∀ e ∈ allRows hosts, P e.1 := by
  intro e he
  obtain ⟨e', he', hmem⟩ := mem_flatMap.mp he
  obtain ⟨r, _, rfl⟩ := mem_map.mp hmem
  exact h e'.1 (mem_map.mpr ⟨e', he', rfl⟩)

/-- A beat of such a host leaves such hosts, and writes for no other. -/
theorem Within.ingest {l : Limits} {now : ℕ} (h : Within P hosts) (hhost : P host)
    {events : List RawEvent} {out : Ingested} (hout : ingest l now hosts host events = some out) :
    Within P out.hosts ∧ ∀ c ∈ out.changes, P c.1 := by
  unfold PermissionLedger.ingest at hout
  dsimp only at hout
  split_ifs at hout
  rw [← Option.some.inj hout]
  have hup := h.upsert hhost
  refine ⟨((hup _).ageOut now).evict l now, fun c hc => ?_⟩
  rcases mem_cons.mp hc with rfl | hc
  · exact hhost
  · obtain ⟨e, he, rfl⟩ := mem_map.mp (mem_filter.mp hc).1
    exact ageOut_hosts now (hup _) e (mem_filter.mp he).1

/-- The rows of an answer that a rescan takes are of such hosts. -/
def Answers (P : JsString → Prop) (l : Limits) (now : ℕ) (got : List (Key × Stored)) : Prop :=
  ∀ e ∈ got, sanitizePermissionEvent l now e.2.doc.raw ≠ none → P e.1.1

instance [DecidablePred P] (l : Limits) (now : ℕ) (got : List (Key × Stored)) :
    Decidable (Answers P l now got) :=
  inferInstanceAs (Decidable (∀ e ∈ got, _ → P e.1.1))

theorem Within.readRow (l : Limits) (now : ℕ) {e : Key × Stored}
    (h : Within P acc.hosts) (hstale : ∀ r ∈ acc.stale, P r.1)
    (he : sanitizePermissionEvent l now e.2.doc.raw ≠ none → P e.1.1) :
    Within P (readRow l now acc e).hosts ∧ ∀ r ∈ (readRow l now acc e).stale, P r.1 := by
  unfold PermissionLedger.readRow
  dsimp only
  split_ifs
  · exact ⟨h, hstale⟩
  · cases hrow : sanitizePermissionEvent l now e.2.doc.raw with
    | none => exact ⟨h, hstale⟩
    | some row =>
      have he := he (by rw [hrow]; simp)
      dsimp only
      cases hot acc.hosts (e.1.1, row.id) with
      | none => exact ⟨h.upsert he _, hstale⟩
      | some kept =>
        dsimp only
        split_ifs
        · refine ⟨h, fun r hr => ?_⟩
          rcases mem_append.mp hr with hr | hr
          · exact hstale r hr
          · rw [mem_singleton.mp hr]
            exact he
        · exact ⟨h.upsert he _, hstale⟩

/-- The loop over such an answer. -/
theorem Within.readBack (l : Limits) (now : ℕ) (got : List (Key × Stored))
    (h : Within P acc.hosts) (hstale : ∀ r ∈ acc.stale, P r.1) (hgot : Answers P l now got) :
    Within P (got.foldl (PermissionLedger.readRow l now) acc).hosts ∧
      ∀ r ∈ (got.foldl (PermissionLedger.readRow l now) acc).stale, P r.1 := by
  induction got generalizing acc with
  | nil => exact ⟨h, hstale⟩
  | cons e got ih =>
    have hrow := Within.readRow l now h hstale (hgot e (by simp))
    exact ih hrow.1 hrow.2 fun e' he' => hgot e' (by simp [he'])

end

/-- No upsert queued for a host of `t`. -/
def QueueClear (t : JsString) (store : PgStore) : Prop :=
  ∀ k : Key, ofTenant t k.1 = true → queuedFor k store.queue = []

/-- No upsert of a row of `t` in flight. -/
def FlightClear (t : JsString) (store : PgStore) : Prop :=
  ∀ k : Key, ofTenant t k.1 = true → store.flight.carried k = []

def TableClear (t : JsString) (store : PgStore) : Prop :=
  ∀ k : Key, ofTenant t k.1 = true → store.table k = none

variable {k : Key}

section

variable {t : JsString} {store : PgStore}

theorem queuedFor_tuples {es : List (Key × Stored)} (hes : ∀ e ∈ es, ofTenant t e.1.1 = false)
    (hk : ofTenant t k.1 = true) : queuedFor k es = [] := by
  rw [queuedFor, filter_eq_nil_iff.mpr, map_nil]
  intro e he hek
  rw [decide_eq_true_eq] at hek
  rw [← hek, hes e he] at hk
  cases hk

theorem onChange_clear (h : QueueClear t store)
    (hhost : ofTenant t host = false) (rows : List Row) :
    QueueClear t (onChange store host rows) := by
  intro k hk
  have hrows : queuedFor k (rows.map (tuple host)) = [] := queuedFor_tuples (fun e he => by
    obtain ⟨r, _, rfl⟩ := mem_map.mp he
    exact hhost) hk
  have hsub : (queuedFor k (onChange store host rows).queue).Sublist _ :=
    queued_upsert _
  rw [h k hk, hrows] at hsub
  exact sublist_nil.mp hsub

theorem onDelete_clear (h : QueueClear t store) (pairs : List Key) :
    QueueClear t (onDelete store pairs) := by
  intro k hk
  have hsub : (queuedFor k (onDelete store pairs).queue).Sublist _ :=
    queued_delete pairs
  rw [h k hk] at hsub
  exact sublist_nil.mp hsub

theorem onChange_carried (host : JsString) (rows : List Row) (k : Key) :
    (onChange store host rows).flight.carried k = store.flight.carried k :=
  carried_drain

theorem onDelete_carried (pairs : List Key) (k : Key) :
    (onDelete store pairs).flight.carried k = store.flight.carried k :=
  carried_drain

/-- A change of the store from outside a drain: nothing of `t` is queued, the same is in flight,
and the table has no new rows. -/
structure Outside (t : JsString) (store store' : PgStore) : Prop where
  queue : QueueClear t store → QueueClear t store'
  carried : ∀ k, store'.flight.carried k = store.flight.carried k
  table : ∀ k, store.table k = none → store'.table k = none

theorem Outside.refl (t : JsString) (store : PgStore) : Outside t store store :=
  ⟨id, fun _ => rfl, fun _ h => h⟩

theorem Outside.trans {store' store'' : PgStore} (h : Outside t store store')
    (h' : Outside t store' store'') : Outside t store store'' :=
  ⟨fun hq => h'.queue (h.queue hq), fun k => (h'.carried k).trans (h.carried k),
    fun k hk => h'.table k (h.table k hk)⟩

/-- A change of the table alone. -/
theorem Outside.ofTable {table : Key → Option Stored}
    (h : ∀ k, store.table k = none → table k = none) :
    Outside t store { store with table := table } :=
  ⟨id, fun _ => rfl, h⟩

theorem onChange_outside (hhost : ofTenant t host = false) (rows : List Row) :
    Outside t store (onChange store host rows) :=
  ⟨fun h => onChange_clear h hhost rows, onChange_carried host rows,
    fun k hk => (congrFun drain_table k).trans hk⟩

theorem onDelete_outside (pairs : List Key) : Outside t store (onDelete store pairs) :=
  ⟨fun h => onDelete_clear h pairs, onDelete_carried pairs,
    fun k hk => (congrFun drain_table k).trans hk⟩

theorem drain_outside : Outside t store store.drain :=
  ⟨fun h k hk => by rw [drain_queue]; exact h k hk, fun _ => carried_drain,
    fun k hk => (congrFun drain_table k).trans hk⟩

theorem dropQueued_outside (t' : JsString) : Outside t store (dropQueued t' store) := by
  refine ⟨fun h k hk => ?_, fun _ => rfl, fun _ h => h⟩
  have hsub : (queuedFor k (dropQueued t' store).queue).Sublist _ :=
    queuedFor_sublist filter_sublist k
  rw [h k hk] at hsub
  exact sublist_nil.mp hsub

theorem dropQueued_clear (t : JsString) (store : PgStore) : QueueClear t (dropQueued t store) := by
  intro k hk
  exact queuedFor_tuples (fun e he => of_decide_eq_true (mem_filter.mp he).2) hk

theorem dropAll_outside (ts : List JsString) :
    Outside t store (ts.foldl (fun store t => dropQueued t store) store) := by
  induction ts generalizing store with
  | nil => exact Outside.refl t store
  | cons t' ts ih => exact (dropQueued_outside t').trans ih

theorem dropAll_clear {ts : List JsString} (ht : t ∈ ts) :
    QueueClear t (ts.foldl (fun store t => dropQueued t store) store) := by
  induction ts generalizing store with
  | nil => cases ht
  | cons t' ts ih =>
    rcases mem_cons.mp ht with rfl | ht
    · exact (dropAll_outside ts).queue (dropQueued_clear t store)
    · exact ih ht

theorem storeIngested_outside {out : Ingested} (hout : ∀ c ∈ out.changes, ofTenant t c.1 = false) :
    Outside t store (storeIngested store out) := by
  have hchanges : ∀ (cs : List (JsString × List Row)) (store : PgStore),
      (∀ c ∈ cs, ofTenant t c.1 = false) →
        Outside t store (cs.foldl (fun store c => onChange store c.1 c.2) store) := by
    intro cs
    induction cs with
    | nil => exact fun store _ => Outside.refl t store
    | cons c cs ih =>
      intro store hcs
      exact (onChange_outside (hcs c (by simp)) c.2).trans
        (ih _ fun c' hc' => hcs c' (by simp [hc']))
  unfold storeIngested
  split_ifs
  · exact hchanges out.changes store hout
  · exact (hchanges out.changes store hout).trans (onDelete_outside out.gone)

theorem requeue_queue (store : PgStore) (stale : List (JsString × Row)) :
    (requeue store stale).queue =
      trim pgConfig.cap (store.queue ++ stale.map fun e => tuple e.1 e.2) := by
  rw [requeue]

theorem requeue_outside (store : PgStore) {stale : List (JsString × Row)}
    (hstale : ∀ r ∈ stale, ofTenant t r.1 = false) : Outside t store (requeue store stale) := by
  refine ⟨fun h k hk => ?_, fun k => by rw [requeue], fun k hk => by rw [requeue]; exact hk⟩
  have hrows : queuedFor k (stale.map fun e => tuple e.1 e.2) = [] := queuedFor_tuples (by
    intro e he
    obtain ⟨r, hr, rfl⟩ := mem_map.mp he
    exact hstale r hr) hk
  rw [requeue_queue, ← sublist_nil]
  refine (queuedFor_sublist (trim_sublist _ _) k).trans ?_
  rw [queuedFor_append, h k hk, hrows]
  exact Sublist.refl _

theorem staleRows_hosts (l : Limits) (now : ℕ) (got : List (Key × Stored))
    {P : JsString → Prop} {old : List (JsString × List Row)} {hosts : Hosts}
    (hacc : ∀ r ∈ acc.stale, P r.1) (hold : ∀ e ∈ old, P e.1) (hhosts : Within P hosts) :
    ∀ r ∈ staleRows l now got acc old hosts, P r.1 := by
  intro r hr
  rcases mem_append.mp hr with hr | hr
  · rcases mem_append.mp hr with hr | hr
    · exact hacc r hr
    · obtain ⟨e, he, hr⟩ := mem_flatMap.mp hr
      obtain ⟨_, _, rfl⟩ := mem_map.mp hr
      exact hold e he
  · exact allRows_hosts hhosts r (mem_filter.mp hr).1

/-- A rescan that takes no row of `t` leaves none in the model, and queues none. -/
theorem merge_spec (l : Limits) (now : ℕ) (store : PgStore) {hosts : Hosts} {got : List (Key × Stored)}
    (h : Within (fun h => ofTenant t h = false) hosts)
    (hgot : Answers (fun h => ofTenant t h = false) l now got) :
    Within (fun h => ofTenant t h = false) (merge l now hosts store got).1 ∧
      Outside t store (merge l now hosts store got).2 := by
  have hread := Within.readBack l now got (show Within _ (ReadBack.mk hosts [] none []).hosts from h)
    (by simp) hgot
  unfold merge
  dsimp only
  have hkept := (hread.1.ageOut now).evict l now
  refine ⟨hkept, ?_⟩
  have hqueued := requeue_outside store
    (staleRows_hosts l now got hread.2 (ageOut_hosts now hread.1) hkept)
  split_ifs
  · exact hqueued
  · exact hqueued.trans (onDelete_outside _)
  · exact hqueued.trans drain_outside
  · exact (hqueued.trans (onDelete_outside _)).trans drain_outside

/-- The purge of `t` that was called as the `call`th: no row of `t` is in the model or queued, one
may be in flight only while the purge waits for the drain, and none is in the table once the purge
has ended. -/
structure Purging (call : ℕ) (t : JsString) (s : Ledger) : Prop where
  hosts : Within (fun h => ofTenant t h = false) s.hosts
  queue : QueueClear t s.store
  tenant : ∀ p ∈ s.purges, p.call = call → p.tenant = t
  flight : (∃ p ∈ s.purges, p.call = call ∧ p.waiting = true) ∨ FlightClear t s.store
  ready : ∀ p ∈ s.purges, p.call = call → p.waiting = false → FlightClear t s.store
  done : call ∈ s.purged → TableClear t s.store ∧ FlightClear t s.store
  born : call < s.purgeCalls

structure Numbered (s : Ledger) : Prop where
  purges : ∀ p ∈ s.purges, p.call < s.purgeCalls
  purged : ∀ c ∈ s.purged, c < s.purgeCalls

variable {l : Limits} {s s' : Ledger} {call : ℕ}

theorem Purging.outside (h : Purging call t s)
    (hhosts : Within (fun h => ofTenant t h = false) s'.hosts)
    (hstore : Outside t s.store s'.store) (hpurges : s'.purges = s.purges)
    (hcalls : s'.purgeCalls = s.purgeCalls) (hpurged : s'.purged = s.purged) :
    Purging call t s' := by
  have hclear : FlightClear t s.store → FlightClear t s'.store := by
    intro hf k hk
    rw [hstore.carried, hf k hk]
  refine ⟨hhosts, hstore.queue h.queue, ?_, ?_, ?_, ?_, ?_⟩
  · rw [hpurges]
    exact h.tenant
  · rw [hpurges]
    exact h.flight.imp_right hclear
  · rw [hpurges]
    exact fun p hp hcall hwaiting => hclear (h.ready p hp hcall hwaiting)
  · rw [hpurged]
    intro hdone
    obtain ⟨htable, hf⟩ := h.done hdone
    exact ⟨fun k hk => hstore.table k (htable k hk), hclear hf⟩
  · rw [hcalls]
    exact h.born

/-- A statement of the drain that has ended writes nothing of `t` that was not in flight. -/
theorem resume_table {ok : Bool} (htable : store.table k = none)
    (hcarried : store.flight.carried k = []) (hqueue : queuedFor k store.queue = []) :
    (store.resume pgConfig ok).table k = none := by
  have htrail : (trail (store.resume pgConfig ok) k).Sublist
      (trail store k) := trail_resume ok
  rw [trail, trail, htable, hcarried, hqueue] at htrail
  have hnil := sublist_nil.mp htrail
  rw [append_eq_nil_iff, append_eq_nil_iff] at hnil
  exact Option.toList_eq_nil_iff.mp hnil.1.1

theorem resume_clear {ok : Bool} (hqueue : QueueClear t store) (hflight : FlightClear t store) :
    QueueClear t (store.resume pgConfig ok) ∧ FlightClear t (store.resume pgConfig ok) := by
  have hpending : ∀ k : Key, ofTenant t k.1 = true →
      pending (store.resume pgConfig ok) k = [] := by
    intro k hk
    have hsub : (pending (store.resume pgConfig ok) k).Sublist
        (pending store k) := pending_resume ok
    rw [pending, pending, hqueue k hk, hflight k hk] at hsub
    exact sublist_nil.mp hsub
  exact ⟨fun k hk => (append_eq_nil_iff.mp (hpending k hk)).2,
    fun k hk => (append_eq_nil_iff.mp (hpending k hk)).1⟩

/-- The drain goes on, or ends and the purges that waited for it with it. -/
theorem Purging.resume (h : Purging call t s) (ok : Bool) :
    Purging call t (step l s (.resume ok)) := by
  have hdone : call ∈ s.purged → TableClear t (s.store.resume pgConfig ok) := fun hmem k hk =>
    resume_table ((h.done hmem).1 k hk) ((h.done hmem).2 k hk) (h.queue k hk)
  dsimp only [step, wakePurges]
  cases hf : (s.store.resume pgConfig ok).flight with
  | idle =>
    have hidle : ∀ ts : List JsString, FlightClear t
        (ts.foldl (fun store t => dropQueued t store) (s.store.resume pgConfig ok)) := by
      intro ts k hk
      rw [(dropAll_outside (t := t) ts).carried, hf]
      rfl
    refine ⟨h.hosts, ?_, ?_, Or.inr (hidle _), fun _ _ _ _ => hidle _, ?_, h.born⟩
    · rcases h.flight with ⟨p, hp, hcall, hwaiting⟩ | hclear
      · refine dropAll_clear (mem_map.mpr ⟨p, ?_, h.tenant p hp hcall⟩)
        exact mem_filter.mpr ⟨hp, hwaiting⟩
      · exact (dropAll_outside _).queue (resume_clear h.queue hclear).1
    · intro p hp hcall
      obtain ⟨p', hp', rfl⟩ := mem_map.mp hp
      exact h.tenant p' hp' hcall
    · exact fun hmem =>
        ⟨fun k hk => (dropAll_outside (t := t) _).table k (hdone hmem k hk), hidle _⟩
  | begun | upserting | deleting =>
    have hpending : ∀ k : Key, ofTenant t k.1 = true →
        pending (s.store.resume pgConfig ok) k = [] := by
      intro k hk
      have hsub : (pending (s.store.resume pgConfig ok) k).Sublist _ :=
        pending_resume_of_busy (by rw [hf]; simp)
      rw [h.queue k hk] at hsub
      exact sublist_nil.mp hsub
    have hclear : FlightClear t (s.store.resume pgConfig ok) := fun k hk =>
      (append_eq_nil_iff.mp (hpending k hk)).1
    exact ⟨h.hosts, fun k hk => (append_eq_nil_iff.mp (hpending k hk)).2, h.tenant,
      Or.inr hclear, fun _ _ _ _ => hclear, fun hmem => ⟨hdone hmem, hclear⟩, h.born⟩

theorem Within.filterKeys {P : JsString → Prop} {hosts : Hosts} (h : Within P hosts)
    (p : JsString → Bool) : Within P (hosts.filterKeys p) := fun host hmem =>
  h host (mem_keys_filterKeys.mp hmem).2

/-- Another purge. -/
theorem Purging.purge (h : Purging call t s) (t' : JsString) :
    Purging call t (purgeTenant s t') := by
  unfold purgeTenant
  split_ifs
  · exact h
  have hdrop : Outside t s.store (dropQueued t' s.store) := dropQueued_outside t'
  -- the new purge has a number of its own
  have hold : ∀ {p : Purge} {ps : List Purge} {waiting : Bool},
      p ∈ ps ++ [⟨s.purgeCalls, t', waiting⟩] → p.call = call → p ∈ ps := by
    intro p ps waiting hp hcall
    rcases mem_append.mp hp with hp | hp
    · exact hp
    · rw [mem_singleton.mp hp] at hcall
      exact absurd hcall (Nat.ne_of_gt h.born)
  refine ⟨h.hosts.filterKeys _, hdrop.queue h.queue, ?_, ?_, ?_, h.done, ?_⟩
  · exact fun p hp hcall => h.tenant p (hold hp hcall) hcall
  · refine h.flight.imp_left fun ⟨p, hp, hwaiting⟩ => ?_
    exact ⟨p, mem_append_left _ hp, hwaiting⟩
  · exact fun p hp hcall => h.ready p (hold hp hcall) hcall
  · exact Nat.lt_succ_of_lt h.born

/-- The end of a purge's `DELETE`, or of another's. -/
theorem Purging.purgeLands (h : Purging call t s) (n : ℕ) (ok : Bool) :
    Purging call t (step l s (.purgeLands n ok)) := by
  dsimp only [step]
  cases hp : s.purges[n]? with
  | none => exact h
  | some p =>
    obtain ⟨c, t', waiting⟩ := p
    cases waiting with
    | true => exact h
    | false =>
      have hmem : ⟨c, t', false⟩ ∈ s.purges := mem_of_getElem? hp
      have hrest : ∀ p ∈ s.purges.eraseIdx n, p ∈ s.purges := fun p hp =>
        mem_of_mem_eraseIdx hp
      have hflight : (∃ p ∈ s.purges.eraseIdx n, p.call = call ∧ p.waiting = true) ∨
          FlightClear t s.store := by
        refine h.flight.imp_left fun ⟨p, hmem', hcall, hwaiting⟩ => ⟨p, ?_, hcall, hwaiting⟩
        rw [mem_eraseIdx_iff_getElem?]
        obtain ⟨i, hi⟩ := mem_iff_getElem?.mp hmem'
        refine ⟨i, fun hin => ?_, hi⟩
        rw [hin, hp] at hi
        rw [← Option.some.inj hi] at hwaiting
        cases hwaiting
      have htenant := fun p hp => h.tenant p (hrest p hp)
      have hready := fun p hp => h.ready p (hrest p hp)
      split_ifs with hok
      · refine ⟨h.hosts, h.queue, htenant, hflight, hready, fun hdone => ?_, h.born⟩
        by_cases hcall : c = call
        · obtain rfl : t' = t := h.tenant _ hmem hcall
          exact ⟨fun k hk => if_pos hk, h.ready _ hmem hcall rfl⟩
        · obtain ⟨htable, hclear⟩ := h.done ((mem_cons.mp hdone).resolve_left (Ne.symm hcall))
          refine ⟨fun k hk => ?_, hclear⟩
          dsimp only
          rw [htable k hk, ite_self]
      · exact ⟨h.hosts, h.queue, htenant, hflight, hready, h.done, h.born⟩

/-- No beat of a host of `t`. -/
def NoBeat (t : JsString) : Event → Prop
  | .ingest _ host _ => tenantOfHostKey host ≠ t
  | _ => True

/-- What the `SELECT` of a rescan has answered. -/
def Rescan.answer (r : Rescan) : List (Key × Stored) :=
  match r.scan with
  | .answered got => got
  | _ => []

/-- No rescan whose `SELECT` has answered with a row of `t`, one that it takes, goes on. -/
def NoLateMerge (l : Limits) (t : JsString) (s : Ledger) : Event → Prop
  | .merge n => ∀ r ∈ s.rescans[n]?, Answers (fun host => tenantOfHostKey host ≠ t) l r.now r.answer
  | _ => True

instance (l : Limits) (t : JsString) (s : Ledger) (e : Event) : Decidable (NoLateMerge l t s e) :=
  match e with
  | .merge n => inferInstanceAs (Decidable (∀ r ∈ s.rescans[n]?,
      Answers (fun host => tenantOfHostKey host ≠ t) l r.now r.answer))
  | .ingest .. | .drain | .resume _ | .rescan _ | .prune .. | .select .. | .giveUp _ | .purge _
  | .purgeLands .. | .sweep _ | .close => isTrue trivial

theorem ofTenant_iff (ht : tenantSuffix (.scalar '@' :: t) = true) (host : JsString) :
    ofTenant t host = true ↔ tenantOfHostKey host = t := by
  unfold ofTenant tenantOfHostKey
  rw [decide_eq_true_eq]
  dsimp only
  constructor
  · intro h
    rw [h, if_pos ht]
    rfl
  · intro h
    split_ifs at h with hs
    · cases htail : host.drop (host.length - 33) with
      | nil => rw [htail] at hs; exact absurd hs (by simp [tenantSuffix])
      | cons c hex =>
        rw [htail] at h hs
        simp only [tenantSuffix, Bool.and_eq_true, decide_eq_true_eq] at hs
        rw [hs.1.1, ← h]
        rfl
    · rw [← h] at ht
      cases ht

theorem not_ofTenant (ht : tenantSuffix (.scalar '@' :: t) = true)
    (h : tenantOfHostKey host ≠ t) : ofTenant t host = false := by
  rw [← Bool.not_eq_true, ofTenant_iff ht]
  exact h

theorem Purging.step (ht : tenantSuffix (.scalar '@' :: t) = true) (h : Purging call t s)
    (e : Event) (hbeat : NoBeat t e) (hmerge : NoLateMerge l t s e) :
    Purging call t (step l s e) := by
  cases e with
  | ingest now host events =>
    dsimp only [PermissionLedger.step]
    cases hout : ingest l now s.hosts host events with
    | none => exact h
    | some out =>
      obtain ⟨hhosts, hchanges⟩ := h.hosts.ingest (not_ofTenant ht hbeat) hout
      exact h.outside hhosts (storeIngested_outside hchanges) rfl rfl rfl
  | drain => exact h.outside h.hosts drain_outside rfl rfl rfl
  | resume ok => exact h.resume ok
  | rescan now => exact h.outside h.hosts (Outside.refl t _) rfl rfl rfl
  | giveUp n => exact h.outside h.hosts (Outside.refl t _) rfl rfl rfl
  | prune n rows =>
    dsimp only [PermissionLedger.step]
    cases s.rescans[n]? with
    | none => exact h
    | some r =>
      obtain ⟨now, scan⟩ := r
      cases scan with
      | prune =>
        refine h.outside h.hosts (Outside.ofTable fun k hk => ?_) rfl rfl rfl
        rw [hk, ite_self]
      | select | answered => exact h
  | select n rows =>
    dsimp only [PermissionLedger.step]
    cases s.rescans[n]? with
    | none => exact h
    | some r =>
      obtain ⟨now, scan⟩ := r
      cases scan with
      | select => exact h.outside h.hosts (Outside.refl t _) rfl rfl rfl
      | prune | answered => exact h
  | merge n =>
    dsimp only [PermissionLedger.step]
    cases hr : s.rescans[n]? with
    | none => exact h
    | some r =>
      obtain ⟨now, scan⟩ := r
      cases scan with
      | answered got =>
        have hgot : Answers (fun h => ofTenant t h = false) l now got := fun e he hrow =>
          not_ofTenant ht (hmerge _ hr e he hrow)
        have hspec := merge_spec l now s.store h.hosts hgot
        exact h.outside hspec.1 hspec.2 rfl rfl rfl
      | prune | select => exact h
  | purge t' => exact h.purge t'
  | purgeLands n ok => exact h.purgeLands n ok
  | sweep now =>
    refine h.outside h.hosts (Outside.ofTable fun k hk => ?_) rfl rfl rfl
    rw [retained, hk]
    rfl
  | close => exact h.outside h.hosts ⟨id, fun _ => rfl, fun _ h => h⟩ rfl rfl rfl

theorem Numbered.step (h : Numbered s) (e : Event) : Numbered (step l s e) := by
  cases e with
  | purge t' =>
    dsimp only [PermissionLedger.step, purgeTenant]
    split_ifs
    · exact h
    refine ⟨fun p hp => ?_, fun c hc => Nat.lt_succ_of_lt (h.purged c hc)⟩
    rcases mem_append.mp hp with hp | hp
    · exact Nat.lt_succ_of_lt (h.purges p hp)
    · rw [mem_singleton.mp hp]
      exact Nat.lt_succ_self _
  | purgeLands n ok =>
    dsimp only [PermissionLedger.step]
    cases hp : s.purges[n]? with
    | none => exact h
    | some p =>
      obtain ⟨c, t', waiting⟩ := p
      cases waiting with
      | true => exact h
      | false =>
        have hrest : ∀ p ∈ s.purges.eraseIdx n, p.call < s.purgeCalls := fun p hp =>
          h.purges p (mem_of_mem_eraseIdx hp)
        split_ifs
        · refine ⟨hrest, fun c' hc => ?_⟩
          rcases mem_cons.mp hc with rfl | hc
          · exact h.purges _ (mem_of_getElem? hp)
          · exact h.purged c' hc
        · exact ⟨hrest, h.purged⟩
  | resume ok =>
    dsimp only [PermissionLedger.step, wakePurges]
    split
    · refine ⟨fun p hp => ?_, h.purged⟩
      obtain ⟨p', hp', rfl⟩ := mem_map.mp hp
      exact h.purges p' hp'
    · exact ⟨h.purges, h.purged⟩
  | ingest | drain | rescan | giveUp | prune | select | merge | sweep | close =>
    dsimp only [PermissionLedger.step]
    repeat' split
    all_goals exact ⟨h.purges, h.purged⟩

/-- The state after the call. -/
theorem purging_of_purge (ht : tenantSuffix (.scalar '@' :: t) = true) (h : Numbered s) :
    Purging s.purgeCalls t (purgeTenant s t) := by
  unfold purgeTenant
  rw [if_neg (by rw [ht]; simp)]
  have hnew : ∀ {p : Purge} {waiting : Bool}, p ∈ s.purges ++ [⟨s.purgeCalls, t, waiting⟩] →
      p.call = s.purgeCalls → p = ⟨s.purgeCalls, t, waiting⟩ := by
    intro p waiting hp hcall
    rcases mem_append.mp hp with hp | hp
    · exact absurd hcall (Nat.ne_of_lt (h.purges p hp))
    · exact mem_singleton.mp hp
  refine ⟨fun host hmem => ?_, dropQueued_clear t s.store, ?_, ?_, ?_, ?_, Nat.lt_succ_self _⟩
  · have hkept := (mem_keys_filterKeys.mp hmem).1
    exact not_ofTenant ht (of_decide_eq_true hkept)
  · intro p hp hcall
    rw [hnew hp hcall]
  · cases hf : s.store.flight with
    | idle => exact Or.inr fun k _ => by simp only [dropQueued, hf, Flight.carried]
    | begun | upserting | deleting =>
      exact Or.inl ⟨_, mem_append_right _ (mem_singleton.mpr rfl), rfl, rfl⟩
  · intro p hp hcall hwaiting k _
    rw [hnew hp hcall] at hwaiting
    cases hf : s.store.flight with
    | idle => simp only [dropQueued, hf, Flight.carried]
    | begun | upserting | deleting =>
      rw [hf] at hwaiting
      cases hwaiting
  · exact fun hdone => absurd (h.purged _ hdone) (Nat.lt_irrefl _)

theorem hot_of_within {P : JsString → Prop} {hosts : Hosts} (h : Within P hosts)
    (hk : ¬ P k.1) : hot hosts k = none := by
  rw [hot, get?_eq_none.mpr fun hmem => hk (h k.1 hmem)]
  rfl

/-- The rows of a tenant are in neither the model nor the table from the end of a purge on, in
every run in which no rescan that has read rows of the tenant goes on after the call. -/
theorem purge_final (hosts : Hosts) (table : Key → Option Stored) (before after : List Event)
    (ht : tenantSuffix (.scalar '@' :: t) = true)
    (hs : s = run (PermissionLedger.step l) (Ledger.init hosts table) before)
    (hs' : s' = run (PermissionLedger.step l) (PermissionLedger.step l s (.purge t)) after)
    (hbeats : ∀ e ∈ after, NoBeat t e)
    (hmerges : Along (PermissionLedger.step l) (NoLateMerge l t)
      (PermissionLedger.step l s (.purge t)) after)
    (hdone : s.purgeCalls ∈ s'.purged) :
    ∀ k : Key, tenantOfHostKey k.1 = t → hot s'.hosts k = none ∧ s'.store.table k = none := by
  have hinit : Numbered (Ledger.init hosts table) :=
    ⟨fun p hp => absurd hp (by simp [Ledger.init]), fun c hc => absurd hc (by simp [Ledger.init])⟩
  have hnumbered : Numbered s := hs ▸ run_inv (PermissionLedger.step l)
    (fun s e h _ => h.step e) hinit (along_of_forall (p := fun _ => True) _ fun _ _ => trivial)
  have hpurging : Purging s.purgeCalls t s' := hs' ▸ run_inv (PermissionLedger.step l)
    (fun s e h hok => h.step ht e hok.1 hok.2) (purging_of_purge ht hnumbered)
    ((along_of_forall _ hbeats).and _ hmerges)
  intro k hk
  have hkt : ofTenant t k.1 = true := (ofTenant_iff ht k.1).mpr hk
  refine ⟨hot_of_within hpurging.hosts fun h => ?_, (hpurging.done hdone).1 k hkt⟩
  rw [hkt] at h
  cases h

def tenantId : JsString := List.replicate 32 (.scalar 'a')

def tenantKey : Key := (ofString "box@" ++ tenantId, ofString "q1")

def tenantTable (k : Key) : Option Stored := if k = tenantKey then some question.stored else none

def tenantLedger : Ledger := Ledger.init OrdMap.empty tenantTable

def tenantRows : List (Key × Stored) := [(tenantKey, question.stored)]

def readBefore : List Event := [.rescan 2000, .prune 0 tenantRows, .select 0 tenantRows]

/-- The `DELETE` succeeds and the rescan goes on. -/
def readAfter : List Event := [.purgeLands 0 true, .merge 0]

theorem purge_final_rescan :
    let s := tenantLedger
    let s' := run (PermissionLedger.step defaultLimits)
      (PermissionLedger.step defaultLimits s (.purge tenantId))
      [.purgeLands 0 true, .rescan 3000, .prune 0 [], .select 0 [], .merge 0]
    hot s'.hosts tenantKey = none ∧ s'.store.table tenantKey = none :=
  purge_final OrdMap.empty tenantTable [] _ (t := tenantId) (by decide) rfl rfl
    (by simp [NoBeat]) (by decide +kernel) (by decide +kernel) tenantKey (by decide)

theorem purge_undone :
    let s := run (PermissionLedger.step defaultLimits) tenantLedger readBefore
    let s' := run (PermissionLedger.step defaultLimits)
      (PermissionLedger.step defaultLimits s (.purge tenantId)) readAfter
    Along (PermissionLedger.step defaultLimits) Admits tenantLedger
        (readBefore ++ .purge tenantId :: readAfter) ∧
      (∀ e ∈ readAfter, NoBeat tenantId e) ∧ s.purgeCalls ∈ s'.purged ∧
      tenantOfHostKey tenantKey.1 = tenantId ∧
      hot s'.hosts tenantKey = some question := by
  have hread : ∀ k v, (k, v) ∈ tenantRows ↔ tenantTable k = some v := by
    intro k v
    unfold tenantRows tenantTable
    by_cases hk : k = tenantKey <;> simp [hk, eq_comm]
  have hkept : beyondShare defaultLimits tenantRows = [] := by decide +kernel
  refine ⟨⟨trivial, ⟨by decide +kernel, hread⟩, ⟨by decide +kernel, fun k v => ?_⟩, trivial, trivial,
    trivial, trivial⟩, by simp [readAfter, NoBeat], by decide +kernel⟩
  show _ ↔ (if k ∈ beyondShare defaultLimits tenantRows then none else tenantTable k) = some v
  rw [hkept, if_neg (by simp)]
  exact hread k v

end

end Turma.PermissionLedger
