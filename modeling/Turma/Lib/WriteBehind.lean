import Turma.Lib.OrdMap

/-! A write-behind queue in front of a keyed table: upserts and deletes are queued, one drain at a
time sends them in batches, and a batch that fails goes back in front. -/

namespace Turma.Lib

open List Option OrdMap

variable {κ α : Type*}

section

variable [DecidableEq κ]

def latest (k : κ) : List (κ × α) → Option α
  | [] => none
  | e :: es => (latest k es).or (if e.1 = k then some e.2 else none)

def queuedFor (k : κ) (es : List (κ × α)) : List α := (es.filter fun e => e.1 = k).map Prod.snd

def lastPerKey (es : List (κ × α)) : OrdMap κ α :=
  es.foldl (fun m e => m.upsert e.1 fun _ => e.2) OrdMap.empty

theorem latest_append (k : κ) (es es' : List (κ × α)) :
    latest k (es ++ es') = (latest k es').or (latest k es) := by
  induction es with
  | nil => simp [latest]
  | cons e es ih => rw [cons_append, latest, ih, latest, Option.or_assoc]

theorem latest_eq_none {k : κ} {es : List (κ × α)} : latest k es = none ↔ k ∉ es.map Prod.fst := by
  induction es with
  | nil => simp [latest]
  | cons e es ih =>
    rw [latest, or_eq_none_iff, ih, map_cons, mem_cons, not_or, and_comm]
    refine and_congr_left' ?_
    by_cases he : e.1 = k
    · simp [he]
    · simp [he, Ne.symm he]

theorem latest_filter (p : κ → Bool) (k : κ) (es : List (κ × α)) :
    latest k (es.filter fun e => p e.1) = if p k then latest k es else none := by
  induction es with
  | nil => simp [latest]
  | cons e es ih =>
    by_cases he : e.1 = k
    · subst he
      by_cases hp : p e.1 = true
      · simp [latest, hp, ih]
      · simp [hp, ih]
    · by_cases hp : p e.1 = true
      · simp [latest, hp, ih, he]
      · simp [latest, hp, ih, he]

theorem latest_eq_getLast (k : κ) (es : List (κ × α)) :
    latest k es = (queuedFor k es).getLast? := by
  induction es using List.reverseRec with
  | nil => rfl
  | append_singleton es e ih =>
    rw [latest_append, queuedFor, filter_append, map_append]
    by_cases he : e.1 = k
    · simp [latest, he]
    · simp [latest, he, ih, queuedFor]

theorem get?_foldl_latest (k : κ) (es : List (κ × α)) (m : OrdMap κ α) :
    (es.foldl (fun m e => m.upsert e.1 fun _ => e.2) m).get? k = (latest k es).or (m.get? k) := by
  induction es generalizing m with
  | nil => simp [latest]
  | cons e es ih =>
    rw [foldl_cons, ih, get?_upsert, latest, Option.or_assoc]
    by_cases he : e.1 = k
    · simp [he]
    · simp [he, Ne.symm he]

theorem get?_lastPerKey (k : κ) (es : List (κ × α)) : (lastPerKey es).get? k = latest k es := by
  rw [lastPerKey, get?_foldl_latest, get?_empty, or_none]

theorem mem_of_latest {k : κ} {v : α} {es : List (κ × α)} (h : latest k es = some v) :
    (k, v) ∈ es := by
  induction es with
  | nil => exact absurd h (by simp [latest])
  | cons e es ih =>
    rw [latest, or_eq_some_iff] at h
    rcases h with h | ⟨_, h⟩
    · exact .tail _ (ih h)
    · split_ifs at h with he
      rw [← he, ← Option.some.inj h]
      exact mem_cons_self

/-- A key that is upserted once at most. -/
theorem latest_eq_lookup (k : κ) {es : List (κ × α)} (hnodup : (es.map Prod.fst).Nodup) :
    latest k es = OrdMap.lookup k es := by
  induction es with
  | nil => rfl
  | cons e es ih =>
    rw [map_cons, nodup_cons] at hnodup
    rw [latest, ih hnodup.2, OrdMap.lookup]
    by_cases he : e.1 = k
    · rw [if_pos he, if_pos he, lookup_eq_none.mpr (he ▸ hnodup.1), none_or]
    · rw [if_neg he, if_neg he, or_none]

end

/-- What the drain is at: nothing, about to begin, or waiting for a statement. -/
inductive Flight (κ α : Type*)
  | idle
  | begun
  | upserting (batch : OrdMap κ α)
  | deleting (batch : List κ)

structure WriteBehind (κ α : Type*) where
  queue : List (κ × α)
  deletes : List κ
  flight : Flight κ α
  closed : Bool
  table : κ → Option α

/-- The bound on each queue, the size of a batch, which rows an upsert may write over, and whether
a batch that goes back is held to the bound. -/
structure WriteBehind.Config (α : Type*) where
  cap : ℕ
  perBatch : ℕ
  accepts : α → α → Bool
  trims : Bool

namespace WriteBehind

def trim {β : Type*} (cap : ℕ) (l : List β) : List β := l.drop (l.length - cap)

/-- A drain begins, if none is going on and there is something to send. -/
def drain (s : WriteBehind κ α) : WriteBehind κ α :=
  match s.flight with
  | .idle =>
    if s.closed = true ∨ (s.queue = [] ∧ s.deletes = []) then s else { s with flight := .begun }
  | _ => s

variable {s : WriteBehind κ α}

@[simp] theorem drain_queue : (drain s).queue = s.queue := by
  unfold drain
  split
  · split_ifs <;> rfl
  · rfl

@[simp] theorem drain_deletes : (drain s).deletes = s.deletes := by
  unfold drain
  split
  · split_ifs <;> rfl
  · rfl

@[simp] theorem drain_table : (drain s).table = s.table := by
  unfold drain
  split
  · split_ifs <;> rfl
  · rfl

theorem drain_flight : (drain s).flight = s.flight ∨ s.flight = .idle ∧ (drain s).flight = .begun := by
  unfold drain
  cases hf : s.flight with
  | idle =>
    split_ifs
    · exact Or.inl hf
    · exact Or.inr ⟨rfl, rfl⟩
  | begun | upserting | deleting => exact Or.inl hf

section

variable [DecidableEq κ]

def upsert (cfg : Config α) (s : WriteBehind κ α) (es : List (κ × α)) : WriteBehind κ α :=
  drain { s with
    deletes := s.deletes.filter fun k => k ∉ es.map Prod.fst
    queue := trim cfg.cap (s.queue ++ es) }

def delete (cfg : Config α) (s : WriteBehind κ α) (ks : List κ) : WriteBehind κ α :=
  drain { s with
    queue := s.queue.filter fun e => e.1 ∉ ks
    deletes := trim cfg.cap (s.deletes ++ ks) }

theorem upsert_queue (cfg : Config α) (s : WriteBehind κ α) (es : List (κ × α)) :
    (upsert cfg s es).queue = trim cfg.cap (s.queue ++ es) :=
  drain_queue

def sendDeletes (cfg : Config α) (s : WriteBehind κ α) : WriteBehind κ α :=
  { s with
    deletes := s.deletes.drop cfg.perBatch
    flight := .deleting (s.deletes.take cfg.perBatch) }

/-- The drain goes on: upserts first, then deletes, and an end when both queues are empty. -/
def next (cfg : Config α) (s : WriteBehind κ α) : WriteBehind κ α :=
  if s.queue ≠ [] then
    { s with
      queue := s.queue.drop cfg.perBatch
      flight := .upserting (lastPerKey (s.queue.take cfg.perBatch)) }
  else if s.deletes ≠ [] then sendDeletes cfg s
  else { s with flight := .idle }

def upserted (cfg : Config α) (table : κ → Option α) (batch : OrdMap κ α) (k : κ) : Option α :=
  match batch.get? k, table k with
  | none, old => old
  | some v, none => some v
  | some v, some old => if cfg.accepts old v = true then some v else some old

def putBack (cfg : Config α) (s : WriteBehind κ α) (batch : OrdMap κ α) : List (κ × α) :=
  if cfg.trims = true then trim cfg.cap (batch.entries ++ s.queue) else batch.entries ++ s.queue

def land (cfg : Config α) (s : WriteBehind κ α) : WriteBehind κ α :=
  match s.flight with
  | .upserting batch => { s with table := upserted cfg s.table batch, flight := .idle }
  | .deleting batch =>
    { s with table := fun k => if k ∈ batch then none else s.table k, flight := .idle }
  | _ => { s with flight := .idle }

def resume (cfg : Config α) (s : WriteBehind κ α) (ok : Bool) : WriteBehind κ α :=
  match s.flight with
  | .idle => s
  | .begun => next cfg (land cfg s)
  | .upserting batch =>
    if ok = true then next cfg (land cfg s)
    else { s with queue := putBack cfg s batch, flight := .idle }
  | .deleting batch =>
    if ok = false then
      { s with
        deletes := batch.filter (fun k => k ∉ s.queue.map Prod.fst) ++ s.deletes
        flight := .idle }
    else if s.deletes ≠ [] then sendDeletes cfg (land cfg s)
    else next cfg (land cfg s)

end

def init (table : κ → Option α) : WriteBehind κ α := ⟨[], [], .idle, false, table⟩

end WriteBehind

/-- What the statement in flight makes of a row. -/
def Flight.applied [DecidableEq κ] : Flight κ α → κ → Option α → Option α
  | .upserting batch, k, old => (batch.get? k).or old
  | .deleting batch, k, old => if k ∈ batch then none else old
  | _, _, old => old

namespace WriteBehind

variable [DecidableEq κ] {cfg : Config α} {s : WriteBehind κ α} {k : κ}

/-- What the table is going to hold at `k`, once all that is queued has been sent. -/
def due (s : WriteBehind κ α) (k : κ) : Option α :=
  if k ∈ s.deletes then none else (latest k s.queue).or (s.flight.applied k (s.table k))

/-- While deletes are on their way, no key is queued both ways: the deletes left go first. -/
def Apart (s : WriteBehind κ α) : Prop :=
  ∀ batch, s.flight = .deleting batch → ∀ k ∈ s.deletes, latest k s.queue = none

/-- No upsert of the batch in flight meets a row that it may not write over. -/
def Accepted (cfg : Config α) (s : WriteBehind κ α) : Prop :=
  ∀ batch, s.flight = .upserting batch → ∀ k v old, batch.get? k = some v → s.table k = some old →
    cfg.accepts old v = true

instance [DecidableEq α] (cfg : Config α) (s : WriteBehind κ α) : Decidable (Accepted cfg s) :=
  match hf : s.flight with
  | .idle | .begun | .deleting _ => isTrue fun batch hb => absurd (hf.symm.trans hb) (by simp)
  | .upserting batch =>
    decidable_of_iff (∀ e ∈ batch.entries, ∀ old ∈ s.table e.1, cfg.accepts old e.2 = true) <| by
      constructor
      · rintro h batch' hb k v old hv hold
        obtain rfl : batch = batch' := by simpa using hf.symm.trans hb
        exact h (k, v) (get?_eq_some.mp hv) old hold
      · exact fun h e he old hold => h batch hf e.1 e.2 old (get?_eq_some.mpr he) hold

def AtRest (s : WriteBehind κ α) : Prop := s.queue = [] ∧ s.deletes = [] ∧ s.flight = .idle

instance (f : Flight κ α) : Decidable (f = .idle) :=
  match f with
  | .idle => isTrue rfl
  | .begun | .upserting _ | .deleting _ => isFalse (by simp)

instance (s : WriteBehind κ α) : Decidable (AtRest s) :=
  inferInstanceAs (Decidable (s.queue = [] ∧ s.deletes = [] ∧ s.flight = .idle))

theorem trim_of_le {β : Type*} {cap : ℕ} {l : List β} (h : l.length ≤ cap) : trim cap l = l := by
  rw [trim, Nat.sub_eq_zero_of_le h, drop_zero]

theorem table_of_atRest (h : AtRest s) (k : κ) : s.table k = due s k := by
  simp [due, h.1, h.2.1, h.2.2, latest, Flight.applied]

theorem due_drain : due (drain s) k = due s k := by
  have happlied : (drain s).flight.applied k (s.table k) = s.flight.applied k (s.table k) := by
    rcases drain_flight (s := s) with hf | ⟨hf, hf'⟩
    · rw [hf]
    · rw [hf, hf']
      rfl
  simp only [due, drain_queue, drain_deletes, drain_table, happlied]

theorem apart_drain (h : Apart s) : Apart (drain s) := by
  intro batch hf
  rw [drain_queue, drain_deletes]
  rcases drain_flight (s := s) with hf' | ⟨_, hf'⟩
  · exact h batch (hf' ▸ hf)
  · rw [hf'] at hf
    cases hf

/-- The last upsert queued is what the key comes to. -/
theorem due_upsert {es : List (κ × α)} (hroom : (s.queue ++ es).length ≤ cfg.cap) :
    due (upsert cfg s es) k = (latest k es).or (due s k) := by
  rw [upsert, due_drain, due, due, trim_of_le hroom, latest_append]
  by_cases hk : k ∈ es.map Prod.fst
  · obtain ⟨v, hv⟩ := ne_none_iff_exists'.mp (mt latest_eq_none.mp (not_not.mpr hk))
    simp [hv, hk]
  · simp [latest_eq_none.mpr hk, hk]

theorem due_delete {ks : List κ} (hroom : (s.deletes ++ ks).length ≤ cfg.cap) :
    due (delete cfg s ks) k = if k ∈ ks then none else due s k := by
  rw [delete, due_drain, due, due, trim_of_le hroom]
  have hq := latest_filter (fun k' => decide (k' ∉ ks)) k s.queue
  by_cases hk : k ∈ ks
  · simp [hk]
  · simp only [hk, decide_not, decide_false, Bool.not_false, if_true] at hq
    simp [hk, hq]

theorem apart_upsert {es : List (κ × α)} (hroom : (s.queue ++ es).length ≤ cfg.cap) (h : Apart s) :
    Apart (upsert cfg s es) := by
  refine apart_drain fun batch hf k hk => ?_
  obtain ⟨hk, hes⟩ := mem_filter.mp hk
  rw [trim_of_le hroom, latest_append, h batch hf k hk, latest_eq_none.mpr (by simpa using hes)]
  rfl

theorem apart_delete {ks : List κ} (hroom : (s.deletes ++ ks).length ≤ cfg.cap) (h : Apart s) :
    Apart (delete cfg s ks) := by
  refine apart_drain fun batch hf k hk => ?_
  rw [trim_of_le hroom, mem_append] at hk
  rw [latest_filter (fun k' => decide (k' ∉ ks))]
  by_cases hks : k ∈ ks
  · simp [hks]
  · simp [hks, h batch hf k (hk.resolve_right hks)]

theorem latest_take_drop (n : ℕ) (k : κ) (es : List (κ × α)) :
    (latest k (es.drop n)).or (latest k (es.take n)) = latest k es := by
  rw [← latest_append, take_append_drop]

theorem due_of_idle (hidle : s.flight = .idle) :
    due s k = if k ∈ s.deletes then none else (latest k s.queue).or (s.table k) := by
  rw [due, hidle]
  rfl

/-- What is sent next does not change what a key comes to. -/
theorem due_sendDeletes (hidle : s.flight = .idle)
    (hapart : ∀ k ∈ s.deletes, latest k s.queue = none) :
    due (sendDeletes cfg s) k = due s k := by
  have hsent : due (sendDeletes cfg s) k = if k ∈ s.deletes.drop cfg.perBatch then none
      else (latest k s.queue).or (if k ∈ s.deletes.take cfg.perBatch then none else s.table k) := rfl
  have hsplit : k ∈ s.deletes ↔ k ∈ s.deletes.take cfg.perBatch ∨ k ∈ s.deletes.drop cfg.perBatch := by
    rw [← mem_append, take_append_drop]
  rw [hsent, due_of_idle hidle]
  by_cases hk : k ∈ s.deletes
  · rw [if_pos hk, hapart k hk, none_or]
    rcases hsplit.mp hk with htake | hdrop
    · rw [if_pos htake, ite_self]
    · rw [if_pos hdrop]
  · rw [if_neg hk, if_neg fun h => hk (hsplit.mpr (Or.inr h)),
      if_neg fun h => hk (hsplit.mpr (Or.inl h))]

theorem due_next (hidle : s.flight = .idle) : due (next cfg s) k = due s k := by
  unfold next
  split_ifs with hqueue hdeletes
  · rw [due_of_idle hidle]
    simp only [due, Flight.applied, get?_lastPerKey]
    rw [← Option.or_assoc, latest_take_drop]
  · refine due_sendDeletes hidle fun k _ => ?_
    rw [not_not.mp hqueue]
    rfl
  · rw [due_of_idle hidle]
    rfl

theorem apart_next : Apart (next cfg s) := by
  intro batch
  unfold next
  split_ifs with hqueue hdeletes
  · exact nofun
  · intro _ k _
    simp only [sendDeletes]
    rw [not_not.mp hqueue]
    rfl
  · exact nofun

theorem land_idle : (land cfg s).flight = .idle := by
  unfold land
  split <;> rfl

theorem land_queue : (land cfg s).queue = s.queue := by
  unfold land
  split <;> rfl

theorem land_deletes : (land cfg s).deletes = s.deletes := by
  unfold land
  split <;> rfl

theorem upserted_of_accepted {batch : OrdMap κ α} (hf : s.flight = .upserting batch)
    (hok : Accepted cfg s) : upserted cfg s.table batch k = (batch.get? k).or (s.table k) := by
  unfold upserted
  cases hb : batch.get? k with
  | none => rfl
  | some v =>
    cases ht : s.table k with
    | none => rfl
    | some old => simp [hok batch hf k v old hb ht]

theorem due_land (hok : Accepted cfg s) : due (land cfg s) k = due s k := by
  rw [due_of_idle land_idle, land_queue, land_deletes, due]
  have htable : (land cfg s).table k = s.flight.applied k (s.table k) := by
    unfold land
    cases hf : s.flight with
    | upserting batch => exact upserted_of_accepted hf hok
    | idle | begun | deleting => rfl
  rw [htable]

theorem apart_sendDeletes (hapart : ∀ k ∈ s.deletes, latest k s.queue = none) :
    Apart (sendDeletes cfg s) :=
  fun _ _ k hk => hapart k (mem_of_mem_drop hk)

theorem apart_resume {ok : Bool} (h : Apart s) : Apart (resume cfg s ok) := by
  unfold resume
  cases hf : s.flight with
  | idle => exact h
  | begun => exact apart_next
  | upserting batch =>
    dsimp only
    split_ifs
    · exact apart_next
    · exact fun _ hf => absurd hf (by simp)
  | deleting batch =>
    dsimp only
    split_ifs
    · exact fun _ hf => absurd hf (by simp)
    · refine apart_sendDeletes fun k hk => ?_
      rw [land_deletes] at hk
      rw [land_queue]
      exact h batch hf k hk
    · exact apart_next

theorem latest_entries (m : OrdMap κ α) (k : κ) : latest k m.entries = m.get? k :=
  latest_eq_lookup k m.nodup

/-- The drain changes nothing in what a key comes to, unless the table refuses an upsert. -/
theorem due_resume {ok : Bool} (h : Apart s) (hok : ok = true → Accepted cfg s)
    (hroom : ok = false → cfg.trims = true → ∀ batch, s.flight = .upserting batch →
      (batch.entries ++ s.queue).length ≤ cfg.cap) :
    due (resume cfg s ok) k = due s k := by
  unfold resume
  cases hf : s.flight with
  | idle => rfl
  | begun => rw [due_next land_idle, due_land fun batch hf' => absurd (hf.symm.trans hf') (by simp)]
  | upserting batch =>
    dsimp only
    split_ifs with hb
    · rw [due_next land_idle, due_land (hok hb)]
    · have hback : putBack cfg s batch = batch.entries ++ s.queue := by
        unfold putBack
        split_ifs with htrims
        · exact trim_of_le (hroom (Bool.eq_false_of_not_eq_true hb) htrims batch hf)
        · rfl
      simp only [due, hback, latest_append, latest_entries, hf, Flight.applied, Option.or_assoc]
  | deleting batch =>
    have hland : due (land cfg s) k = due s k :=
      due_land fun batch hf' => absurd (hf.symm.trans hf') (by simp)
    dsimp only
    split_ifs with hb hdeletes
    · simp only [due, hf, Flight.applied, mem_append, mem_filter, decide_eq_true_eq]
      by_cases hk : k ∈ s.deletes
      · rw [if_pos (Or.inr hk), if_pos hk]
      · rw [if_neg hk]
        by_cases hq : k ∈ s.queue.map Prod.fst
        · rw [if_neg (by rintro (⟨_, h⟩ | h); exacts [h hq, hk h])]
          obtain ⟨v, hv⟩ := ne_none_iff_exists'.mp (mt latest_eq_none.mp (not_not.mpr hq))
          simp [hv]
        · rw [latest_eq_none.mpr hq]
          by_cases hbatch : k ∈ batch
          · rw [if_pos (Or.inl ⟨hbatch, hq⟩), if_pos hbatch]
            rfl
          · rw [if_neg (by rintro (⟨h, _⟩ | h); exacts [hbatch h, hk h]), if_neg hbatch]
    · refine (due_sendDeletes land_idle fun k hk => ?_).trans hland
      rw [land_deletes] at hk
      rw [land_queue]
      exact h batch hf k hk
    · rw [due_next land_idle, hland]

end WriteBehind

theorem queuedFor_append (k : κ) [DecidableEq κ] (es es' : List (κ × α)) :
    queuedFor k (es ++ es') = queuedFor k es ++ queuedFor k es' := by
  rw [queuedFor, filter_append, map_append]
  rfl

theorem queuedFor_sublist [DecidableEq κ] {es es' : List (κ × α)} (h : es.Sublist es') (k : κ) :
    (queuedFor k es).Sublist (queuedFor k es') :=
  (h.filter _).map _

theorem queuedFor_entries [DecidableEq κ] (m : OrdMap κ α) (k : κ) :
    queuedFor k m.entries = (m.get? k).toList := by
  rw [queuedFor, filter_key]
  cases m.get? k <;> rfl

/-- The last copy alone. -/
theorem latest_sublist [DecidableEq κ] (k : κ) (es : List (κ × α)) :
    (latest k es).toList.Sublist (queuedFor k es) := by
  rw [latest_eq_getLast]
  cases hlast : (queuedFor k es).getLast? with
  | none => exact nil_sublist _
  | some v => exact singleton_sublist.mpr (mem_of_getLast? hlast)

/-- The copy of `k` in flight. -/
def Flight.carried [DecidableEq κ] : Flight κ α → κ → List α
  | .upserting batch, k => (batch.get? k).toList
  | _, _ => []

namespace WriteBehind

variable [DecidableEq κ] {cfg : Config α} {s : WriteBehind κ α} {k : κ}

/-- Every copy of `k`, from the oldest: in the table, in flight and queued. -/
def trail (s : WriteBehind κ α) (k : κ) : List α :=
  (s.table k).toList ++ s.flight.carried k ++ queuedFor k s.queue

theorem trim_sublist {β : Type*} (cap : ℕ) (l : List β) : (trim cap l).Sublist l :=
  drop_sublist _ _

theorem carried_drain : (drain s).flight.carried k = s.flight.carried k := by
  rcases drain_flight (s := s) with hf | ⟨hf, hf'⟩
  · rw [hf]
  · rw [hf, hf']
    rfl

theorem trail_drain : trail (drain s) k = trail s k := by
  rw [trail, trail, drain_table, drain_queue, carried_drain]

theorem trail_upsert (es : List (κ × α)) :
    (trail (upsert cfg s es) k).Sublist (trail s k ++ queuedFor k es) := by
  rw [upsert, trail_drain, trail, trail, append_assoc _ (queuedFor k s.queue), ← queuedFor_append]
  exact (Sublist.refl _).append (queuedFor_sublist (trim_sublist _ _) k)

theorem trail_delete (ks : List κ) : (trail (delete cfg s ks) k).Sublist (trail s k) := by
  rw [delete, trail_drain]
  exact (Sublist.refl _).append (queuedFor_sublist filter_sublist k)

theorem trail_of_idle (hidle : s.flight = .idle) :
    trail s k = (s.table k).toList ++ queuedFor k s.queue := by
  rw [trail, hidle]
  simp [Flight.carried]

theorem trail_land : (trail (land cfg s) k).Sublist (trail s k) := by
  rw [trail_of_idle land_idle, land_queue, trail]
  refine Sublist.append ?_ (Sublist.refl _)
  unfold land
  cases hf : s.flight with
  | idle | begun => exact sublist_append_left _ _
  | deleting batch =>
    dsimp only
    split_ifs
    · exact nil_sublist _
    · exact sublist_append_left _ _
  | upserting batch =>
    simp only [Flight.carried, upserted]
    cases batch.get? k with
    | none => exact sublist_append_left _ _
    | some v =>
      cases s.table k with
      | none => exact Sublist.refl _
      | some old =>
        dsimp only
        split_ifs
        · exact sublist_append_right _ _
        · exact sublist_append_left _ _

theorem trail_sendDeletes (hidle : s.flight = .idle) : trail (sendDeletes cfg s) k = trail s k := by
  rw [trail_of_idle hidle]
  simp [trail, sendDeletes, Flight.carried]

theorem trail_next (hidle : s.flight = .idle) : (trail (next cfg s) k).Sublist (trail s k) := by
  unfold next
  split_ifs with hqueue hdeletes
  · rw [trail_of_idle hidle]
    have hsplit : queuedFor k s.queue =
        queuedFor k (s.queue.take cfg.perBatch) ++ queuedFor k (s.queue.drop cfg.perBatch) := by
      rw [← queuedFor_append, take_append_drop]
    simp only [trail, Flight.carried, get?_lastPerKey, hsplit, append_assoc]
    exact (Sublist.refl _).append ((latest_sublist k _).append (Sublist.refl _))
  · rw [trail_sendDeletes hidle]
  · rw [trail_of_idle hidle, trail_of_idle rfl]

theorem putBack_sublist (batch : OrdMap κ α) :
    (queuedFor k (putBack cfg s batch)).Sublist ((batch.get? k).toList ++ queuedFor k s.queue) := by
  rw [← queuedFor_entries, ← queuedFor_append]
  refine queuedFor_sublist ?_ k
  unfold putBack
  split_ifs
  · exact trim_sublist _ _
  · exact Sublist.refl _

/-- The drain makes no copies. -/
theorem trail_resume (ok : Bool) : (trail (resume cfg s ok) k).Sublist (trail s k) := by
  unfold resume
  cases hf : s.flight with
  | idle => exact Sublist.refl _
  | begun => exact (trail_next land_idle).trans trail_land
  | upserting batch =>
    dsimp only
    split_ifs
    · exact (trail_next land_idle).trans trail_land
    · rw [trail_of_idle rfl, trail, hf, append_assoc]
      exact Sublist.append (Sublist.refl _) (putBack_sublist batch)
  | deleting batch =>
    dsimp only
    split_ifs
    · rw [trail_of_idle rfl, trail, hf]
      simp [Flight.carried]
    · rw [trail_sendDeletes land_idle]
      exact trail_land
    · exact (trail_next land_idle).trans trail_land

theorem queued_upsert (es : List (κ × α)) :
    (queuedFor k (upsert cfg s es).queue).Sublist (queuedFor k s.queue ++ queuedFor k es) := by
  rw [upsert, drain_queue, ← queuedFor_append]
  exact queuedFor_sublist (trim_sublist _ _) k

theorem queued_delete (ks : List κ) :
    (queuedFor k (delete cfg s ks).queue).Sublist (queuedFor k s.queue) := by
  rw [delete, drain_queue]
  exact queuedFor_sublist filter_sublist k

def pending (s : WriteBehind κ α) (k : κ) : List α := s.flight.carried k ++ queuedFor k s.queue

theorem pending_of_idle (hidle : s.flight = .idle) : pending s k = queuedFor k s.queue := by
  rw [pending, hidle]
  rfl

theorem pending_next (hidle : s.flight = .idle) : (pending (next cfg s) k).Sublist (pending s k) := by
  have h : (trail (next cfg { s with table := fun _ => none }) k).Sublist _ :=
    trail_next (s := { s with table := fun _ => none }) hidle
  unfold next sendDeletes at h ⊢
  split_ifs at h ⊢ <;> exact h

/-- Once the statement in flight is over, only what was queued is on its way. -/
theorem pending_resume_of_busy {ok : Bool} (hbusy : (resume cfg s ok).flight ≠ .idle) :
    (pending (resume cfg s ok) k).Sublist (queuedFor k s.queue) := by
  have hnext : (pending (next cfg (land cfg s)) k).Sublist (queuedFor k s.queue) := by
    have h : (pending (next cfg (land cfg s)) k).Sublist _ := pending_next land_idle
    rwa [pending_of_idle land_idle, land_queue] at h
  unfold resume at hbusy ⊢
  cases hf : s.flight with
  | idle =>
    rw [hf] at hbusy
    exact absurd hf hbusy
  | begun => exact hnext
  | upserting batch =>
    rw [hf] at hbusy
    dsimp only at hbusy ⊢
    split_ifs at hbusy ⊢
    · exact hnext
    · exact absurd rfl hbusy
  | deleting batch =>
    rw [hf] at hbusy
    dsimp only at hbusy ⊢
    split_ifs at hbusy ⊢
    · exact absurd rfl hbusy
    · simp [pending, sendDeletes, Flight.carried, land_queue]
    · exact hnext

theorem pending_resume (ok : Bool) : (pending (resume cfg s ok) k).Sublist (pending s k) := by
  have hnext : (pending (next cfg (land cfg s)) k).Sublist (pending s k) := by
    have h : (pending (next cfg (land cfg s)) k).Sublist _ := pending_next land_idle
    rw [pending_of_idle land_idle, land_queue] at h
    exact h.trans (sublist_append_right _ _)
  unfold resume
  cases hf : s.flight with
  | idle => exact Sublist.refl _
  | begun => exact hnext
  | upserting batch =>
    dsimp only
    split_ifs
    · exact hnext
    · rw [pending_of_idle rfl, pending, hf]
      exact putBack_sublist batch
  | deleting batch =>
    dsimp only
    split_ifs
    · rw [pending_of_idle rfl, pending, hf]
      exact sublist_append_right _ _
    · simp [pending, sendDeletes, Flight.carried, land_queue]
    · exact hnext

end WriteBehind

end Turma.Lib
