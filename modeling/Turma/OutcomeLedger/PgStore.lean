import Turma.Lib.Run
import Turma.Lib.WriteBehind
import Turma.OutcomeLedger.Evict

/-! The Postgres queue of the outcome ledger. A statement in flight ends in any order with the
calls of `onChange` and `onDelete`. -/

namespace Turma.OutcomeLedger

open Turma.Lib List JsString WriteBehind

/-- A row of `outcome_session`. The text of `doc` is that of the row. -/
structure Stored where
  updatedAt : ℕ
  doc : Row
deriving DecidableEq

def pgQueueMax : ℕ := 5000

def pgRowsPerInsert : ℕ := 500

/-- The upsert writes over a row that is not newer. -/
def pgConfig : WriteBehind.Config Stored where
  cap := pgQueueMax
  perBatch := pgRowsPerInsert
  accepts old new := decide (old.updatedAt ≤ new.updatedAt)
  trims := false

abbrev PgStore := WriteBehind JsString Stored

def Row.tuple (r : Row) : JsString × Stored := (r.key, ⟨r.updatedAt, r⟩)

def onChange (s : PgStore) (list : List Row) : PgStore := s.upsert pgConfig (list.map Row.tuple)

def onDelete (s : PgStore) (keys : List JsString) : PgStore := s.delete pgConfig keys

inductive Event
  | onChange (list : List Row)
  | onDelete (keys : List JsString)
  | drain
  | resume (ok : Bool)
  | close

def step (s : PgStore) : Event → PgStore
  | .onChange list => onChange s list
  | .onDelete keys => onDelete s keys
  | .drain => s.drain
  | .resume ok => s.resume pgConfig ok
  | .close => { s with closed := true }

/-- The last row passed for `k`, if the last call that names `k` is `onChange`. -/
def asked (k : JsString) (cur : Option Stored) : Event → Option Stored
  | .onChange list => (latest k (list.map Row.tuple)).or cur
  | .onDelete keys => if k ∈ keys then none else cur
  | _ => cur

def passed (k : JsString) : Event → List Stored
  | .onChange list => queuedFor k (list.map Row.tuple)
  | _ => []

def Fits (s : PgStore) : Event → Prop
  | .onChange list => (s.queue ++ list.map Row.tuple).length ≤ pgQueueMax
  | .onDelete keys => (s.deletes ++ keys).length ≤ pgQueueMax
  | _ => True

instance decidableFits (s : PgStore) : ∀ e, Decidable (Fits s e)
  | .onChange list =>
    inferInstanceAs (Decidable ((s.queue ++ list.map Row.tuple).length ≤ pgQueueMax))
  | .onDelete keys => inferInstanceAs (Decidable ((s.deletes ++ keys).length ≤ pgQueueMax))
  | .drain | .resume _ | .close => isTrue trivial

def times (table : JsString → Option Stored) (evs : List Event) (k : JsString) : List ℕ :=
  ((table k).toList ++ evs.flatMap (passed k)).map Stored.updatedAt

section

variable {s : PgStore} {k : JsString}

theorem trail_step (e : Event) :
    (trail (step s e) k).Sublist (trail s k ++ passed k e) := by
  cases e with
  | onChange list => exact trail_upsert _
  | onDelete keys => exact (trail_delete keys).trans (sublist_append_left _ _)
  | drain =>
    rw [step, trail_drain]
    exact sublist_append_left _ _
  | resume ok => exact (trail_resume ok).trans (sublist_append_left _ _)
  | close => exact sublist_append_left _ _

/-- Copies in the order of their times are never refused. -/
theorem accepted_of_trail
    (h : ∀ k, (trail s k).Pairwise fun a b => a.updatedAt ≤ b.updatedAt) :
    WriteBehind.Accepted pgConfig s := by
  intro batch hf k v old hv hold
  have hk := h k
  rw [trail, hf, hold, Flight.carried, hv] at hk
  simpa [pgConfig] using (pairwise_append.mp hk).1

theorem apart_step {e : Event} (hfits : Fits s e) (h : WriteBehind.Apart s) :
    WriteBehind.Apart (step s e) := by
  cases e with
  | onChange list => exact apart_upsert hfits h
  | onDelete keys => exact apart_delete hfits h
  | drain => exact apart_drain h
  | resume ok => exact apart_resume h
  | close => exact h

theorem due_step {e : Event} (hfits : Fits s e) (h : WriteBehind.Apart s)
    (hok : WriteBehind.Accepted pgConfig s) :
    due (step s e) k = asked k (due s k) e := by
  cases e with
  | onChange list => exact due_upsert hfits
  | onDelete keys =>
    have hdue : due (onDelete s keys) k = _ := due_delete hfits
    rw [step, hdue]
    by_cases hk : k ∈ keys <;> simp [asked, hk]
  | drain => exact due_drain
  | resume ok => exact due_resume h (fun _ => hok) fun _ ht => absurd ht (by simp [pgConfig])
  | close => rfl

/-- What a key comes to is what the calls ask for, over every run. -/
theorem due_run (evs : List Event) (hapart : WriteBehind.Apart s)
    (hfits : Along step Fits s evs)
    (hrise : ∀ k, (trail s k ++ evs.flatMap (passed k)).Pairwise
      fun a b => a.updatedAt ≤ b.updatedAt) :
    due (run step s evs) k = evs.foldl (asked k) (due s k) := by
  induction evs generalizing s with
  | nil => rfl
  | cons e evs ih =>
    have hok : WriteBehind.Accepted pgConfig s := accepted_of_trail fun k =>
      (hrise k).sublist (sublist_append_left _ _)
    rw [run_cons, ih (apart_step hfits.1 hapart) hfits.2 fun k => ?_, due_step hfits.1 hapart hok]
    · rfl
    · have hk := hrise k
      rw [flatMap_cons, ← append_assoc] at hk
      exact hk.sublist ((trail_step e).append (Sublist.refl _))

end

theorem init_apart (table : JsString → Option Stored) :
    WriteBehind.Apart (init table) :=
  fun _ hf => absurd hf (by simp [init])

/-- Whenever the queue has come to rest, the table holds what the last call asked for, with every
key that no call named as it was. -/
theorem queue_converges (table : JsString → Option Stored) (evs : List Event)
    (hfits : Along step Fits (init table) evs)
    (hrise : ∀ k, (times table evs k).Pairwise (· ≤ ·))
    (hrest : WriteBehind.AtRest (run step (init table) evs)) (k : JsString) :
    (run step (init table) evs).table k = evs.foldl (asked k) (table k) := by
  have hdue : due (init table) k = table k := by
    simp [due, init, latest, Flight.applied]
  rw [table_of_atRest hrest, due_run evs (init_apart table) hfits fun k => ?_, hdue]
  have htrail : trail (init table) k = (table k).toList := by
    simp [trail, init, Flight.carried, queuedFor]
  rw [htrail]
  exact pairwise_map.mp (hrise k)

def rowAt (time : ℕ) : Row where
  site := ofString "org"
  issue := ofString "T-1"
  host := ofString "box"
  sid := ofString "s1"
  cls := ofString "bug"
  model := ofString "opus"
  firstSeen := 1
  updatedAt := time
  modelKnown := false
  modelGuess := true
  repo := []
  runtime := []
  startedAt := none
  endedAt := none
  doneAt := none
  reopenedAt := none
  closeKind := none
  prs := []
  qa := none
  defects := []
  kind := .live none

/-- A row is deleted while its upsert is in flight, the upsert fails, and the row comes back. -/
theorem queue_converges_returning :
    (run step (init fun _ => none) [.onChange [rowAt 1], .resume true,
      .onDelete [(rowAt 1).key], .resume false, .onChange [rowAt 2], .resume true,
      .resume true]).table (rowAt 1).key = some ⟨2, rowAt 2⟩ := by
  have hkey : (rowAt 2).key = (rowAt 1).key := rfl
  refine (queue_converges (fun _ => none) _ (by decide) (fun k => ?_) ⟨by decide,
    by decide, rfl⟩ (rowAt 1).key).trans (by decide)
  by_cases hk : (rowAt 1).key = k
  · rw [← hk]
    decide
  · simp [times, passed, queuedFor, Row.tuple, hkey, hk]

end Turma.OutcomeLedger
