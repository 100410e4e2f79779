import Mathlib.Data.Prod.Lex
import Turma.IndexMirror.Mirror
import Turma.Lib.Paging

/-! Hydration: a replica pages the index out of Postgres by LIMIT and OFFSET while the statements of
other replicas come in between. A row that comes or goes before the offset shifts the rows behind. -/

namespace Turma.IndexMirror

open Turma.Lib

def hydratePage : ℕ := 1000

structure Index (I : Type*) [LinearOrder I] where
  sessions : Table I Row
  entries : Table (I ×ₗ ℕ) Entry

/-- The statements that other replicas run. `appendEntries`, `replaceEntries`, `seatEntries` and
`deleteTranscript` are several of them, and anything may come in between. -/
inductive Statement (I : Type*)
  | upsertSession (id : I) (row : Row)
  /-- `buildEntryInsert` -/
  | insertEntries (id : I) (entries : List Entry) (startSeq : ℕ) (overwrite : Bool)
  | trimEntries (id : I) (n : ℕ)
  | setCounts (id : I) (msgCount archiveBytes : ℕ)
  | deleteEntries (id : I)
  | deleteSession (id : I)

variable {I : Type*} [LinearOrder I]

namespace Index

def insertEntries (t : Table (I ×ₗ ℕ) Entry) (id : I) (overwrite : Bool) :
    List Entry → ℕ → Table (I ×ₗ ℕ) Entry
  | [], _ => t
  | e :: entries, seq =>
    insertEntries (t.put (toLex (id, seq)) fun old => if overwrite = true then e else old.getD e)
      id overwrite entries (seq + 1)

def exec (s : Index I) : Statement I → Index I
  | .upsertSession id row =>
    { s with sessions := s.sessions.put id fun old => old.elim row fun old =>
        { row with counters := Kept.greatest old.counters row.counters } }
  | .insertEntries id entries startSeq overwrite =>
    { s with entries := insertEntries s.entries id overwrite entries startSeq }
  | .trimEntries id n =>
    { s with entries := s.entries.remove fun k => (ofLex k).1 = id && n ≤ (ofLex k).2 }
  | .setCounts id msgCount archiveBytes =>
    { s with sessions := s.sessions.update (· = id) fun row =>
        { row with counters :=
            { row.counters with msgCount := msgCount, archiveBytes := archiveBytes } } }
  | .deleteEntries id => { s with entries := s.entries.remove fun k => (ofLex k).1 = id }
  | .deleteSession id => { s with sessions := s.sessions.remove (· = id) }

end Index

/-- Postgres, and what a hydration has read of it and passed on to `apply`. -/
structure Hydration (I : Type*) [LinearOrder I] where
  index : Index I
  sessions : Pager I Row := {}
  entries : Pager (I ×ₗ ℕ) Entry := {}

inductive HydrationEvent (I : Type*)
  | exec (statement : Statement I)
  /-- The next query of `_pageAll` is answered and its page applied. -/
  | query

namespace Hydration

/-- `hydrateInto`, or `hydrateSessionsInto` when `withEntries` is off: the sessions first. -/
def query (withEntries : Bool) (s : Hydration I) : Hydration I :=
  if s.sessions.done = false then
    { s with sessions := s.sessions.query hydratePage s.index.sessions }
  else if withEntries = true then
    { s with entries := s.entries.query hydratePage s.index.entries }
  else s

def step (withEntries : Bool) (s : Hydration I) : HydrationEvent I → Hydration I
  | .exec statement => { s with index := s.index.exec statement }
  | .query => s.query withEntries

def start (index : Index I) : Hydration I := { index := index }

def Finished (withEntries : Bool) (s : Hydration I) : Prop :=
  s.sessions.done = true ∧ (withEntries = true → s.entries.done = true)

/-- A statement leaves the rows in front of the offset of a table that is still being paged as they
are: none is new there and none is gone. -/
def Undisturbed (s : Hydration I) : HydrationEvent I → Prop
  | .exec statement =>
    (s.sessions.done = true ∨
      ¬ s.index.sessions.Shifted (s.index.exec statement).sessions s.sessions.offset) ∧
    (s.entries.done = true ∨
      ¬ s.index.entries.Shifted (s.index.exec statement).entries s.entries.offset)
  | .query => True

instance (withEntries : Bool) (s : Hydration I) : Decidable (s.Finished withEntries) :=
  inferInstanceAs (Decidable (_ ∧ _))

instance (s : Hydration I) : DecidablePred s.Undisturbed
  | .exec _ => inferInstanceAs (Decidable ((_ ∨ _) ∧ (_ ∨ _)))
  | .query => isTrue trivial

/-- What is passed on is the first rows of either table. -/
structure Sound (s : Hydration I) : Prop where
  sessions : s.sessions.Follows s.index.sessions
  entries : s.entries.Follows s.index.entries

variable {withEntries : Bool} {s : Hydration I} {e : HydrationEvent I}

theorem sound_start (index : Index I) : (start index).Sound :=
  ⟨Pager.follows_start _, Pager.follows_start _⟩

theorem Sound.step (h : s.Sound) (hok : s.Undisturbed e) : (s.step withEntries e).Sound := by
  cases e with
  | exec statement => exact ⟨h.sessions.changed hok.1, h.entries.changed hok.2⟩
  | query =>
    rw [Hydration.step, query]
    split_ifs
    · exact ⟨h.sessions.query _, h.entries⟩
    · exact ⟨h.sessions, h.entries.query _⟩
    · exact h

/-- What disturbs the sessions: a row that is new among those passed on, or one of these that goes. -/
theorem Sound.undisturbed_upsertSession (h : s.Sound) (id : I) (row : Row) :
    s.Undisturbed (.exec (.upsertSession id row)) ↔ s.sessions.done = true ∨
      id ∈ s.index.sessions.keys ∨ ∀ k ∈ s.index.sessions.keys.take s.sessions.offset, k ≤ id := by
  have hentries : ¬ s.index.entries.Shifted s.index.entries s.entries.offset := fun hne => hne rfl
  simp only [Undisturbed, Index.exec, hentries, not_false_eq_true, or_true, and_true]
  cases hdone : s.sessions.done with
  | true => simp
  | false =>
    rw [Table.shifted_put _ _ _ (h.sessions.room hdone)]
    simp only [Bool.false_eq_true, false_or, not_and_or, not_not, not_exists, not_lt,
      imp_iff_not_or]

theorem undisturbed_deleteSession (s : Hydration I) (id : I) :
    s.Undisturbed (.exec (.deleteSession id)) ↔ s.sessions.done = true ∨
      id ∉ s.index.sessions.keys.take s.sessions.offset := by
  have hentries : ¬ s.index.entries.Shifted s.index.entries s.entries.offset := fun hne => hne rfl
  simp only [Undisturbed, Index.exec, hentries, not_false_eq_true, or_true, and_true,
    Table.shifted_remove]
  simp

/-- The session row, or the entry row, is there with a value of `S`. -/
def HasSession (id : I) (S : Row → Prop) (s : Hydration I) : Prop :=
  ∃ row, S row ∧ (id, row) ∈ s.index.sessions.rows

def HasEntry (id : I) (seq : ℕ) (S : Entry → Prop) (s : Hydration I) : Prop :=
  ∃ entry, S entry ∧ (toLex (id, seq), entry) ∈ s.index.entries.rows

instance (id : I) (S : Row → Prop) [DecidablePred S] : DecidablePred (HasSession id S) := fun s =>
  decidable_of_iff (∃ r ∈ s.index.sessions.rows, r.1 = id ∧ S r.2) (by
    constructor
    · rintro ⟨⟨_, row⟩, hr, rfl, hS⟩
      exact ⟨row, hS, hr⟩
    · rintro ⟨row, hS, hr⟩
      exact ⟨(id, row), hr, rfl, hS⟩)

theorem serves_session_step {id : I} {S : Row → Prop} (hok : s.Undisturbed e)
    (hin : s.HasSession id S) (hs : s.sessions.Serves s.index.sessions id S) :
    (s.step withEntries e).sessions.Serves (s.step withEntries e).index.sessions id S := by
  cases e with
  | exec statement => exact hs.changed hok.1
  | query =>
    rw [Hydration.step, query]
    split_ifs
    · exact hs.query hin _
    · exact hs
    · exact hs

theorem serves_entry_step {id : I} {seq : ℕ} {S : Entry → Prop}
    (hok : s.Undisturbed e) (hin : s.HasEntry id seq S)
    (hs : s.entries.Serves s.index.entries (toLex (id, seq)) S) :
    (s.step withEntries e).entries.Serves (s.step withEntries e).index.entries (toLex (id, seq))
      S := by
  cases e with
  | exec statement => exact hs.changed hok.2
  | query =>
    rw [Hydration.step, query]
    split_ifs
    · exact hs
    · exact hs.query hin _
    · exact hs

end Hydration

/-- In every hydration in which no statement adds or takes away a row in front of the offset of a
table that is still being paged: a row that is there all the time is passed on exactly once, with a
value that it had. -/
theorem hydrate_passes_once (withEntries : Bool) (index : Index I)
    (events : List (HydrationEvent I))
    (h : Along (Hydration.step withEntries) Hydration.Undisturbed (.start index) events)
    (hfinished : (run (Hydration.step withEntries) (.start index) events).Finished withEntries) :
    let final := run (Hydration.step withEntries) (.start index) events
    (∀ id S, Throughout (Hydration.step withEntries) (Hydration.HasSession id S) (.start index) events →
      final.sessions.times id = 1 ∧ ∃ row, S row ∧ (id, row) ∈ final.sessions.passed) ∧
    (withEntries = true → ∀ id seq S,
      Throughout (Hydration.step withEntries) (Hydration.HasEntry id seq S) (.start index) events →
      final.entries.times (toLex (id, seq)) = 1 ∧ ∃ entry, S entry ∧ (toLex (id, seq), entry) ∈ final.entries.passed) := by
  refine ⟨fun id S hthere => ?_, fun hwith id seq S hthere => ?_⟩
  · obtain ⟨hsound, hserves⟩ := run_inv (Hydration.step withEntries)
      (P := fun s => s.Sound ∧ s.sessions.Serves s.index.sessions id S)
      (fun s e hs hok => ⟨hs.1.step hok.1, Hydration.serves_session_step hok.1 hok.2.1 hs.2⟩)
      ⟨Hydration.sound_start index, Pager.serves_start _ _ _⟩ (h.and _ hthere.along)
    exact hserves.once hsound.sessions hfinished.1
  · obtain ⟨hsound, hserves⟩ := run_inv (Hydration.step withEntries)
      (P := fun s => s.Sound ∧ s.entries.Serves s.index.entries (toLex (id, seq)) S)
      (fun s e hs hok => ⟨hs.1.step hok.1, Hydration.serves_entry_step hok.1 hok.2.1 hs.2⟩)
      ⟨Hydration.sound_start index, Pager.serves_start _ _ _⟩ (h.and _ hthere.along)
    exact hserves.once hsound.entries (hfinished.2 hwith)

/-- A table of one page and one row, and the rows of a transcript that goes and comes. -/
def overOnePage : Index ℕ where
  sessions := ⟨(List.range (hydratePage + 1)).map fun id => (id, ⟨{}, {}⟩), by
    have hid : Prod.fst ∘ (fun id => (id, (⟨{}, {}⟩ : Row))) = (id : ℕ → ℕ) := rfl
    rw [List.map_map, hid, List.map_id]
    exact List.pairwise_lt_range⟩
  entries := ⟨[], List.Pairwise.nil⟩

theorem hydrate_passes_once_behind :
    (run (Hydration.step true) (.start overOnePage)
      [.query, .exec (.deleteSession 1000), .exec (.insertEntries 3 [⟨none, none, none, []⟩] 0 true),
        .query, .query]).sessions.times 999 = 1 :=
  ((hydrate_passes_once true overOnePage _ (by decide +kernel) (by decide +kernel)).1 999
    (fun _ => True) (by decide +kernel)).1

/-- The first of the rows passed on is deleted, so that the next query skips one that is still there. -/
theorem hydrate_skips_row : ¬ ∀ (index : Index ℕ) (events : List (HydrationEvent ℕ)) (id : ℕ),
    (run (Hydration.step false) (.start index) events).Finished false →
    Throughout (Hydration.step false) (Hydration.HasSession id fun _ => True) (.start index) events →
    (run (Hydration.step false) (.start index) events).sessions.times id = 1 := by
  intro h
  have honce := h overOnePage [.query, .exec (.deleteSession 0), .query] 1000 (by decide +kernel)
    (by decide +kernel)
  revert honce
  decide +kernel

end Turma.IndexMirror
