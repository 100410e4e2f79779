import Mathlib.Data.List.Infix
import Turma.Lib.Lines
import Turma.Lib.Run

/-! The per-child projection cursor: a child's native log, read from where the last pump
stopped, projected, and appended to the child's transcript. -/

namespace Turma.Tail

open Turma.Lib

abbrev Bytes := List UInt8

def newline : UInt8 := 10

def isSpace (b : UInt8) : Bool := b == 32 || (9 ≤ b && b ≤ 13)

def strip (line : Bytes) : Bytes :=
  ((line.dropWhile isSpace).reverse.dropWhile isSpace).reverse

/-- What decoding a line and parsing it comes to: an event, the `ValueError` that `pump` catches,
or an exception that it does not. -/
inductive Loads (ε : Type)
  | event (e : ε)
  | valueError
  | raised
deriving DecidableEq

/-- A runtime: its projector, with the state `feed` carries on, and the two codecs. `dumps` is
`none` for an entry that the file's encoding refuses. -/
structure Runtime (σ ε τ : Type) where
  make : σ
  feed : σ → ε → σ × List τ
  loads : Bytes → Loads ε
  dumps : τ → Option Bytes

variable {σ ε τ : Type}

namespace Runtime

variable (r : Runtime σ ε τ)

def feedAll : σ → List ε → σ × List τ
  | proj, [] => (proj, [])
  | proj, e :: es =>
    let (proj', out) := r.feed proj e
    let (proj'', outs) := feedAll proj' es
    (proj'', out ++ outs)

def projectLog (events : List ε) : List τ := (r.feedAll r.make events).2

def event? (line : Bytes) : Option ε :=
  if strip line = [] then none
  else match r.loads (strip line) with
    | .event e => some e
    | .valueError => none
    | .raised => none

def events (log : Bytes) : List ε := (splitLines newline log).1.filterMap r.event?

def entryText (entry : τ) : Bytes :=
  match r.dumps entry with
  | some text => text ++ [newline]
  | none => []

/-- What a transcript of the log holds when the whole log is projected in one go. -/
def transcript (log : Bytes) : Bytes := (r.projectLog (r.events log)).flatMap r.entryText

/-- What `append_entries` hands to the file: the entries up to the first one that does not
encode. -/
def appended : List τ → Bytes
  | [] => []
  | e :: es => match r.dumps e with
    | some text => text ++ newline :: appended es
    | none => []

end Runtime

structure Fed (σ τ : Type) where
  part : Bytes
  proj : σ
  entries : List τ
  raised : Bool

def drain (r : Runtime σ ε τ) (part : Bytes) (proj : σ) (entries : List τ) : Fed σ τ :=
  match h : cutLine newline part with
  | none => ⟨part, proj, entries, false⟩
  | some (line, rest) =>
    have := length_of_cutLine newline h
    if strip line = [] then drain r rest proj entries
    else match r.loads (strip line) with
      | .valueError => drain r rest proj entries
      | .raised => ⟨rest, proj, entries, true⟩
      | .event e =>
        let (proj', out) := r.feed proj e
        drain r rest proj' (entries ++ out)
termination_by part.length

/-- What `open_fresh_for_write` came to: a fresh file, an `OSError` with the old file in place, or
an `OSError` after the old file was unlinked. -/
inductive Truncation
  | fresh
  | refused
  | unlinked
deriving DecidableEq

/-- What the write of `append_entries` came to: everything written, or an `OSError` after so many
bytes. -/
inductive Write
  | whole
  | cut (bytes : ℕ)
deriving DecidableEq

/-- A child's log, its transcript and its `ChildProjection`. A pump stands between its `lstat`
and its `open` while `pumping`. `seen` is what has been read since the projection last started
over; no function reads it. A transcript that is not there is an empty one. -/
structure State (σ : Type) where
  log : Bytes
  dest : Bytes
  proj : σ
  offset : ℕ
  part : Bytes
  pumping : Bool
  seen : Bytes

inductive Event
  | grow (bytes : Bytes)
  | rewrite (log : Bytes)
  | lstat (t : Truncation)
  | lstatFails
  | read (w : Write)
  | readFails

def start (r : Runtime σ ε τ) : State σ :=
  { log := [], dest := [], proj := r.make, offset := 0, part := [], pumping := false, seen := [] }

def truncate (dest : Bytes) : Truncation → Bytes
  | .fresh => []
  | .refused => dest
  | .unlinked => []

def appendEntries (r : Runtime σ ε τ) (dest : Bytes) (entries : List τ) : Write → Bytes
  | .whole => dest ++ r.appended entries
  | .cut n => dest ++ (r.appended entries).take n

def pumpStat (r : Runtime σ ε τ) (s : State σ) (t : Truncation) : State σ :=
  if s.log.length < s.offset then
    { s with
      offset := 0, part := [], proj := r.make, dest := truncate s.dest t, pumping := true,
      seen := [] }
  else if s.log.length = s.offset then s
  else { s with pumping := true }

def pumpRead (r : Runtime σ ε τ) (s : State σ) (w : Write) : State σ :=
  let data := s.log.drop s.offset
  if data = [] then { s with pumping := false }
  else
    let f := drain r (s.part ++ data) s.proj []
    { s with
      offset := s.offset + data.length, part := f.part, proj := f.proj, pumping := false,
      -- an exception out of the loop takes the entries with it
      dest := if f.raised || f.entries.isEmpty then s.dest else appendEntries r s.dest f.entries w,
      seen := s.seen ++ data }

def step (r : Runtime σ ε τ) (s : State σ) : Event → State σ
  | .grow bytes => { s with log := s.log ++ bytes }
  | .rewrite log => { s with log := log }
  | .lstat t => if s.pumping then s else pumpStat r s t
  | .lstatFails => s
  | .read w => if s.pumping then pumpRead r s w else s
  | .readFails => { s with pumping := false }

/-- The transcript is the projection of all complete lines of the log. -/
def Complete (r : Runtime σ ε τ) (s : State σ) : Prop := s.dest = r.transcript s.log

end Turma.Tail

/-! What has been read is what has been projected, for as long as no append and no truncation
fails; and so a pump that goes through leaves the projection of the whole log. -/

namespace Turma.Tail

open Turma.Lib

variable {σ ε τ : Type} (r : Runtime σ ε τ)

def Runtime.Parses (line : Bytes) : Prop := strip line = [] ∨ r.loads (strip line) ≠ .raised

def State.newLines (s : State σ) : List Bytes :=
  (splitLines newline (s.part ++ s.log.drop s.offset)).1

def Runtime.newEntries (s : State σ) : List τ :=
  (r.feedAll s.proj (s.newLines.filterMap r.event?)).2

/-- What keeps a pump from losing or doubling anything: a truncation fails only where there is
nothing to truncate, an append only when all of it was written, and every line that is completed
parses, into entries that the file's encoding takes. -/
def Kept (s : State σ) : Event → Prop
  | .lstat t => s.log.length < s.offset → t = .refused → s.dest = []
  | .read w =>
    (∀ line ∈ s.newLines, r.Parses line) ∧ (∀ e ∈ r.newEntries s, (r.dumps e).isSome) ∧
      ∀ n, w = .cut n → (r.appended (r.newEntries s)).length ≤ n
  | _ => True

theorem feedAll_append (proj : σ) (es es' : List ε) :
    r.feedAll proj (es ++ es') =
      ((r.feedAll (r.feedAll proj es).1 es').1,
        (r.feedAll proj es).2 ++ (r.feedAll (r.feedAll proj es).1 es').2) := by
  induction es generalizing proj with
  | nil => rfl
  | cons e es ih => simp only [List.cons_append, Runtime.feedAll, ih, List.append_assoc]

variable {entries : List τ}

/-- The entries of a list that encodes are written whole. -/
theorem appended_eq (h : ∀ e ∈ entries, (r.dumps e).isSome) :
    r.appended entries = entries.flatMap r.entryText := by
  induction entries with
  | nil => rfl
  | cons e es ih =>
    obtain ⟨text, ht⟩ := Option.isSome_iff_exists.mp (h e (by simp))
    have ih' := ih fun e' he' => h e' (by simp [he'])
    simp [Runtime.appended, Runtime.entryText, ht, ih']

theorem events_of_cutLine {part line rest : Bytes} (h : cutLine newline part = some (line, rest)) :
    r.events part = (r.event? line).toList ++ r.events rest := by
  rw [Runtime.events, splitLines_of_cutLine newline h, List.filterMap_cons]
  cases r.event? line <;> rfl

/-- The loop feeds the events of the complete lines and keeps what is left of them. -/
theorem drain_eq {part : Bytes} {proj : σ}
    (h : ∀ line ∈ (splitLines newline part).1, r.Parses line) :
    drain r part proj entries =
      { part := (splitLines newline part).2
        proj := (r.feedAll proj (r.events part)).1
        entries := entries ++ (r.feedAll proj (r.events part)).2
        raised := false } := by
  fun_induction drain r part proj entries with
  | case1 part proj entries hc =>
    simp [Runtime.events, splitLines_of_cutLine_none newline hc, Runtime.feedAll]
  | case2 part proj entries line rest hc hlt hblank ih =>
    have hs := splitLines_of_cutLine newline hc
    have hev : r.event? line = none := by simp [Runtime.event?, hblank]
    rw [ih fun l hl => h l (by simp [hs, hl]), events_of_cutLine r hc, hev, hs]
    rfl
  | case3 part proj entries line rest hc hlt hne hload ih =>
    have hs := splitLines_of_cutLine newline hc
    have hev : r.event? line = none := by simp [Runtime.event?, hne, hload]
    rw [ih fun l hl => h l (by simp [hs, hl]), events_of_cutLine r hc, hev, hs]
    rfl
  | case4 part proj entries line rest hc hlt hne hload =>
    have hs := splitLines_of_cutLine newline hc
    rcases h line (by simp [hs]) with hb | hr
    · exact absurd hb hne
    · exact absurd hload hr
  | case5 part proj entries line rest hc hlt hne e hload proj' out hfeed ih =>
    have hs := splitLines_of_cutLine newline hc
    have hev : r.event? line = some e := by simp [Runtime.event?, hne, hload]
    rw [ih fun l hl => h l (by simp [hs, hl]), events_of_cutLine r hc, hev, hs]
    simp [Runtime.feedAll, hfeed]

/-- The projection stands where reading `seen` in one go would have it. -/
structure Standing (s : State σ) : Prop where
  offset : s.offset = s.seen.length
  part : s.part = (splitLines newline s.seen).2
  proj : s.proj = (r.feedAll r.make (r.events s.seen)).1
  dest : s.dest = r.transcript s.seen

variable (seen data : Bytes)

theorem events_append :
    r.events (seen ++ data) =
      r.events seen ++ r.events ((splitLines newline seen).2 ++ data) := by
  simp only [Runtime.events, splitLines_append newline seen data, List.filterMap_append]

/-- A transcript goes on with the entries of the lines that the growth completes. -/
theorem transcript_append :
    r.transcript (seen ++ data) = r.transcript seen ++
      (r.feedAll (r.feedAll r.make (r.events seen)).1
        (r.events ((splitLines newline seen).2 ++ data))).2.flatMap r.entryText := by
  rw [Runtime.transcript, Runtime.projectLog, events_append, feedAll_append, List.flatMap_append]
  rfl

variable {s : State σ}

theorem Standing.pumpStat {t : Truncation} (h : Standing r s)
    (hk : Kept r s (.lstat t)) : Standing r (pumpStat r s t) := by
  unfold Tail.pumpStat
  split
  · rename_i hlt
    refine ⟨rfl, rfl, rfl, ?_⟩
    cases t with
    | fresh => rfl
    | refused => exact hk hlt rfl
    | unlinked => rfl
  · split
    · exact h
    · exact ⟨h.offset, h.part, h.proj, h.dest⟩

variable {w : Write}

/-- An append that had nothing to lose, or lost nothing, wrote the entries whole. -/
theorem appendEntries_eq {dest : Bytes}
    (henc : ∀ e ∈ entries, (r.dumps e).isSome)
    (hw : ∀ n, w = .cut n → (r.appended entries).length ≤ n) :
    appendEntries r dest entries w = dest ++ entries.flatMap r.entryText := by
  cases w with
  | whole => simp [appendEntries, appended_eq r henc]
  | cut n => rw [appendEntries, List.take_of_length_le (hw n rfl), appended_eq r henc]

theorem Standing.pumpRead (h : Standing r s) (hk : Kept r s (.read w)) :
    Standing r (pumpRead r s w) := by
  obtain ⟨hparse, henc, hw⟩ := hk
  unfold Tail.pumpRead
  dsimp only
  generalize hdata : s.log.drop s.offset = data
  split
  · exact ⟨h.offset, h.part, h.proj, h.dest⟩
  · have hnew : r.newEntries s = (r.feedAll s.proj (r.events (s.part ++ data))).2 := by
      rw [← hdata]
      rfl
    rw [State.newLines, hdata] at hparse
    rw [drain_eq r hparse, List.nil_append, ← hnew]
    refine ⟨?_, ?_, ?_, ?_⟩
    · simp [h.offset]
    · simp only [splitLines_append newline s.seen data, ← h.part]
    · rw [events_append r s.seen data, feedAll_append, ← h.part, ← h.proj]
    · rw [transcript_append, ← h.proj, ← h.part, ← hnew, ← h.dest]
      split
      · rename_i hempty
        have : r.newEntries s = [] := by simpa using hempty
        simp [this]
      · exact appendEntries_eq r henc hw

theorem Standing.step {e : Event} (h : Standing r s) (hk : Kept r s e) :
    Standing r (step r s e) := by
  cases e with
  | grow bytes => exact ⟨h.offset, h.part, h.proj, h.dest⟩
  | rewrite log => exact ⟨h.offset, h.part, h.proj, h.dest⟩
  | lstat t =>
    dsimp only [Tail.step]
    split
    · exact h
    · exact h.pumpStat r hk
  | lstatFails => exact h
  | read w =>
    dsimp only [Tail.step]
    split
    · exact h.pumpRead r hk
    · exact h
  | readFails => exact ⟨h.offset, h.part, h.proj, h.dest⟩

end Turma.Tail
