import Mathlib.Data.Nat.Notation
import Mathlib.Logic.Function.Basic
import Mathlib.Order.Basic
import Turma.Lib.Run
import Turma.LiveStore.Backends

/-! The durable keys of `FileLiveStore`: the map, the debounce timers, the asynchronous writer and
`flush`. Every file operation succeeds. -/

namespace Turma.LiveStore

open Turma.Lib List Option

/-- `JSON.stringify` and `JSON.parse` on the values that a store holds, and `(Number(v) || 0) + n`. -/
structure Values (V N : Type*) where
  stringify : V → List Char
  parse : List Char → Option V
  plus : Option V → N → V

/-- What an asynchronous write has asked for last: the directory, the temporary file, the rename.
After `renamed` only its callback is left. -/
inductive Stage
  | mkdir
  | writing
  | written
  | renamed
deriving DecidableEq

structure Write where
  blob : List Char
  gen : ℕ
  stage : Stage
deriving DecidableEq

/-- One key: its part of the map and of the maps of timers, writes and generations, the writes whose
callbacks are still to come, its file and the temporary file of the asynchronous writer. `held` is
every value that the key has had. -/
structure Slot (V : Type*) where
  value : Option V
  held : List V
  timer : Bool
  writing : Bool
  writeAgain : Bool
  writeGen : ℕ
  writes : List Write
  file : Option (List Char)
  tmp : Option (List Char)

inductive SlotEvent (V N : Type*)
  | set (v : V)
  | incrBy (n : N)
  | del
  /-- The debounce runs out. -/
  | fire
  /-- The first `n` characters of a write have reached its temporary file. -/
  | wrote (i n : ℕ)
  /-- What a write has asked for is done, and its callback runs. -/
  | advance (i : ℕ)

inductive DurableEvent (K V N : Type*)
  | key (k : K) (e : SlotEvent V N)
  | flush

variable {K V N : Type*}

namespace Slot

def persist (s : Slot V) (persistent : Bool) : Slot V :=
  if persistent = true then { s with timer := true } else s

/-- `_writeNow` of a durable key. -/
def writeNow (C : Values V N) (s : Slot V) (sync : Bool) : Slot V :=
  match s.value with
  | none => s
  | some v =>
    if sync = false ∧ s.writing = true then { s with writeAgain := true }
    else
      let blob := C.stringify v
      let gen := s.writeGen + 1
      -- the synchronous write has a temporary file of its own, and nothing runs meanwhile
      if sync = true then { s with writeGen := gen, file := some blob }
      else { s with
        writeGen := gen
        writing := true
        writes := s.writes ++ [⟨blob, gen, .mkdir⟩] }

/-- `done`, of the write in place `i`. -/
def done (C : Values V N) (s : Slot V) (i : ℕ) : Slot V :=
  if s.writeAgain = true then
    ({ s with writing := false, writeAgain := false, writes := s.writes.eraseIdx i }).writeNow C false
  else { s with writing := false, writes := s.writes.eraseIdx i }

def advance (C : Values V N) (s : Slot V) (i : ℕ) : Slot V :=
  match s.writes[i]? with
  | none => s
  | some w =>
    match w.stage with
    | .mkdir =>
      -- the temporary file is truncated before anything is written to it
      { s with tmp := some [], writes := s.writes.set i { w with stage := .writing } }
    | .writing =>
      { s with tmp := some w.blob, writes := s.writes.set i { w with stage := .written } }
    | .written =>
      { s with
        file := s.tmp.or s.file
        tmp := none
        writes := s.writes.set i { w with stage := .renamed } }
    | .renamed =>
      let s := if s.writeGen ≠ w.gen then s.writeNow C true else s
      s.done C i

def wrote (s : Slot V) (i n : ℕ) : Slot V :=
  match s.writes[i]? with
  | some ⟨blob, _, .writing⟩ => { s with tmp := some (blob.take n) }
  | _ => s

def put (s : Slot V) (v : V) : Slot V := { s with value := some v, held := v :: s.held }

def step (C : Values V N) (persistent : Bool) (s : Slot V) : SlotEvent V N → Slot V
  | .set v => (s.put v).persist persistent
  | .incrBy n => (s.put (C.plus s.value n)).persist persistent
  | .del => ({ s with value := none }).persist persistent
  | .fire => if s.timer = true then ({ s with timer := false }).writeNow C false else s
  | .wrote i n => s.wrote i n
  | .advance i => s.advance C i

def flush (C : Values V N) (s : Slot V) : Slot V := ({ s with timer := false }).writeNow C true

/-- A key before its first event. The file may be there from an earlier run; its value has been
loaded, unless the key was registered only after that. -/
def boot (C : Values V N) (loaded : Bool) (found : Option (List Char)) : Slot V where
  value := if loaded = true then found.bind C.parse else none
  held := (found.bind C.parse).toList
  timer := false
  writing := false
  writeAgain := false
  writeGen := 0
  writes := []
  file := found
  tmp := none

end Slot

variable [DecidableEq K]

def durableStep (C : Values V N) (persistent : K → Bool) (s : K → Slot V) :
    DurableEvent K V N → K → Slot V
  | .key k e => Function.update s k ((s k).step C (persistent k) e)
  | .flush => fun k => if persistent k = true then (s k).flush C else s k

/-- `raw` is a complete text of `v`. -/
def Values.Encodes (C : Values V N) (raw : List Char) (v : V) : Prop :=
  raw = C.stringify v ∨ C.parse raw = some v

theorem Values.encodes_stringify (C : Values V N) (v : V) : C.Encodes (C.stringify v) v := .inl rfl

namespace Slot

variable {C : Values V N} {found : Option (List Char)} {s : Slot V} {w : Write}

def Holds (C : Values V N) (s : Slot V) (v : V) : Prop := ∃ raw, s.file = some raw ∧ C.Encodes raw v

/-- The only write, the one that the flag stands for. Once it has been written, its temporary file is
complete until it is renamed. -/
structure Only (C : Values V N) (s : Slot V) (w : Write) : Prop where
  writes : s.writes = [w]
  writing : s.writing = true
  gen : w.gen ≤ s.writeGen
  blob : ∃ v ∈ s.held, w.blob = C.stringify v
  tmp : w.stage = .written → s.tmp = some w.blob

structure Quiet (s : Slot V) : Prop where
  writes : s.writes = []
  writing : s.writing = false
  writeAgain : s.writeAgain = false

/-- The write in flight leaves a text of `v` behind: it is the one of `v`, or a flush has come in
between, so that its callback writes again. -/
def Brings (C : Values V N) (s : Slot V) (w : Write) (v : V) : Prop :=
  w.gen ≠ s.writeGen ∨ if w.stage = .renamed then s.Holds C v else w.blob = C.stringify v

/-- How the newest value gets to the file, if it is not there. -/
def Coming (C : Values V N) (s : Slot V) (v : V) : Prop :=
  s.timer = true ∨ s.writeAgain = true ∨ (s.writes = [] ∧ s.Holds C v) ∨
    ∃ w, s.writes = [w] ∧ s.Brings C w v

/-- What holds of a key besides how its newest value gets to the file. -/
structure Based (C : Values V N) (found : Option (List Char)) (s : Slot V) : Prop where
  flight : s.Quiet ∨ ∃ w, s.Only C w
  file : ∀ raw, s.file = some raw →
    (∃ v ∈ s.held, C.Encodes raw v) ∨ (found = some raw ∧ C.parse raw = none)
  held : ∀ v, s.value = some v → v ∈ s.held

structure Sound (C : Values V N) (found : Option (List Char)) (s : Slot V) : Prop extends
    Based C found s where
  coming : ∀ v, s.value = some v → s.Coming C v

/-- A new file with a text of a value that the key has had. -/
theorem Based.rewritten (h : s.Based C found) {v : V} (hv : v ∈ s.held) (gen : ℕ)
    (hgen : s.writeGen ≤ gen) :
    Based C found { s with writeGen := gen, file := some (C.stringify v) } where
  flight := by
    rcases h.flight with hq | ⟨w, hw⟩
    · exact .inl ⟨hq.writes, hq.writing, hq.writeAgain⟩
    · exact .inr ⟨w, hw.writes, hw.writing, Nat.le_trans hw.gen hgen, hw.blob, hw.tmp⟩
  file raw hraw := .inl ⟨v, hv, some.inj hraw ▸ C.encodes_stringify v⟩
  held := h.held

/-- A new value arms the timer. -/
theorem Sound.change (h : s.Sound C found) {value : Option V} {held : List V}
    (hsub : ∀ v ∈ s.held, v ∈ held) (hvalue : ∀ v, value = some v → v ∈ held) :
    Sound C found { s with value := value, held := held, timer := true } where
  flight := by
    rcases h.flight with hq | ⟨w, hw⟩
    · exact .inl ⟨hq.writes, hq.writing, hq.writeAgain⟩
    · obtain ⟨v, hv, hblob⟩ := hw.blob
      exact .inr ⟨w, hw.writes, hw.writing, hw.gen, ⟨v, hsub v hv, hblob⟩, hw.tmp⟩
  file raw hraw := (h.file raw hraw).imp_left fun ⟨v, hv, henc⟩ => ⟨v, hsub v hv, henc⟩
  held := hvalue
  coming _ _ := .inl rfl

theorem Based.untimed (h : s.Based C found) : Based C found { s with timer := false } where
  flight := by
    rcases h.flight with hq | ⟨w, hw⟩
    · exact .inl ⟨hq.writes, hq.writing, hq.writeAgain⟩
    · exact .inr ⟨w, hw.writes, hw.writing, hw.gen, hw.blob, hw.tmp⟩
  file := h.file
  held := h.held

theorem writeNow_absent (hv : s.value = none) (sync : Bool) : s.writeNow C sync = s := by
  rw [writeNow, hv]

theorem writeNow_present {v : V} (hv : s.value = some v) : s.writeNow C true =
    { s with writeGen := s.writeGen + 1, file := some (C.stringify v) } := by
  rw [writeNow, hv]
  rfl

/-- After a synchronous write the file holds the newest value; a write in flight, which may still be
renamed over it, is of an older generation. -/
theorem Based.writeNow_sync (h : s.Based C found) : (s.writeNow C true).Sound C found := by
  cases hv : s.value with
  | none =>
    rw [writeNow_absent hv]
    exact ⟨h, fun v hv' => absurd (hv.symm.trans hv') (by simp)⟩
  | some v =>
    rw [writeNow_present hv]
    refine ⟨h.rewritten (h.held v hv) _ (Nat.le_succ _), fun v' hv' => .inr (.inr ?_)⟩
    obtain rfl : v = v' := some.inj (hv.symm.trans hv')
    rcases h.flight with hq | ⟨w, hw⟩
    · exact .inl ⟨hq.writes, _, rfl, C.encodes_stringify v⟩
    · exact .inr ⟨w, hw.writes, .inl (Nat.ne_of_lt (Nat.lt_succ_of_le hw.gen))⟩

/-- A timer that fires, or a write that is asked for again: it is put off to the end of the write in
flight, or it begins. -/
theorem Based.writeNow_async (h : s.Based C found) : (s.writeNow C false).Sound C found := by
  cases hv : s.value with
  | none =>
    rw [writeNow_absent hv]
    exact ⟨h, fun v hv' => absurd (hv.symm.trans hv') (by simp)⟩
  | some v =>
    rcases h.flight with hq | ⟨w, hw⟩
    · have hs : s.writeNow C false = { s with
          writeGen := s.writeGen + 1
          writing := true
          writes := [⟨C.stringify v, s.writeGen + 1, .mkdir⟩] } := by
        rw [writeNow, hv]
        simp [hq.writing, hq.writes]
      rw [hs]
      refine ⟨⟨.inr ⟨_, rfl, rfl, Nat.le_refl _, ⟨v, h.held v hv, rfl⟩, nofun⟩, h.file, h.held⟩, ?_⟩
      intro v' hv'
      obtain rfl : v = v' := some.inj (hv.symm.trans hv')
      exact .inr (.inr (.inr ⟨_, rfl, .inr rfl⟩))
    · have hs : s.writeNow C false = { s with writeAgain := true } := by
        rw [writeNow, hv]
        simp [hw.writing]
      rw [hs]
      exact ⟨⟨.inr ⟨w, hw.writes, hw.writing, hw.gen, hw.blob, hw.tmp⟩, h.file, h.held⟩,
        fun _ _ => .inr (.inl rfl)⟩

/-- The callback's end. The write has been renamed, and only another one that has been asked for
meanwhile is still missing. -/
theorem Based.done (h : s.Based C found) (hw : s.Only C w)
    (hcoming : ∀ v, s.value = some v → s.timer = true ∨ s.writeAgain = true ∨ s.Holds C v) :
    (s.done C 0).Sound C found := by
  unfold Slot.done
  rw [hw.writes]
  by_cases hagain : s.writeAgain = true
  · rw [if_pos hagain]
    exact Based.writeNow_async ⟨.inl ⟨rfl, rfl, rfl⟩, h.file, h.held⟩
  · rw [if_neg hagain]
    refine ⟨⟨.inl ⟨rfl, rfl, Bool.eq_false_iff.mpr hagain⟩, h.file, h.held⟩, fun v hv => ?_⟩
    rcases hcoming v hv with htimer | hagain' | hholds
    · exact .inl htimer
    · exact absurd hagain' hagain
    · exact .inr (.inr (.inl ⟨rfl, hholds⟩))

/-- The step of a write that is not its callback: its stage and its files change. -/
theorem Sound.staged (h : s.Sound C found) (hw : s.Only C w) {stage : Stage}
    {file tmp : Option (List Char)} (htmp : stage = .written → tmp = some w.blob)
    (hfile : ∀ raw, file = some raw →
      (∃ v ∈ s.held, C.Encodes raw v) ∨ (found = some raw ∧ C.parse raw = none))
    (hrenamed : w.stage ≠ .renamed) (hblob : stage = .renamed → file = some w.blob) :
    Sound C found { s with file := file, tmp := tmp, writes := [{ w with stage := stage }] } where
  flight := .inr ⟨_, rfl, hw.writing, hw.gen, hw.blob, htmp⟩
  file := hfile
  held := h.held
  coming v hv := by
    rcases h.coming v hv with htimer | hagain | ⟨hnone, -⟩ | ⟨w', hw', hbrings⟩
    · exact .inl htimer
    · exact .inr (.inl hagain)
    · exact absurd (hw.writes.symm.trans hnone) (cons_ne_nil _ _)
    · obtain rfl : w = w' := singleton_inj.mp (hw.writes.symm.trans hw')
      refine .inr (.inr (.inr ⟨_, rfl, hbrings.imp_right fun hv' => ?_⟩))
      rw [if_neg hrenamed] at hv'
      by_cases hstage : stage = .renamed
      · rw [if_pos hstage]
        exact ⟨_, hblob hstage, .inl hv'⟩
      · rw [if_neg hstage]
        exact hv'

theorem Sound.advance (h : s.Sound C found) (i : ℕ) : (s.advance C i).Sound C found := by
  unfold Slot.advance
  rcases h.flight with hq | ⟨w, hw⟩
  · rw [hq.writes]
    exact h
  · rw [hw.writes]
    cases i with
    | succ i => exact h
    | zero =>
      obtain ⟨blob, gen, stage⟩ := w
      cases stage with
      | mkdir => exact h.staged hw nofun h.file nofun nofun
      | writing => exact h.staged hw (fun _ => rfl) h.file nofun nofun
      | written =>
        obtain ⟨v, hv, rfl⟩ := hw.blob
        have htmp : s.tmp.or s.file = some (C.stringify v) := by rw [hw.tmp rfl, Option.some_or]
        refine h.staged hw nofun (fun raw hraw => .inl ⟨v, hv, ?_⟩) nofun fun _ => htmp
        exact .inl (some.inj (hraw.symm.trans htmp))
      | renamed =>
        dsimp only [getElem?_cons_zero]
        by_cases hgen : s.writeGen ≠ gen
        · rw [if_pos hgen]
          -- a flush has come in between: the newest value is written over the file
          cases hv : s.value with
          | none =>
            rw [writeNow_absent hv]
            exact h.done hw fun v hv' => absurd (hv.symm.trans hv') (by simp)
          | some v =>
            rw [writeNow_present hv]
            refine Based.done (h.rewritten (h.held v hv) _ (Nat.le_succ _))
              ⟨hw.writes, hw.writing, Nat.le_succ_of_le hw.gen, hw.blob, hw.tmp⟩
              fun v' hv' => .inr (.inr ⟨_, rfl, .inl ?_⟩)
            rw [some.inj (hv.symm.trans hv')]
        · rw [if_neg hgen]
          refine h.done hw fun v hv => ?_
          rcases h.coming v hv with htimer | hagain | ⟨hnone, -⟩ | ⟨w', hw', hbrings⟩
          · exact .inl htimer
          · exact .inr (.inl hagain)
          · exact absurd (hw.writes.symm.trans hnone) (cons_ne_nil _ _)
          · obtain rfl := singleton_inj.mp (hw.writes.symm.trans hw')
            exact .inr (.inr (hbrings.resolve_left fun hne => hgen (Ne.symm hne)))

theorem Sound.wrote (h : s.Sound C found) (i n : ℕ) : (s.wrote i n).Sound C found := by
  unfold Slot.wrote
  rcases h.flight with hq | ⟨w, hw⟩
  · rw [hq.writes]
    exact h
  · rw [hw.writes]
    cases i with
    | succ i => exact h
    | zero =>
      obtain ⟨blob, gen, stage⟩ := w
      cases stage with
      | writing =>
        have hstaged : Sound C found
            { s with tmp := some (blob.take n), writes := [⟨blob, gen, .writing⟩] } :=
          h.staged hw nofun h.file nofun nofun
        exact hstaged
      | _ => exact h

theorem Sound.step (h : s.Sound C found) (e : SlotEvent V N) : (s.step C true e).Sound C found := by
  cases e with
  | set v =>
    exact h.change (fun _ => mem_cons_of_mem _) fun v' hv' => some.inj hv' ▸ mem_cons_self
  | incrBy n =>
    exact h.change (fun _ => mem_cons_of_mem _) fun v' hv' => some.inj hv' ▸ mem_cons_self
  | del => exact h.change (fun _ hv => hv) nofun
  | fire =>
    unfold Slot.step
    by_cases htimer : s.timer = true
    · rw [if_pos htimer]
      exact h.untimed.writeNow_async
    · rw [if_neg htimer]
      exact h
  | wrote i n => exact h.wrote i n
  | advance i => exact h.advance i

theorem Sound.flush (h : s.Sound C found) : (s.flush C).Sound C found := h.untimed.writeNow_sync

theorem sound_boot (C : Values V N) (loaded : Bool) (found : Option (List Char)) :
    (boot C loaded found).Sound C found where
  flight := .inl ⟨rfl, rfl, rfl⟩
  file raw hraw := by
    cases hparse : C.parse raw with
    | none => exact .inr ⟨hraw, rfl⟩
    | some v =>
      have hfound : found = some raw := hraw
      refine .inl ⟨v, ?_, .inr hparse⟩
      simp [boot, hfound, hparse]
  held v hv := by
    cases loaded with
    | false => exact absurd hv (by simp [boot])
    | true =>
      have hvalue : found.bind C.parse = some v := hv
      simp [boot, hvalue]
  coming v hv := by
    cases loaded with
    | false => exact absurd hv (by simp [boot])
    | true =>
      have hvalue : found.bind C.parse = some v := hv
      obtain ⟨raw, hfound, hparse⟩ := Option.bind_eq_some_iff.mp hvalue
      exact .inr (.inr (.inl ⟨rfl, raw, hfound, .inr hparse⟩))

end Slot

section

variable (C : Values V N) (persistent loaded : K → Bool) (found : K → Option (List Char))

def durable (evs : List (DurableEvent K V N)) : K → Slot V :=
  run (durableStep C persistent) (fun k => .boot C (loaded k) (found k)) evs

theorem sound_durableStep {s : K → Slot V}
    (h : ∀ k, persistent k = true → (s k).Sound C (found k)) (e : DurableEvent K V N) :
    ∀ k, persistent k = true → (durableStep C persistent s e k).Sound C (found k) := by
  intro k hk
  cases e with
  | key k' e =>
    by_cases hkk : k = k'
    · subst hkk
      rw [durableStep, Function.update_self, hk]
      exact (h k hk).step e
    · rw [durableStep, Function.update_of_ne hkk]
      exact h k hk
  | flush =>
    dsimp only [durableStep]
    rw [if_pos hk]
    exact (h k hk).flush

theorem sound_durable (evs : List (DurableEvent K V N)) :
    ∀ k, persistent k = true → (durable C persistent loaded found evs k).Sound C (found k) :=
  run_inv (P := fun s => ∀ k, persistent k = true → (s k).Sound C (found k)) (durableStep C persistent)
    (fun _ e h _ => sound_durableStep C persistent found h e)
    (fun k _ => Slot.sound_boot C (loaded k) (found k))
    (along_of_forall (p := fun _ => True) _ fun _ _ => trivial)

/-- In every order of the events a durable key has one asynchronous write in flight at most, its file is
a complete text of a value that it has had, unless nothing has been written over an unreadable one that
was found, and it is one of the newest value whenever no timer is pending and no write is in flight. -/
theorem newest_in_file (evs : List (DurableEvent K V N)) {k : K} (hk : persistent k = true) :
    let s := durable C persistent loaded found evs k
    s.writes.length ≤ 1 ∧
      (∀ raw, s.file = some raw →
        (∃ v ∈ s.held, C.Encodes raw v) ∨ (found k = some raw ∧ C.parse raw = none)) ∧
      (s.timer = false → s.writes = [] → ∀ v, s.value = some v →
        ∃ raw, s.file = some raw ∧ C.Encodes raw v) := by
  have h := sound_durable C persistent loaded found evs k hk
  refine ⟨?_, h.file, fun htimer hwrites v hv => ?_⟩
  · rcases h.flight with hq | ⟨w, hw⟩
    · simp [hq.writes]
    · simp [hw.writes]
  · have hquiet := h.flight.resolve_right fun ⟨w, hw⟩ => by simp [hw.writes] at hwrites
    rcases h.coming v hv with htimer' | hagain | ⟨-, hholds⟩ | ⟨w, hw, -⟩
    · exact absurd (htimer.symm.trans htimer') (by simp)
    · exact absurd (hquiet.writeAgain.symm.trans hagain) (by simp)
    · exact hholds
    · simp [hw] at hwrites

end

def jsonValues (other : Json → ℤ → JsNumber) : Values Json ℤ where
  stringify := stringify
  parse := parse
  plus v n := .num (incrementValue other v n)

def policyKey : JsString := "policy:p".toList.map .scalar

/-- A flush comes between the temporary file of a write and its rename, which puts `1` over `2`. -/
def flushBetween : List (DurableEvent JsString Json ℤ) :=
  [.key policyKey (.set (.num (.ofInt 1))), .key policyKey .fire, .key policyKey (.advance 0),
    .key policyKey (.incrBy 1), .key policyKey (.wrote 0 1), .key policyKey (.advance 0), .flush,
    .key policyKey (.advance 0), .key policyKey (.advance 0)]

theorem newest_in_file_flushed :
    let C := jsonValues fun _ n => .ofInt n
    let s := durable C (fun _ => true) (fun _ => true) (fun _ => none) flushBetween policyKey
    ∃ raw, s.file = some raw ∧ C.Encodes raw (.num (.ofInt 2)) :=
  (newest_in_file _ _ _ _ _ rfl).2.2 (by decide) (by decide) _ (by decide)

end Turma.LiveStore
