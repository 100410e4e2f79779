import Mathlib.Data.Fintype.Basic
import Turma.Lib.JsString
import Turma.Lib.Run

/-! Name-token generations: how often the name token of each host was revoked. -/

namespace Turma.NameToken

open Turma.Lib Option OrdMap

abbrev Host := JsString

structure Gen where
  gen : ℕ
  atMs : ℤ
deriving DecidableEq

abbrev Gens := OrdMap Host Gen

def MAX_SAFE_INTEGER : ℕ := 2 ^ 53 - 1

/-- The entry `coerceNameTokenGens` keeps of one it reads. -/
def coerceEntry (host : Host) (e : Gen) : Option Gen :=
  if host = [] ∨ 200 < host.length16 ∨ MAX_SAFE_INTEGER < e.gen ∨ e.gen = 0 then none
  else some { gen := e.gen, atMs := if e.atMs ≤ MAX_SAFE_INTEGER ∧ 0 < e.atMs then e.atMs else 0 }

/-- A stored value, `none` where the key is absent. -/
def coerceNameTokenGens (raw : Option Gens) : Gens := (raw.getD OrdMap.empty).sift coerceEntry

def nameTokenGen (gens : Gens) (host : Host) : ℕ := gens.figure Gen.gen host

/-- The entry of two copies that the merge keeps. -/
def newer (cur : Option Gen) (e : Gen) : Gen :=
  match cur with
  | none => e
  | some c => if c.gen < e.gen then e else c

/-- Per host, the higher generation wins. -/
def mergeNameTokenGens (a b : Gens) : Gens :=
  [a, b].foldl (fun out src => (ownEntries src).foldl
    (fun out e => out.upsert e.1 fun cur => newer cur e.2) out) OrdMap.empty

def sameValue (a b : Option Gens) : Bool := a.map ownEntries = b.map ownEntries

variable {a b m : Gens} {host : Host}

/-- What `coerceNameTokenGens` leaves alone. -/
def Clean (m : Gens) : Prop := ∀ host e, m.get? host = some e → coerceEntry host e = some e

theorem get?_coerce (raw : Option Gens) (host : Host) :
    (coerceNameTokenGens raw).get? host =
      ((raw.getD OrdMap.empty).get? host).bind (coerceEntry host) :=
  get?_sift _ _ _

theorem coerceEntry_idem {e e' : Gen} (h : coerceEntry host e = some e') :
    coerceEntry host e' = some e' := by
  by_cases hc : host = [] ∨ 200 < host.length16 ∨ MAX_SAFE_INTEGER < e.gen ∨ e.gen = 0
  · rw [coerceEntry, if_pos hc] at h
    cases h
  · rw [coerceEntry, if_neg hc] at h
    cases h
    rw [coerceEntry, if_neg hc]
    by_cases hat : e.atMs ≤ MAX_SAFE_INTEGER ∧ 0 < e.atMs <;> simp [hat]

theorem clean_coerce (raw : Option Gens) : Clean (coerceNameTokenGens raw) := by
  intro host e he
  rw [get?_coerce] at he
  obtain ⟨e', -, he'⟩ := bind_eq_some_iff.mp he
  exact coerceEntry_idem he'

theorem Clean.get?_coerce (h : Clean m) (host : Host) :
    (coerceNameTokenGens (some m)).get? host = m.get? host := by
  rw [NameToken.get?_coerce, getD_some]
  cases he : m.get? host with
  | none => rfl
  | some e => exact h host e he

theorem get?_merge_into (src out : Gens) (host : Host) :
    ((ownEntries src).foldl (fun out e => out.upsert e.1 fun cur => newer cur e.2) out).get? host =
      match src.get? host with
      | none => out.get? host
      | some e => some (newer (out.get? host) e) := by
  have hperm := ownEntries_perm src
  have hnodup : ((ownEntries src).map Prod.fst).Nodup :=
    (hperm.map Prod.fst).nodup_iff.mpr src.nodup
  have hlookup : OrdMap.lookup host (ownEntries src) = src.get? host := by
    refine Option.ext fun e => ?_
    rw [lookup_eq_some hnodup, hperm.mem_iff, get?_eq_some]
  rw [get?_foldl_upsert newer _ hnodup, hlookup]
  cases src.get? host <;> rfl

theorem get?_merge (a b : Gens) (host : Host) :
    (mergeNameTokenGens a b).get? host =
      match b.get? host with
      | none => a.get? host
      | some e => some (newer (a.get? host) e) := by
  rw [mergeNameTokenGens, List.foldl_cons, List.foldl_cons, List.foldl_nil, get?_merge_into,
    get?_merge_into]
  cases a.get? host <;> rfl

/-- An entry of the merge is an entry of one of the two. -/
theorem get?_merge_cases {e : Gen} (h : (mergeNameTokenGens a b).get? host = some e) :
    a.get? host = some e ∨ b.get? host = some e := by
  rw [get?_merge] at h
  cases hb : b.get? host with
  | none =>
    rw [hb] at h
    exact Or.inl h
  | some eb =>
    simp only [hb, Option.some.injEq] at h
    cases ha : a.get? host with
    | none =>
      rw [ha] at h
      exact Or.inr (congrArg some h)
    | some ea =>
      rw [ha, newer] at h
      split_ifs at h
      · exact Or.inr (congrArg some h)
      · exact Or.inl (congrArg some h)

theorem Clean.merge (ha : Clean a) (hb : Clean b) : Clean (mergeNameTokenGens a b) := by
  intro host e he
  rcases get?_merge_cases he with h | h
  · exact ha host e h
  · exact hb host e h

theorem nameTokenGen_eq (m : Gens) (host : Host) :
    nameTokenGen m host = ((m.get? host).map Gen.gen).getD 0 := rfl

theorem gen_merge (a b : Gens) (host : Host) :
    nameTokenGen (mergeNameTokenGens a b) host = max (nameTokenGen a host) (nameTokenGen b host) := by
  simp only [nameTokenGen_eq, get?_merge]
  cases hb : b.get? host with
  | none => simp
  | some eb =>
    cases ha : a.get? host with
    | none => simp [newer]
    | some ea =>
      by_cases h : ea.gen < eb.gen
      · simp [newer, h, Nat.max_eq_right h.le]
      · simp [newer, h, Nat.max_eq_left (Nat.not_lt.mp h)]

theorem get?_of_ownEntries {m m' : Gens} (h : ownEntries m = ownEntries m') (host : Host) :
    m.get? host = m'.get? host := by
  refine Option.ext fun e => ?_
  rw [get?_eq_some, get?_eq_some, ← (ownEntries_perm m).mem_iff, h,
    (ownEntries_perm m').mem_iff]

/-- Equal texts read the same. -/
theorem get?_of_sameValue {x y : Option Gens} (h : sameValue x y = true) (host : Host) :
    (coerceNameTokenGens x).get? host = (coerceNameTokenGens y).get? host := by
  have hxy := of_decide_eq_true h
  rw [get?_coerce, get?_coerce]
  rcases x with _ | m <;> rcases y with _ | m' <;> simp at hxy
  · rfl
  · rw [getD_some, getD_some, get?_of_ownEntries hxy]

end Turma.NameToken

/-! Revokes by replicas that share one store. Each reads the generations, merges its own into them
and swaps them in, and a revoke that failed puts back what its swap replaced. -/

namespace Turma.NameToken

open Turma.Lib OrdMap

def NAME_TOKEN_GENS_MAX : ℕ := 4096

def NAME_TOKEN_BUMP_TRIES : ℕ := 5

inductive Reply
  | gen (gen : ℕ)
  | refused (status : ℕ) (error : String)
deriving DecidableEq

def tooManyHosts : Reply :=
  .refused 409 "too many hosts have a revoked name token; no room to record another"

def notSaved : Reply :=
  .refused 503 "the revoke could not be saved, so it was not applied — try again"

/-- What one try read and what it means to write. -/
structure Attempt where
  stored : Option Gens
  next : Gens
  gen : ℕ

/-- Where a revoke waits: for its turn and its read, on the answer to that, for its swap, on the
answer to that. -/
inductive Phase
  | reading
  | got (stored : Option Gens)
  | swapping
  | swapped (ok : Bool)

/-- A revoke. `replica` is the one that runs it, none once that has restarted. -/
structure Call (ρ : Type) where
  replica : Option ρ
  host : Host
  now : ℤ
  tries : ℕ := 0
  last : Option Attempt := none
  phase : Phase := .reading

structure Undo where
  host : Host
  now : ℤ
  attempt : Attempt

/-- A replica's load of the stored value as it boots. -/
inductive Boot
  | reading
  | got (raw : Option Gens)
  | done

structure Answer where
  host : Host
  now : ℤ
  reply : Reply

/-- What the replicas find: their files, and the value stored at first. -/
structure Cluster (ρ : Type) where
  file : ρ → Gens
  first : Option Gens

structure State (ρ : Type) where
  store : Option Gens
  mirror : ρ → Gens
  boot : ρ → Boot
  calls : List (Call ρ) := []
  undos : List Undo := []
  /-- Boot-time writes on their way. -/
  seeds : List Gens := []
  /-- What the watch may still deliver. -/
  written : List Gens := []
  asked : List (Host × ℤ) := []
  answers : List Answer := []

def State.start {ρ : Type} (C : Cluster ρ) : State ρ where
  store := C.first
  mirror r := coerceNameTokenGens (some (C.file r))
  boot _ := .reading

/-- Entry `i` of a list, with what lies around it. -/
def splitAt? {α : Type} (xs : List α) (i : ℕ) : Option (List α × α × List α) :=
  (xs[i]?).map fun x => (xs.take i, x, xs.drop (i + 1))

/-- `applyExternalStoreValue`. -/
def applyExternal (mirror : Gens) (raw : Option Gens) : Gens :=
  if sameValue (some (coerceNameTokenGens raw)) (some mirror) then mirror
  else mergeNameTokenGens mirror (coerceNameTokenGens raw)

inductive Event (ρ : Type)
  | request (r : ρ) (host : Host) (now : ℤ)
  | read (i : ℕ)
  | merge (i : ℕ)
  | swap (i : ℕ)
  | answer (i : ℕ)
  | fail (i : ℕ)
  | undo (i : ℕ)
  | lostUndo (i : ℕ)
  | deliver (r : ρ) (i : ℕ)
  | restart (r : ρ)
  | bootRead (r : ρ)
  | boot (r : ρ)
  | seed (i : ℕ)
  | lostSeed (i : ℕ)

variable {ρ : Type} [DecidableEq ρ]

/-- One try, on what it read and what its replica knows. None where there is no room. -/
def Call.attempt (c : Call ρ) (mirror : Gens) (stored : Option Gens) : Option Attempt :=
  let next := mergeNameTokenGens mirror (coerceNameTokenGens stored)
  if next.get? c.host = none ∧ NAME_TOKEN_GENS_MAX ≤ next.size then none
  else
    let gen := nameTokenGen next c.host + 1
    some { stored, next := next.upsert c.host fun _ => ⟨gen, c.now⟩, gen }

def Call.undo (c : Call ρ) : List Undo := c.last.toList.map fun a => ⟨c.host, c.now, a⟩

namespace State

/-- Call `i`, when it is its replica's turn to run it. -/
def turn (s : State ρ) (i : ℕ) : Option (ρ × List (Call ρ) × Call ρ × List (Call ρ)) :=
  match splitAt? s.calls i with
  | none => none
  | some (before, c, after) =>
    match c.replica with
    | none => none
    | some r => if before.any fun b => b.replica = some r then none else some (r, before, c, after)

def reply (s : State ρ) (c : Call ρ) (before after : List (Call ρ)) (reply : Reply) : State ρ :=
  { s with calls := before ++ after, answers := s.answers ++ [⟨c.host, c.now, reply⟩] }

def readStep (s : State ρ) (i : ℕ) : State ρ :=
  match s.turn i with
  | none => s
  | some (_, before, c, after) =>
    match c.phase with
    | .reading => { s with calls := before ++ { c with phase := .got s.store } :: after }
    | _ => s

def mergeStep (s : State ρ) (i : ℕ) : State ρ :=
  match s.turn i with
  | none => s
  | some (r, before, c, after) =>
    match c.phase with
    | .got stored =>
      match c.attempt (s.mirror r) stored with
      | none => s.reply c before after tooManyHosts
      | some a => { s with calls := before ++ { c with last := some a, phase := .swapping } :: after }
    | _ => s

/-- The store runs a swap it was sent, also for a replica that is gone. -/
def swapStep (s : State ρ) (i : ℕ) : State ρ :=
  match splitAt? s.calls i with
  | none => s
  | some (before, c, after) =>
    match c.phase, c.last with
    | .swapping, some a =>
      if sameValue s.store a.stored then
        { s with
          store := some a.next
          written := s.written ++ [a.next]
          calls := before ++ { c with phase := .swapped true } :: after }
      else { s with calls := before ++ { c with phase := .swapped false } :: after }
    | _, _ => s

def answerStep (s : State ρ) (i : ℕ) : State ρ :=
  match s.turn i with
  | none => s
  | some (r, before, c, after) =>
    match c.phase, c.last with
    | .swapped true, some a =>
      { s.reply c before after (.gen a.gen) with
        mirror := Function.update s.mirror r (mergeNameTokenGens (s.mirror r) a.next) }
    | .swapped false, some _ =>
      if c.tries + 1 < NAME_TOKEN_BUMP_TRIES then
        { s with calls := before ++ { c with tries := c.tries + 1, phase := .reading } :: after }
      else s.reply c before after notSaved
    | _, _ => s

/-- A command of the call fails, or its answer is lost. -/
def failStep (s : State ρ) (i : ℕ) : State ρ :=
  match s.turn i with
  | none => s
  | some (_, before, c, after) =>
    { s.reply c before after notSaved with undos := s.undos ++ c.undo }

def undoStep (s : State ρ) (i : ℕ) : State ρ :=
  match splitAt? s.undos i with
  | none => s
  | some (before, u, after) =>
    if sameValue s.store (some u.attempt.next) then
      { s with
        store := some (coerceNameTokenGens u.attempt.stored)
        written := s.written ++ [coerceNameTokenGens u.attempt.stored]
        undos := before ++ after }
    else { s with undos := before ++ after }

def deliverStep (s : State ρ) (r : ρ) (i : ℕ) : State ρ :=
  match s.written[i]? with
  | none => s
  | some v => { s with mirror := Function.update s.mirror r (applyExternal (s.mirror r) (some v)) }

def orphaned (r : ρ) (c : Call ρ) : Call ρ :=
  if c.replica = some r then { c with replica := none } else c

def restartStep (C : Cluster ρ) (s : State ρ) (r : ρ) : State ρ :=
  { s with
    mirror := Function.update s.mirror r (coerceNameTokenGens (some (C.file r)))
    boot := Function.update s.boot r .reading
    calls := s.calls.map (orphaned r) }

def bootStep (s : State ρ) (r : ρ) : State ρ :=
  match s.boot r with
  | .got none =>
    { s with
      boot := Function.update s.boot r .done
      seeds := if (s.mirror r).size = 0 then s.seeds else s.seeds ++ [s.mirror r] }
  | .got (some raw) =>
    { s with
      boot := Function.update s.boot r .done
      mirror := Function.update s.mirror r (applyExternal (s.mirror r) (some raw)) }
  | _ => s

def seedStep (s : State ρ) (i : ℕ) : State ρ :=
  match splitAt? s.seeds i with
  | none => s
  | some (before, v, after) =>
    { s with store := some v, written := s.written ++ [v], seeds := before ++ after }

end State

def step (C : Cluster ρ) (s : State ρ) : Event ρ → State ρ
  | .request r host now =>
    { s with
      calls := s.calls ++ [{ replica := some r, host, now }], asked := s.asked ++ [(host, now)] }
  | .read i => s.readStep i
  | .merge i => s.mergeStep i
  | .swap i => s.swapStep i
  | .answer i => s.answerStep i
  | .fail i => s.failStep i
  | .undo i => s.undoStep i
  | .lostUndo i => { s with undos := s.undos.eraseIdx i }
  | .deliver r i => s.deliverStep r i
  | .restart r => s.restartStep C r
  | .bootRead r =>
    match s.boot r with
    | .reading => { s with boot := Function.update s.boot r (.got s.store) }
    | _ => s
  | .boot r => s.bootStep r
  | .seed i => s.seedStep i
  | .lostSeed i => { s with seeds := s.seeds.eraseIdx i }

/-- The generation of `host` in the store. -/
def State.storeGen (s : State ρ) (host : Host) : ℕ :=
  nameTokenGen (coerceNameTokenGens s.store) host

/-- The revokes that answered, each with its time and its generation. -/
def State.revoked (s : State ρ) : List ((Host × ℤ) × ℕ) :=
  s.answers.filterMap fun a => match a.reply with
    | .gen g => some ((a.host, a.now), g)
    | .refused .. => none

def stamped (m : Gens) (host : Host) (now : ℤ) : Bool := (m.get? host).any (·.atMs = now)

/-- Revoke `i`, where it comes to its merge, finds no generation that cannot be raised. -/
def State.raisable (s : State ρ) (i : ℕ) : Bool :=
  match s.turn i with
  | none => true
  | some (r, _, c, _) =>
    match c.phase with
    | .got stored => nameTokenGen (s.mirror r) c.host < MAX_SAFE_INTEGER &&
      nameTokenGen (coerceNameTokenGens stored) c.host < MAX_SAFE_INTEGER
    | _ => true

/-- A host that has a name token, revoked at a time that no other revoke of it carries. -/
def Meets (C : Cluster ρ) (s : State ρ) : Event ρ → Prop
  | .request _ host now =>
    (host ≠ [] ∧ host.length16 ≤ 200 ∧ now ≤ MAX_SAFE_INTEGER ∧ 0 < now) ∧ (host, now) ∉ s.asked ∧
      stamped (coerceNameTokenGens C.first) host now = false ∧
      ∀ r, stamped (coerceNameTokenGens (some (C.file r))) host now = false
  -- what a booting replica publishes must not land on a value stored since it looked
  | .seed _ => s.store = none
  | .merge i => s.raisable i = true
  | _ => True

instance [Fintype ρ] (C : Cluster ρ) (s : State ρ) : ∀ e : Event ρ, Decidable (Meets C s e)
  | .request .. => inferInstanceAs (Decidable ((_ ∧ _ ∧ _ ∧ _) ∧ _ ∧ _ ∧ ∀ _, _))
  | .seed _ => inferInstanceAs (Decidable (_ = none))
  | .merge _ => inferInstanceAs (Decidable (_ = true))
  | .read _ | .swap _ | .answer _ | .fail _ | .undo _ | .lostUndo _ | .deliver ..
  | .restart _ | .bootRead _ | .boot _ | .lostSeed _ => isTrue trivial

end Turma.NameToken
