import Turma.LiveStore.Backends
import Turma.Lib.Run

/-! The two backends against one another. What the shared store holds is the text of what the
file store holds, and every call decides the same on both. A counter is a double on one side
and a 64-bit integer on the other: they part when it leaves the safe integers. -/

namespace Turma.LiveStore

open Turma.Lib Option OrdMap

def WellFormed (key : JsString) : Prop := ∃ t : List Char, key = t.map .scalar

def safe (z : ℤ) : Bool := z.natAbs < 2 ^ 53

def contents (s : FileStore) (key : JsString) : Option Stored :=
  match s.map.get? key with
  | some v => some (.text (stringify v))
  | none =>
    match s.queues.get? key with
    | none => none
    | some [] => none
    | some q => some (.list (q.map stringify))

structure Agree (isQueue : JsString → Bool) (s : FileStore) (db : Db) : Prop where
  map_apart : ∀ key, isQueue key = true → s.map.get? key = none
  queues_apart : ∀ key, isQueue key = false → s.queues.get? key = none
  same : ∀ t : List Char, db.get? t = contents s (t.map .scalar)

def Op.place : Op → JsString × Bool
  | .get key | .set key _ | .del key | .getDel key | .setIfAbsent key _
  | .compareAndSet key _ _ | .incrBy key _ => (key, false)
  | .queuePush key _ | .queueDrain key => (key, true)

def counted (v : Option Json) : Option ℤ :=
  match v with
  | none => some 0
  | some (.num (.whole z _ _)) => some z
  | some _ => none

/-- The calls that the two backends decide alike. -/
structure Admitted (isQueue : JsString → Bool) (s : FileStore) (op : Op) : Prop where
  wellFormed : WellFormed op.place.1
  place : isQueue op.place.1 = op.place.2
  counter : ∀ key n, op = .incrBy key n →
    safe n = true ∧ ∃ z, counted (s.map.get? key) = some z ∧ safe z = true ∧ safe (z + n) = true

theorem wireKey_map (t : List Char) : wireKey (t.map .scalar) = t := by
  induction t with
  | nil => rfl
  | cons c t ih => exact congrArg (List.cons c) ih

theorem scalar_map_inj {t t' : List Char} :
    t.map CodePoint.scalar = t'.map CodePoint.scalar ↔ t = t' := by
  constructor
  · intro h
    rw [← wireKey_map t, ← wireKey_map t', h]
  · rintro rfl
    rfl

theorem int64_integerText {z : ℤ} (h : safe z = true) : int64 (integerText z) = some z := by
  have h := of_decide_eq_true h
  have hread : readInt (integerText z) = some z := by
    rw [integerText, readInt_signed]
    congr 1
    split_ifs <;> omega
  rw [int64, hread]
  refine filter_eq_some_iff.mpr ⟨rfl, decide_eq_true ⟨rfl, ?_⟩⟩
  omega

theorem stringify_whole {z : ℤ} (h : safe z = true) (exact : fl z.natAbs = z.natAbs)
    (plain : shortest z.natAbs < 10 ^ 21) :
    stringify (.num (.whole z exact plain)) = integerText z := by
  rw [integerText, ← jsonNumber_of_lt (of_decide_eq_true h)]
  rfl

theorem ofInt_safe {z : ℤ} (h : safe z = true) :
    stringify (.num (.ofInt z)) = integerText z := by
  have hlt : z.natAbs < 2 ^ 53 := of_decide_eq_true h
  have exact : fl z.natAbs = z.natAbs := fl_of_le hlt.le
  have plain : shortest z.natAbs < 10 ^ 21 := by
    rw [shortest_of_lt hlt]
    omega
  rw [JsNumber.ofInt_exact exact plain, stringify_whole h]

section

variable {isQueue : JsString → Bool} {s : FileStore} {db : Db} {t : List Char}

theorem Agree.value (h : Agree isQueue s db) (ht : isQueue (t.map .scalar) = false) :
    db.get? t = (s.map.get? (t.map .scalar)).map fun v => .text (stringify v) := by
  rw [h.same, contents]
  cases s.map.get? (t.map .scalar) with
  | none =>
    rw [h.queues_apart _ ht]
    rfl
  | some v => rfl

theorem Agree.queue (h : Agree isQueue s db) (ht : isQueue (t.map .scalar) = true) :
    db.get? t = match s.queues.get? (t.map .scalar) with
      | none => none
      | some [] => none
      | some q => some (.list (q.map stringify)) := by
  rw [h.same, contents, h.map_apart _ ht]

/-- A change of one key on both sides. -/
theorem Agree.change (h : Agree isQueue s db) {s' : FileStore} {db' : Db}
    (hmap : ∀ key, key ≠ t.map .scalar → s'.map.get? key = s.map.get? key)
    (hqueues : ∀ key, key ≠ t.map .scalar → s'.queues.get? key = s.queues.get? key)
    (hdb : ∀ u, u ≠ t → db'.get? u = db.get? u)
    (hapart : (isQueue (t.map .scalar) = true → s'.map.get? (t.map .scalar) = none) ∧
      (isQueue (t.map .scalar) = false → s'.queues.get? (t.map .scalar) = none))
    (hsame : db'.get? t = contents s' (t.map .scalar)) : Agree isQueue s' db' where
  map_apart key hkey := by
    by_cases hk : key = t.map .scalar
    · rw [hk] at hkey ⊢
      exact hapart.1 hkey
    · rw [hmap key hk]
      exact h.map_apart key hkey
  queues_apart key hkey := by
    by_cases hk : key = t.map .scalar
    · rw [hk] at hkey ⊢
      exact hapart.2 hkey
    · rw [hqueues key hk]
      exact h.queues_apart key hkey
  same u := by
    by_cases hu : u = t
    · rw [hu]
      exact hsame
    · have hk : u.map CodePoint.scalar ≠ t.map .scalar := fun he => hu (scalar_map_inj.mp he)
      rw [hdb u hu, h.same, contents, contents, hmap _ hk, hqueues _ hk]

theorem Agree.set (h : Agree isQueue s db) (ht : isQueue (t.map .scalar) = false) (v : Json) :
    Agree isQueue (s.set (t.map .scalar) v) (put db t (.text (stringify v))) := by
  refine h.change (t := t) ?_ (fun _ _ => rfl) ?_ ⟨fun hq => ?_, fun _ => ?_⟩ ?_
  · intro key hkey
    rw [FileStore.set, get?_upsert, if_neg hkey]
  · intro u hu
    rw [put, get?_upsert, if_neg hu]
  · rw [ht] at hq
    cases hq
  · exact h.queues_apart _ ht
  · rw [put, get?_upsert, if_pos rfl, contents, FileStore.set, get?_upsert, if_pos rfl]

theorem Agree.erase (h : Agree isQueue s db) (ht : isQueue (t.map .scalar) = false) :
    Agree isQueue { s with map := s.map.erase (t.map .scalar) } (db.erase t) := by
  have hnone : (s.map.erase (t.map .scalar)).get? (t.map .scalar) = none := by
    rw [get?_erase, if_pos rfl]
  refine h.change (t := t) ?_ (fun _ _ => rfl) ?_ ⟨fun _ => hnone, fun _ => ?_⟩ ?_
  · intro key hkey
    rw [get?_erase, if_neg hkey]
  · intro u hu
    rw [get?_erase, if_neg hu]
  · exact h.queues_apart _ ht
  · rw [get?_erase, if_pos rfl, contents, hnone, h.queues_apart _ ht]

/-- A queue that comes to be `q`, and its list. -/
theorem Agree.setQueue (h : Agree isQueue s db) (ht : isQueue (t.map .scalar) = true)
    {f : Option (List Json) → List Json} {db' : Db} (hdb : ∀ u, u ≠ t → db'.get? u = db.get? u)
    (hlist : db'.get? t = if f (s.queues.get? (t.map .scalar)) = [] then none
      else some (.list ((f (s.queues.get? (t.map .scalar))).map stringify))) :
    Agree isQueue { s with queues := s.queues.upsert (t.map .scalar) f } db' := by
  refine h.change (t := t) (fun _ _ => rfl) ?_ hdb ⟨fun _ => ?_, fun hq => ?_⟩ ?_
  · intro key hkey
    rw [get?_upsert, if_neg hkey]
  · exact h.map_apart _ ht
  · rw [ht] at hq
    cases hq
  · rw [hlist, contents, h.map_apart _ ht, get?_upsert, if_pos rfl]
    cases f (s.queues.get? (t.map .scalar)) with
    | nil => rfl
    | cons v q => rfl

end

theorem counted_eq {v : Json} {z : ℤ} (h : counted (some v) = some z) :
    ∃ exact plain, v = .num (.whole z exact plain) := by
  cases v with
  | num n =>
    cases n with
    | whole z' exact plain =>
      cases h
      exact ⟨exact, plain, rfl⟩
    | literal => exact absurd h (by simp [counted])
  | null | bool | str | arr | obj => exact absurd h (by simp [counted])

theorem mapM_parse (q : List Json) : (q.map stringify).mapM parse = some q := by
  induction q with
  | nil => rfl
  | cons v q ih => simp [List.mapM_cons, parse_stringify, ih]

/-- The script decides as `sameValue` does: absent and null are one to an expected null. -/
theorem matched_eq (v : Option Json) (expected : Json) :
    matched (v.map fun v => .text (stringify v)) (stringify expected) (nullFlag expected) =
      some (sameValue (v.getD .null) expected) := by
  cases v with
  | some v => rfl
  | none =>
    rw [map_none, matched, getD_none, sameValue]
    by_cases hnull : expected = .null
    · subst hnull
      rfl
    · have hne : stringify .null ≠ stringify expected := fun he =>
        hnull (stringify_injective he).symm
      rw [decide_eq_false hne]
      cases expected with
      | null => exact absurd rfl hnull
      | bool | num | str | arr | obj => rfl

section

variable {isQueue : JsString → Bool} {s : FileStore} {db : Db}

theorem Agree.step (other : Json → ℤ → JsNumber) (h : Agree isQueue s db) {op : Op}
    (hop : Admitted isQueue s op) : (s.exec other op).2 = (db.call op).2 ∧
      Agree isQueue (s.exec other op).1 (db.call op).1 := by
  obtain ⟨t, ht⟩ := hop.wellFormed
  have hplace := hop.place
  have hcounter := hop.counter
  cases op with
  | get key =>
    obtain rfl := ht
    have hvalue := h.value hplace
    simp only [FileStore.exec, Db.call, commandOf, Db.exec, wireKey_map, hvalue]
    cases s.map.get? (t.map .scalar) with
    | none => exact ⟨rfl, h⟩
    | some v => exact ⟨by simp [resultOf, valueOf, parse_stringify], h⟩
  | set key v =>
    obtain rfl := ht
    simp only [FileStore.exec, Db.call, commandOf, Db.exec, wireKey_map]
    exact ⟨rfl, h.set hplace v⟩
  | del key =>
    obtain rfl := ht
    simp only [FileStore.exec, Db.call, commandOf, Db.exec, wireKey_map]
    exact ⟨rfl, h.erase hplace⟩
  | getDel key =>
    obtain rfl := ht
    have hvalue := h.value hplace
    simp only [FileStore.exec, Db.call, commandOf, Db.exec, wireKey_map, hvalue]
    cases s.map.get? (t.map .scalar) with
    | none => exact ⟨rfl, h⟩
    | some v => exact ⟨by simp [resultOf, valueOf, parse_stringify], h.erase hplace⟩
  | setIfAbsent key v =>
    obtain rfl := ht
    have hvalue := h.value hplace
    simp only [FileStore.exec, Db.call, commandOf, Db.exec, wireKey_map, hvalue]
    cases s.map.get? (t.map .scalar) with
    | none => exact ⟨rfl, h.set hplace v⟩
    | some w => exact ⟨rfl, h⟩
  | compareAndSet key expected next =>
    obtain rfl := ht
    have hmatched := matched_eq (s.map.get? (t.map .scalar)) expected
    simp only [FileStore.exec, Db.call, commandOf, Db.exec, wireKey_map, h.value hplace]
    rw [hmatched]
    cases hsame : sameValue ((s.map.get? (t.map .scalar)).getD .null) expected with
    | true => exact ⟨rfl, h.set hplace next⟩
    | false => exact ⟨rfl, h⟩
  | incrBy key n =>
    obtain rfl := ht
    obtain ⟨hn, z, hz, hsafe, hsum⟩ := hcounter _ n rfl
    have hnext : incrementValue other (s.map.get? (t.map .scalar)) n = .ofInt (z + n) ∧
        incremented (db.get? t) (integerText n) = some (z + n) := by
      have hbound := of_decide_eq_true hsum
      have hin : -2 ^ 63 ≤ z + n ∧ z + n < 2 ^ 63 := by omega
      rw [h.value hplace]
      cases hv : s.map.get? (t.map .scalar) with
      | none =>
        rw [hv] at hz
        cases hz
        refine ⟨by rw [Int.zero_add]; rfl, ?_⟩
        simp only [incremented, map_none, int64_integerText hn]
        exact if_pos hin
      | some v =>
        rw [hv] at hz
        obtain ⟨exact, plain, rfl⟩ := counted_eq hz
        refine ⟨rfl, ?_⟩
        simp only [incremented, map_some, stringify_whole hsafe, int64_integerText hn,
          int64_integerText hsafe]
        exact if_pos hin
    simp only [FileStore.exec, Db.call, commandOf, Db.exec, wireKey_map, hnext.1, hnext.2]
    refine ⟨rfl, ?_⟩
    rw [← ofInt_safe hsum]
    exact h.set hplace _
  | queuePush key item =>
    obtain rfl := ht
    have hqueue := h.queue hplace
    simp only [FileStore.exec, Db.call, commandOf, Db.exec, wireKey_map, hqueue]
    rcases hq : s.queues.get? (t.map .scalar) with _ | _ | ⟨v, q⟩ <;> dsimp only
    · refine ⟨rfl, h.setQueue hplace (fun u hu => ?_) ?_⟩
      · rw [put, get?_upsert, if_neg hu]
      · rw [put, get?_upsert, if_pos rfl, hq]
        rfl
    · refine ⟨rfl, h.setQueue hplace (fun u hu => ?_) ?_⟩
      · rw [put, get?_upsert, if_neg hu]
      · rw [put, get?_upsert, if_pos rfl, hq]
        rfl
    · refine ⟨rfl, h.setQueue hplace (fun u hu => ?_) ?_⟩
      · rw [put, get?_upsert, if_neg hu]
      · rw [put, get?_upsert, if_pos rfl, hq]
        simp
  | queueDrain key =>
    obtain rfl := ht
    have hqueue := h.queue hplace
    simp only [FileStore.exec, Db.call, commandOf, Db.exec, wireKey_map, hqueue]
    have herase : ∀ u, u ≠ t → (db.erase t).get? u = db.get? u := fun u hu => by
      rw [get?_erase, if_neg hu]
    have hgone : (db.erase t).get? t = none := by rw [get?_erase, if_pos rfl]
    rcases hq : s.queues.get? (t.map .scalar) with _ | _ | ⟨v, q⟩ <;> dsimp only
    · refine ⟨rfl, h.change (t := t) (fun _ _ => rfl) (fun _ _ => rfl) herase
        ⟨fun _ => h.map_apart _ hplace, fun _ => hq⟩ ?_⟩
      have hmap : s.map.get? (t.map .scalar) = none := h.map_apart _ hplace
      rw [hgone, contents, hmap, hq]
    · exact ⟨rfl, h.setQueue hplace herase hgone⟩
    · refine ⟨?_, h.setQueue hplace herase hgone⟩
      have hitems := mapM_parse (v :: q)
      simp only [resultOf, itemsOf, hitems]
      rfl

end

/-- From any two stores that agree, and over every sequence of admitted calls: the two backends
give the same results, call by call, and hold the same at the end. -/
theorem backends_agree (other : Json → ℤ → JsNumber) (isQueue : JsString → Bool)
    (s : FileStore) (db : Db) (h : Agree isQueue s db) (ops : List Op)
    (hops : Along (fun s op => (s.exec other op).1) (Admitted isQueue) s ops) :
    outputs (FileStore.exec other) s ops = outputs Db.call db ops ∧
      Agree isQueue (final (FileStore.exec other) s ops) (final Db.call db ops) :=
  outputs_eq (fun _ _ _ h hop => h.step other hop) h hops

def emptyStore : FileStore := ⟨.empty, .empty⟩

theorem empty_agree (isQueue : JsString → Bool) : Agree isQueue emptyStore .empty where
  map_apart _ _ := rfl
  queues_apart _ _ := rfl
  same _ := rfl

def counterKey : JsString := [.scalar 'c']

def queueKey : JsString := [.scalar 'q']

/-- A null set if absent, compared with null, and counted from there; a queue beside it. -/
def mixedCalls : List Op :=
  [.setIfAbsent counterKey .null, .compareAndSet counterKey .null (.num (.ofInt 5)),
    .incrBy counterKey 2, .queuePush queueKey (.bool true), .queueDrain queueKey,
    .getDel counterKey]

theorem backends_agree_mixed :
    outputs (FileStore.exec fun _ _ => .ofInt 0) emptyStore mixedCalls =
        [.decided true, .decided true, .number (.ofInt 7), .done, .items [.bool true],
          .value (.num (.ofInt 7))] ∧
      outputs (FileStore.exec fun _ _ => .ofInt 0) emptyStore mixedCalls =
        outputs Db.call .empty mixedCalls := by
  refine ⟨by decide, ?_⟩
  refine (backends_agree _ (fun key => key = queueKey) emptyStore .empty (empty_agree _) mixedCalls
    ⟨?_, ?_, ?_, ?_, ?_, ?_, trivial⟩).1
  · exact ⟨⟨['c'], rfl⟩, by decide, fun _ _ h => by cases h⟩
  · exact ⟨⟨['c'], rfl⟩, by decide, fun _ _ h => by cases h⟩
  · refine ⟨⟨['c'], rfl⟩, by decide, ?_⟩
    rintro key n ⟨rfl, rfl⟩
    exact ⟨by decide, 5, by decide, by decide, by decide⟩
  · exact ⟨⟨['q'], rfl⟩, by decide, fun _ _ h => by cases h⟩
  · exact ⟨⟨['q'], rfl⟩, by decide, fun _ _ h => by cases h⟩
  · exact ⟨⟨['c'], rfl⟩, by decide, fun _ _ h => by cases h⟩

/-- A counter past the safe integers: a double stays where the 64-bit integer goes on. And two
keys that are one on the wire. -/
theorem backends_part :
    outputs (FileStore.exec fun _ _ => .ofInt 0) emptyStore
        [.incrBy counterKey (2 ^ 53), .incrBy counterKey 1, .incrBy counterKey 1] ≠
      outputs Db.call .empty
        [.incrBy counterKey (2 ^ 53), .incrBy counterKey 1, .incrBy counterKey 1] ∧
    outputs (FileStore.exec fun _ _ => .ofInt 0) emptyStore
        [.set [.lone 0] (.bool true), .get [.scalar (Char.ofNat 0xFFFD)]] ≠
      outputs Db.call .empty
        [.set [.lone 0] (.bool true), .get [.scalar (Char.ofNat 0xFFFD)]] := by
  constructor <;> decide

end Turma.LiveStore
