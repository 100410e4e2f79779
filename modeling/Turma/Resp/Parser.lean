import Turma.Lib.Json
import Turma.Lib.ToNumber
import Turma.Lib.Utf8
import Turma.Lib.Feeding

/-! The RESP2 codec of `store.js`: `encodeCommand` and `RespParser`. Offsets are integers, since
a bulk header may declare a negative length; `Buffer`'s methods take them as they come. -/

namespace Turma.Resp

open Turma.Lib Option JsString

def crlfIn : Bytes → Option ℕ
  | a :: b :: bs => if a = 13 ∧ b = 10 then some 0 else (crlfIn (b :: bs)).map (· + 1)
  | _ => none

/-- An offset that is negative counts from the end of a buffer of `n` bytes. -/
def fromEnd (n : ℕ) (offset : ℤ) : ℕ := if offset < 0 then (n + offset).toNat else offset.toNat

def lineEnd (buf : Bytes) (offset : ℤ) : Option ℕ :=
  let start := fromEnd buf.length offset
  (crlfIn (buf.drop start)).map (· + start)

/-- `String.fromCharCode(buf[offset])`. -/
def typeAt (buf : Bytes) (offset : ℤ) : Char :=
  if offset < 0 then Char.ofNat 0 else (buf[offset.toNat]?.map fun b => Char.ofNat b.toNat).getD (Char.ofNat 0)

/-- `buf.toString("utf8", start, stop)`. -/
def textOf (buf : Bytes) (start stop : ℤ) : JsString :=
  utf8Decode ((buf.take stop.toNat).drop start.toNat)

/-- `buf.subarray(offset)`. -/
def subarray (buf : Bytes) (offset : ℤ) : Bytes := buf.drop (fromEnd buf.length offset)

inductive Reply
  | str (s : JsString)
  | error (message : JsString)
  | num (x : Lib.Num)
  | null
  | arr (elements : List Reply)

def json (s : JsString) : JsString := (jsonString s).map .scalar

/-- What `_tryParse` does at an offset before it parses the elements of an array. -/
inductive Head
  | wait
  | reply (value : Reply) (offset : ℤ)
  | array (count : ℕ) (offset : ℤ)

/-- The `switch` of `_tryParse`, up to the loop over the elements of an array. -/
def parseType (buf : Bytes) (type : Char) (header : JsString) (afterHeader : ℤ) : Head :=
  match type with
  | '+' => .reply (.str header) afterHeader
  | '-' => .reply (.error header) afterHeader
  | ':' => .reply (.num (toNumber header)) afterHeader
  | '$' =>
    match (toNumber header).integer with
    | none => .reply (.error (ofString "bad bulk length " ++ json header)) afterHeader
    | some len =>
      if len = -1 then .reply .null afterHeader
      else if buf.length < afterHeader + len + 2 then .wait
      else .reply (.str (textOf buf afterHeader (afterHeader + len))) (afterHeader + len + 2)
  | '*' =>
    match (toNumber header).integer with
    | none => .reply (.error (ofString "bad array length " ++ json header)) afterHeader
    | some count =>
      if count = -1 then .reply .null afterHeader else .array count.toNat afterHeader
  | type =>
    .reply (.error (ofString "unexpected RESP type " ++ json [.scalar type])) afterHeader

/-- `_tryParse` up to that loop. -/
def parseHead (buf : Bytes) (offset : ℤ) : Head :=
  if buf.length ≤ offset then .wait
  else
    match lineEnd buf (offset + 1) with
    | none => .wait
    | some lineEnd =>
      parseType buf (typeAt buf offset) (textOf buf (offset + 1) lineEnd) (lineEnd + 2)

mutual

/-- `_tryParse`: `none` when `fuel` runs out, `some none` while the reply is incomplete. -/
def tryParse : ℕ → Bytes → ℤ → Option (Option (Reply × ℤ))
  | 0, _, _ => none
  | fuel + 1, buf, offset =>
    match parseHead buf offset with
    | .wait => some none
    | .reply value offset => some (some (value, offset))
    | .array count offset =>
      (parseElements fuel buf count offset).map fun r => r.map fun (arr, off) => (.arr arr, off)

/-- The loop of `_tryParse` over the `count` elements of an array. -/
def parseElements : ℕ → Bytes → ℕ → ℤ → Option (Option (List Reply × ℤ))
  | 0, _, _, _ => none
  | _ + 1, _, 0, off => some (some ([], off))
  | fuel + 1, buf, count + 1, off =>
    match tryParse fuel buf off with
    | none => none
    | some none => some none
    | some (some (el, off)) =>
      (parseElements fuel buf count off).map fun r => r.map fun (arr, off) => (el :: arr, off)

end

def drain : ℕ → Bytes → Option (List Reply × Bytes)
  | 0, _ => none
  | fuel + 1, buf =>
    match tryParse fuel buf 0 with
    | none => none
    | some none => some ([], buf)
    | some (some (value, offset)) =>
      (drain fuel (subarray buf offset)).map fun (out, buf) => (value :: out, buf)

def feed (fuel : ℕ) (buf chunk : Bytes) : Option (List Reply × Bytes) :=
  drain fuel (if buf.length ≠ 0 then buf ++ chunk else chunk)

/-- The outputs of successive `feed` calls, one behind the other, and the buffer after them. -/
def feedAll (fuel : ℕ) : Bytes → List Bytes → Option (List Reply × Bytes)
  | buf, [] => some ([], buf)
  | buf, chunk :: chunks => do
    let (out, buf) ← feed fuel buf chunk
    let (outs, buf) ← feedAll fuel buf chunks
    some (out ++ outs, buf)

def crlf : Bytes := [13, 10]

def header (type : Char) (text : JsString) : Bytes :=
  JsString.utf8 (.scalar type :: text) ++ crlf

/-- `encodeCommand`, of strings. -/
def encodeCommand (args : List JsString) : Bytes :=
  header '*' (decimal args.length) ++
    args.flatMap fun a => header '$' (decimal a.utf8.length) ++ a.utf8 ++ crlf

/-! What `_tryParse`, its loop over elements and `feed` return, once there is fuel enough. -/

def Returns (buf : Bytes) (offset : ℤ) (r : Option (Reply × ℤ)) : Prop :=
  ∃ fuel, tryParse fuel buf offset = some r

/-- The loop over `count` elements from `offset` ends: with `none`, an element is incomplete. -/
def ReturnsAll (buf : Bytes) (count : ℕ) (offset : ℤ) (r : Option (List Reply × ℤ)) : Prop :=
  ∃ fuel, parseElements fuel buf count offset = some r

/-- More fuel changes no result. -/
theorem tryParse_succ (fuel : ℕ) :
    (∀ buf offset r, tryParse fuel buf offset = some r → tryParse (fuel + 1) buf offset = some r) ∧
      ∀ buf count offset r, parseElements fuel buf count offset = some r →
        parseElements (fuel + 1) buf count offset = some r := by
  induction fuel with
  | zero => exact ⟨fun _ _ _ h => (nomatch h), fun _ _ _ _ h => (nomatch h)⟩
  | succ fuel ih =>
    refine ⟨fun buf offset r h => ?_, fun buf count offset r h => ?_⟩
    · rw [tryParse] at h ⊢
      cases hhead : parseHead buf offset with
      | wait => simpa [hhead] using h
      | reply value offset => simpa [hhead] using h
      | array count offset =>
        rw [hhead] at h
        obtain ⟨r', hr', rfl⟩ := map_eq_some_iff.mp h
        dsimp only
        rw [ih.2 _ _ _ _ hr']
        rfl
    · cases count with
      | zero => simpa [parseElements] using h
      | succ count =>
        rw [parseElements] at h ⊢
        cases hel : tryParse fuel buf offset with
        | none => simp [hel] at h
        | some el =>
          rw [ih.1 _ _ _ hel]
          rw [hel] at h
          cases el with
          | none => exact h
          | some el =>
            obtain ⟨r', hr', rfl⟩ := map_eq_some_iff.mp h
            dsimp only
            rw [ih.2 _ _ _ _ hr']
            rfl

variable {buf : Bytes} {offset : ℤ} {fuel fuel' : ℕ}

theorem tryParse_mono (hle : fuel ≤ fuel')
    {r : Option (Reply × ℤ)} (h : tryParse fuel buf offset = some r) :
    tryParse fuel' buf offset = some r := by
  induction hle with
  | refl => exact h
  | step _ ih => exact (tryParse_succ _).1 _ _ _ ih

variable {r : Option (List Reply × ℤ)} {count : ℕ}

theorem parseElements_mono (hle : fuel ≤ fuel')
    (h : parseElements fuel buf count offset = some r) :
    parseElements fuel' buf count offset = some r := by
  induction hle with
  | refl => exact h
  | step _ ih => exact (tryParse_succ _).2 _ _ _ _ ih

theorem Returns.unique {r r' : Option (Reply × ℤ)}
    (h : Returns buf offset r) (h' : Returns buf offset r') : r = r' := by
  obtain ⟨n, hn⟩ := h
  obtain ⟨m, hm⟩ := h'
  have hn := tryParse_mono (le_max_left n m) hn
  rw [tryParse_mono (le_max_right n m) hm] at hn
  exact (some.inj hn).symm

theorem ReturnsAll.unique {r r' : Option (List Reply × ℤ)}
    (h : ReturnsAll buf count offset r) (h' : ReturnsAll buf count offset r') : r = r' := by
  obtain ⟨n, hn⟩ := h
  obtain ⟨m, hm⟩ := h'
  have hn := parseElements_mono (le_max_left n m) hn
  rw [parseElements_mono (le_max_right n m) hm] at hn
  exact (some.inj hn).symm

theorem returns_wait (hhead : parseHead buf offset = .wait) :
    Returns buf offset none :=
  ⟨1, by rw [tryParse, hhead]⟩

theorem returns_reply {offset offset' : ℤ} {value : Reply}
    (hhead : parseHead buf offset = .reply value offset') :
    Returns buf offset (some (value, offset')) :=
  ⟨1, by rw [tryParse, hhead]⟩

theorem returns_array {offset offset' : ℤ}
    (hhead : parseHead buf offset = .array count offset')
    (h : ReturnsAll buf count offset' r) :
    Returns buf offset (r.map fun (arr, off) => (.arr arr, off)) := by
  obtain ⟨fuel, h⟩ := h
  exact ⟨fuel + 1, by rw [tryParse, hhead]; dsimp only; rw [h]; rfl⟩

theorem returnsAll_zero (buf : Bytes) (offset : ℤ) : ReturnsAll buf 0 offset (some ([], offset)) :=
  ⟨1, by rw [parseElements]⟩

theorem returnsAll_wait (h : Returns buf offset none) (count : ℕ) :
    ReturnsAll buf (count + 1) offset none := by
  obtain ⟨fuel, h⟩ := h
  exact ⟨fuel + 1, by rw [parseElements, h]⟩

theorem returnsAll_cons {offset offset' : ℤ} {el : Reply}
    (h : Returns buf offset (some (el, offset')))
    (hrest : ReturnsAll buf count offset' r) :
    ReturnsAll buf (count + 1) offset (r.map fun (arr, off) => (el :: arr, off)) := by
  obtain ⟨n, h⟩ := h
  obtain ⟨m, hrest⟩ := hrest
  refine ⟨max n m + 1, ?_⟩
  rw [parseElements, tryParse_mono (le_max_left n m) h]
  dsimp only
  rw [parseElements_mono (le_max_right n m) hrest]
  rfl

/-- The loop goes on from where it stands after some of its elements. -/
theorem returnsAll_append {offset offset' : ℤ} {i count : ℕ} {arr : List Reply}
    (h : ReturnsAll buf i offset (some (arr, offset')))
    (hrest : ReturnsAll buf count offset' r) :
    ReturnsAll buf (i + count) offset (r.map fun (arr', off) => (arr ++ arr', off)) := by
  induction i generalizing offset arr with
  | zero =>
    obtain ⟨rfl, rfl⟩ := Prod.mk.inj (some.inj (h.unique (returnsAll_zero buf offset)))
    rw [Nat.zero_add]
    convert hrest
    cases r <;> rfl
  | succ i ih =>
    obtain ⟨fuel, h⟩ := h
    cases fuel with
    | zero => exact nomatch h
    | succ fuel =>
      rw [parseElements] at h
      cases hel : tryParse fuel buf offset with
      | none => simp [hel] at h
      | some el =>
        rw [hel] at h
        cases el with
        | none => exact absurd (some.inj h) (by simp)
        | some el =>
          obtain ⟨r', hr', heq⟩ := map_eq_some_iff.mp h
          cases r' with
          | none => cases heq
          | some r' =>
            obtain ⟨rfl, rfl⟩ := Prod.mk.inj (some.inj heq)
            have hgo := returnsAll_cons ⟨fuel, hel⟩ (ih ⟨fuel, hr'⟩)
            rw [Nat.succ_add]
            convert hgo using 1
            cases r <;> rfl

/-- The reply at the front of a buffer and what `feed` keeps behind it. -/
def Reads (buf : Bytes) : Option (Reply × Bytes) → Prop
  | none => Returns buf 0 none
  | some (value, rest) => ∃ offset, Returns buf 0 (some (value, offset)) ∧ rest = subarray buf offset

theorem reads_unique {x y : Option (Reply × Bytes)} (hx : Reads buf x)
    (hy : Reads buf y) : x = y := by
  cases x with
  | none =>
    cases y with
    | none => rfl
    | some y =>
      obtain ⟨offset, hy, -⟩ := hy
      exact absurd (Returns.unique hx hy) (by simp)
  | some x =>
    obtain ⟨offset, hx, hrest⟩ := hx
    cases y with
    | none => exact absurd (Returns.unique hx hy) (by simp)
    | some y =>
      obtain ⟨offset', hy, hrest'⟩ := hy
      obtain ⟨hvalue, rfl⟩ := Prod.mk.inj (some.inj (hx.unique hy))
      exact congrArg some (Prod.ext hvalue (hrest.trans hrest'.symm))

theorem drain_succ {fuel : ℕ} {r : List Reply × Bytes}
    (h : drain fuel buf = some r) : drain (fuel + 1) buf = some r := by
  induction fuel generalizing buf r with
  | zero => exact nomatch h
  | succ fuel ih =>
    rw [drain] at h ⊢
    cases hparse : tryParse fuel buf 0 with
    | none => simp [hparse] at h
    | some x =>
      rw [(tryParse_succ fuel).1 _ _ _ hparse]
      rw [hparse] at h
      cases x with
      | none => exact h
      | some x =>
        obtain ⟨r', hr', rfl⟩ := map_eq_some_iff.mp h
        dsimp only
        rw [ih hr']
        rfl

theorem drain_mono (hle : fuel ≤ fuel') {r : List Reply × Bytes}
    (h : drain fuel buf = some r) : drain fuel' buf = some r := by
  induction hle with
  | refl => exact h
  | step _ ih => exact drain_succ ih

variable {out : List Reply}

theorem drains_of_drain {fuel : ℕ} {buf rest : Bytes}
    (h : drain fuel buf = some (out, rest)) : Drains Reads buf out rest := by
  induction fuel generalizing buf out with
  | zero => exact nomatch h
  | succ fuel ih =>
    rw [drain] at h
    cases hparse : tryParse fuel buf 0 with
    | none => simp [hparse] at h
    | some x =>
      rw [hparse] at h
      cases x with
      | none =>
        obtain ⟨rfl, rfl⟩ := Prod.mk.inj (some.inj h)
        exact .stop ⟨fuel, hparse⟩
      | some x =>
        obtain ⟨r', hr', heq⟩ := map_eq_some_iff.mp h
        obtain ⟨rfl, rfl⟩ := Prod.mk.inj heq
        exact .next ⟨x.2, ⟨fuel, hparse⟩, rfl⟩ (ih hr')

theorem drain_of_drains {buf rest : Bytes} (h : Drains Reads buf out rest) :
    ∃ fuel, drain fuel buf = some (out, rest) := by
  induction h with
  | stop h =>
    obtain ⟨fuel, h⟩ := h
    exact ⟨fuel + 1, by rw [drain, h]⟩
  | next h _ ih =>
    obtain ⟨offset, ⟨n, hn⟩, rfl⟩ := h
    obtain ⟨m, hm⟩ := ih
    refine ⟨max n m + 1, ?_⟩
    rw [drain, tryParse_mono (le_max_left n m) hn]
    dsimp only
    rw [drain_mono (le_max_right n m) hm]
    rfl

@[simp] theorem feed_eq (fuel : ℕ) (buf chunk : Bytes) : feed fuel buf chunk = drain fuel (buf ++ chunk) := by
  cases buf <;> rfl

variable {chunks : List Bytes}

theorem feedAll_mono (hle : fuel ≤ fuel')
    {r : List Reply × Bytes} (h : feedAll fuel buf chunks = some r) :
    feedAll fuel' buf chunks = some r := by
  induction chunks generalizing buf r with
  | nil => exact h
  | cons chunk chunks ih =>
    rw [feedAll, feed_eq] at h ⊢
    obtain ⟨a, ha, h⟩ := bind_eq_some_iff.mp h
    obtain ⟨b, hb, h⟩ := bind_eq_some_iff.mp h
    rw [drain_mono hle ha]
    dsimp only [bind_eq_bind, bind_some]
    rw [ih hb]
    exact h

theorem feedAll_of_feeds {buf rest : Bytes}
    (h : Feeds Reads buf chunks out rest) : ∃ fuel, feedAll fuel buf chunks = some (out, rest) := by
  induction h with
  | done buf => exact ⟨0, rfl⟩
  | feed h _ ih =>
    obtain ⟨n, hn⟩ := drain_of_drains h
    obtain ⟨m, hm⟩ := ih
    refine ⟨max n m, ?_⟩
    rw [feedAll, feed_eq, drain_mono (le_max_left n m) hn]
    dsimp only [bind_eq_bind, bind_some]
    rw [feedAll_mono (le_max_right n m) hm]
    rfl

end Turma.Resp
