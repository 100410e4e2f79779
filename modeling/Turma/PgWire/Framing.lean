import Turma.Lib.Json
import Turma.Lib.ToNumber
import Turma.Lib.Utf8
import Turma.Lib.Feeding

/-! The Postgres wire codec of `pgclient.js`: framed messages, the reader of what the server sends,
`Bind` on the way out and a row's columns on the way in. -/

namespace Turma.PgWire

open Turma.Lib List Option JsString

def bytesBE : ℕ → ℕ → Bytes
  | 0, _ => []
  | size + 1, n => bytesBE size (n / 256) ++ [UInt8.ofNat n]

def natBE (bs : Bytes) : ℕ := bs.foldl (fun n b => n * 256 + b.toNat) 0

/-- `writeInt16BE` and `writeInt32BE`, which throw when `z` is out of range. -/
def writeInt (size : ℕ) (z : ℤ) : Option Bytes :=
  if -(256 ^ size / 2 : ℕ) ≤ z ∧ z < (256 ^ size / 2 : ℕ) then
    some (bytesBE size (z % (256 ^ size : ℕ)).toNat)
  else none

def signed (size n : ℕ) : ℤ := if n < 256 ^ size / 2 then n else n - (256 ^ size : ℕ)

/-- `readInt16BE` and `readInt32BE`, which throw behind the end of the buffer. -/
def readInt (size : ℕ) (buf : Bytes) (pos : ℤ) : Option ℤ :=
  if 0 ≤ pos ∧ pos + size ≤ buf.length then
    some (signed size (natBE ((buf.drop pos.toNat).take size)))
  else none

def cstring (s : JsString) : Bytes := s.utf8 ++ [0]

/-- `frameMessage`, where `type` is one character; `none` where it throws. -/
def frameMessage (type : Char) (body : Bytes) : Option Bytes :=
  if type.toNat < 256 then
    (writeInt 4 (body.length + 4)).map fun len => UInt8.ofNat type.toNat :: (len ++ body)
  else none

/-- A bound parameter: `text` is what `String` makes of a value that is none of the others. -/
inductive Param
  | null
  | buffer (bytes : Bytes)
  | boolean (b : Bool)
  | text (s : JsString)

def Param.bytes : Param → Option Bytes
  | .null => none
  | .buffer bytes => some bytes
  | .boolean b => some (JsString.utf8 [.scalar (if b = true then 't' else 'f')])
  | .text s => some s.utf8

def encodeParam (v : Param) : Option Bytes :=
  match v.bytes with
  | none => writeInt 4 (-1)
  | some buf => (writeInt 4 buf.length).map fun len => len ++ buf

def encodeParams : List Param → Option Bytes
  | [] => some []
  | v :: vs => do
    let b ← encodeParam v
    let bs ← encodeParams vs
    some (b ++ bs)

/-- `encodeBind`; `none` where it throws. -/
def encodeBind (values : List Param) (portal statement : JsString) : Option Bytes := do
  let formats ← writeInt 2 0
  let count ← writeInt 2 values.length
  let params ← encodeParams values
  let results ← writeInt 2 0
  frameMessage 'B' (cstring portal ++ cstring statement ++ formats ++ count ++ params ++ results)

def maxMessageBytes : ℕ := 64 * 1024 * 1024

abbrev Message := Char × Bytes

/-- One round of the loop in `PgProtocolReader.feed`: the message at the offset with its length,
`none` while it is not all there, or the text of what is thrown. -/
def nextMessage (buf : Bytes) (offset : ℕ) : Except JsString (Option (Message × ℕ)) :=
  if buf.length - offset < 5 then .ok none
  else
    let type := Char.ofNat (buf.getD offset 0).toNat
    let len := signed 4 (natBE ((buf.drop (offset + 1)).take 4))
    if len < 4 then
      .error (ofString "bad message length " ++ decimal len ++
        ofString " for type " ++ (jsonString [.scalar type]).map .scalar)
    else if maxMessageBytes < len - 4 then
      .error (ofString "backend message length " ++ decimal len ++
        ofString " exceeds the " ++ decimal maxMessageBytes ++
        ofString "-byte cap")
    else
      let total := 1 + len.toNat
      if buf.length - offset < total then .ok none
      else .ok (some ((type, (buf.drop (offset + 5)).take (total - 5)), total))

variable {buf : Bytes}

theorem nextMessage_total {offset total : ℕ} {m : Message}
    (h : nextMessage buf offset = .ok (some (m, total))) :
    5 ≤ total ∧ total ≤ buf.length - offset := by
  unfold nextMessage at h
  dsimp only at h
  split_ifs at h with hshort hlen hcap hall
  · exact absurd (Except.ok.inj h) (by simp)
  · exact absurd (Except.ok.inj h) (by simp)
  · obtain ⟨-, rfl⟩ := Prod.mk.inj (some.inj (Except.ok.inj h))
    omega

def readMessages (buf : Bytes) (offset : ℕ) : Except JsString (List Message × ℕ) :=
  match _h : nextMessage buf offset with
  | .error e => .error e
  | .ok none => .ok ([], offset)
  | .ok (some (m, total)) =>
    (readMessages buf (offset + total)).map fun (out, offset) => (m :: out, offset)
termination_by buf.length - offset
decreasing_by
  have := nextMessage_total _h
  omega

def feed (buf chunk : Bytes) : Except JsString (List Message × Bytes) :=
  let buf := if buf.length ≠ 0 then buf ++ chunk else chunk
  (readMessages buf 0).map fun (out, offset) => (out, if 0 < offset then buf.drop offset else buf)

def feedAll : Bytes → List Bytes → Except JsString (List Message × Bytes)
  | buf, [] => .ok ([], buf)
  | buf, chunk :: chunks => do
    let (out, buf) ← feed buf chunk
    let (outs, buf) ← feedAll buf chunks
    .ok (out ++ outs, buf)

/-! `ByteReader`: each method returns what it reads and the position behind it, or throws. -/

def readCstring (buf : Bytes) (pos : ℤ) : JsString × ℤ :=
  let rest := buf.drop pos.toNat
  let text := rest.takeWhile (· ≠ 0)
  (utf8Decode text, if text.length < rest.length then pos + text.length + 1 else buf.length)

/-- `subarray(start, stop)`, where a negative `stop` counts from the end. -/
def subarray (buf : Bytes) (start stop : ℤ) : Bytes :=
  (buf.take (if stop < 0 then stop + buf.length else stop).toNat).drop start.toNat

/-- The columns of `parseDataRow`, `count` of them from a position on. -/
def readColumns (buf : Bytes) : ℕ → ℤ → Option (List (Option Bytes) × ℤ)
  | 0, pos => some ([], pos)
  | count + 1, pos => do
    let len ← readInt 4 buf pos
    let pos := pos + 4
    if len = -1 then
      let (cols, pos) ← readColumns buf count pos
      some (none :: cols, pos)
    else
      let (cols, stop) ← readColumns buf count (pos + len)
      some (some (subarray buf pos (pos + len)) :: cols, stop)

def parseDataRow (body : Bytes) : Option (List (Option Bytes)) := do
  let count ← readInt 2 body 0
  let (cols, _) ← readColumns body count.toNat 2
  some cols

/-! Framing both ways: framed messages, cut anywhere, are read back as the messages. -/

@[simp] theorem bytesBE_length (size n : ℕ) : (bytesBE size n).length = size := by
  induction size generalizing n with
  | zero => rfl
  | succ size ih => rw [bytesBE, length_append, ih, length_singleton]

theorem natBE_append (bs : Bytes) (b : UInt8) : natBE (bs ++ [b]) = natBE bs * 256 + b.toNat := by
  rw [natBE, foldl_append]
  rfl

theorem natBE_bytesBE (size n : ℕ) : natBE (bytesBE size n) = n % 256 ^ size := by
  induction size generalizing n with
  | zero => rw [bytesBE, pow_zero, Nat.mod_one]; rfl
  | succ size ih =>
    rw [bytesBE, natBE_append, ih, UInt8.toNat_ofNat', pow_succ' 256 size, @Nat.mod_mul 256]
    omega

/-- What was written is read back, wherever it stands. -/
theorem readInt_of_writeInt {size : ℕ} {z : ℤ} {bs : Bytes} (h : writeInt size z = some bs) :
    bs.length = size ∧ ∀ pre x : Bytes, readInt size (pre ++ (bs ++ x)) pre.length = some z := by
  unfold writeInt at h
  split_ifs at h with hrange
  cases h
  refine ⟨bytesBE_length _ _, fun pre x => ?_⟩
  have hpos : 0 < 256 ^ size := Nat.pow_pos (by omega)
  rw [readInt, if_pos (by simp only [length_append, bytesBE_length]; omega), Int.toNat_natCast,
    drop_left, take_left' (bytesBE_length _ _), natBE_bytesBE, signed]
  generalize 256 ^ size = m at hrange hpos ⊢
  have hlt : (z % (m : ℤ)).toNat < m := by
    have := Int.emod_lt_of_pos z (by omega : (0 : ℤ) < m)
    omega
  rw [Nat.mod_eq_of_lt hlt]
  rcases lt_or_ge z 0 with hneg | hnonneg
  · have hmod : z % (m : ℤ) = z + m := by
      rw [← Int.add_emod_right, Int.emod_eq_of_lt (by omega) (by omega)]
    rw [hmod, if_neg (by omega)]
    congr 1
    omega
  · have hmod : z % (m : ℤ) = z := Int.emod_eq_of_lt hnonneg (by omega)
    rw [hmod, if_pos (by omega)]
    congr 1
    omega

/-- A message of one byte of type whose body the reader takes. -/
structure Outgoing where
  type : Char
  single : type.toNat < 256
  body : Bytes
  fits : body.length ≤ maxMessageBytes

def Outgoing.message (m : Outgoing) : Message := (m.type, m.body)

def Outgoing.bytes (m : Outgoing) : Bytes :=
  UInt8.ofNat m.type.toNat :: (bytesBE 4 (m.body.length + 4) ++ m.body)

variable (m : Outgoing)

theorem frameMessage_eq : frameMessage m.type m.body = some m.bytes := by
  have hfits := m.fits
  have hmax : maxMessageBytes = 67108864 := rfl
  rw [frameMessage, if_pos m.single, writeInt, if_pos (by omega)]
  have hmod : ((m.body.length : ℤ) + 4) % (256 ^ 4 : ℕ) = (m.body.length + 4 : ℕ) := by
    rw [Int.emod_eq_of_lt (by omega) (by omega)]
    rfl
  rw [hmod]
  rfl

@[simp] theorem bytes_length : m.bytes.length = m.body.length + 5 := by
  rw [Outgoing.bytes, length_cons, length_append, bytesBE_length]
  omega

/-- What stands in front of an offset does not matter there. -/
theorem nextMessage_drop (buf : Bytes) (offset : ℕ) :
    nextMessage buf offset = nextMessage (buf.drop offset) 0 := by
  have hget : (buf.drop offset).getD 0 0 = buf.getD offset 0 := by
    simp [getD_eq_getElem?_getD]
  unfold nextMessage
  simp only [length_drop, drop_drop, hget, Nat.sub_zero]

theorem nextMessage_bytes (x : Bytes) :
    nextMessage (m.bytes ++ x) 0 = .ok (some (m.message, m.body.length + 5)) := by
  have hfits := m.fits
  have hmax : maxMessageBytes = 67108864 := rfl
  have hfront : m.bytes ++ x =
      UInt8.ofNat m.type.toNat :: (bytesBE 4 (m.body.length + 4) ++ (m.body ++ x)) := by
    rw [Outgoing.bytes, cons_append, append_assoc]
  have htype : Char.ofNat (UInt8.ofNat m.type.toNat).toNat = m.type := by
    rw [UInt8.toNat_ofNat', Nat.mod_eq_of_lt m.single, Char.ofNat_toNat]
  have hlen : signed 4 (natBE ((bytesBE 4 (m.body.length + 4) ++ (m.body ++ x)).take 4)) =
      (m.body.length + 4 : ℕ) := by
    rw [take_left' (bytesBE_length _ _), natBE_bytesBE, Nat.mod_eq_of_lt (by omega), signed,
      if_pos (by omega)]
  have hbody : ((m.bytes ++ x).drop (0 + 5)).take (1 + ((m.body.length + 4 : ℕ) : ℤ).toNat - 5) =
      m.body := by
    rw [show 1 + ((m.body.length + 4 : ℕ) : ℤ).toNat - 5 = m.body.length by omega, hfront,
      Nat.zero_add, drop_succ_cons, drop_left' (bytesBE_length _ _), take_left]
  have hlength : (m.bytes ++ x).length - 0 = m.body.length + 5 + x.length := by
    rw [length_append, bytes_length, Nat.sub_zero]
  have hread : signed 4 (natBE (((m.bytes ++ x).drop (0 + 1)).take 4)) = (m.body.length + 4 : ℕ) := by
    rw [hfront]
    exact hlen
  have hfirst : Char.ofNat ((m.bytes ++ x).getD 0 0).toNat = m.type := by
    rw [hfront]
    exact htype
  unfold nextMessage
  dsimp only
  rw [hread, hfirst, hbody, hlength, if_neg (by omega), if_neg (by omega), if_neg (by omega),
    if_neg (by omega), show 1 + ((m.body.length + 4 : ℕ) : ℤ).toNat = m.body.length + 5 by omega]
  rfl

/-- The message at the front of a buffer and what `feed` keeps behind it. -/
def Reads (buf : Bytes) : Option (Message × Bytes) → Prop
  | none => nextMessage buf 0 = .ok none
  | some (m, rest) => ∃ total, nextMessage buf 0 = .ok (some (m, total)) ∧ rest = buf.drop total

theorem reads_unique {x y : Option (Message × Bytes)} (hx : Reads buf x)
    (hy : Reads buf y) : x = y := by
  cases x with
  | none =>
    cases y with
    | none => rfl
    | some y =>
      obtain ⟨total, hy, -⟩ := hy
      exact absurd (Except.ok.inj (Eq.trans (Eq.symm hx) hy)) (by simp)
  | some x =>
    obtain ⟨total, hx, hrest⟩ := hx
    cases y with
    | none => exact absurd (Except.ok.inj (Eq.trans (Eq.symm hx) hy)) (by simp)
    | some y =>
      obtain ⟨total', hy, hrest'⟩ := hy
      obtain ⟨hm, rfl⟩ := Prod.mk.inj (some.inj (Except.ok.inj (hx.symm.trans hy)))
      exact congrArg some (Prod.ext hm (hrest.trans hrest'.symm))

/-- More bytes change neither a message that is all there nor an error. -/
theorem nextMessage_append (x : Bytes) (h : nextMessage buf 0 ≠ .ok none) :
    nextMessage (buf ++ x) 0 = nextMessage buf 0 := by
  have hshort : ¬buf.length - 0 < 5 := by
    intro hshort
    exact h (if_pos hshort)
  have hread : ((buf ++ x).drop (0 + 1)).take 4 = (buf.drop (0 + 1)).take 4 := by
    rw [drop_append_of_le_length (by omega),
      take_append_of_le_length (by rw [length_drop]; omega)]
  have hfirst : (buf ++ x).getD 0 0 = buf.getD 0 0 := by
    cases buf with
    | nil => exact absurd (by simp) hshort
    | cons b buf => rfl
  unfold nextMessage at h ⊢
  rw [hread, hfirst, if_neg (by rw [length_append]; omega), if_neg hshort]
  rw [if_neg hshort] at h
  by_cases hlen : signed 4 (natBE ((buf.drop (0 + 1)).take 4)) < 4
  · rw [if_pos hlen, if_pos hlen]
  rw [if_neg hlen, if_neg hlen]
  rw [if_neg hlen] at h
  by_cases hcap : (maxMessageBytes : ℤ) < signed 4 (natBE ((buf.drop (0 + 1)).take 4)) - 4
  · rw [if_pos hcap, if_pos hcap]
  rw [if_neg hcap, if_neg hcap]
  rw [if_neg hcap] at h
  by_cases hall : buf.length - 0 < 1 + (signed 4 (natBE ((buf.drop (0 + 1)).take 4))).toNat
  · exact absurd (if_pos hall) h
  · rw [if_neg hall, if_neg (by rw [length_append]; omega),
      drop_append_of_le_length (by omega),
      take_append_of_le_length (by rw [length_drop]; omega)]

def stream (ms : List Outgoing) : Bytes := ms.flatMap Outgoing.bytes

def Framed (buf : Bytes) : Prop := ∃ x ms, buf ++ x = stream ms

theorem Framed.reads (h : Framed buf) : ∃ r, Reads buf r := by
  obtain ⟨x, ms, h⟩ := h
  cases hnext : nextMessage buf 0 with
  | ok r =>
    cases r with
    | none => exact ⟨none, hnext⟩
    | some r => exact ⟨some (r.1, buf.drop r.2), r.2, hnext, rfl⟩
  | error e =>
    have happend := nextMessage_append x (by rw [hnext]; simp)
    rw [h, hnext] at happend
    cases ms with
    | nil => exact nomatch happend
    | cons m ms =>
      rw [stream, flatMap_cons, nextMessage_bytes] at happend
      exact nomatch happend

theorem Framed.rest {buf rest : Bytes} {m : Message} (h : Framed buf)
    (hr : Reads buf (some (m, rest))) : Framed rest := by
  obtain ⟨x, ms, h⟩ := h
  obtain ⟨total, hnext, rfl⟩ := hr
  have happend := nextMessage_append x (by rw [hnext]; simp)
  have hle := (nextMessage_total hnext).2
  rw [h, hnext] at happend
  cases ms with
  | nil => exact nomatch happend
  | cons m' ms =>
    rw [stream, flatMap_cons, nextMessage_bytes] at happend
    obtain ⟨-, rfl⟩ := Prod.mk.inj (some.inj (Except.ok.inj happend))
    refine ⟨x, ms, ?_⟩
    rw [← drop_append_of_le_length (by omega), h, stream, flatMap_cons, ← stream,
      ← bytes_length, drop_left]

theorem admits_framed : Admits Reads Framed where
  one _ _ _ := reads_unique
  total _ := Framed.reads
  shrinks b m rest _ h := by
    obtain ⟨total, hnext, rfl⟩ := h
    have := nextMessage_total hnext
    rw [length_drop]
    omega
  stable b _ m rest x h := by
    obtain ⟨total, hnext, rfl⟩ := h
    have hle := (nextMessage_total hnext).2
    refine ⟨total, (nextMessage_append x (by rw [hnext]; simp)).trans hnext, ?_⟩
    rw [drop_append_of_le_length (by omega)]
  start b x := by
    rintro ⟨y, ms, h⟩
    exact ⟨x ++ y, ms, by rw [← append_assoc, h]⟩
  rest _ _ _ := Framed.rest

variable {out : List Message}

/-- The loop of `feed` drains its buffer. -/
theorem readMessages_of_drains {buf rest : Bytes} (h : Drains Reads buf out rest)
    {whole : Bytes} {offset : ℕ} (hwhole : whole.drop offset = buf) :
    ∃ stop, readMessages whole offset = .ok (out, stop) ∧ whole.drop stop = rest := by
  induction h generalizing offset with
  | stop h =>
    refine ⟨offset, ?_, hwhole⟩
    have hnext := nextMessage_drop whole offset
    rw [hwhole] at hnext
    rw [readMessages]
    split
    · rename_i heq
      exact nomatch heq.symm.trans (hnext.trans h)
    · rfl
    · rename_i heq
      exact absurd (Except.ok.inj (heq.symm.trans (hnext.trans h))) (by simp)
  | @next b _ _ _ _ h _ ih =>
    obtain ⟨total, h, rfl⟩ := h
    have hnext := nextMessage_drop whole offset
    rw [hwhole] at hnext
    have hbehind : whole.drop (offset + total) = b.drop total := by rw [← drop_drop, hwhole]
    obtain ⟨stop, hstop, hrest⟩ := ih hbehind
    refine ⟨stop, ?_, hrest⟩
    rw [readMessages]
    split
    · rename_i heq
      exact nomatch heq.symm.trans (hnext.trans h)
    · rename_i heq
      exact absurd (Except.ok.inj (heq.symm.trans (hnext.trans h))) (by simp)
    · rename_i m' total' heq
      obtain ⟨rfl, rfl⟩ := Prod.mk.inj (some.inj (Except.ok.inj (heq.symm.trans (hnext.trans h))))
      rw [hstop]
      rfl

theorem feed_of_drains {buf chunk rest : Bytes}
    (h : Drains Reads (buf ++ chunk) out rest) : feed buf chunk = .ok (out, rest) := by
  have hbuf : (if buf.length ≠ 0 then buf ++ chunk else chunk) = buf ++ chunk := by
    cases buf <;> rfl
  obtain ⟨stop, hstop, hrest⟩ := readMessages_of_drains h drop_zero
  rw [feed, hbuf]
  rw [hstop]
  dsimp only [Except.map]
  by_cases hpos : 0 < stop
  · rw [if_pos hpos, hrest]
  · rw [if_neg hpos, ← hrest, Nat.eq_zero_of_not_pos hpos, drop_zero]

variable {chunks : List Bytes}

theorem feedAll_of_feeds {buf rest : Bytes}
    (h : Feeds Reads buf chunks out rest) : feedAll buf chunks = .ok (out, rest) := by
  induction h with
  | done => rfl
  | feed h _ ih =>
    rw [feedAll, feed_of_drains h]
    change (feedAll _ _).bind _ = _
    rw [ih]
    rfl

theorem drains_stream (ms : List Outgoing) : Drains Reads (stream ms) (ms.map Outgoing.message) [] := by
  induction ms with
  | nil => exact .stop rfl
  | cons m ms ih =>
    rw [stream, flatMap_cons, map_cons, ← stream]
    refine .next ⟨_, nextMessage_bytes m (stream ms), ?_⟩ ih
    rw [← bytes_length, drop_left]

/-- However framed messages are cut, they are read back with nothing left over. -/
theorem feedAll_stream {ms : List Outgoing} (h : chunks.flatten = stream ms) :
    feedAll [] chunks = .ok (ms.map Outgoing.message, []) := by
  have hframed : Framed chunks.flatten := ⟨[], ms, by rw [append_nil, h]⟩
  refine feedAll_of_feeds (admits_framed.cut rfl hframed ?_)
  rw [h]
  exact drains_stream ms

end Turma.PgWire
