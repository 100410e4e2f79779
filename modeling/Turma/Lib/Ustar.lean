import Mathlib.Data.List.Forall2
import Turma.Lib.Utf8

/-! Buffers that are written field by field: a field holds what was written to it, and the writes to
the other fields leave it. -/

namespace Turma.Lib

open List

variable {α : Type*} {buf src : List α} {at₁ off len n : ℕ}

def field (buf : List α) (off len : ℕ) : List α := (buf.drop off).take len

def put (buf : List α) (off : ℕ) (src : List α) : List α :=
  buf.take off ++ src ++ buf.drop (off + src.length)

theorem length_field (h : off + len ≤ buf.length) : (field buf off len).length = len := by
  rw [field, length_take, length_drop]
  omega

theorem length_put (h : off + src.length ≤ buf.length) : (put buf off src).length = buf.length := by
  rw [put, length_append, length_append, length_take, length_drop]
  omega

theorem put_nil (buf : List α) (off : ℕ) : put buf off [] = buf := by
  rw [put, append_nil, length_nil, Nat.add_zero, take_append_drop]

theorem getElem?_field (i : ℕ) : (field buf off len)[i]? = if i < len then buf[off + i]? else none := by
  rw [field, getElem?_take]
  split_ifs
  · rw [getElem?_drop]
  · rfl

theorem getElem?_put (h : off + src.length ≤ buf.length) (i : ℕ) :
    (put buf off src)[i]? =
      if off ≤ i ∧ i < off + src.length then src[i - off]? else buf[i]? := by
  have hoff : (buf.take off).length = off := by
    rw [length_take]
    omega
  by_cases hlow : i < off
  · rw [if_neg (by omega), put, append_assoc, getElem?_append_left (by omega),
      getElem?_take, if_pos hlow]
  · by_cases hin : i < off + src.length
    · rw [if_pos (by omega), put, append_assoc, getElem?_append_right (by omega), hoff,
        getElem?_append_left (by omega)]
    · rw [if_neg (by omega), put, getElem?_append_right (by rw [length_append]; omega),
        length_append, hoff, getElem?_drop]
      congr 1
      omega

/-- A write beside the field. -/
theorem field_put_other (h : off + src.length ≤ buf.length)
    (hapart : off + src.length ≤ at₁ ∨ at₁ + len ≤ off) :
    field (put buf off src) at₁ len = field buf at₁ len := by
  refine ext_getElem? fun i => ?_
  rw [getElem?_field, getElem?_field]
  split_ifs with hi
  · rw [getElem?_put h, if_neg (by omega)]
  · rfl

/-- A write into the field, which it may leave in part as it was. -/
theorem field_put_self (h : off + len ≤ buf.length) (hfits : src.length ≤ len) :
    field (put buf off src) off len =
      src ++ field buf (off + src.length) (len - src.length) := by
  refine ext_getElem? fun i => ?_
  rw [getElem?_field]
  by_cases hsrc : i < src.length
  · rw [if_pos (by omega), getElem?_put (by omega), if_pos (by omega),
      getElem?_append_left hsrc, Nat.add_sub_cancel_left]
  · rw [getElem?_append_right (by omega), getElem?_field]
    by_cases hlen : i < len
    · rw [if_pos hlen, if_pos (by omega), getElem?_put (by omega), if_neg (by omega)]
      congr 1
      omega
    · rw [if_neg hlen, if_neg (by omega)]

theorem field_replicate (a : α) (h : off + len ≤ n) :
    field (List.replicate n a) off len = List.replicate len a := by
  rw [field, drop_replicate, take_replicate]
  congr 1
  omega

/-- A buffer is what stands before a field, the field and the rest. -/
theorem take_field_drop (buf : List α) (off len : ℕ) :
    buf.take off ++ field buf off len ++ buf.drop (off + len) = buf := by
  rw [append_assoc, field, ← drop_drop, take_append_drop, take_append_drop]

/-- What a write covers may be overwritten. -/
theorem put_put (h : off + src.length ≤ buf.length) {src' : List α}
    (hsame : src'.length = src.length) : put (put buf off src) off src' = put buf off src' := by
  refine ext_getElem? fun i => ?_
  rw [getElem?_put (by rw [length_put h]; omega), getElem?_put h, getElem?_put (by omega)]
  split_ifs <;> first | rfl | omega

def putAll (buf : List α) (writes : List (ℕ × List α)) : List α :=
  writes.foldl (fun buf w => put buf w.1 w.2) buf

theorem putAll_append (writes writes' : List (ℕ × List α)) :
    putAll buf (writes ++ writes') = putAll (putAll buf writes) writes' := foldl_append

variable {writes : List (ℕ × List α)}

theorem length_putAll
    (h : ∀ w ∈ writes, w.1 + w.2.length ≤ buf.length) : (putAll buf writes).length = buf.length := by
  induction writes generalizing buf with
  | nil => rfl
  | cons w writes ih =>
    have hlen := length_put (h w mem_cons_self)
    rw [putAll, foldl_cons, ← hlen]
    exact ih fun w' hw' => hlen ▸ h w' (.tail _ hw')

theorem field_putAll_other
    (h : ∀ w ∈ writes, w.1 + w.2.length ≤ buf.length)
    (hapart : ∀ w ∈ writes, w.1 + w.2.length ≤ off ∨ off + len ≤ w.1) :
    field (putAll buf writes) off len = field buf off len := by
  induction writes generalizing buf with
  | nil => rfl
  | cons w writes ih =>
    have hfits := h w mem_cons_self
    rw [putAll, foldl_cons, ← field_put_other hfits (hapart w mem_cons_self)]
    refine ih (fun w' hw' => ?_) fun w' hw' => hapart w' (.tail _ hw')
    rw [length_put hfits]
    exact h w' (.tail _ hw')

/-- Each write goes to a slot of its own, which holds it and for the rest what was there. -/
theorem field_putAll {slots : List (ℕ × ℕ)}
    (h : List.Forall₂ (fun w s => w.1 = s.1 ∧ w.2.length ≤ s.2) writes slots)
    (hapart : slots.Pairwise fun s t => s.1 + s.2 ≤ t.1)
    (hin : ∀ s ∈ slots, s.1 + s.2 ≤ buf.length) :
    ∀ p ∈ writes.zip slots, field (putAll buf writes) p.2.1 p.2.2 =
      p.1.2 ++ field buf (p.2.1 + p.1.2.length) (p.2.2 - p.1.2.length) := by
  induction h generalizing buf with
  | nil => exact fun p hp => absurd hp not_mem_nil
  | @cons w s writes slots hw hws ih =>
    obtain ⟨hfirst, hrest⟩ := pairwise_cons.mp hapart
    have hs := hin s mem_cons_self
    have hfits : w.1 + w.2.length ≤ buf.length := by omega
    have hlen := length_put hfits
    have hlater : ∀ w' ∈ writes, ∃ s' ∈ slots, w'.1 = s'.1 ∧ w'.2.length ≤ s'.2 := fun w' hw' => by
      obtain ⟨i, hi, rfl⟩ := mem_iff_getElem.mp hw'
      have hi' : i < slots.length := hws.length_eq ▸ hi
      exact ⟨slots[i], getElem_mem hi', (forall₂_iff_get.mp hws).2 i hi hi'⟩
    intro p hp
    rw [putAll, foldl_cons]
    rw [zip_cons_cons] at hp
    rcases mem_cons.mp hp with rfl | hp
    · have hsame : field (putAll (put buf w.1 w.2) writes) s.1 s.2 =
          field (put buf w.1 w.2) s.1 s.2 := by
        refine field_putAll_other (fun w' hw' => ?_) fun w' hw' => ?_
        · obtain ⟨s', hs', hat, hle⟩ := hlater w' hw'
          have hroom := hin s' (.tail _ hs')
          omega
        · obtain ⟨s', hs', hat, -⟩ := hlater w' hw'
          have hbehind := hfirst s' hs'
          omega
      rw [putAll] at hsame
      rw [hsame, ← hw.1]
      exact field_put_self (by omega) hw.2
    · have hroom : ∀ s' ∈ slots, s'.1 + s'.2 ≤ (put buf w.1 w.2).length := fun s' hs' => by
        rw [hlen]
        exact hin s' (.tail _ hs')
      have hback := ih hrest hroom p hp
      rw [putAll] at hback
      have hbehind := hfirst p.2 (of_mem_zip hp).2
      rw [hback, field_put_other hfits (by omega)]

theorem field_add (buf : List α) (off m n : ℕ) :
    field buf off (m + n) = field buf off m ++ field buf (off + m) n := by
  rw [field, field, field, take_add, drop_drop]

/-- Writing what is there. -/
theorem put_field (h : off + len ≤ buf.length) : put buf off (field buf off len) = buf := by
  rw [put, length_field h, take_field_drop]

end Turma.Lib

namespace Turma.Lib.Ustar

structure Member where
  path : JsString
  size : ℕ
  content : Bytes
deriving DecidableEq

def cString (b : Bytes) : Bytes := b.takeWhile (· ≠ 0)

def octalDigit (c : Char) : Bool := '0' ≤ c && c ≤ '7'

/-- A number field is octal digits, up to a NUL. -/
def readOctal (b : Bytes) : Option ℕ :=
  let digits := (cString b).map fun x => Char.ofNat x.toNat
  if digits ≠ [] ∧ digits.all octalDigit = true then some (Nat.ofDigitChars 8 digits 0) else none

def ascii (t : List Char) : Bytes := t.map fun c => UInt8.ofNat c.toNat

def checksum (b : Bytes) : ℕ := (b.map UInt8.toNat).sum

/-- The name, behind the prefix where there is one. -/
def readPath (b : Bytes) : JsString :=
  let name := cString (field b 0 100)
  let lead := cString (field b 345 155)
  utf8Decode (if lead = [] then name else lead ++ ascii ['/'] ++ name)

/-- The path and the size of a regular file. The checksum is over the block with spaces in its own
place. -/
def readHeader (b : Bytes) : Option (JsString × ℕ) :=
  if field b 257 8 = ascii ['u', 's', 't', 'a', 'r', '\x00', '0', '0'] ∧
      field b 156 1 = ascii ['0'] ∧
      readOctal (field b 148 8) = some (checksum (put b 148 (List.replicate 8 32))) then
    (readOctal (field b 124 12)).map fun size => (readPath b, size)
  else none

def blockBytes (size : ℕ) : ℕ := (size + 511) / 512 * 512

/-- The members up to the two zero blocks, with which the archive ends. -/
def readMembers : ℕ → Bytes → Option (List Member)
  | 0, _ => none
  | fuel + 1, bs =>
    let block := bs.take 512
    let rest := bs.drop 512
    if block = List.replicate 512 0 then
      if rest = List.replicate 512 0 then some [] else none
    else
      (readHeader block).bind fun head =>
        if rest.length < blockBytes head.2 then none
        else (readMembers fuel (rest.drop (blockBytes head.2))).map
          (⟨head.1, head.2, rest.take head.2⟩ :: ·)

def readArchive (bs : Bytes) : Option (List Member) := readMembers bs.length bs

end Turma.Lib.Ustar
