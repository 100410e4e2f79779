import Turma.Lib.JsString

/-! UTF-8 both ways, as `Buffer` does it: a lone surrogate is written as U+FFFD, and bytes that are
not UTF-8 are read as U+FFFD. -/

namespace Turma.Lib

open List

abbrev Bytes := List UInt8

def replacement : Char := Char.ofNat 0xFFFD

/-- `Buffer.from(s, "utf8")`. -/
def JsString.utf8 (s : JsString) : Bytes :=
  s.flatMap fun c => match c with
    | .scalar c => String.utf8EncodeChar c
    | .lone _ => String.utf8EncodeChar replacement

/-- How many bytes at the start of `bs`, which starts no character, one U+FFFD stands for: the
longest start of some character's encoding, or one byte. -/
def illFormed : Bytes → ℕ
  | b :: c :: rest =>
    let second (lo hi : UInt8) := decide (lo ≤ c ∧ c ≤ hi)
    let third := match rest with
      | [] => false
      | d :: _ => decide (0x80 ≤ d ∧ d ≤ 0xBF)
    if b = 0xE0 then if second 0xA0 0xBF then 2 else 1
    else if b = 0xED then if second 0x80 0x9F then 2 else 1
    else if 0xE1 ≤ b ∧ b ≤ 0xEF then if second 0x80 0xBF then 2 else 1
    else if (b = 0xF0 ∧ second 0x90 0xBF) ∨ (0xF1 ≤ b ∧ b ≤ 0xF3 ∧ second 0x80 0xBF) ∨
        (b = 0xF4 ∧ second 0x80 0x8F) then
      if third then 3 else 2
    else 1
  | _ => 1

def utf8DecodeFrom : ℕ → Bytes → JsString
  | _, [] => []
  | skip + 1, _ :: bs => utf8DecodeFrom skip bs
  | 0, b :: bs =>
    match (b :: bs).toByteArray.utf8DecodeChar? 0 with
    | some c => .scalar c :: utf8DecodeFrom (c.utf8Size - 1) bs
    | none => .scalar replacement :: utf8DecodeFrom (illFormed (b :: bs) - 1) bs

/-- `buf.toString("utf8")`. -/
def utf8Decode (bs : Bytes) : JsString := utf8DecodeFrom 0 bs

@[simp] theorem utf8_nil : JsString.utf8 [] = [] := rfl

theorem utf8_cons (c : CodePoint) (s : JsString) :
    JsString.utf8 (c :: s) = JsString.utf8 [c] ++ s.utf8 := by
  simp [JsString.utf8]

theorem utf8_append (s t : JsString) : JsString.utf8 (s ++ t) = s.utf8 ++ t.utf8 :=
  flatMap_append

theorem utf8_toWellFormed (s : JsString) : s.toWellFormed.utf8 = s.utf8 := by
  induction s with
  | nil => rfl
  | cons c s ih =>
    rw [JsString.toWellFormed, map_cons, utf8_cons, utf8_cons c s, ← ih]
    cases c <;> rfl

theorem utf8DecodeFrom_append (a b : Bytes) : utf8DecodeFrom a.length (a ++ b) = utf8DecodeFrom 0 b := by
  induction a with
  | nil => rfl
  | cons x a ih => exact ih

theorem utf8Decode_char (c : Char) (bs : Bytes) :
    utf8Decode (String.utf8EncodeChar c ++ bs) = .scalar c :: utf8Decode bs := by
  have hread : (String.utf8EncodeChar c ++ bs).toByteArray.utf8DecodeChar? 0 = some c := by
    rw [toByteArray_append]
    exact ByteArray.utf8DecodeChar?_utf8EncodeChar_append
  have hlength : (String.utf8EncodeChar c).length = c.utf8Size := String.length_utf8EncodeChar c
  cases hbytes : String.utf8EncodeChar c with
  | nil => exact absurd hbytes String.utf8EncodeChar_ne_nil
  | cons b rest =>
    rw [hbytes, cons_append] at hread
    rw [hbytes, length_cons] at hlength
    rw [cons_append, utf8Decode, utf8DecodeFrom, hread]
    dsimp only
    rw [← hlength, Nat.add_sub_cancel, utf8DecodeFrom_append, utf8Decode]

theorem utf8Decode_append (s : JsString) (bs : Bytes) :
    utf8Decode (s.utf8 ++ bs) = s.toWellFormed ++ utf8Decode bs := by
  induction s with
  | nil => rfl
  | cons c s ih =>
    rw [utf8_cons, append_assoc]
    cases c with
    | scalar c =>
      have hone : JsString.utf8 [.scalar c] = String.utf8EncodeChar c := by simp [JsString.utf8]
      rw [hone, utf8Decode_char, ih]
      rfl
    | lone u =>
      have hone : JsString.utf8 [.lone u] = String.utf8EncodeChar replacement := by
        simp [JsString.utf8]
      rw [hone, utf8Decode_char, ih]
      rfl

/-- UTF-8 keeps a string but for its lone surrogates. -/
theorem utf8Decode_utf8 (s : JsString) : utf8Decode s.utf8 = s.toWellFormed := by
  have h := utf8Decode_append s []
  rwa [append_nil, show utf8Decode [] = [] from rfl, append_nil] at h

/-- A character of ASCII is one byte, and no other character has a byte below 0x80. -/
theorem utf8EncodeChar_cases (c : Char) :
    (c.toNat < 0x80 ∧ String.utf8EncodeChar c = [UInt8.ofNat c.toNat]) ∨
      ∀ b ∈ String.utf8EncodeChar c, 0x80 ≤ b.toNat := by
  have hnat : c.val.toNat = c.toNat := rfl
  unfold String.utf8EncodeChar
  dsimp only
  rw [hnat]
  split_ifs with h1 h2 h3
  · exact .inl ⟨by omega, rfl⟩
  · right
    intro b hb
    simp only [mem_cons, not_mem_nil, or_false] at hb
    rcases hb with rfl | rfl <;> rw [UInt8.toNat_ofNat'] <;> omega
  · right
    intro b hb
    simp only [mem_cons, not_mem_nil, or_false] at hb
    rcases hb with rfl | rfl | rfl <;> rw [UInt8.toNat_ofNat'] <;> omega
  · right
    intro b hb
    simp only [mem_cons, not_mem_nil, or_false] at hb
    rcases hb with rfl | rfl | rfl | rfl <;> rw [UInt8.toNat_ofNat'] <;> omega

example : utf8Decode [0xE2, 0x82, 0x41, 0xF0, 0x9F] =
    [.scalar replacement, .scalar 'A', .scalar replacement] := by
  decide

end Turma.Lib
