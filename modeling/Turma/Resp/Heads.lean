import Turma.Resp.Parser

/-! The stream as a chain of header lines and bulk bodies, read from its bytes alone. -/

namespace Turma.Resp

open Turma.Lib List Option JsString

/-- The first header line of a stream, without its type byte and its CRLF. -/
def headerLine (bs : Bytes) : Option Bytes := (crlfIn bs.tail).map fun i => bs.tail.take i

def bulkLength (bs : Bytes) : Option ℤ :=
  if bs.head? = some 0x24 then (headerLine bs).bind fun h => (toNumber (utf8Decode h)).integer
  else none

/-- How far the first header line reaches, with the body of a bulk. -/
def tokenLength (bs : Bytes) : Option ℤ :=
  (headerLine bs).bind fun h =>
    match bulkLength bs with
    | none => some (h.length + 3)
    | some len =>
      if len = -1 then some (h.length + 3)
      else if bs.length < h.length + 5 + len then none
      else some (h.length + 5 + len)

/-- A bulk header in front whose length points at the header's own start or before it. -/
def Runaway (bs : Bytes) : Prop :=
  ∃ h len, headerLine bs = some h ∧ bulkLength bs = some len ∧ h.length + 5 + len ≤ 0

/-- What is left of a stream in front of one of the tokens in its chain. -/
inductive Reached : Bytes → Bytes → Prop
  | here (bs : Bytes) : Reached bs bs
  | next {bs t : Bytes} {n : ℕ} (h : tokenLength bs = some n) (hn : 0 < n)
      (ht : Reached (bs.drop n) t) : Reached bs t

/-- No token of the stream runs away. -/
def Tame (bs : Bytes) : Prop := ∀ t, Reached bs t → ¬Runaway t

variable {bs : Bytes}

theorem crlfIn_append {i : ℕ} (h : crlfIn bs = some i) (x : Bytes) :
    crlfIn (bs ++ x) = some i := by
  induction bs generalizing i with
  | nil => exact nomatch h
  | cons a bs ih =>
    cases bs with
    | nil => exact nomatch h
    | cons b bs =>
      rw [cons_append, cons_append]
      rw [crlfIn] at h ⊢
      split_ifs at h ⊢ with hcrlf
      · exact h
      · obtain ⟨j, hj, rfl⟩ := map_eq_some_iff.mp h
        rw [← cons_append, ih hj]
        rfl

theorem crlfIn_length {i : ℕ} (h : crlfIn bs = some i) : i + 2 ≤ bs.length := by
  induction bs generalizing i with
  | nil => exact nomatch h
  | cons a bs ih =>
    cases bs with
    | nil => exact nomatch h
    | cons b bs =>
      rw [crlfIn] at h
      split_ifs at h with hcrlf
      · cases h
        simp
      · obtain ⟨j, hj, rfl⟩ := map_eq_some_iff.mp h
        have := ih hj
        simp only [length_cons] at this ⊢
        omega

theorem headerLine_length {bs h : Bytes} (hh : headerLine bs = some h) :
    h.length + 3 ≤ bs.length ∧ crlfIn bs.tail = some h.length ∧ h = bs.tail.take h.length := by
  obtain ⟨i, hi, rfl⟩ := map_eq_some_iff.mp hh
  have hlen := crlfIn_length hi
  have htail : bs.tail.length = bs.length - 1 := length_tail
  have htake : (bs.tail.take i).length = i := by
    rw [length_take]
    omega
  rw [htake]
  exact ⟨by omega, hi, rfl⟩

theorem headerLine_append {bs h : Bytes} (hh : headerLine bs = some h) (x : Bytes) :
    headerLine (bs ++ x) = some h := by
  obtain ⟨hlen, hcrlf, htake⟩ := headerLine_length hh
  have hne : bs ≠ [] := by
    rintro rfl
    simp at hlen
  have htail : (bs ++ x).tail = bs.tail ++ x := tail_append_of_ne_nil hne
  rw [headerLine, htail, crlfIn_append hcrlf, map_some,
    take_append_of_le_length (by rw [length_tail]; omega), ← htake]

theorem bulkLength_append {bs h : Bytes} (hh : headerLine bs = some h) (x : Bytes) :
    bulkLength (bs ++ x) = bulkLength bs := by
  have hne : bs ≠ [] := by
    rintro rfl
    exact nomatch hh
  rw [bulkLength, bulkLength, headerLine_append hh, hh, List.head?_append_of_ne_nil bs hne]

variable {n : ℤ}

theorem tokenLength_append (h : tokenLength bs = some n) (x : Bytes) :
    tokenLength (bs ++ x) = some n := by
  obtain ⟨l, hl, h⟩ := bind_eq_some_iff.mp h
  rw [tokenLength, headerLine_append hl, bulkLength_append hl, bind_some]
  cases hlen : bulkLength bs with
  | none => simpa [hlen] using h
  | some len =>
    rw [hlen] at h
    dsimp only at h ⊢
    split_ifs at h ⊢ with hnull hall
    · exact h
    · rw [length_append] at hall
      omega
    · exact h

theorem tokenLength_le (h : tokenLength bs = some n) : n ≤ bs.length := by
  obtain ⟨l, hl, h⟩ := bind_eq_some_iff.mp h
  have hlength := (headerLine_length hl).1
  cases hlen : bulkLength bs with
  | none =>
    rw [hlen] at h
    cases h
    omega
  | some len =>
    rw [hlen] at h
    dsimp only at h
    split_ifs at h with hnull hall
    · cases h
      omega
    · cases h
      omega

/-- A token runs away exactly when it takes no byte. -/
theorem runaway_iff : Runaway bs ↔ ∃ n ≤ 0, tokenLength bs = some n := by
  constructor
  · rintro ⟨h, len, hh, hlen, hle⟩
    refine ⟨h.length + 5 + len, hle, ?_⟩
    rw [tokenLength, hh, hlen, bind_some]
    dsimp only
    rw [if_neg (by omega), if_neg (by omega)]
  · rintro ⟨n, hn, h⟩
    obtain ⟨l, hl, h⟩ := bind_eq_some_iff.mp h
    cases hlen : bulkLength bs with
    | none =>
      rw [hlen] at h
      have := some.inj h
      omega
    | some len =>
      rw [hlen] at h
      dsimp only at h
      split_ifs at h with hnull hall
      · have := some.inj h
        omega
      · cases h
        exact ⟨l, len, hl, hlen, hn⟩

theorem Reached.trans {a b c : Bytes} (h : Reached a b) (h' : Reached b c) : Reached a c := by
  induction h with
  | here => exact h'
  | next ht hn _ ih => exact .next ht hn (ih h')

theorem Tame.of_reached {a b : Bytes} (ha : Tame a) (h : Reached a b) : Tame b :=
  fun t ht => ha t (h.trans ht)

/-- The chain of a stream goes through what a start of it reached. -/
theorem Reached.append {a b : Bytes} (h : Reached a b) (x : Bytes) : Reached (a ++ x) (b ++ x) := by
  induction h with
  | here => exact .here _
  | @next bs t n h hn _ ih =>
    refine .next (tokenLength_append h x) hn ?_
    have hle := tokenLength_le h
    rwa [drop_append_of_le_length (by omega)]

theorem Runaway.append {a : Bytes} (h : Runaway a) (x : Bytes) : Runaway (a ++ x) := by
  obtain ⟨n, hn, h⟩ := runaway_iff.mp h
  exact runaway_iff.mpr ⟨n, hn, tokenLength_append h x⟩

/-- The start of a tame stream is tame. -/
theorem Tame.start {a x : Bytes} (h : Tame (a ++ x)) : Tame a :=
  fun t ht hrun => h (t ++ x) (ht.append x) (hrun.append x)

/-- A stream is tame when its first token takes bytes and what follows is tame. -/
theorem tame_of_drop {n : ℕ} (h : tokenLength bs = some n) (hn : 0 < n)
    (hrest : Tame (bs.drop n)) : Tame bs := by
  intro t ht hrun
  cases ht with
  | here =>
    obtain ⟨m, hm, hlen⟩ := runaway_iff.mp hrun
    have := some.inj (h.symm.trans hlen)
    omega
  | next h' hn' ht =>
    have heq := some.inj (h.symm.trans h')
    obtain rfl : n = _ := by exact_mod_cast heq
    exact hrest t ht hrun

theorem tame_of_wait (h : tokenLength bs = none) : Tame bs := by
  intro t ht hrun
  cases ht with
  | here =>
    obtain ⟨m, -, hlen⟩ := runaway_iff.mp hrun
    exact absurd (h.symm.trans hlen) (by simp)
  | next h' => exact absurd (h.symm.trans h') (by simp)

/-- What comes behind the tokens that a start of the stream reached decides. -/
theorem Reached.tame_append {a b x : Bytes} (h : Reached a b) (hx : Tame (b ++ x)) : Tame (a ++ x) := by
  induction h with
  | here => exact hx
  | @next bs t n h hn _ ih =>
    refine tame_of_drop (tokenLength_append h x) hn ?_
    have hle := tokenLength_le h
    rw [drop_append_of_le_length (by omega)]
    exact ih hx

/-! `_tryParse` at an offset of the stream's bytes that is not negative: what it does there depends
on the bytes from there on, and agrees with the chain of tokens. -/

def Head.shift (k : ℕ) : Head → Head
  | .wait => .wait
  | .reply value offset => .reply value (k + offset)
  | .array count offset => .array count (k + offset)

theorem lineEnd_append (pre bs : Bytes) :
    lineEnd (pre ++ bs) (pre.length + 1) = (lineEnd bs 1).map (· + pre.length) := by
  have hone : fromEnd bs.length 1 = 1 := rfl
  have hfrom : fromEnd (pre ++ bs).length (pre.length + 1) = pre.length + 1 := by
    rw [fromEnd, if_neg (by omega)]
    omega
  rw [lineEnd, lineEnd, hfrom, hone]
  rw [← drop_drop, drop_left, Option.map_map]
  congr 1
  funext i
  simp only [Function.comp_apply]
  omega

theorem textOf_append (pre bs : Bytes) {a : ℤ} (ha : 0 ≤ a) (b : ℤ) :
    textOf (pre ++ bs) (pre.length + a) (pre.length + b) = textOf bs a b := by
  obtain ⟨a, rfl⟩ := Int.eq_ofNat_of_zero_le ha
  have hstart : ((pre.length : ℤ) + (a : ℤ)).toNat = pre.length + a := by omega
  unfold textOf
  congr 1
  rw [hstart, Int.toNat_natCast]
  rcases lt_or_ge b 0 with hb | hb
  · have hstop : ((pre.length : ℤ) + b).toNat ≤ pre.length + a := by omega
    rw [drop_eq_nil_of_le ((length_take_le _ _).trans hstop),
      Int.toNat_of_nonpos hb.le, take_zero, drop_nil]
  · have hstop : ((pre.length : ℤ) + b).toNat = pre.length + b.toNat := by omega
    rw [hstop, take_append, take_of_length_le (by omega), Nat.add_sub_cancel_left,
      ← drop_drop, drop_left]

theorem typeAt_append (pre bs : Bytes) : typeAt (pre ++ bs) pre.length = typeAt bs 0 := by
  rw [typeAt, typeAt, if_neg (by omega), if_neg (by omega), Int.toNat_natCast, Int.toNat_zero,
    getElem?_append_right le_rfl, Nat.sub_self]

theorem parseType_append (pre bs : Bytes) (type : Char) (header : JsString) {after : ℤ}
    (hafter : 0 ≤ after) : parseType (pre ++ bs) type header (pre.length + after) =
      (parseType bs type header after).shift pre.length := by
  unfold parseType
  split
  · rfl
  · rfl
  · rfl
  · cases (toNumber header).integer with
    | none => rfl
    | some len =>
      dsimp only
      by_cases hnull : len = -1
      · rw [if_pos hnull, if_pos hnull]
        rfl
      · have hstop : (pre.length : ℤ) + after + len = pre.length + (after + len) := by omega
        rw [if_neg hnull, if_neg hnull, hstop, textOf_append pre bs hafter, length_append]
        by_cases hall : (bs.length : ℤ) < after + len + 2
        · rw [if_pos (by omega), if_pos hall]
          rfl
        · rw [if_neg (by omega), if_neg hall, add_assoc (pre.length : ℤ)]
          rfl
  · cases (toNumber header).integer with
    | none => rfl
    | some count =>
      dsimp only
      split_ifs <;> rfl
  · rfl

/-- What stands in front of an offset does not matter there. -/
theorem parseHead_append (pre bs : Bytes) :
    parseHead (pre ++ bs) pre.length = (parseHead bs 0).shift pre.length := by
  have htext : ∀ i : ℕ, textOf (pre ++ bs) (pre.length + 1) (i + pre.length : ℕ) = textOf bs (0 + 1) i := by
    intro i
    rw [← textOf_append pre bs (by omega : (0 : ℤ) ≤ 0 + 1)]
    congr 1
    omega
  rw [parseHead, parseHead, lineEnd_append, typeAt_append]
  by_cases hend : (bs.length : ℤ) ≤ 0
  · rw [if_pos hend, if_pos (by rw [length_append]; omega)]
    rfl
  · rw [if_neg hend, if_neg (by rw [length_append]; omega)]
    cases hline : lineEnd bs 1 with
    | none => simp [hline, Head.shift]
    | some i =>
      rw [map_some, zero_add, hline]
      dsimp only
      rw [htext, ← parseType_append pre bs _ _ (by omega : (0 : ℤ) ≤ i + 2)]
      congr 1
      omega

/-- The front of a stream, by its first header line. -/
theorem parseHead_zero (bs : Bytes) :
    parseHead bs 0 = match headerLine bs with
      | none => .wait
      | some h => parseType bs (typeAt bs 0) (utf8Decode h) (h.length + 3) := by
  have hline : lineEnd bs (0 + 1) = (crlfIn bs.tail).map (· + 1) := by
    rw [lineEnd, show fromEnd bs.length (0 + 1) = 1 from rfl, drop_one]
  rw [parseHead, hline]
  cases hh : headerLine bs with
  | none =>
    rw [headerLine, map_eq_none_iff] at hh
    rw [hh]
    split_ifs <;> rfl
  | some h =>
    obtain ⟨hlen, hcrlf, htake⟩ := headerLine_length hh
    rw [if_neg (by omega), hcrlf]
    dsimp only [map_some]
    have htext : textOf bs (0 + 1) (h.length + 1 : ℕ) = utf8Decode h := by
      rw [textOf, Int.toNat_natCast]
      change utf8Decode ((bs.take (h.length + 1)).drop 1) = utf8Decode h
      rw [drop_take, Nat.add_sub_cancel, drop_one, ← htake]
    rw [htext]
    congr 1

theorem typeAt_bulk : typeAt bs 0 = '$' ↔ bs.head? = some 0x24 := by
  have hchar : ∀ n < 256, Char.ofNat n = '$' → n = 0x24 := by
    decide +kernel
  rw [typeAt, if_neg (by omega), Int.toNat_zero]
  cases bs with
  | nil => simp
  | cons b bs =>
    simp only [getElem?_cons_zero, map_some, getD_some, head?_cons,
      some.injEq]
    constructor
    · intro h
      exact UInt8.toNat_inj.mp (hchar b.toNat b.toNat_lt h)
    · rintro rfl
      rfl

theorem parseType_bulk (bs : Bytes) (header : JsString) (after : ℤ) :
    parseType bs '$' header after = match (toNumber header).integer with
      | none => .reply (.error (ofString "bad bulk length " ++ json header)) after
      | some len =>
        if len = -1 then .reply .null after
        else if bs.length < after + len + 2 then .wait
        else .reply (.str (textOf bs after (after + len))) (after + len + 2) :=
  rfl

theorem parseType_array (bs : Bytes) (header : JsString) (after : ℤ) :
    parseType bs '*' header after = match (toNumber header).integer with
      | none => .reply (.error (ofString "bad array length " ++ json header)) after
      | some count => if count = -1 then .reply .null after else .array count.toNat after :=
  rfl

/-- Only a bulk looks at the bytes behind its header line. -/
theorem parseType_other {type : Char} (h : type ≠ '$') (header : JsString) (after : ℤ) :
    (∃ value, ∀ bs, parseType bs type header after = .reply value after) ∨
      ∃ count, ∀ bs, parseType bs type header after = .array count after := by
  unfold parseType
  split
  · exact .inl ⟨_, fun _ => rfl⟩
  · exact .inl ⟨_, fun _ => rfl⟩
  · exact .inl ⟨_, fun _ => rfl⟩
  · exact absurd rfl h
  · cases (toNumber header).integer with
    | none => exact .inl ⟨_, fun _ => rfl⟩
    | some count =>
      by_cases hnull : count = -1
      · exact .inl ⟨.null, fun _ => if_pos hnull⟩
      · exact .inr ⟨count.toNat, fun _ => if_neg hnull⟩
  · exact .inl ⟨_, fun _ => rfl⟩

theorem parseHead_of_wait (h : tokenLength bs = none) : parseHead bs 0 = .wait := by
  rw [parseHead_zero]
  cases hh : headerLine bs with
  | none => rfl
  | some l =>
    rw [tokenLength, hh, bind_some] at h
    by_cases htype : typeAt bs 0 = '$'
    · rw [bulkLength, if_pos (typeAt_bulk.mp htype), hh, bind_some] at h
      dsimp only
      rw [htype, parseType_bulk]
      cases hlen : (toNumber (utf8Decode l)).integer with
      | none => simp [hlen] at h
      | some len =>
        rw [hlen] at h
        dsimp only at h ⊢
        split_ifs at h with hnull hall
        rw [if_neg hnull, if_pos (by omega)]
    · rw [bulkLength, if_neg (mt typeAt_bulk.mpr htype)] at h
      cases h

/-- The front of a stream reaches as far as its first token. -/
theorem parseHead_of_token (h : tokenLength bs = some n) :
    (∃ value, parseHead bs 0 = .reply value n) ∨ 0 < n ∧ ∃ count, parseHead bs 0 = .array count n := by
  rw [parseHead_zero]
  obtain ⟨l, hl, h⟩ := bind_eq_some_iff.mp h
  rw [hl]
  dsimp only
  by_cases htype : typeAt bs 0 = '$'
  · rw [bulkLength, if_pos (typeAt_bulk.mp htype), hl, bind_some] at h
    rw [htype, parseType_bulk]
    cases hlen : (toNumber (utf8Decode l)).integer with
    | none =>
      rw [hlen] at h
      cases h
      exact .inl ⟨_, rfl⟩
    | some len =>
      rw [hlen] at h
      dsimp only at h ⊢
      split_ifs at h with hnull hall
      · cases h
        exact .inl ⟨.null, if_pos hnull⟩
      · cases h
        rw [if_neg hnull, if_neg (by omega), show (l.length : ℤ) + 3 + len + 2 = l.length + 5 + len by omega]
        exact .inl ⟨_, rfl⟩
  · rw [bulkLength, if_neg (mt typeAt_bulk.mpr htype)] at h
    cases h
    rcases parseType_other htype (utf8Decode l) (l.length + 3) with ⟨value, hvalue⟩ | ⟨count, hcount⟩
    · exact .inl ⟨value, hvalue bs⟩
    · exact .inr ⟨by omega, count, hcount bs⟩

/-- Once its first token is all there, the front of a stream is read the same. -/
theorem parseHead_stable (h : tokenLength bs = some n) (x : Bytes) :
    parseHead (bs ++ x) 0 = parseHead bs 0 := by
  obtain ⟨l, hl, h⟩ := bind_eq_some_iff.mp h
  have hne : bs ≠ [] := by
    rintro rfl
    exact nomatch hl
  have hat : typeAt (bs ++ x) 0 = typeAt bs 0 := by
    cases bs with
    | nil => exact absurd rfl hne
    | cons b bs => rfl
  rw [parseHead_zero, parseHead_zero, headerLine_append hl, hl, hat]
  dsimp only
  by_cases htype : typeAt bs 0 = '$'
  · rw [bulkLength, if_pos (typeAt_bulk.mp htype), hl, bind_some] at h
    rw [htype, parseType_bulk, parseType_bulk]
    cases hlen : (toNumber (utf8Decode l)).integer with
    | none => rfl
    | some len =>
      rw [hlen] at h
      dsimp only at h ⊢
      split_ifs at h with hnull hall
      · rw [if_pos hnull, if_pos hnull]
      · have htext : textOf (bs ++ x) (l.length + 3) (l.length + 3 + len) =
            textOf bs (l.length + 3) (l.length + 3 + len) := by
          rw [textOf, textOf, take_append_of_le_length (by omega)]
        rw [if_neg hnull, if_neg hnull, length_append, if_neg (by omega), if_neg (by omega),
          htext]
  · rcases parseType_other htype (utf8Decode l) (l.length + 3) with ⟨value, hvalue⟩ | ⟨count, hcount⟩
    · rw [hvalue, hvalue]
    · rw [hcount, hcount]

end Turma.Resp
