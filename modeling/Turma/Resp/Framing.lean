import Turma.Resp.Progress

/-! RESP2 framing both ways: the encodings of replies, cut anywhere, are read back as the replies. -/

namespace Turma.Resp

open Turma.Lib List Option

structure Line where
  text : List Char
  noCrlf : ∀ l r, text ≠ l ++ '\r' :: '\n' :: r

inductive Value
  | simple (line : Line)
  | error (line : Line)
  | int (z : ℤ)
  | bulk (text : List Char)
  | nullBulk
  | nullArray
  | array (elements : List Value)

def js (t : List Char) : JsString := t.map .scalar

def bulk (s : JsString) : Bytes := header '$' (decimal s.utf8.length) ++ s.utf8 ++ crlf

mutual

def Value.encode : Value → Bytes
  | .simple line => header '+' (js line.text)
  | .error line => header '-' (js line.text)
  | .int z => header ':' (decimal z)
  | .bulk text => Turma.Resp.bulk (js text)
  | .nullBulk => header '$' (decimal (-1))
  | .nullArray => header '*' (decimal (-1))
  | .array elements => header '*' (decimal elements.length) ++ encodeAll elements

def encodeAll : List Value → Bytes
  | [] => []
  | v :: vs => v.encode ++ encodeAll vs

end

mutual

def Value.reply (num : ℤ → Lib.Num) : Value → Reply
  | .simple line => .str (js line.text)
  | .error line => .error (js line.text)
  | .int z => .num (num z)
  | .bulk text => .str (js text)
  | .nullBulk | .nullArray => .null
  | .array elements => .arr (replies num elements)

def replies (num : ℤ → Lib.Num) : List Value → List Reply
  | [] => []
  | v :: vs => v.reply num :: replies num vs

end

variable {b : UInt8}

theorem crlfIn_cons (hb : b ≠ 13) (bs : Bytes) :
    crlfIn (b :: bs) = (crlfIn bs).map (· + 1) := by
  cases bs with
  | nil => rfl
  | cons c bs => rw [crlfIn, if_neg fun h => hb h.1]

theorem crlfIn_skip {a : Bytes} (ha : ∀ b ∈ a, b ≠ 13) (bs : Bytes) :
    crlfIn (a ++ bs) = (crlfIn bs).map (· + a.length) := by
  induction a with
  | nil => simp
  | cons b a ih =>
    rw [cons_append, crlfIn_cons (ha b mem_cons_self),
      ih fun b' hb' => ha b' (mem_cons_of_mem b hb'), Option.map_map]
    rfl

theorem js_utf8_cons (c : Char) (t : List Char) :
    (js (c :: t)).utf8 = String.utf8EncodeChar c ++ (js t).utf8 := by
  rw [js, map_cons, utf8_cons, ← js]
  simp [JsString.utf8]

variable {t : List Char}

/-- The bytes of a text have a line feed in front only where the text has one. -/
theorem head_of_line {x : Bytes}
    (h : ((js t).utf8 ++ 13 :: x).head? = some 10) : ∃ r, t = '\n' :: r := by
  cases t with
  | nil => exact absurd h (by simp [js])
  | cons d t =>
    refine ⟨t, ?_⟩
    rw [js_utf8_cons, append_assoc] at h
    rcases utf8EncodeChar_cases d with ⟨hd, hbytes⟩ | hbytes
    · rw [hbytes, singleton_append, head?_cons] at h
      have hten : d.toNat % 2 ^ 8 = 10 := by
        have := congrArg UInt8.toNat (some.inj h)
        rwa [UInt8.toNat_ofNat'] at this
      have hd10 : d.toNat = 10 := by omega
      rw [← Char.ofNat_toNat d, hd10]
    · cases hchar : String.utf8EncodeChar d with
      | nil => exact absurd hchar String.utf8EncodeChar_ne_nil
      | cons b rest =>
        rw [hchar, cons_append, head?_cons] at h
        have := hbytes b (hchar ▸ mem_cons_self)
        rw [some.inj h] at this
        exact absurd this (by decide)

/-- The first CRLF behind a text without one is the one that ends its line. -/
theorem crlfIn_line (ht : ∀ l r, t ≠ l ++ '\r' :: '\n' :: r) (x : Bytes) :
    crlfIn ((js t).utf8 ++ 13 :: 10 :: x) = some (js t).utf8.length := by
  induction t with
  | nil => rfl
  | cons c t ih =>
    have hrest := ih fun l r heq => ht (c :: l) r (by rw [heq]; rfl)
    rw [js_utf8_cons, append_assoc, length_append]
    rcases utf8EncodeChar_cases c with ⟨hc, hbytes⟩ | hbytes
    · rw [hbytes, singleton_append]
      by_cases hcr : UInt8.ofNat c.toNat = 13
      · have hc13 : c.toNat = 13 := by
          have := congrArg UInt8.toNat hcr
          rw [UInt8.toNat_ofNat'] at this
          change c.toNat % 2 ^ 8 = 13 at this
          omega
        cases htail : (js t).utf8 ++ 13 :: 10 :: x with
        | nil => simp at htail
        | cons b rest =>
          rw [crlfIn]
          rw [htail] at hrest
          have hlf : b ≠ 10 := by
            rintro rfl
            obtain ⟨r, rfl⟩ := head_of_line (t := t) (x := 10 :: x) (by rw [htail]; rfl)
            refine ht [] r ?_
            rw [← Char.ofNat_toNat c, hc13]
            rfl
          rw [if_neg fun h => hlf h.2, hrest, map_some, length_singleton, Nat.add_comm]
      · rw [crlfIn_cons hcr, hrest, map_some, length_singleton, Nat.add_comm]
    · have hne : ∀ b ∈ String.utf8EncodeChar c, b ≠ 13 := by
        rintro b hb rfl
        exact absurd (hbytes 13 hb) (by decide)
      rw [crlfIn_skip hne, hrest, map_some, Nat.add_comm]

structure TypeByte (type : Char) (b : UInt8) : Prop where
  utf8 : String.utf8EncodeChar type = [b]
  char : Char.ofNat b.toNat = type

theorem simpleType : TypeByte '+' 0x2B := ⟨rfl, rfl⟩

theorem errorType : TypeByte '-' 0x2D := ⟨rfl, rfl⟩

theorem intType : TypeByte ':' 0x3A := ⟨rfl, rfl⟩

theorem bulkType : TypeByte '$' 0x24 := ⟨rfl, rfl⟩

theorem arrayType : TypeByte '*' 0x2A := ⟨rfl, rfl⟩

variable {type : Char}

theorem header_cons (htype : TypeByte type b)
    (s : JsString) (x : Bytes) : header type s ++ x = b :: (s.utf8 ++ 13 :: 10 :: x) := by
  have hone : JsString.utf8 [.scalar type] = [b] := by simpa [JsString.utf8] using htype.utf8
  rw [header, utf8_cons, hone, append_assoc, append_assoc, singleton_append]
  rfl

theorem header_length (htype : TypeByte type b)
    (s : JsString) : (header type s).length = s.utf8.length + 3 := by
  have h := congrArg List.length (header_cons htype s [])
  rw [append_nil] at h
  rw [h]
  simp

theorem headerLine_header (htype : TypeByte type b)
    (ht : ∀ l r, t ≠ l ++ '\r' :: '\n' :: r) (x : Bytes) :
    headerLine (header type (js t) ++ x) = some (js t).utf8 := by
  rw [header_cons htype, headerLine, tail_cons, crlfIn_line ht, map_some,
    take_left]

theorem utf8Decode_js (t : List Char) : utf8Decode (js t).utf8 = js t := by
  rw [utf8Decode_utf8, js, JsString.toWellFormed, List.map_map]
  rfl

/-- A header line in front is read as its text. -/
theorem parseHead_header (htype : TypeByte type b)
    (ht : ∀ l r, t ≠ l ++ '\r' :: '\n' :: r)
    (x : Bytes) : parseHead (header type (js t) ++ x) 0 =
      parseType (header type (js t) ++ x) type (js t) (header type (js t)).length := by
  have hat : typeAt (header type (js t) ++ x) 0 = type := by
    rw [header_cons htype]
    exact htype.char
  rw [parseHead_zero, headerLine_header htype ht, header_length htype]
  dsimp only
  rw [hat, utf8Decode_js]
  rfl

/-- What a header line in front is, in the chain of tokens, when it is no bulk's. -/
theorem tokenLength_header (htype : TypeByte type b)
    (hb : b ≠ 0x24) (ht : ∀ l r, t ≠ l ++ '\r' :: '\n' :: r) (x : Bytes) :
    tokenLength (header type (js t) ++ x) = some (header type (js t)).length := by
  have hbulk : bulkLength (header type (js t) ++ x) = none := by
    rw [bulkLength, if_neg]
    rw [header_cons htype, head?_cons]
    exact fun h => hb (some.inj h)
  rw [tokenLength, headerLine_header htype ht, bind_some, hbulk, header_length htype]
  rfl

def decimalChars (z : ℤ) : List Char :=
  (if z < 0 then ['-'] else []) ++ Nat.toDigits 10 z.natAbs

theorem js_decimalChars (z : ℤ) : js (decimalChars z) = decimal z := by
  rw [js, decimalChars, decimal, map_append]
  split_ifs <;> rfl

theorem decimalChars_line (z : ℤ) : ∀ l r, decimalChars z ≠ l ++ '\r' :: '\n' :: r := by
  intro l r h
  have hmem : '\r' ∈ decimalChars z := by
    rw [h]
    exact mem_append_right _ mem_cons_self
  rcases mem_append.mp hmem with hmem | hmem
  · split_ifs at hmem
    · exact absurd (mem_singleton.mp hmem) (by decide)
    · exact absurd hmem not_mem_nil
  · exact absurd (Nat.isDigit_of_mem_toDigits (by omega) (by omega) hmem) (by decide)

theorem integer_toNumber {z : ℤ} (h : z.natAbs ≤ 2 ^ 53) :
    (toNumber (decimal z)).integer = some z := by
  rw [toNumber_decimal, nearest_intCast h, Lib.Num.integer, if_pos (Rat.den_intCast z), Rat.num_intCast]

structure Leaf (e : Bytes) (value : Reply) : Prop where
  head : ∀ x, parseHead (e ++ x) 0 = .reply value e.length
  token : ∀ x, tokenLength (e ++ x) = some (e.length : ℤ)

theorem leaf_header (htype : TypeByte type b)
    (hbulk : b ≠ 0x24)
    (ht : ∀ l r, t ≠ l ++ '\r' :: '\n' :: r) {value : Reply}
    (h : ∀ buf after, parseType buf type (js t) after = .reply value after) :
    Leaf (header type (js t)) value where
  head x := by rw [parseHead_header htype ht, h]
  token := tokenLength_header htype hbulk ht

theorem leaf_nullBulk : Leaf (header '$' (decimal (-1))) .null := by
  have hline := decimalChars_line (-1)
  have hread := integer_toNumber (z := -1) (by decide)
  rw [← js_decimalChars] at hread ⊢
  refine ⟨fun x => ?_, fun x => ?_⟩
  · rw [parseHead_header bulkType hline, parseType_bulk, hread]
    rfl
  · have hbulk : bulkLength (header '$' (js (decimalChars (-1))) ++ x) = some (-1) := by
      rw [bulkLength, headerLine_header bulkType hline, if_pos (by rw [header_cons bulkType]; rfl),
        bind_some, utf8Decode_js, hread]
    rw [tokenLength, headerLine_header bulkType hline, bind_some, hbulk, header_length bulkType]
    rfl

theorem leaf_bulk {s : JsString} (hfits : s.utf8.length ≤ 2 ^ 53) :
    Leaf (bulk s) (.str s.toWellFormed) := by
  have hline := decimalChars_line s.utf8.length
  have hread := integer_toNumber (z := s.utf8.length) (by omega)
  have hfront : ∀ x, bulk s ++ x =
      header '$' (js (decimalChars s.utf8.length)) ++ (s.utf8 ++ (crlf ++ x)) := by
    intro x
    rw [bulk, js_decimalChars]
    simp only [append_assoc]
  have hlen : (bulk s).length =
      (header '$' (js (decimalChars s.utf8.length))).length + s.utf8.length + 2 := by
    rw [bulk, js_decimalChars, length_append, length_append]
    rfl
  have hcrlf : crlf.length = 2 := rfl
  rw [← js_decimalChars] at hread
  refine ⟨fun x => ?_, fun x => ?_⟩
  · have htext : ∀ n m : ℕ, n = (header '$' (js (decimalChars s.utf8.length))).length →
        m = n + s.utf8.length →
        textOf (header '$' (js (decimalChars s.utf8.length)) ++ (s.utf8 ++ (crlf ++ x))) n m =
          s.toWellFormed := by
      rintro n m rfl rfl
      rw [textOf, Int.toNat_natCast, Int.toNat_natCast, ← append_assoc,
        take_left' length_append, drop_left, utf8Decode_utf8]
    rw [hfront, parseHead_header bulkType hline, parseType_bulk, hread]
    dsimp only
    rw [if_neg (by omega), if_neg (by simp only [length_append]; omega), ← Nat.cast_add,
      htext _ _ rfl rfl, hlen]
    rfl
  · have hbulk : bulkLength (header '$' (js (decimalChars s.utf8.length)) ++ (s.utf8 ++ (crlf ++ x))) =
        some (s.utf8.length : ℤ) := by
      rw [bulkLength, headerLine_header bulkType hline, if_pos (by rw [header_cons bulkType]; rfl),
        bind_some, utf8Decode_js, hread]
    have hheader := header_length bulkType (js (decimalChars s.utf8.length))
    rw [hfront, tokenLength, headerLine_header bulkType hline, bind_some, hbulk]
    dsimp only
    rw [if_neg (by omega), if_neg (by simp only [length_append]; omega), hlen]
    congr 1
    omega

def double (z : ℤ) : Lib.Num := nearest z

def bufferMax : ℕ := 2 ^ 53

theorem header_pos (htype : TypeByte type b) (s : JsString) :
    0 < (header type s).length := by
  rw [header_length htype]
  omega

theorem encode_pos (v : Value) : 0 < v.encode.length := by
  cases v with
  | simple => exact header_pos simpleType _
  | error => exact header_pos errorType _
  | int => exact header_pos intType _
  | bulk text =>
    have h := header_pos bulkType (decimal (js text).utf8.length)
    rw [Value.encode, bulk, length_append, length_append]
    omega
  | nullBulk => exact header_pos bulkType _
  | nullArray => exact header_pos arrayType _
  | array vs =>
    have h := header_pos arrayType (decimal vs.length)
    rw [Value.encode, length_append]
    omega

theorem length_le_encodeAll (vs : List Value) : vs.length ≤ (encodeAll vs).length := by
  induction vs with
  | nil => exact le_rfl
  | cons v vs ih =>
    have h := encode_pos v
    rw [encodeAll, length_append, length_cons]
    omega

theorem Leaf.returns {e : Bytes} {value : Reply} (h : Leaf e value) (pre x : Bytes) :
    Returns (pre ++ (e ++ x)) pre.length (some (value, pre.length + e.length)) :=
  returns_reply ((parseHead_append pre (e ++ x)).trans (congrArg _ (h.head x)))

/-- The values with no elements. -/
theorem leaf_encode {v : Value} (hfits : v.encode.length ≤ bufferMax)
    (harray : ∀ vs, v ≠ .array vs) : Leaf v.encode (v.reply double) := by
  cases v with
  | simple line => exact leaf_header simpleType (by decide) line.noCrlf fun _ _ => rfl
  | error line => exact leaf_header errorType (by decide) line.noCrlf fun _ _ => rfl
  | int z =>
    rw [Value.encode, Value.reply, double, ← toNumber_decimal, ← js_decimalChars]
    exact leaf_header intType (by decide) (decimalChars_line z) fun _ _ => rfl
  | bulk text =>
    have hwell : (js text).toWellFormed = js text := by
      rw [js, JsString.toWellFormed, List.map_map]
      rfl
    have hbody : (js text).utf8.length ≤ 2 ^ 53 := by
      rw [Value.encode, bulk, length_append, length_append] at hfits
      exact (Nat.le_add_left _ _).trans ((Nat.le_add_right _ _).trans hfits)
    have h := leaf_bulk hbody
    rwa [hwell] at h
  | nullBulk => exact leaf_nullBulk
  | nullArray =>
    have hread := integer_toNumber (z := -1) (by decide)
    rw [Value.encode, Value.reply]
    rw [← js_decimalChars] at hread ⊢
    refine leaf_header arrayType (by decide) (decimalChars_line (-1)) fun buf after => ?_
    rw [parseType_array, hread]
    rfl
  | array vs => exact absurd rfl (harray vs)

/-- The header of an array of a length that a double counts. -/
theorem parseHead_array {n : ℕ} (hn : n ≤ bufferMax) (x : Bytes) :
    parseHead (header '*' (decimal n) ++ x) 0 =
      .array n (header '*' (decimal n)).length := by
  have hread := integer_toNumber (z := n) (by rwa [Int.natAbs_natCast])
  rw [← js_decimalChars] at hread ⊢
  rw [parseHead_header arrayType (decimalChars_line n), parseType_array, hread]
  dsimp only
  rw [if_neg (by omega), Int.toNat_natCast]

mutual

/-- Wherever the encoding of a value stands, it is read as the value and to its end. -/
theorem returns_encode (v : Value) (hfits : v.encode.length ≤ bufferMax) (pre x : Bytes) :
    Returns (pre ++ (v.encode ++ x)) pre.length
      (some (v.reply double, pre.length + v.encode.length)) := by
  cases v with
  | array vs =>
    rw [Value.encode, length_append] at hfits
    have hlen := length_le_encodeAll vs
    have hhead := parseHead_array (n := vs.length) (by omega) (encodeAll vs ++ x)
    have hall := returnsAll_encode vs (by omega) (pre ++ header '*' (decimal vs.length)) x
    rw [Value.encode, append_assoc]
    rw [append_assoc, length_append, Nat.cast_add] at hall
    have h := returns_array ((parseHead_append pre _).trans (congrArg _ hhead)) hall
    rw [Value.reply]
    convert h using 2
    dsimp only [map_some]
    rw [length_append]
    congr 2
    omega
  | simple line => exact (leaf_encode hfits (by simp)).returns pre x
  | error line => exact (leaf_encode hfits (by simp)).returns pre x
  | int z => exact (leaf_encode hfits (by simp)).returns pre x
  | bulk text => exact (leaf_encode hfits (by simp)).returns pre x
  | nullBulk => exact (leaf_encode hfits (by simp)).returns pre x
  | nullArray => exact (leaf_encode hfits (by simp)).returns pre x

theorem returnsAll_encode (vs : List Value) (hfits : (encodeAll vs).length ≤ bufferMax)
    (pre x : Bytes) : ReturnsAll (pre ++ (encodeAll vs ++ x)) vs.length pre.length
      (some (replies double vs, pre.length + (encodeAll vs).length)) := by
  cases vs with
  | nil =>
    have h := returnsAll_zero (pre ++ (encodeAll [] ++ x)) pre.length
    simpa [encodeAll, replies] using h
  | cons v vs =>
    rw [encodeAll, length_append] at hfits
    have hv := returns_encode v (by omega) pre (encodeAll vs ++ x)
    have hvs := returnsAll_encode vs (by omega) (pre ++ v.encode) x
    rw [append_assoc, length_append, Nat.cast_add] at hvs
    have h := returnsAll_cons hv hvs
    rw [encodeAll, append_assoc, replies, length_cons]
    convert h using 2
    dsimp only [map_some]
    rw [length_append]
    congr 2
    omega

end

mutual

theorem tame_encode (v : Value) (hfits : v.encode.length ≤ bufferMax) {x : Bytes} (hx : Tame x) :
    Tame (v.encode ++ x) := by
  have hleaf : (∀ vs, v ≠ .array vs) → Tame (v.encode ++ x) := fun harray =>
    tame_of_drop ((leaf_encode hfits harray).token x) (encode_pos v) (by rwa [drop_left])
  cases v with
  | array vs =>
    rw [Value.encode, length_append] at hfits
    rw [Value.encode, append_assoc]
    have htoken := tokenLength_header arrayType (by decide) (decimalChars_line vs.length)
      (encodeAll vs ++ x)
    rw [js_decimalChars] at htoken
    refine tame_of_drop htoken (header_pos arrayType _) ?_
    rw [drop_left]
    exact tame_encodeAll vs (by omega) hx
  | simple line => exact hleaf (by simp)
  | error line => exact hleaf (by simp)
  | int z => exact hleaf (by simp)
  | bulk text => exact hleaf (by simp)
  | nullBulk => exact hleaf (by simp)
  | nullArray => exact hleaf (by simp)

theorem tame_encodeAll (vs : List Value) (hfits : (encodeAll vs).length ≤ bufferMax) {x : Bytes}
    (hx : Tame x) : Tame (encodeAll vs ++ x) := by
  cases vs with
  | nil => exact hx
  | cons v vs =>
    rw [encodeAll, length_append] at hfits
    rw [encodeAll, append_assoc]
    exact tame_encode v (by omega) (tame_encodeAll vs (by omega) hx)

end

structure Message where
  value : Value
  fits : value.encode.length ≤ bufferMax

def Message.encode (m : Message) : Bytes := m.value.encode

variable (ms : List Message)

theorem tame_messages : Tame (ms.flatMap Message.encode) := by
  induction ms with
  | nil => exact tame_nil
  | cons m ms ih =>
    rw [flatMap_cons]
    exact tame_encode m.value m.fits ih

theorem drains_messages : Drains Reads (ms.flatMap Message.encode)
    (ms.map fun m => m.value.reply double) [] := by
  induction ms with
  | nil => exact .stop (returns_wait rfl)
  | cons m ms ih =>
    rw [flatMap_cons, map_cons]
    refine .next ⟨_, returns_encode m.value m.fits [] (ms.flatMap Message.encode), ?_⟩ ih
    rw [length_nil, Nat.cast_zero, zero_add, subarray_natCast]
    exact (drop_left).symm

variable {chunks : List Bytes}

/-- However a tame stream is cut, the `feed`s return what one `feed` of it all does. -/
theorem feedAll_of_drains {out : List Reply} {rest : Bytes}
    (htame : Tame chunks.flatten) (h : Drains Reads chunks.flatten out rest) :
    ∃ fuel, feedAll fuel [] chunks = some (out, rest) :=
  feedAll_of_feeds (admits_tame.cut (returns_wait rfl) htame h)

structure Command where
  args : List JsString
  fits : (encodeCommand args).length ≤ bufferMax

def chars (s : JsString) : List Char :=
  s.map fun c => match c with
    | .scalar c => c
    | .lone _ => replacement

theorem js_chars (s : JsString) : js (chars s) = s.toWellFormed := by
  rw [js, chars, JsString.toWellFormed, List.map_map]
  refine map_congr_left fun c _ => ?_
  cases c <;> rfl

/-- A command goes out as an array of bulk strings. -/
theorem encodeCommand_eq (args : List JsString) :
    encodeCommand args = (Value.array (args.map fun a => .bulk (chars a))).encode := by
  have hall : ∀ as : List JsString, encodeAll (as.map fun a => .bulk (chars a)) =
      as.flatMap fun a => header '$' (decimal a.utf8.length) ++ a.utf8 ++ crlf := by
    intro as
    induction as with
    | nil => rfl
    | cons a as ih =>
      rw [map_cons, encodeAll, ih, flatMap_cons, Value.encode, bulk, js_chars,
        utf8_toWellFormed]
  rw [encodeCommand, Value.encode, length_map, hall]

theorem replies_bulk (num : ℤ → Lib.Num) (args : List JsString) :
    replies num (args.map fun a => .bulk (chars a)) = args.map fun a => .str a.toWellFormed := by
  induction args with
  | nil => rfl
  | cons a args ih =>
    rw [map_cons, replies, ih, Value.reply, js_chars, map_cons]

theorem feedAll_messages
    (h : chunks.flatten = ms.flatMap Message.encode) :
    ∃ fuel, feedAll fuel [] chunks = some (ms.map fun m => m.value.reply double, []) := by
  refine feedAll_of_drains ?_ ?_
  · rw [h]
    exact tame_messages ms
  · rw [h]
    exact drains_messages ms

theorem feedAll_command (c : Command)
    (h : chunks.flatten = encodeCommand c.args) :
    ∃ fuel, feedAll fuel [] chunks = some ([.arr (c.args.map fun a => .str a.toWellFormed)], []) := by
  have hfits := c.fits
  rw [encodeCommand_eq] at h hfits
  obtain ⟨fuel, hfuel⟩ := feedAll_messages [⟨_, hfits⟩] (by simpa [Message.encode] using h)
  refine ⟨fuel, hfuel.trans ?_⟩
  rw [map_singleton, Value.reply, replies_bulk]

/-- However the encodings of replies are cut, they are read back with nothing left over: each
integer as a double, and a command's arguments with their lone surrogates replaced. -/
theorem reads_back :
    (∀ (ms : List Message) (chunks : List Bytes), chunks.flatten = ms.flatMap Message.encode →
      ∃ fuel, feedAll fuel [] chunks = some (ms.map fun m => m.value.reply double, [])) ∧
    ∀ (c : Command) (chunks : List Bytes), chunks.flatten = encodeCommand c.args →
      ∃ fuel, feedAll fuel [] chunks =
        some ([.arr (c.args.map fun a => .str a.toWellFormed)], []) :=
  ⟨fun ms _ h => feedAll_messages ms h, fun c _ h => feedAll_command c h⟩

/-- A bulk string that holds a CRLF, a null and an integer in an array. -/
def mixed : Message where
  value := .array [.bulk ['a', '\r', '\n'], .nullBulk, .int 7]
  fits := by decide

theorem reads_back_mixed : ∃ fuel,
    feedAll fuel [] [mixed.encode.take 11, mixed.encode.drop 11] =
      some ([mixed.value.reply double], []) :=
  reads_back.1 [mixed] [mixed.encode.take 11, mixed.encode.drop 11] (by
    rw [flatten_cons, flatten_singleton, take_append_drop, flatMap_singleton])

theorem feedAll_unique {fuel fuel' : ℕ} {buf : Bytes}
    {r r' : List Reply × Bytes} (h : feedAll fuel buf chunks = some r)
    (h' : feedAll fuel' buf chunks = some r') : r = r' := by
  have h := feedAll_mono (le_max_left fuel fuel') h
  rw [feedAll_mono (le_max_right fuel fuel') h'] at h
  exact (some.inj h).symm

/-- `2 ^ 53 + 1` comes out as `2 ^ 53`, and an argument that is half of a pair as U+FFFD. -/
theorem not_exactly :
    (¬∀ (ms : List Message) (chunks : List Bytes), chunks.flatten = ms.flatMap Message.encode →
      ∃ fuel, feedAll fuel [] chunks =
        some (ms.map fun m => m.value.reply fun z => .finite z, [])) ∧
    ¬∀ (c : Command) (chunks : List Bytes), chunks.flatten = encodeCommand c.args →
      ∃ fuel, feedAll fuel [] chunks = some ([.arr (c.args.map .str)], []) := by
  constructor
  · intro hall
    have hfits : (Value.int 9007199254740993).encode.length ≤ bufferMax := by decide
    have hcut : [(Value.int 9007199254740993).encode].flatten =
        [(⟨.int 9007199254740993, hfits⟩ : Message)].flatMap Message.encode := by
      rw [flatten_singleton, flatMap_singleton]
      rfl
    obtain ⟨fuel, hfuel⟩ := hall _ _ hcut
    obtain ⟨fuel', hfuel'⟩ := feedAll_messages _ hcut
    have heq := congrArg Prod.fst (feedAll_unique hfuel hfuel')
    have hrounded : double 9007199254740993 = .finite 9007199254740992 := by decide +kernel
    simp [Value.reply, hrounded] at heq
  · intro hall
    have hfits : (encodeCommand [[.lone 0]]).length ≤ bufferMax := by decide
    have hcut : [encodeCommand [[.lone 0]]].flatten =
        encodeCommand (⟨[[.lone 0]], hfits⟩ : Command).args :=
      flatten_singleton
    obtain ⟨fuel, hfuel⟩ := hall _ _ hcut
    obtain ⟨fuel', hfuel'⟩ := feedAll_command _ hcut
    have heq := congrArg Prod.fst (feedAll_unique hfuel hfuel')
    simp [JsString.toWellFormed, CodePoint.wellFormed] at heq

end Turma.Resp
