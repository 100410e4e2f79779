import Turma.PgWire.Framing

/-! `Bind` field by field: its parameters are read back one by one, and none runs into the next. -/

namespace Turma.PgWire

open Turma.Lib List Option

/-- A `Bind` body, read in the order in which `encodeBind` writes it: both names, no parameter
formats, the parameters, no result formats, and the end. -/
def parseBind (body : Bytes) : Option (JsString × JsString × List (Option Bytes)) := do
  let (portal, pos) := readCstring body 0
  let (statement, pos) := readCstring body pos
  let formats ← readInt 2 body pos
  let count ← readInt 2 body (pos + 2)
  let (values, pos) ← readColumns body count.toNat (pos + 4)
  let results ← readInt 2 body pos
  if formats = 0 ∧ results = 0 ∧ pos + 2 = body.length then some (portal, statement, values)
  else none

theorem utf8_ne_zero {s : JsString} (h : CodePoint.scalar (Char.ofNat 0) ∉ s) :
    ∀ b ∈ s.utf8, b ≠ 0 := by
  intro b hb
  obtain ⟨c, hc, hb⟩ := mem_flatMap.mp hb
  have hchar : ∀ d : Char, d.toNat ≠ 0 → b ∈ String.utf8EncodeChar d → b ≠ 0 := by
    rintro d hd hb rfl
    rcases utf8EncodeChar_cases d with ⟨hlt, hbytes⟩ | hbytes
    · rw [hbytes, mem_singleton] at hb
      have hmod := congrArg UInt8.toNat hb
      rw [UInt8.toNat_ofNat'] at hmod
      change 0 = d.toNat % 2 ^ 8 at hmod
      omega
    · exact absurd (hbytes 0 hb) (by decide)
  cases c with
  | scalar d =>
    refine hchar d (fun hzero => h ?_) hb
    rwa [← hzero, Char.ofNat_toNat]
  | lone u => exact hchar replacement (by decide) hb

theorem readCstring_cstring {s : JsString} (h : CodePoint.scalar (Char.ofNat 0) ∉ s) (pre x : Bytes) :
    readCstring (pre ++ (cstring s ++ x)) pre.length =
      (s.toWellFormed, Nat.cast (pre ++ cstring s).length) := by
  have htake : ((cstring s ++ x).takeWhile fun b => decide (b ≠ 0)) = s.utf8 := by
    rw [cstring, append_assoc, takeWhile_append_of_pos fun b hb => by
      simpa using utf8_ne_zero h b hb]
    simp
  rw [readCstring, Int.toNat_natCast, drop_left]
  rw [htake, utf8Decode_utf8, if_pos (by simp [cstring])]
  simp [cstring]
  omega

theorem subarray_middle (pre mid x : Bytes) :
    subarray (pre ++ (mid ++ x)) pre.length (pre.length + mid.length) = mid := by
  rw [subarray, if_neg (by omega), Int.toNat_natCast, ← Nat.cast_add, Int.toNat_natCast,
    ← append_assoc, take_left' length_append, drop_left]

variable {cols : List (Option Bytes)}

theorem readColumns_null {buf : Bytes} {count : ℕ} {pos stop : ℤ}
    (hlen : readInt 4 buf pos = some (-1)) (h : readColumns buf count (pos + 4) = some (cols, stop)) :
    readColumns buf (count + 1) pos = some (none :: cols, stop) := by
  rw [readColumns, hlen]
  dsimp only [bind_eq_bind, bind_some]
  rw [if_pos rfl, h]
  rfl

theorem readColumns_bytes {buf : Bytes} {count : ℕ} {pos len stop : ℤ}
    (hlen : readInt 4 buf pos = some len) (hne : len ≠ -1)
    (h : readColumns buf count (pos + 4 + len) = some (cols, stop)) :
    readColumns buf (count + 1) pos =
      some (some (subarray buf (pos + 4) (pos + 4 + len)) :: cols, stop) := by
  rw [readColumns, hlen]
  dsimp only [bind_eq_bind, bind_some]
  rw [if_neg hne, h]
  rfl

variable {bs : Bytes}

theorem readColumns_encodeParams {values : List Param} (h : encodeParams values = some bs)
    (pre x : Bytes) : readColumns (pre ++ (bs ++ x)) values.length pre.length =
      some (values.map Param.bytes, Nat.cast (pre ++ bs).length) := by
  induction values generalizing pre bs with
  | nil =>
    cases h
    simp [readColumns]
  | cons v values ih =>
    obtain ⟨b, hb, h⟩ := bind_eq_some_iff.mp h
    obtain ⟨rest, hrest, h⟩ := bind_eq_some_iff.mp h
    cases h
    have hih := ih hrest (pre ++ b)
    rw [append_assoc, ← append_assoc b] at hih
    have hend : (pre ++ (b ++ rest)).length = (pre ++ b ++ rest).length := by
      rw [append_assoc]
    rw [map_cons, hend]
    unfold encodeParam at hb
    cases hv : v.bytes with
    | none =>
      rw [hv] at hb
      obtain ⟨hsize, hread⟩ := readInt_of_writeInt hb
      refine readColumns_null ?_ ?_
      · rw [append_assoc b]
        exact hread pre (rest ++ x)
      · rw [length_append, hsize, Nat.cast_add] at hih
        exact hih
    | some buf =>
      rw [hv] at hb
      obtain ⟨len, hlen, rfl⟩ := map_eq_some_iff.mp hb
      obtain ⟨hsize, hread⟩ := readInt_of_writeInt hlen
      have hmiddle := subarray_middle (pre ++ len) buf (rest ++ x)
      rw [append_assoc, length_append, hsize, Nat.cast_add] at hmiddle
      have hstream : pre ++ (len ++ buf ++ rest ++ x) = pre ++ (len ++ (buf ++ (rest ++ x))) := by
        simp only [append_assoc]
      rw [hstream] at hih ⊢
      rw [length_append, length_append, hsize, Nat.cast_add, Nat.cast_add,
        ← add_assoc] at hih
      have h := readColumns_bytes (hread pre (buf ++ (rest ++ x))) (by omega) hih
      exact h.trans (congrArg (fun c => some (some c :: values.map Param.bytes, _)) hmiddle)

variable {portal statement : JsString}

theorem encodeBind_eq_some {values : List Param} {bytes : Bytes} :
    encodeBind values portal statement = some bytes ↔
      ∃ formats, writeInt 2 0 = some formats ∧ ∃ count, writeInt 2 values.length = some count ∧
        ∃ params, encodeParams values = some params ∧ ∃ results, writeInt 2 0 = some results ∧
          frameMessage 'B' (cstring portal ++ (cstring statement ++
            (formats ++ (count ++ (params ++ results))))) = some bytes := by
  rw [encodeBind]
  simp only [bind_eq_bind, bind_eq_some_iff, append_assoc]

/-- The body of a `Bind` gives back its names and its parameters. -/
theorem parseBind_encodeBind {values : List Param} {bytes : Bytes}
    (hportal : CodePoint.scalar (Char.ofNat 0) ∉ portal)
    (hstatement : CodePoint.scalar (Char.ofNat 0) ∉ statement)
    (h : encodeBind values portal statement = some bytes) :
    ∃ body, frameMessage 'B' body = some bytes ∧
      parseBind body =
        some (portal.toWellFormed, statement.toWellFormed, values.map Param.bytes) := by
  obtain ⟨formats, hformats, count, hcount, params, hparams, results, hresults, h⟩ :=
    encodeBind_eq_some.mp h
  refine ⟨_, h, ?_⟩
  have hreadPortal := readCstring_cstring hportal []
    (cstring statement ++ (formats ++ (count ++ (params ++ results))))
  have hreadStatement := readCstring_cstring hstatement (cstring portal)
    (formats ++ (count ++ (params ++ results)))
  obtain ⟨hformatsSize, hreadFormats⟩ := readInt_of_writeInt hformats
  obtain ⟨hcountSize, hreadCount⟩ := readInt_of_writeInt hcount
  obtain ⟨hresultsSize, hreadResults⟩ := readInt_of_writeInt hresults
  have hreadFormats := hreadFormats (cstring portal ++ cstring statement) (count ++ (params ++ results))
  have hreadCount := hreadCount (cstring portal ++ cstring statement ++ formats) (params ++ results)
  have hreadParams := readColumns_encodeParams hparams
    (cstring portal ++ cstring statement ++ formats ++ count) results
  have hreadResults := hreadResults
    (cstring portal ++ cstring statement ++ formats ++ count ++ params) []
  have hcountPos : (((cstring portal ++ cstring statement ++ formats).length : ℕ) : ℤ) =
      (cstring portal ++ cstring statement).length + 2 := by
    rw [length_append, hformatsSize, Nat.cast_add]
    rfl
  have hparamsPos : (((cstring portal ++ cstring statement ++ formats ++ count).length : ℕ) : ℤ) =
      (cstring portal ++ cstring statement).length + 4 := by
    rw [length_append, length_append, hformatsSize, hcountSize]
    omega
  rw [hcountPos] at hreadCount
  rw [hparamsPos] at hreadParams
  simp only [append_assoc, append_nil, nil_append, length_nil,
    Nat.cast_zero] at hreadPortal hreadStatement hreadFormats hreadCount hreadParams hreadResults
  rw [parseBind, hreadPortal]
  dsimp only
  rw [hreadStatement]
  rw [hreadFormats]
  rw [hreadCount]
  dsimp only [bind_eq_bind, bind_some]
  rw [Int.toNat_natCast, hreadParams]
  dsimp only [bind_eq_bind, bind_some]
  rw [hreadResults]
  refine if_pos ⟨rfl, rfl, ?_⟩
  simp only [length_append, hresultsSize]
  omega

theorem writeInt_isSome {size : ℕ} {z : ℤ} :
    (writeInt size z).isSome = true ↔ -(256 ^ size / 2 : ℕ) ≤ z ∧ z < (256 ^ size / 2 : ℕ) := by
  unfold writeInt
  split_ifs with h
  · exact iff_of_true rfl h
  · exact iff_of_false (by simp) h

theorem writeInt_natCast {size n : ℕ} :
    (writeInt size n).isSome = true ↔ n < 256 ^ size / 2 := by
  rw [writeInt_isSome]
  omega

def paramSize (v : Param) : ℕ := 4 + (v.bytes.map List.length).getD 0

def bindSize (values : List Param) (portal statement : JsString) : ℕ :=
  portal.utf8.length + statement.utf8.length + 8 + (values.map paramSize).sum

theorem encodeParam_length {v : Param} (h : encodeParam v = some bs) :
    bs.length = paramSize v := by
  unfold encodeParam at h
  cases hv : v.bytes with
  | none =>
    rw [hv] at h
    rw [(readInt_of_writeInt h).1, paramSize, hv]
    rfl
  | some buf =>
    rw [hv] at h
    obtain ⟨len, hlen, rfl⟩ := map_eq_some_iff.mp h
    rw [length_append, (readInt_of_writeInt hlen).1, paramSize, hv]
    rfl

theorem encodeParams_length {values : List Param} (h : encodeParams values = some bs) :
    bs.length = (values.map paramSize).sum := by
  induction values generalizing bs with
  | nil =>
    cases h
    rfl
  | cons v values ih =>
    obtain ⟨b, hb, h⟩ := bind_eq_some_iff.mp h
    obtain ⟨rest, hrest, h⟩ := bind_eq_some_iff.mp h
    cases h
    rw [length_append, encodeParam_length hb, ih hrest, map_cons, sum_cons]

theorem encodeParam_isSome {v : Param} (h : paramSize v < 2 ^ 31) : ∃ bs, encodeParam v = some bs := by
  have hhalf : 256 ^ 4 / 2 = 2 ^ 31 := by decide
  unfold encodeParam
  cases hv : v.bytes with
  | none => exact ⟨_, rfl⟩
  | some buf =>
    rw [paramSize, hv, map_some, getD_some] at h
    have hlen : (writeInt 4 buf.length).isSome = true :=
      writeInt_natCast.mpr (by rw [hhalf]; omega)
    obtain ⟨len, hlen⟩ := isSome_iff_exists.mp hlen
    exact ⟨len ++ buf, by dsimp only; rw [hlen]; rfl⟩

theorem encodeParams_isSome {values : List Param} (h : (values.map paramSize).sum < 2 ^ 31) :
    ∃ bs, encodeParams values = some bs := by
  induction values with
  | nil => exact ⟨[], rfl⟩
  | cons v values ih =>
    rw [map_cons, sum_cons] at h
    obtain ⟨b, hb⟩ := encodeParam_isSome (by omega : paramSize v < 2 ^ 31)
    obtain ⟨bs, hbs⟩ := ih (by omega)
    exact ⟨b ++ bs, by rw [encodeParams, hb, hbs]; rfl⟩

theorem frameMessage_bind (body : Bytes) :
    (frameMessage 'B' body).isSome = true ↔ body.length + 4 < 2 ^ 31 := by
  have hhalf : 256 ^ 4 / 2 = 2 ^ 31 := by decide
  have hcast : ((body.length + 4 : ℕ) : ℤ) = body.length + 4 := by omega
  have hwrite := @writeInt_natCast 4 (body.length + 4)
  rw [hhalf, hcast] at hwrite
  rw [frameMessage, if_pos (by decide), isSome_map, hwrite]

/-- A framed message ends in its body. -/
theorem frameMessage_body {type : Char} {body bytes : Bytes}
    (h : frameMessage type body = some bytes) : bytes.drop 5 = body := by
  unfold frameMessage at h
  split_ifs at h
  obtain ⟨len, hlen, rfl⟩ := map_eq_some_iff.mp h
  rw [drop_succ_cons, drop_left' (readInt_of_writeInt hlen).1]

/-- `encodeBind` throws when there are more parameters than an `Int16` counts, or when its message
is longer than an `Int32` says. -/
theorem encodeBind_isSome {values : List Param} :
    (encodeBind values portal statement).isSome = true ↔
      values.length ≤ 32767 ∧ bindSize values portal statement + 4 < 2 ^ 31 := by
  have hshort : ∃ b, writeInt 2 0 = some b ∧ b.length = 2 := ⟨_, rfl, rfl⟩
  obtain ⟨zero, hzero, hzeroSize⟩ := hshort
  have hcount := @writeInt_natCast 2 values.length
  rw [show 256 ^ 2 / 2 = 32768 by decide] at hcount
  constructor
  · intro h
    obtain ⟨bytes, h⟩ := isSome_iff_exists.mp h
    obtain ⟨formats, hformats, count, hc, params, hparams, results, hresults, h⟩ :=
      encodeBind_eq_some.mp h
    have hframe := (frameMessage_bind _).mp (isSome_iff_exists.mpr ⟨_, h⟩)
    have hvalues := hcount.mp (isSome_iff_exists.mpr ⟨_, hc⟩)
    simp only [length_append, cstring, (readInt_of_writeInt hformats).1,
      (readInt_of_writeInt hc).1, (readInt_of_writeInt hresults).1, encodeParams_length hparams,
      length_singleton] at hframe
    rw [bindSize]
    omega
  · rintro ⟨hvalues, hsize⟩
    rw [bindSize] at hsize
    obtain ⟨count, hc⟩ := isSome_iff_exists.mp (hcount.mpr (by omega))
    obtain ⟨params, hparams⟩ := encodeParams_isSome (by omega : (values.map paramSize).sum < 2 ^ 31)
    have hframe : (frameMessage 'B' (cstring portal ++ (cstring statement ++
        (zero ++ (count ++ (params ++ zero)))))).isSome = true := by
      refine (frameMessage_bind _).mpr ?_
      simp only [length_append, cstring, hzeroSize, (readInt_of_writeInt hc).1,
        encodeParams_length hparams, length_singleton]
      omega
    obtain ⟨bytes, hbytes⟩ := isSome_iff_exists.mp hframe
    exact isSome_iff_exists.mpr
      ⟨bytes, encodeBind_eq_some.mpr ⟨zero, hzero, count, hc, params, hparams, zero, hzero, hbytes⟩⟩

abbrev Text := Option JsString

def Text.param : Text → Param
  | none => .null
  | some s => .text s

/-- `encodeBind(values)`, of nulls and texts, with the names that it has by default. -/
def bindTexts (values : List Text) : Option Bytes := encodeBind (values.map Text.param) [] []

/-- The texts that a `Bind` body holds, if its names are empty. -/
def textsOf (body : Bytes) : Option (List Text) :=
  match parseBind body with
  | some ([], [], values) => some (values.map fun v => v.map utf8Decode)
  | _ => none

theorem textsOf_bindTexts {values : List Text} {bytes : Bytes} (h : bindTexts values = some bytes) :
    ∃ body, frameMessage 'B' body = some bytes ∧
      textsOf body = some (values.map fun v => v.map JsString.toWellFormed) := by
  obtain ⟨body, hbody, hparse⟩ := parseBind_encodeBind not_mem_nil not_mem_nil h
  refine ⟨body, hbody, ?_⟩
  have hread : textsOf body =
      some (((values.map Text.param).map Param.bytes).map fun v => v.map utf8Decode) := by
    rw [textsOf, hparse]
    rfl
  rw [hread, List.map_map, List.map_map]
  refine congrArg some (map_congr_left fun v _ => ?_)
  cases v with
  | none => rfl
  | some s => exact congrArg some (utf8Decode_utf8 s)

/-- Framed messages of one byte of type and at most `MAX_MESSAGE_BYTES` of body, cut anywhere, come
out as they were, with nothing left over. The nulls and texts of a `Bind` come out of its bytes as
they went in, each lone surrogate replaced; there are such bytes unless the parameters are more than
an `Int16` counts or the message is longer than an `Int32` says. -/
theorem framing_inverts :
    (∀ ms : List Outgoing, ∃ frames : List Bytes,
      ms.mapM (fun m => frameMessage m.type m.body) = some frames ∧
        ∀ chunks : List Bytes, chunks.flatten = frames.flatten →
          feedAll [] chunks = .ok (ms.map fun m => (m.type, m.body), [])) ∧
    ∀ values : List Text,
      ((bindTexts values).isSome = true ↔
        values.length ≤ 32767 ∧ bindSize (values.map Text.param) [] [] + 4 < 2 ^ 31) ∧
      ∀ bytes, bindTexts values = some bytes →
        ∃ body, frameMessage 'B' body = some bytes ∧
          textsOf body = some (values.map fun v => v.map JsString.toWellFormed) := by
  refine ⟨fun ms => ⟨ms.map Outgoing.bytes, ?_, fun chunks h => ?_⟩, fun values => ⟨?_, ?_⟩⟩
  · induction ms with
    | nil => rfl
    | cons m ms ih =>
      rw [mapM_cons, frameMessage_eq, ih]
      rfl
  · exact feedAll_stream (h.trans flatMap_def.symm)
  · rw [bindTexts, encodeBind_isSome, length_map]
  · exact fun bytes h => textsOf_bindTexts h

def hi : Outgoing := ⟨'Q', by decide, [104, 105], by decide⟩

/-- A message cut in its header, and a `Bind` of a text and a null. -/
theorem framing_inverts_hi :
    feedAll [] [hi.bytes.take 3, hi.bytes.drop 3] = .ok ([('Q', [104, 105])], []) ∧
      ∃ bytes body, bindTexts [some [.scalar 'a'], none] = some bytes ∧
        frameMessage 'B' body = some bytes ∧ textsOf body = some [some [.scalar 'a'], none] := by
  obtain ⟨frames, hframes, hcut⟩ := framing_inverts.1 [hi]
  obtain ⟨hsome, hback⟩ := framing_inverts.2 [some [.scalar 'a'], none]
  constructor
  · have hsingle : frames = [hi.bytes] := by
      rw [mapM_cons, frameMessage_eq] at hframes
      exact (Option.some.inj hframes).symm
    refine hcut _ ?_
    rw [hsingle, flatten_cons, flatten_singleton, flatten_singleton,
      take_append_drop]
  · obtain ⟨bytes, hbytes⟩ := isSome_iff_exists.mp (hsome.mpr (by decide))
    obtain ⟨body, hbody, htexts⟩ := hback bytes hbytes
    exact ⟨bytes, body, hbytes, hbody, htexts⟩

/-- 32768 nulls cannot be sent, and half of a pair comes out as U+FFFD. -/
theorem bind_not_exact :
    bindTexts (List.replicate 32768 none) = none ∧
      ¬∃ bytes body, bindTexts [some [.lone 0]] = some bytes ∧ frameMessage 'B' body = some bytes ∧
        textsOf body = some [some [.lone 0]] := by
  constructor
  · refine not_isSome_iff_eq_none.mp fun h => ?_
    have hcount := (encodeBind_isSome.mp h).1
    rw [length_map, length_replicate] at hcount
    omega
  · rintro ⟨bytes, body, h, hbody, htexts⟩
    obtain ⟨body', hbody', htexts'⟩ := textsOf_bindTexts h
    have hsame : body = body' := (frameMessage_body hbody).symm.trans (frameMessage_body hbody')
    rw [hsame, htexts'] at htexts
    simp [JsString.toWellFormed, CodePoint.wellFormed] at htexts

end Turma.PgWire
