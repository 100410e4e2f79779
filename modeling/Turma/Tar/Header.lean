import Turma.Lib.Ustar
import Turma.Lib.Utf8

/-! The writer of a ustar archive: a header for each file, its bytes up to the recorded size, and
NULs up to the next block. -/

namespace Turma.Tar

open Turma.Lib List Option

def block : ℕ := 512

def nameMax : ℕ := 100

def prefixMax : ℕ := 155

/-- The `{prefix, name}` of a member name. -/
structure Split where
  lead : JsString
  name : JsString
deriving DecidableEq

/-- `s.slice(0, i)` and `s.slice(i + 1)`, where there is a `/` at `i` and they fit. -/
def splitAt (s : JsString) (i : ℕ) : Option Split :=
  if s[i]? ≠ some (.scalar '/') then none
  else
    let lead : JsString := s.take i
    let rest : JsString := s.drop (i + 1)
    if rest = [] then none
    else if lead.utf8.length ≤ prefixMax ∧ rest.utf8.length ≤ nameMax then some ⟨lead, rest⟩
    else none

def splitUstarName (s : JsString) : Option Split :=
  if s = [] ∨ s.utf8.length = 0 then none
  else if s.utf8.length ≤ nameMax then some ⟨[], s⟩
  else (List.range s.length).reverse.findSome? (splitAt s)

/-- `n.toString(8)` -/
def octalText (n : ℤ) : List Char :=
  (if n < 0 then ['-'] else []) ++ Nat.toDigits 8 n.natAbs

/-- What `buf.write` writes of characters that are in ASCII. -/
def ascii (t : List Char) : Bytes := t.map fun c => UInt8.ofNat c.toNat

def octal (n : ℤ) (width : ℕ) : Bytes := ascii ((octalText n).leftpad (width - 1) '0' ++ ['\x00'])

/-- The calls of `buf.write`, up to the checksum; `mtimeSec` is floored already. -/
def writes (split : Split) (size : ℕ) (mtimeSec : ℤ) : List (ℕ × Bytes) :=
  [(0, split.name.utf8.take nameMax),
    (100, (octal 0o644 8).take 8),
    (108, (octal 0 8).take 8),
    (116, (octal 0 8).take 8),
    (124, (octal size 12).take 12),
    (136, (octal mtimeSec 12).take 12),
    (148, List.replicate 8 32),
    (156, ascii ['0']),
    (257, ascii ['u', 's', 't', 'a', 'r', '\x00']),
    (263, ascii ['0', '0'])] ++
  if split.lead = [] then [] else [(345, split.lead.utf8.take prefixMax)]

def unsummed (split : Split) (size : ℕ) (mtimeSec : ℤ) : Bytes :=
  putAll (List.replicate block 0) (writes split size mtimeSec)

/-- `header`; `none` where it throws. -/
def header (name : JsString) (size : ℕ) (mtimeSec : ℤ) : Option Bytes :=
  (splitUstarName name).map fun split =>
    let buf := unsummed split size mtimeSec
    let sum := (buf.map UInt8.toNat).sum
    put buf 148 ((octal sum 7 ++ ascii [' ']).take 8)

def padding (size : ℕ) : Bytes :=
  let rem := size % block
  if rem = 0 then [] else List.replicate (block - rem) 0

structure File where
  name : JsString
  chunks : List Bytes
  size : ℕ

/-- The loop over the chunks: what is yielded, and `written`. -/
def copy (size written : ℕ) : List Bytes → List Bytes × ℕ
  | [] => ([], written)
  | chunk :: chunks =>
    if size ≤ written then ([], written)
    else
      let out := if size - written < chunk.length then chunk.take (size - written) else chunk
      let rest := copy size (written + out.length) chunks
      (out :: rest.1, rest.2)

/-- What follows the header of a file, and whether it is short. -/
def data (f : File) : List Bytes × Bool :=
  let copied := copy f.size 0 f.chunks
  let pad := padding f.size
  (copied.1 ++ (if copied.2 < f.size then [List.replicate (f.size - copied.2) 0] else []) ++
    (if pad = [] then [] else [pad]), copied.2 < f.size)

/-- `body`: the stream, and `short`. -/
def body (mtime : ℤ) : List File → Option (List Bytes × List JsString)
  | [] => some ([List.replicate (block * 2) 0], [])
  | f :: fs =>
    (header f.name f.size mtime).bind fun head =>
      (body mtime fs).map fun rest =>
        (head :: (data f).1 ++ rest.1, (if (data f).2 = true then [f.name] else []) ++ rest.2)

structure Packed where
  stream : List Bytes
  skipped : List JsString
  short : List JsString

def packable (f : File) : Bool := (splitUstarName f.name).isSome

def packGzipTar (mtime : ℤ) (files : List File) : Option Packed :=
  (body mtime (files.filter packable)).map fun out =>
    { stream := out.1
      skipped := (files.filter fun f => !packable f).map File.name
      short := out.2 }

end Turma.Tar

/-! A header reads back: the name from its two fields, the size, and a checksum that holds. -/

namespace Turma.Tar

open Turma.Lib Turma.Lib.Ustar List Option

theorem octalDigit_digitChar : ∀ d, d < 8 → octalDigit d.digitChar = true := by decide

theorem octalDigit_toDigits (n : ℕ) : ∀ c ∈ Nat.toDigits 8 n, octalDigit c = true := by
  induction n using Nat.strong_induction_on with
  | _ n ih =>
    rcases Nat.lt_or_ge n 8 with hlt | hge
    · rw [Nat.toDigits_of_lt_base hlt]
      intro c hc
      rw [mem_singleton.mp hc]
      exact octalDigit_digitChar n hlt
    · rw [Nat.toDigits_of_base_le (by omega) hge]
      intro c hc
      rcases mem_append.mp hc with hc | hc
      · exact ih (n / 8) (by omega) c hc
      · rw [mem_singleton.mp hc]
        exact octalDigit_digitChar _ (Nat.mod_lt n (by omega))

/-- An octal digit is one byte, which is no NUL. -/
theorem byte_octalDigit {c : Char} (h : octalDigit c = true) :
    UInt8.ofNat c.toNat ≠ 0 ∧ Char.ofNat (UInt8.ofNat c.toNat).toNat = c := by
  rw [octalDigit, Bool.and_eq_true, decide_eq_true_eq, decide_eq_true_eq] at h
  have hlow : 48 ≤ c.toNat := h.1
  have hhigh : c.toNat ≤ 55 := h.2
  have hbyte : (UInt8.ofNat c.toNat).toNat = c.toNat := by
    rw [UInt8.toNat_ofNat']
    omega
  refine ⟨fun hzero => ?_, ?_⟩
  · rw [hzero] at hbyte
    have hno : c.toNat = 0 := hbyte.symm
    omega
  · rw [hbyte, Char.ofNat_toNat]

theorem cString_of {b rest : Bytes} (hb : 0 ∉ b) (hrest : ∀ x ∈ rest.head?, x = 0) :
    cString (b ++ rest) = b := by
  have hall : ∀ x ∈ b, decide (x ≠ 0) = true := fun x hx => by
    rw [decide_eq_true_eq]
    rintro rfl
    exact hb hx
  rw [cString, takeWhile_append_of_pos hall]
  cases rest with
  | nil => exact append_nil b
  | cons x rest =>
    rw [hrest x rfl, takeWhile_cons_of_neg (by simp), append_nil]

theorem readOctal_octal {n width : ℕ} (hwidth : 1 < width) (rest : Bytes) :
    readOctal (octal n width ++ rest) = some n := by
  have htext : octalText n = Nat.toDigits 8 n := by
    rw [octalText, if_neg (by omega), nil_append, Int.natAbs_natCast]
  have hall : ∀ c ∈ (octalText n).leftpad (width - 1) '0', octalDigit c = true := by
    rw [htext, List.leftpad]
    intro c hc
    rcases mem_append.mp hc with hc | hc
    · rw [(mem_replicate.mp hc).2]
      decide
    · exact octalDigit_toDigits n c hc
  generalize hdigits : (octalText n).leftpad (width - 1) '0' = digits at hall
  have hbytes : octal n width ++ rest = Tar.ascii digits ++ (0 :: rest) := by
    rw [octal, hdigits, Tar.ascii, map_append, Tar.ascii, append_assoc]
    rfl
  have hcut : cString (octal n width ++ rest) = Tar.ascii digits := by
    rw [hbytes]
    refine cString_of (fun hzero => ?_) fun x hx => (Option.some.inj hx).symm
    obtain ⟨c, hc, hbyte⟩ := List.mem_map.mp hzero
    exact (byte_octalDigit (hall c hc)).1 hbyte
  have hback : (Tar.ascii digits).map (fun x => Char.ofNat x.toNat) = digits := by
    rw [Tar.ascii, List.map_map]
    exact (map_congr_left fun c hc => (byte_octalDigit (hall c hc)).2).trans (List.map_id' _)
  have hne : digits ≠ [] := by
    rw [← hdigits]
    intro hnil
    have hlen := congrArg List.length hnil
    rw [length_leftpad, length_nil] at hlen
    omega
  rw [readOctal, hcut, hback, if_pos ⟨hne, List.all_eq_true.mpr hall⟩, ← hdigits, htext, List.leftpad,
    Nat.ofDigitChars_append, Nat.ofDigitChars_replicate_zero, Nat.mul_zero,
    Nat.ofDigitChars_toDigits (by omega) (by omega)]

theorem length_octal {n width : ℕ} (hwidth : 1 < width) (h : n < 8 ^ (width - 1)) :
    (octal n width).length = width := by
  have hdigits : (Nat.toDigits 8 n).length ≤ width - 1 :=
    (Nat.length_toDigits_le_iff (by omega) (by omega)).mpr h
  rw [octal, Tar.ascii, length_map, length_append, length_leftpad, octalText,
    if_neg (by omega), nil_append, Int.natAbs_natCast, length_singleton]
  omega

/-- A member name that every reader takes as it is: Unicode without a NUL, and relative. -/
structure Formed (name : JsString) : Prop where
  unicode : name.toWellFormed = name
  noNul : .scalar '\x00' ∉ name
  relative : name.head? ≠ some (.scalar '/')

variable {s : JsString}

theorem utf8_noNul (h : .scalar '\x00' ∉ s) : 0 ∉ s.utf8 := by
  intro hzero
  rw [JsString.utf8, mem_flatMap] at hzero
  obtain ⟨c, hc, hzero⟩ := hzero
  have hchar : ∀ d : Char, 0 ∈ String.utf8EncodeChar d → d = '\x00' := by
    intro d hd
    rcases utf8EncodeChar_cases d with ⟨hlt, hbytes⟩ | hbig
    · rw [hbytes, mem_singleton] at hd
      have hnat := congrArg UInt8.toNat hd
      rw [UInt8.toNat_ofNat'] at hnat
      have hd0 : d.toNat = 0 := by
        change 0 = _ at hnat
        omega
      exact Char.toNat_inj.mp hd0
    · exact absurd (hbig 0 hd) (by decide)
  cases c with
  | scalar d =>
    rw [hchar d hzero] at hc
    exact h hc
  | lone u => exact absurd (hchar replacement hzero) (by decide)

theorem splitAt_spec {i : ℕ} {split : Split} (h : splitAt s i = some split) :
    s = split.lead ++ .scalar '/' :: split.name ∧ split.name ≠ [] ∧
      split.lead.utf8.length ≤ 155 ∧ split.name.utf8.length ≤ 100 := by
  unfold splitAt at h
  dsimp only at h
  split_ifs at h with hslash hrest hfits
  cases h
  rw [not_not] at hslash
  obtain ⟨hi, hat⟩ := List.getElem?_eq_some_iff.mp hslash
  refine ⟨?_, hrest, hfits.1, hfits.2⟩
  rw [← hat, getElem_cons_drop, take_append_drop]

/-- The two parts of a name that can be packed. -/
theorem splitUstarName_spec {split : Split} (hs : Formed s)
    (h : splitUstarName s = some split) :
    split.name ≠ [] ∧ split.lead.utf8.length ≤ 155 ∧ split.name.utf8.length ≤ 100 ∧
      s = if split.lead = [] then split.name else split.lead ++ .scalar '/' :: split.name := by
  rw [splitUstarName] at h
  split_ifs at h with hempty hshort
  · cases h
    rw [not_or] at hempty
    exact ⟨hempty.1, Nat.zero_le _, hshort, rfl⟩
  · obtain ⟨i, -, hi⟩ := exists_of_findSome?_eq_some h
    obtain ⟨hsplit, hname, hlead, hrest⟩ := splitAt_spec hi
    refine ⟨hname, hlead, hrest, ?_⟩
    rw [if_neg]
    · exact hsplit
    · intro hnil
      rw [hnil] at hsplit
      exact hs.relative (by rw [hsplit]; rfl)

theorem utf8_eq_nil (h : s.utf8.length = 0) : s = [] := by
  cases s with
  | nil => rfl
  | cons c s =>
    rw [JsString.utf8, flatMap_cons, length_append] at h
    have hpos : ∀ d : Char, 0 < (String.utf8EncodeChar d).length := fun d => by
      rw [String.length_utf8EncodeChar]
      exact d.utf8Size_pos
    cases c with
    | scalar d => exact absurd (Nat.eq_zero_of_add_eq_zero_right h) (hpos d).ne'
    | lone u => exact absurd (Nat.eq_zero_of_add_eq_zero_right h) (hpos replacement).ne'

/-- The names that are skipped are those that the format has no place for. -/
theorem splitUstarName_eq_none : splitUstarName s = none ↔
    s = [] ∨ 100 < s.utf8.length ∧ ∀ lead name : JsString, s = lead ++ .scalar '/' :: name →
      name ≠ [] → lead.utf8.length ≤ 155 → 100 < name.utf8.length := by
  rw [splitUstarName]
  split_ifs with hempty hshort
  · have hnil : s = [] := hempty.elim id utf8_eq_nil
    exact ⟨fun _ => .inl hnil, fun _ => rfl⟩
  · rw [not_or] at hempty
    refine ⟨(nomatch ·), fun h => ?_⟩
    rcases h with hnil | ⟨hlong, -⟩
    · exact absurd hnil hempty.1
    · exact absurd hshort (Nat.not_le.mpr hlong)
  · rw [not_or] at hempty
    rw [findSome?_eq_none_iff]
    constructor
    · refine fun hnone => .inr ⟨Nat.not_le.mp hshort, fun lead name hs hname hlead => ?_⟩
      have hi := hnone lead.length (by simp [hs])
      unfold splitAt at hi
      rw [if_neg (by rw [hs]; simp)] at hi
      have htake : s.take lead.length = lead := by rw [hs, take_left]
      have hdrop : s.drop (lead.length + 1) = name := by
        rw [hs, ← drop_drop, drop_left]
        rfl
      rw [htake, hdrop, if_neg hname] at hi
      split_ifs at hi with hfits
      by_contra hle
      exact hfits ⟨hlead, Nat.not_lt.mp hle⟩
    · rintro (hnil | ⟨-, hno⟩) i -
      · exact absurd hnil hempty.1
      · by_contra hsome
        obtain ⟨split, hsplit⟩ := ne_none_iff_exists'.mp hsome
        obtain ⟨hs, hname, hlead, hfits⟩ := splitAt_spec hsplit
        exact absurd hfits (Nat.not_le.mpr (hno _ _ hs hname hlead))

def slots : List (ℕ × ℕ) :=
  [(0, 100), (100, 8), (108, 8), (116, 8), (124, 12), (136, 12), (148, 8), (156, 1), (257, 6),
    (263, 2), (345, 155)]

theorem unsummed_eq (split : Split) (size : ℕ) (mtimeSec : ℤ) :
    unsummed split size mtimeSec = putAll (List.replicate 512 0)
      ((writes ⟨[], split.name⟩ size mtimeSec) ++ [(345, split.lead.utf8.take 155)]) := by
  rw [unsummed, writes, writes, if_pos rfl, append_nil]
  split_ifs with hlead
  · rw [hlead, append_nil, putAll_append]
    exact (put_nil _ _).symm
  · rfl

theorem writes_slots (split : Split) (size : ℕ) (mtimeSec : ℤ) :
    List.Forall₂ (fun w s => w.1 = s.1 ∧ w.2.length ≤ s.2)
      ((writes ⟨[], split.name⟩ size mtimeSec) ++ [(345, split.lead.utf8.take 155)]) slots := by
  have htake : ∀ (b : Bytes) n, (b.take n).length ≤ n := fun b n => by
    rw [length_take]
    exact Nat.min_le_left _ _
  rw [writes, if_pos rfl, slots]
  simp only [append_nil, cons_append, nil_append, forall₂_cons, true_and]
  refine ⟨htake _ _, htake _ _, htake _ _, htake _ _, htake _ _, htake _ _, ?_, ?_, ?_, ?_,
    htake _ _, .nil⟩
  all_goals decide

theorem slots_room : ∀ s ∈ slots, s.1 + s.2 ≤ 512 := by decide

theorem slots_apart : slots.Pairwise fun s t => s.1 + s.2 ≤ t.1 := by decide

/-- What a field of the header holds. -/
theorem field_unsummed {split : Split} {size : ℕ} {mtimeSec : ℤ} {off len : ℕ} {src : Bytes}
    (h : ((off, src), (off, len)) ∈ ((writes ⟨[], split.name⟩ size mtimeSec) ++
      [(345, split.lead.utf8.take 155)]).zip slots) :
    field (unsummed split size mtimeSec) off len =
      src ++ List.replicate (len - src.length) 0 := by
  have hslot := slots_room _ (of_mem_zip h).2
  have hzero : field (List.replicate 512 (0 : UInt8)) (off + src.length) (len - src.length) =
      List.replicate (len - src.length) 0 := by
    by_cases hlen : src.length ≤ len
    · refine field_replicate 0 ?_
      omega
    · rw [show len - src.length = 0 by omega, field, take_zero, replicate_zero]
  rw [unsummed_eq, ← hzero]
  generalize hbuf : List.replicate 512 (0 : UInt8) = buf
  have hin : ∀ s ∈ slots, s.1 + s.2 ≤ buf.length := by
    rw [← hbuf, length_replicate]
    exact slots_room
  exact field_putAll (writes_slots split size mtimeSec) slots_apart hin _ h

theorem length_unsummed (split : Split) (size : ℕ) (mtimeSec : ℤ) :
    (unsummed split size mtimeSec).length = 512 := by
  rw [unsummed_eq, length_putAll, length_replicate]
  intro w hw
  obtain ⟨i, hi, rfl⟩ := mem_iff_getElem.mp hw
  have hslots := writes_slots split size mtimeSec
  have hi' : i < slots.length := hslots.length_eq ▸ hi
  obtain ⟨hat, hle⟩ := (forall₂_iff_get.mp hslots).2 i hi hi'
  have hslot := slots_room _ (getElem_mem hi')
  rw [length_replicate]
  simp only [get_eq_getElem] at hat hle
  omega

theorem checksum_le (b : Bytes) : (b.map UInt8.toNat).sum ≤ 255 * b.length := by
  induction b with
  | nil => exact Nat.zero_le _
  | cons x b ih =>
    rw [map_cons, sum_cons, length_cons]
    have hx := x.toNat_lt
    omega

variable {name : JsString}

section

variable {split : Split} {size : ℕ} {mtimeSec : ℤ} {sum : Bytes}

/-- The checksum goes to a field of its own. -/
theorem field_summed (hsum : sum.length = 8) (off len : ℕ) (hapart : off + len ≤ 148 ∨ 156 ≤ off) :
    field (put (unsummed split size mtimeSec) 148 sum) off len =
      field (unsummed split size mtimeSec) off len := by
  have hbuf := length_unsummed split size mtimeSec
  exact field_put_other (by omega) (by omega)

/-- A string that fits is read back from its field. -/
theorem cString_field {off len : ℕ} {src : Bytes} (hnoNul : 0 ∉ src)
    (h : field (unsummed split size mtimeSec) off len =
      src ++ List.replicate (len - src.length) 0) :
    cString (field (unsummed split size mtimeSec) off len) = src := by
  rw [h]
  refine cString_of hnoNul fun x hx => ?_
  exact (mem_replicate.mp (mem_of_mem_head? hx)).2

theorem cString_name (hrest : split.name.utf8.length ≤ 100) (hnoNul : 0 ∉ split.name.utf8) :
    cString (field (unsummed split size mtimeSec) 0 100) = split.name.utf8 := by
  refine cString_field hnoNul (field_unsummed ?_)
  rw [writes, if_pos rfl, nameMax, take_of_length_le hrest]
  exact mem_cons_self

theorem cString_lead (hlead : split.lead.utf8.length ≤ 155) (hnoNul : 0 ∉ split.lead.utf8) :
    cString (field (unsummed split size mtimeSec) 345 155) = split.lead.utf8 := by
  refine cString_field hnoNul (field_unsummed ?_)
  rw [writes, if_pos rfl, take_of_length_le hlead]
  simp [slots]

theorem readPath_summed (hsum : sum.length = 8) (hname : Formed name)
    (hsplit : splitUstarName name = some split) :
    readPath (put (unsummed split size mtimeSec) 148 sum) = name := by
  obtain ⟨-, hlead, hrest, hjoin⟩ := splitUstarName_spec hname hsplit
  have hnoNul : 0 ∉ split.name.utf8 ∧ 0 ∉ split.lead.utf8 := by
    have hall := utf8_noNul hname.noNul
    rw [hjoin] at hall
    split_ifs at hall with hnil
    · exact ⟨hall, by rw [hnil]; exact not_mem_nil⟩
    · rw [utf8_append, utf8_cons, mem_append, mem_append, not_or, not_or] at hall
      exact ⟨hall.2.2, hall.1⟩
  have hdecode : utf8Decode name.utf8 = name := (utf8Decode_utf8 name).trans hname.unicode
  rw [readPath, field_summed hsum 0 100 (by omega), field_summed hsum 345 155 (by omega),
    cString_name hrest hnoNul.1, cString_lead hlead hnoNul.2]
  split_ifs with hbytes
  · have hnil : split.lead = [] := utf8_eq_nil (congrArg List.length hbytes)
    rw [if_pos hnil] at hjoin
    rw [← hjoin, hdecode]
  · have hnil : split.lead ≠ [] := by
      intro hempty
      rw [hempty] at hbytes
      exact hbytes rfl
    rw [if_neg hnil] at hjoin
    have hwhole : split.lead.utf8 ++ Ustar.ascii ['/'] ++ split.name.utf8 = name.utf8 := by
      rw [hjoin, utf8_append, utf8_cons, append_assoc]
      rfl
    rw [hwhole, hdecode]

theorem magic_summed (hsum : sum.length = 8) :
    field (put (unsummed split size mtimeSec) 148 sum) 257 8 =
      Ustar.ascii ['u', 's', 't', 'a', 'r', '\x00', '0', '0'] := by
  have hustar := @field_unsummed split size mtimeSec 257 6
    (Tar.ascii ['u', 's', 't', 'a', 'r', '\x00']) (by rw [writes, if_pos rfl]; simp [slots])
  have hversion := @field_unsummed split size mtimeSec 263 2 (Tar.ascii ['0', '0'])
    (by rw [writes, if_pos rfl]; simp [slots])
  rw [field_summed hsum 257 8 (by omega), show 8 = 6 + 2 from rfl, field_add, hustar, hversion]
  rfl

theorem flag_summed (hsum : sum.length = 8) :
    field (put (unsummed split size mtimeSec) 148 sum) 156 1 = Ustar.ascii ['0'] := by
  have htype := @field_unsummed split size mtimeSec 156 1 (Tar.ascii ['0'])
    (by rw [writes, if_pos rfl]; simp [slots])
  rw [field_summed hsum 156 1 (by omega), htype]
  rfl

theorem size_summed (hsum : sum.length = 8) (hsize : size < 8 ^ 11) :
    readOctal (field (put (unsummed split size mtimeSec) 148 sum) 124 12) = some size := by
  have hfield := @field_unsummed split size mtimeSec 124 12 ((octal size 12).take 12)
    (by rw [writes, if_pos rfl]; simp [slots])
  rw [field_summed hsum 124 12 (by omega), hfield, take_of_length_le
    (Nat.le_of_eq (length_octal (by omega) hsize))]
  exact readOctal_octal (by omega) _

/-- With spaces over the checksum, the block is as it was summed. -/
theorem blank_summed (hsum : sum.length = 8) :
    put (put (unsummed split size mtimeSec) 148 sum) 148 (List.replicate 8 32) =
      unsummed split size mtimeSec := by
  have hbuf := length_unsummed split size mtimeSec
  have hspaces := @field_unsummed split size mtimeSec 148 8 (List.replicate 8 32)
    (by rw [writes, if_pos rfl]; simp [slots])
  have hback := @put_field _ (unsummed split size mtimeSec) 148 8 (by omega)
  rw [hspaces] at hback
  rw [put_put (by omega) (by rw [hsum, length_replicate])]
  exact hback

end

theorem header_eq {split : Split} (h : splitUstarName name = some split)
    (size : ℕ) (mtimeSec : ℤ) : ∃ sum, (octal (checksum (unsummed split size mtimeSec)) 7 ++
      Tar.ascii [' ']) = sum ∧ sum.length = 8 ∧
        header name size mtimeSec = some (put (unsummed split size mtimeSec) 148 sum) := by
  have hsum : checksum (unsummed split size mtimeSec) < 8 ^ (7 - 1) := by
    have hle := checksum_le (unsummed split size mtimeSec)
    rw [length_unsummed] at hle
    rw [checksum]
    omega
  have hlen : (octal (checksum (unsummed split size mtimeSec)) 7 ++ Tar.ascii [' ']).length = 8 := by
    rw [length_append, length_octal (by omega) hsum]
    rfl
  refine ⟨_, rfl, hlen, ?_⟩
  rw [header, h, map_some]
  change some (put _ 148 ((octal (checksum (unsummed split size mtimeSec)) 7 ++ _).take 8)) = _
  rw [take_of_length_le (Nat.le_of_eq hlen)]

/-- The header of a file that is packed. -/
theorem header_reads {size : ℕ} (mtimeSec : ℤ) (hname : Formed name)
    (hsize : size < 8 ^ 11) (hpack : (splitUstarName name).isSome = true) :
    ∃ head, header name size mtimeSec = some head ∧ head.length = 512 ∧
      head ≠ List.replicate 512 0 ∧ readHeader head = some (name, size) := by
  obtain ⟨split, hsplit⟩ := isSome_iff_exists.mp hpack
  obtain ⟨sum, hsum, hlen, hhead⟩ := header_eq hsplit size mtimeSec
  have hbuf := length_unsummed split size mtimeSec
  have hpath : readPath (put (unsummed split size mtimeSec) 148 sum) = name :=
    readPath_summed hlen hname hsplit
  have hsumField : readOctal (field (put (unsummed split size mtimeSec) 148 sum) 148 8) =
      some (checksum (unsummed split size mtimeSec)) := by
    rw [field_put_self (by omega) (by omega), ← hsum, append_assoc]
    exact readOctal_octal (by omega) _
  refine ⟨_, hhead, by rw [length_put (by omega), hbuf], fun hzero => ?_, ?_⟩
  · have hmagic : field (put (unsummed split size mtimeSec) 148 sum) 257 8 = _ := magic_summed hlen
    rw [hzero, field_replicate 0 (by omega)] at hmagic
    cases hmagic
  · rw [readHeader, blank_summed hlen, if_pos ⟨magic_summed hlen, flag_summed hlen, hsumField⟩,
      size_summed hlen hsize, hpath]
    rfl

end Turma.Tar
