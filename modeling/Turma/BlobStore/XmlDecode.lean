import Mathlib.Data.List.TakeWhile
import Turma.Lib.JsString
import Turma.Lib.Utf16

/-! Reading a text of an object listing back from the XML that it is written in: numeric references
first, then the named ones, each pass over what the one before it left. -/

namespace Turma.BlobStore

open Turma.Lib Turma.Lib.Units List Option

/-- An ASCII text by its code units. -/
def lit (s : String) : Units := s.toList.map Char.toNat

/-- `\d`. -/
def digit (c : ℕ) : Bool := 48 ≤ c && c ≤ 57

/-- `[0-9a-fA-F]`. -/
def hexDigit (c : ℕ) : Bool := digit c || (65 ≤ c && c ≤ 70) || (97 ≤ c && c ≤ 102)

def digitValue (c : ℕ) : ℕ := if c ≤ 57 then c - 48 else if c ≤ 70 then c - 55 else c - 87

/-- `Number(d)` and `parseInt(h, 16)`. -/
def number (base : ℕ) (ds : Units) : ℕ := ds.foldl (fun n d => base * n + digitValue d) 0

/-- `String.fromCodePoint(n)`, which throws where there is no such code point. -/
def fromCodePoint (n : ℕ) : Option Units :=
  if n < 0x10000 then some [n]
  else if n ≤ 0x10FFFF then some [0xD800 + (n - 0x10000) / 0x400, 0xDC00 + (n - 0x10000) % 0x400]
  else none

def codePoint (raw : Units) (n : ℕ) : Units := (fromCodePoint n).getD raw

/-- The expression of an opening, digits and a semicolon. -/
def numericRef (opening : Units) (isDigit : ℕ → Bool) (base : ℕ) (s : Units) :
    Option (Units × ℕ) :=
  if opening.isPrefixOf s = true then
    let ds := (s.drop opening.length).takeWhile isDigit
    let n := opening.length + ds.length + 1
    if ds ≠ [] ∧ (s.drop (opening.length + ds.length)).head? = some 59 then
      some (codePoint (s.take n) (number base ds), n)
    else none
  else none

/-- `/&#(\d+);/g`. -/
def decimalRef : Units → Option (Units × ℕ) := numericRef (lit "&#") digit 10

/-- `/&#x([0-9a-fA-F]+);/g`. -/
def hexRef : Units → Option (Units × ℕ) := numericRef (lit "&#x") hexDigit 16

/-- The names that follow a `&`, in the order they are replaced, and what they stand for. -/
def entities : List (Units × ℕ) :=
  [(lit "lt;", 60), (lit "gt;", 62), (lit "quot;", 34), (lit "apos;", 39), (lit "amp;", 38)]

def xmlDecode (s : Units) : Units :=
  entities.foldl (fun s e => replaceAll (namedRef 38 [e]) 0 s)
    (replaceAll hexRef 0 (replaceAll decimalRef 0 s))

theorem entities_clear : NamesClear 38 entities := by
  unfold NamesClear
  decide

theorem xmlDecode_eq (s : Units) :
    xmlDecode s =
      replaceAll (namedRef 38 entities) 0 (replaceAll hexRef 0 (replaceAll decimalRef 0 s)) :=
  foldl_replaceAll_namedRef entities_clear (by decide) _

def reference (opening ds : Units) : Units := opening ++ ds ++ [59]

variable {isDigit : ℕ → Bool}

theorem takeWhile_digits (h59 : isDigit 59 = false) {ds : Units}
    (hds : ∀ d ∈ ds, isDigit d = true) (y : Units) : (ds ++ 59 :: y).takeWhile isDigit = ds := by
  rw [takeWhile_append_of_pos hds, takeWhile_cons_of_neg (by simp [h59]), append_nil]

variable {opening ds : Units}

theorem numericRef_reference (base : ℕ)
    (h59 : isDigit 59 = false) (hne : ds ≠ []) (hds : ∀ d ∈ ds, isDigit d = true) (y : Units) :
    numericRef opening isDigit base (reference opening ds ++ y) =
      some (codePoint (reference opening ds) (number base ds), (reference opening ds).length) := by
  have hs : reference opening ds ++ y = opening ++ (ds ++ 59 :: y) := by simp [reference]
  have htake : (reference opening ds ++ y).take (opening.length + ds.length + 1) =
      reference opening ds := by
    rw [take_left' (by simp [reference]; omega)]
  have hlen : (reference opening ds).length = opening.length + ds.length + 1 := by
    simp [reference]
    omega
  rw [numericRef, if_pos (List.isPrefixOf_iff_prefix.mpr (hs ▸ prefix_append _ _))]
  have hdigits : ((reference opening ds ++ y).drop opening.length).takeWhile isDigit = ds := by
    rw [hs, drop_left, takeWhile_digits h59 hds]
  have hend : ((reference opening ds ++ y).drop (opening.length + ds.length)).head? = some 59 := by
    rw [hs, ← append_assoc, drop_left' (length_append), head?_cons]
  simp only [hdigits]
  rw [if_pos ⟨hne, hend⟩, htake, hlen]

theorem numericRef_some {opening s r : Units} {base n : ℕ}
    (h : numericRef opening isDigit base s = some (r, n)) :
    ∃ ds y, s = reference opening ds ++ y ∧ ds ≠ [] ∧ ∀ d ∈ ds, isDigit d = true := by
  rw [numericRef] at h
  split_ifs at h with hopen
  obtain ⟨t, rfl⟩ := List.isPrefixOf_iff_prefix.mp hopen
  simp only [drop_left] at h
  split_ifs at h with hdigits
  obtain ⟨hne, hend⟩ := hdigits
  have hsplit := split_takeWhile isDigit t
  have hrest : (opening ++ t).drop (opening.length + (t.takeWhile isDigit).length) =
      t.drop (t.takeWhile isDigit).length := by
    rw [← drop_drop, drop_left]
  rw [hrest] at hend
  obtain ⟨y, hy⟩ : ∃ y, t.drop (t.takeWhile isDigit).length = 59 :: y := by
    cases hd : t.drop (t.takeWhile isDigit).length with
    | nil => simp [hd] at hend
    | cons c y =>
      rw [hd, head?_cons, some_inj] at hend
      exact ⟨y, by rw [hend]⟩
  refine ⟨t.takeWhile isDigit, y, ?_, hne, fun d hd => mem_takeWhile_imp hd⟩
  rw [reference, append_assoc, append_assoc, singleton_append, ← hy, hsplit]

theorem marked_numericRef {a : ℕ} {opening : Units} (isDigit : ℕ → Bool) (base : ℕ) :
    Marked a (numericRef (a :: opening) isDigit base) := by
  intro c s hc
  rw [numericRef, if_neg]
  intro hopen
  exact hc (cons_prefix_cons.mp (List.isPrefixOf_iff_prefix.mp hopen)).1.symm

theorem lit_decimal : lit "&#" = [38, 35] := by decide

theorem lit_hexadecimal : lit "&#x" = [38, 35, 120] := by decide

theorem lit_hexadecimal_tail : lit "#x" = [35, 120] := by decide

theorem decimalRef_eq : decimalRef = numericRef [38, 35] digit 10 := by rw [decimalRef, lit_decimal]

theorem hexRef_eq : hexRef = numericRef [38, 35, 120] hexDigit 16 := by rw [hexRef, lit_hexadecimal]

theorem marked_decimalRef : Marked 38 decimalRef := decimalRef_eq ▸ marked_numericRef digit 10

theorem marked_hexRef : Marked 38 hexRef := hexRef_eq ▸ marked_numericRef hexDigit 16

inductive Form
  | literal
  | named (name : Units)
  | decimal (ds : Units)
  | hexadecimal (hs : Units)

/-- The forms that XML has of a character. -/
def Form.Writes (c : Char) : Form → Prop
  | literal => c ≠ '<' ∧ c ≠ '&'
  | named name => (name, c.toNat) ∈ entities
  | decimal ds => ds ≠ [] ∧ (∀ d ∈ ds, digit d = true) ∧ number 10 ds = c.toNat
  | hexadecimal hs => hs ≠ [] ∧ (∀ d ∈ hs, hexDigit d = true) ∧ number 16 hs = c.toNat

structure Written where
  char : Char
  form : Form
  writes : form.Writes char

def Form.isDecimal : Form → Bool
  | decimal _ => true
  | _ => false

def Form.isNumeric : Form → Bool
  | decimal _ | hexadecimal _ => true
  | _ => false

theorem Form.isNumeric_of_decimal {f : Form} (h : f.isDecimal = true) : f.isNumeric = true := by
  cases f with
  | decimal ds => rfl
  | literal | named | hexadecimal => exact absurd h Bool.false_ne_true

namespace Written

def units (w : Written) : Units := (CodePoint.scalar w.char).units

def text (w : Written) : Units :=
  match w.form with
  | .literal => w.units
  | .named name => 38 :: name
  | .decimal ds => reference (lit "&#") ds
  | .hexadecimal hs => reference (lit "&#x") hs

/-- The character where its form is among those read, else its text. -/
def partly (read : Form → Bool) (w : Written) : Units :=
  if read w.form = true then w.units else w.text

end Written

def text (ws : List Written) : Units := ws.flatMap Written.text

def written (ws : List Written) : Units := ws.flatMap Written.units

def partly (read : Form → Bool) (ws : List Written) : Units := ws.flatMap (Written.partly read)

/-- What follows, once its decimal references are read, completes a hexadecimal one. -/
def HexFollows (rest : List Written) : Prop :=
  ∃ run post hs, rest = run ++ post ∧
    (∀ v ∈ run, v.form = .literal ∨ v.form.isDecimal = true) ∧
    written run = lit "#x" ++ hs ++ [59] ∧ hs ≠ [] ∧ (∀ d ∈ hs, hexDigit d = true) ∧
    number 16 hs ≤ 0x10FFFF

/-- What follows completes a named reference. -/
def NameFollows (rest : List Written) : Prop := ∃ e ∈ entities, e.1 <+: written rest

/-- Some character `w` is such that `here w`, and `follows` holds of those after it. -/
inductive Somewhere (here : Written → Prop) (follows : List Written → Prop) : List Written → Prop
  | head {w : Written} {rest : List Written} (hw : here w) (hrest : follows rest) :
      Somewhere here follows (w :: rest)
  | later {w : Written} {rest : List Written} (h : Somewhere here follows rest) :
      Somewhere here follows (w :: rest)

/-- A `&` that a decimal reference writes. -/
def Written.decimalMark (w : Written) : Prop := w.form.isDecimal = true ∧ w.char = '&'

/-- A `&` that a numeric reference writes. -/
def Written.numericMark (w : Written) : Prop := w.form.isNumeric = true ∧ w.char = '&'

/-- A `&` that is read from a numeric reference is read again with what follows it: as a named
reference, or from a decimal one as a hexadecimal one. -/
def Misread (ws : List Written) : Prop :=
  Somewhere Written.decimalMark HexFollows ws ∨ Somewhere Written.numericMark NameFollows ws

theorem fromCodePoint_char (c : Char) : fromCodePoint c.toNat = some (CodePoint.scalar c).units := by
  have hmax : c.toNat ≤ 0x10FFFF := by
    have := c.valid
    simp only [UInt32.isValidChar, Nat.isValidChar, Char.toNat] at this ⊢
    omega
  rw [fromCodePoint, CodePoint.units]
  split_ifs <;> rfl

theorem units_of_ascii {c : Char} {u : ℕ} (hu : u < 0x80) (h : u ∈ (CodePoint.scalar c).units) :
    (CodePoint.scalar c).units = [u] ∧ c.toNat = u := by
  rw [CodePoint.units] at h ⊢
  split_ifs at h ⊢ with hc
  · rw [mem_singleton.mp h]
    exact ⟨rfl, rfl⟩
  · simp only [mem_cons, not_mem_nil, or_false] at h
    omega

namespace Written

theorem units_ne_nil (w : Written) : w.units ≠ [] := by
  rw [units, CodePoint.units]
  split_ifs <;> simp

theorem mark_units {w : Written} (h : w.char = '&') : w.units = [38] := by
  rw [units, h]
  decide

theorem units_clear {w : Written} (h : w.char ≠ '&') : 38 ∉ w.units := fun hmem =>
  h (Char.toNat_inj.mp (units_of_ascii (by decide) hmem).2)

theorem literal_clear {w : Written} (h : w.form = .literal) : w.char ≠ '&' := by
  have hw := w.writes
  rw [h] at hw
  exact hw.2

theorem partly_direct {read : Form → Bool} {w : Written}
    (h : w.form = .literal ∨ read w.form = true) : w.partly read = w.units := by
  rw [partly]
  split_ifs with hread
  · rfl
  · rw [text, h.resolve_right hread]

theorem partly_text {read : Form → Bool} {w : Written} (h : read w.form = false) :
    w.partly read = w.text := if_neg (by simp [h])

theorem text_opens {w : Written} (h : w.form ≠ .literal) : ∃ y, w.text = 38 :: y := by
  obtain ⟨c, form, hw⟩ := w
  cases form with
  | literal => exact absurd rfl h
  | named name => exact ⟨name, rfl⟩
  | decimal ds => exact ⟨35 :: (ds ++ [59]), rfl⟩
  | hexadecimal hs => exact ⟨35 :: 120 :: (hs ++ [59]), rfl⟩

end Written

variable {m : Units → Option (Units × ℕ)} (ws : List Written)

section

variable {w : Written} {y : Units}

theorem replaceAll_units (hm : Marked 38 m) (h : w.char ≠ '&')
    (y : Units) : replaceAll m 0 (w.units ++ y) = w.units ++ replaceAll m 0 y :=
  replaceAll_unmarked hm (Written.units_clear h) y

theorem replaceAll_reference {base : ℕ}
    (h59 : isDigit 59 = false) (hne : ds ≠ []) (hds : ∀ d ∈ ds, isDigit d = true) (y : Units) :
    replaceAll (numericRef (38 :: opening) isDigit base) 0 (reference (38 :: opening) ds ++ y) =
      codePoint (reference (38 :: opening) ds) (number base ds) ++
        replaceAll (numericRef (38 :: opening) isDigit base) 0 y :=
  replaceAll_match (x := opening ++ ds ++ [59]) (numericRef_reference base h59 hne hds y)

theorem codePoint_char {c : Char} {n : ℕ} (h : n = c.toNat) (raw : Units) :
    codePoint raw n = (CodePoint.scalar c).units := by
  rw [codePoint, h, fromCodePoint_char, getD_some]

theorem named_no_numericRef {e : Units × ℕ} (he : e ∈ entities) (opening : Units)
    (isDigit : ℕ → Bool) (base : ℕ) (y : Units) :
    numericRef (38 :: 35 :: opening) isDigit base (38 :: e.1 ++ y) = none := by
  have hnames : ∀ e ∈ entities, e.1 ≠ [] ∧ e.1.head? ≠ some 35 := by decide
  obtain ⟨hne, hhead⟩ := hnames e he
  rw [numericRef, if_neg]
  intro hopen
  obtain ⟨d, t, hd⟩ := exists_cons_of_ne_nil hne
  rw [hd, cons_append, cons_append] at hopen
  have hprefix := (cons_prefix_cons.mp (List.isPrefixOf_iff_prefix.mp hopen)).2
  rw [hd, ← (cons_prefix_cons.mp hprefix).1] at hhead
  exact hhead rfl

theorem hexadecimal_no_decimalRef (hs y : Units) :
    decimalRef (reference (lit "&#x") hs ++ y) = none := by
  cases hm : decimalRef (reference (lit "&#x") hs ++ y) with
  | none => rfl
  | some found =>
    obtain ⟨ds, z, heq, hne, hds⟩ := numericRef_some hm
    obtain ⟨d, t, rfl⟩ := exists_cons_of_ne_nil hne
    have hd := hds d mem_cons_self
    simp only [reference, lit_decimal, lit_hexadecimal, cons_append, nil_append, List.cons.injEq,
      true_and] at heq
    rw [← heq.1] at hd
    cases hd

theorem digits_clear (h38 : isDigit 38 = false) {ds : Units}
    (hds : ∀ d ∈ ds, isDigit d = true) : 38 ∉ ds := fun h => by
  rw [hds 38 h] at h38
  cases h38

/-- The text of a named reference is left to the last pass. -/
theorem numericRef_named {name : Units} {out : ℕ} (he : (name, out) ∈ entities) (opening : Units)
    (isDigit : ℕ → Bool) (base : ℕ) (y : Units) :
    replaceAll (numericRef (38 :: 35 :: opening) isDigit base) 0 (38 :: name ++ y) =
      38 :: name ++ replaceAll (numericRef (38 :: 35 :: opening) isDigit base) 0 y :=
  replaceAll_kept (marked_numericRef isDigit base) (entities_clear _ he)
    (named_no_numericRef he opening isDigit base y)

theorem replaceAll_literal (hm : Marked 38 m)
    (h : w.form = .literal) (read : Form → Bool) (y : Units) :
    replaceAll m 0 (w.partly read ++ y) = w.partly read ++ replaceAll m 0 y := by
  rw [Written.partly_direct (Or.inl h)]
  exact replaceAll_units hm (Written.literal_clear h) y

theorem decimalRef_step (w : Written) (y : Units) :
    replaceAll decimalRef 0 (w.text ++ y) =
      w.partly Form.isDecimal ++ replaceAll decimalRef 0 y := by
  have hwrites := w.writes
  cases hform : w.form with
  | literal =>
    have htext : w.partly Form.isDecimal = w.text := Written.partly_text (by rw [hform]; rfl)
    exact htext ▸ replaceAll_literal marked_decimalRef hform Form.isDecimal y
  | named name =>
    rw [hform] at hwrites
    rw [Written.partly_text (by rw [hform]; rfl), Written.text, hform, decimalRef_eq]
    exact numericRef_named hwrites [] digit 10 y
  | decimal ds =>
    rw [hform] at hwrites
    obtain ⟨hne, hds, hcode⟩ := hwrites
    rw [Written.partly_direct (Or.inr (by rw [hform]; rfl)), Written.text, hform]
    simp only [lit_decimal, decimalRef_eq]
    rw [replaceAll_reference (by decide) hne hds y, codePoint_char hcode, Written.units]
  | hexadecimal hs =>
    rw [hform] at hwrites
    have hhs : 38 ∉ hs := digits_clear (by decide) hwrites.2.1
    have hnone := hexadecimal_no_decimalRef hs y
    rw [Written.partly_text (by rw [hform]; rfl), Written.text, hform]
    exact replaceAll_kept marked_decimalRef (x := 35 :: 120 :: (hs ++ [59])) (by simp [hhs]) hnone

/-- The first pass reads the decimal references. -/
theorem decimalRef_text :
    replaceAll decimalRef 0 (text ws) = partly Form.isDecimal ws := by
  induction ws with
  | nil => rfl
  | cons w ws ih =>
    rw [text, flatMap_cons, decimalRef_step]
    exact congrArg _ ih

theorem partly_append (read : Form → Bool) (run post : List Written) :
    partly read (run ++ post) = partly read run ++ partly read post := flatMap_append

theorem written_append (run post : List Written) :
    written (run ++ post) = written run ++ written post := flatMap_append

theorem partly_run {read : Form → Bool} {run : List Written}
    (h : ∀ v ∈ run, v.form = .literal ∨ read v.form = true) : partly read run = written run := by
  induction run with
  | nil => rfl
  | cons v run ih =>
    rw [partly, written, flatMap_cons, flatMap_cons,
      Written.partly_direct (h v mem_cons_self)]
    exact congrArg _ (ih fun u hu => h u (mem_cons_of_mem v hu))

/-- ASCII without a `&` is spelt by characters that are read. -/
theorem run_of_prefix {read : Form → Bool} {x : Units} (hx : ∀ u ∈ x, u < 0x80 ∧ u ≠ 38)
    {ws : List Written} (h : x <+: partly read ws) :
    ∃ run post, ws = run ++ post ∧ (∀ v ∈ run, v.form = .literal ∨ read v.form = true) ∧
      written run = x := by
  induction x generalizing ws with
  | nil => exact ⟨[], ws, rfl, fun _ hv => absurd hv not_mem_nil, rfl⟩
  | cons u x ih =>
    cases ws with
    | nil => exact absurd h (by simp [partly])
    | cons v ws =>
      obtain ⟨hu, hmark⟩ := hx u mem_cons_self
      rw [partly, flatMap_cons] at h
      by_cases hv : v.form = .literal ∨ read v.form = true
      · rw [Written.partly_direct hv] at h
        obtain ⟨d, t, hunits⟩ := exists_cons_of_ne_nil v.units_ne_nil
        rw [hunits, cons_append] at h
        obtain ⟨rfl, htail⟩ := cons_prefix_cons.mp h
        have hone : v.units = [u] :=
          (units_of_ascii hu (by rw [← Written.units, hunits]; exact mem_cons_self)).1
        obtain rfl : t = [] := by
          rw [hunits] at hone
          exact (List.cons.inj hone).2
        obtain ⟨run, post, rfl, hrun, rfl⟩ :=
          ih (fun u hu => hx u (.tail _ hu)) htail
        refine ⟨v :: run, post, rfl, fun w hw => ?_, ?_⟩
        · rcases mem_cons.mp hw with rfl | hw
          · exact hv
          · exact hrun w hw
        · rw [written, flatMap_cons, hone]
          rfl
      · obtain ⟨hliteral, hread⟩ := not_or.mp hv
        obtain ⟨y, hy⟩ := Written.text_opens hliteral
        rw [Written.partly_text (by simpa using hread), hy, cons_append] at h
        exact absurd (cons_prefix_cons.mp h).1 hmark

end

variable {rest : List Written} {follows : List Written → Prop} {here : Written → Prop}

theorem somewhere_cons {w : Written}
    :
    Somewhere here follows (w :: rest) ↔
      here w ∧ follows rest ∨ Somewhere here follows rest := by
  constructor
  · intro h
    cases h with
    | head hw hrest => exact Or.inl ⟨hw, hrest⟩
    | later h => exact Or.inr h
  · rintro (⟨hw, hrest⟩ | h)
    · exact .head hw hrest
    · exact .later h

theorem hexRef_step {w : Written} (h : ¬ w.decimalMark) (y : Units) :
    replaceAll hexRef 0 (w.partly Form.isDecimal ++ y) =
      w.partly Form.isNumeric ++ replaceAll hexRef 0 y := by
  have hwrites := w.writes
  cases hform : w.form with
  | literal =>
    have hpartly : w.partly Form.isNumeric = w.partly Form.isDecimal := by
      rw [Written.partly_direct (Or.inl hform), Written.partly_direct (Or.inl hform)]
    rw [hpartly]
    exact replaceAll_literal marked_hexRef hform Form.isDecimal y
  | named name =>
    rw [hform] at hwrites
    rw [Written.partly_text (by rw [hform]; rfl), Written.partly_text (by rw [hform]; rfl),
      Written.text, hform, hexRef_eq]
    exact numericRef_named hwrites [120] hexDigit 16 y
  | decimal ds =>
    have hdecimal : w.form.isDecimal = true := by rw [hform]; rfl
    have hnumeric : w.form.isNumeric = true := by rw [hform]; rfl
    rw [Written.partly_direct (Or.inr hdecimal), Written.partly_direct (Or.inr hnumeric)]
    exact replaceAll_units marked_hexRef (fun hchar => h ⟨hdecimal, hchar⟩) y
  | hexadecimal hs =>
    rw [hform] at hwrites
    obtain ⟨hne, hhs, hcode⟩ := hwrites
    rw [Written.partly_text (by rw [hform]; rfl), Written.partly_direct (Or.inr (by rw [hform]; rfl)),
      Written.text, hform]
    simp only [lit_hexadecimal, hexRef_eq]
    rw [replaceAll_reference (by decide) hne hhs y, codePoint_char hcode, Written.units]

theorem reference_hexadecimal (hs : Units) :
    reference (lit "&#x") hs = 38 :: (lit "#x" ++ hs ++ [59]) := by
  rw [reference, lit_hexadecimal, lit_hexadecimal_tail]
  rfl

/-- What completes a reference is a stretch of the text, read to its semicolon. -/
theorem run_of_hexRef {found : Units × ℕ}
    (h : hexRef (38 :: partly Form.isDecimal rest) = some found) :
    ∃ run post hs, rest = run ++ post ∧
      (∀ v ∈ run, v.form = .literal ∨ v.form.isDecimal = true) ∧
      written run = lit "#x" ++ hs ++ [59] ∧ hs ≠ [] ∧ ∀ d ∈ hs, hexDigit d = true := by
  obtain ⟨hs, y, heq, hne, hhs⟩ := numericRef_some (r := found.1) (n := found.2) h
  have hopening : ∀ u ∈ lit "#x", u < 0x80 ∧ u ≠ 38 := by decide
  have hascii : ∀ u ∈ lit "#x" ++ hs ++ [59], u < 0x80 ∧ u ≠ 38 := by
    intro u hu
    rcases mem_append.mp hu with hu | hu
    · rcases mem_append.mp hu with hu | hu
      · exact hopening u hu
      · have hdigit := hhs u hu
        simp only [hexDigit, digit, Bool.or_eq_true, Bool.and_eq_true, decide_eq_true_eq] at hdigit
        omega
    · rw [mem_singleton.mp hu]
      decide
  have hprefix : lit "#x" ++ hs ++ [59] <+: partly Form.isDecimal rest := by
    rw [reference_hexadecimal] at heq
    exact ⟨y, (List.cons.inj heq).2.symm⟩
  obtain ⟨run, post, hrest, hrun, hwritten⟩ := run_of_prefix hascii hprefix
  exact ⟨run, post, hs, hrest, hrun, hwritten, hne, hhs⟩

theorem hexRef_of_run {run post : List Written} {hs : Units}
    (hrun : ∀ v ∈ run, v.form = .literal ∨ v.form.isDecimal = true)
    (hwritten : written run = lit "#x" ++ hs ++ [59]) (hne : hs ≠ [])
    (hhs : ∀ d ∈ hs, hexDigit d = true) :
    replaceAll hexRef 0 (38 :: partly Form.isDecimal (run ++ post)) =
      codePoint (38 :: written run) (number 16 hs) ++
        replaceAll hexRef 0 (partly Form.isDecimal post) := by
  rw [partly_append, partly_run hrun, ← cons_append, hwritten, ← reference_hexadecimal,
    lit_hexadecimal, hexRef_eq]
  exact replaceAll_reference (by decide) hne hhs _

theorem hexRef_kept (h : ¬ HexFollows rest) :
    replaceAll hexRef 0 (38 :: partly Form.isDecimal rest) =
      38 :: replaceAll hexRef 0 (partly Form.isDecimal rest) := by
  cases hm : hexRef (38 :: partly Form.isDecimal rest) with
  | none => exact replaceAll_miss hm
  | some found =>
    obtain ⟨run, post, hs, rfl, hrun, hwritten, hne, hhs⟩ := run_of_hexRef hm
    -- a reference to no code point stays as it is
    have hcode : ¬ number 16 hs ≤ 0x10FFFF := fun hcode =>
      h ⟨run, post, hs, rfl, hrun, hwritten, hne, hhs, hcode⟩
    have hraw : codePoint (38 :: written run) (number 16 hs) = 38 :: written run := by
      rw [codePoint, fromCodePoint, if_neg (by omega), if_neg hcode, getD_none]
    have hclear : 38 ∉ written run := by
      have hhs38 : 38 ∉ hs := digits_clear (by decide) hhs
      rw [hwritten, lit_hexadecimal_tail]
      simp [hhs38]
    rw [hexRef_of_run hrun hwritten hne hhs, hraw, partly_append, partly_run hrun,
      replaceAll_unmarked marked_hexRef hclear]
    rfl

/-- The second pass reads the hexadecimal references, where it reads nothing again. -/
theorem hexRef_partly {ws : List Written} (h : ¬ Somewhere Written.decimalMark HexFollows ws) :
    replaceAll hexRef 0 (partly Form.isDecimal ws) = partly Form.isNumeric ws := by
  induction ws with
  | nil => rfl
  | cons w ws ih =>
    obtain ⟨hhead, htail⟩ := not_or.mp fun hs => h (somewhere_cons.mpr hs)
    have hrest := ih htail
    rw [partly, partly, flatMap_cons, flatMap_cons]
    by_cases hmark : w.decimalMark
    · have hnumeric := Form.isNumeric_of_decimal hmark.1
      rw [Written.partly_direct (Or.inr hmark.1), Written.partly_direct (Or.inr hnumeric),
        Written.mark_units hmark.2]
      exact (hexRef_kept fun hfollows => hhead ⟨hmark, hfollows⟩).trans (congrArg _ hrest)
    · rw [hexRef_step hmark]
      exact congrArg _ hrest

/-- The names are ASCII letters and a semicolon, none of which is written by a name. -/
theorem entities_ascii : ∀ e ∈ entities, ∀ u ∈ e.1, u < 0x80 ∧ u ≠ 38 ∧ ∀ f ∈ entities, f.2 ≠ u := by
  decide

theorem entities_eq :
    entities = [([108, 116, 59], 60), ([103, 116, 59], 62), ([113, 117, 111, 116, 59], 34),
      ([97, 112, 111, 115, 59], 39), ([97, 109, 112, 59], 38)] := by decide

theorem namedRef_entity {e : Units × ℕ} (he : e ∈ entities) (y : Units) :
    namedRef 38 entities (38 :: (e.1 ++ y)) = some ([e.2], e.1.length + 1) := by
  rw [entities_eq] at he ⊢
  simp only [mem_cons, not_mem_nil, or_false] at he
  rcases he with rfl | rfl | rfl | rfl | rfl <;> rfl

theorem named_units {w : Written} {name : Units} (h : w.form = .named name) :
    w.units = [w.char.toNat] := by
  have hascii : ∀ e ∈ entities, e.2 < 0x10000 := by decide
  have hwrites := w.writes
  rw [h] at hwrites
  rw [Written.units, CodePoint.units, if_pos (hascii _ hwrites)]

theorem namedRef_step {w : Written} (h : ¬ w.numericMark) (y : Units) :
    replaceAll (namedRef 38 entities) 0 (w.partly Form.isNumeric ++ y) =
      w.units ++ replaceAll (namedRef 38 entities) 0 y := by
  by_cases hread : w.form = .literal ∨ w.form.isNumeric = true
  · have hchar : w.char ≠ '&' := fun hchar => by
      rcases hread with hliteral | hnumeric
      · exact Written.literal_clear hliteral hchar
      · exact h ⟨hnumeric, hchar⟩
    rw [Written.partly_direct hread]
    exact replaceAll_units (marked_namedRef 38 entities) hchar y
  · obtain ⟨hliteral, hnumeric⟩ := not_or.mp hread
    have hwrites := w.writes
    cases hform : w.form with
    | named name =>
      rw [hform] at hwrites
      rw [Written.partly_text (by rw [hform]; rfl), Written.text, hform, named_units hform]
      exact replaceAll_named (namedRef_entity hwrites y)
    | literal => exact absurd hform hliteral
    | decimal ds | hexadecimal hs => exact absurd (by rw [hform]; rfl) hnumeric

theorem namedRef_kept (h : ¬ NameFollows rest) :
    replaceAll (namedRef 38 entities) 0 (38 :: partly Form.isNumeric rest) =
      38 :: replaceAll (namedRef 38 entities) 0 (partly Form.isNumeric rest) := by
  refine replaceAll_miss ?_
  rw [namedRef_mark, map_eq_none_iff, find?_eq_none]
  intro e he hprefix
  obtain ⟨run, post, rfl, -, hwritten⟩ :=
    run_of_prefix (fun u hu => ⟨(entities_ascii e he u hu).1, (entities_ascii e he u hu).2.1⟩)
      (List.isPrefixOf_iff_prefix.mp hprefix)
  exact h ⟨e, he, written_append run post ▸ hwritten ▸ prefix_append _ _⟩

/-- The last pass reads the named references, where it reads nothing again. -/
theorem namedRef_partly {ws : List Written} (h : ¬ Somewhere Written.numericMark NameFollows ws) :
    replaceAll (namedRef 38 entities) 0 (partly Form.isNumeric ws) = written ws := by
  induction ws with
  | nil => rfl
  | cons w ws ih =>
    obtain ⟨hhead, htail⟩ := not_or.mp fun hs => h (somewhere_cons.mpr hs)
    have hrest := ih htail
    rw [partly, written, flatMap_cons, flatMap_cons]
    by_cases hmark : w.numericMark
    · rw [Written.partly_direct (Or.inr hmark.1), Written.mark_units hmark.2]
      exact (namedRef_kept fun hfollows => hhead ⟨hmark, hfollows⟩).trans (congrArg _ hrest)
    · rw [namedRef_step hmark]
      exact congrArg _ hrest

/-- A measure that no character adds more to than itself, and that loses some of a stretch behind
each `&` that is read again. -/
theorem measure_lt {f : List Written → ℕ}
    (hnil : f [] = 0)
    (hcons : ∀ w ws, ¬ (here w ∧ follows ws) → f (w :: ws) ≤ w.units.length + f ws)
    (hagain : ∀ w ws, here w → follows ws → ∃ run post, ws = run ++ post ∧
      f (w :: ws) < w.units.length + (written run).length + f post)
    (ws : List Written) :
    f ws ≤ (written ws).length ∧ (Somewhere here follows ws → f ws < (written ws).length) := by
  induction hlen : ws.length using Nat.strong_induction_on generalizing ws with
  | _ n ih =>
    cases ws with
    | nil => exact ⟨hnil.le, fun h => nomatch h⟩
    | cons w ws =>
      rw [length_cons] at hlen
      have hwritten : (written (w :: ws)).length = w.units.length + (written ws).length := by
        rw [written, flatMap_cons, length_append]
        rfl
      by_cases hhead : here w ∧ follows ws
      · obtain ⟨run, post, rfl, hlt⟩ := hagain w ws hhead.1 hhead.2
        rw [length_append] at hlen
        have hpost := (ih post.length (by omega) post rfl).1
        rw [hwritten, written_append, length_append]
        exact ⟨by omega, fun _ => by omega⟩
      · obtain ⟨hle, hlt⟩ := ih ws.length (by omega) ws rfl
        have hstep := hcons w ws hhead
        rw [hwritten]
        refine ⟨by omega, fun h => ?_⟩
        have hrest := hlt ((somewhere_cons.mp h).resolve_left hhead)
        omega

theorem replacedLength_units {a : ℕ} {table : List (Units × ℕ)} {x y z : Units}
    (h : replaceAll (namedRef a table) 0 x = z ++ replaceAll (namedRef a table) 0 y) :
    replacedLength a table x = z.length + replacedLength a table y := by
  rw [replacedLength, h, length_append]
  rfl

theorem namedRef_again (h : NameFollows rest) :
    ∃ run post, rest = run ++ post ∧ 0 < (written run).length ∧
      replacedLength 38 entities (38 :: partly Form.isNumeric rest) =
        1 + replacedLength 38 entities (partly Form.isNumeric post) := by
  obtain ⟨e, he, hprefix⟩ := h
  have hne : ∀ e ∈ entities, e.1 ≠ [] := by decide
  -- with every form read the text is the one written
  have hall : written rest = partly (fun _ => true) rest := (partly_run fun _ _ => Or.inr rfl).symm
  obtain ⟨run, post, rfl, -, hwritten⟩ :=
    run_of_prefix (fun u hu => ⟨(entities_ascii e he u hu).1, (entities_ascii e he u hu).2.1⟩)
      (hall ▸ hprefix)
  have hrun : ∀ v ∈ run, v.form = .literal ∨ v.form.isNumeric = true := by
    intro v hv
    have hwrites := v.writes
    cases hform : v.form with
    | literal => exact Or.inl rfl
    | decimal ds | hexadecimal hs => exact Or.inr rfl
    | named name =>
      rw [hform] at hwrites
      have hmem : v.char.toNat ∈ e.1 := by
        rw [← hwritten]
        exact mem_flatMap.mpr ⟨v, hv, named_units hform ▸ mem_cons_self⟩
      exact absurd rfl ((entities_ascii e he _ hmem).2.2 _ hwrites)
  refine ⟨run, post, rfl, hwritten ▸ length_pos_iff.mpr (hne e he), ?_⟩
  rw [partly_append, partly_run hrun, hwritten]
  exact replacedLength_units (z := [e.2]) (replaceAll_named (namedRef_entity he _))

theorem mark_length {w : Written} (h : w.char = '&') : w.units.length = 1 := by
  rw [Written.mark_units h]
  rfl

theorem replacedLength_named :
    replacedLength 38 entities (partly Form.isNumeric ws) ≤ (written ws).length ∧
      (Somewhere Written.numericMark NameFollows ws →
        replacedLength 38 entities (partly Form.isNumeric ws) < (written ws).length) := by
  refine measure_lt (f := fun ws => replacedLength 38 entities (partly Form.isNumeric ws)) rfl
    (fun w ws hhead => ?_) (fun w ws hw hfollows => ?_) ws
  · rw [partly, flatMap_cons]
    by_cases hmark : w.numericMark
    · rw [Written.partly_direct (Or.inr hmark.1), Written.mark_units hmark.2]
      exact (replacedLength_units (z := [38]) (namedRef_kept fun h => hhead ⟨hmark, h⟩)).le
    · exact (replacedLength_units (namedRef_step hmark _)).le
  · obtain ⟨run, post, rfl, hpos, hlength⟩ := namedRef_again hfollows
    refine ⟨run, post, rfl, ?_⟩
    rw [partly, flatMap_cons, Written.partly_direct (Or.inr hw.1), mark_length hw.2,
      Written.mark_units hw.2]
    exact hlength.trans_lt (by omega)

theorem replacedLength_partly (w : Written) (y : Units) :
    replacedLength 38 entities (w.partly Form.isNumeric ++ y) ≤
      w.units.length + replacedLength 38 entities y := by
  by_cases hmark : w.numericMark
  · rw [Written.partly_direct (Or.inr hmark.1)]
    exact replacedLength_append_le entities_clear w.units y
  · exact (replacedLength_units (namedRef_step hmark y)).le

theorem hexRef_again (h : HexFollows rest) :
    ∃ run post u, rest = run ++ post ∧ u.length < (written run).length ∧
      replaceAll hexRef 0 (38 :: partly Form.isDecimal rest) =
        u ++ replaceAll hexRef 0 (partly Form.isDecimal post) := by
  obtain ⟨run, post, hs, rfl, hrun, hwritten, hne, hhs, hcode⟩ := h
  refine ⟨run, post, _, rfl, ?_, hexRef_of_run hrun hwritten hne hhs⟩
  have hlength : 4 ≤ (written run).length := by
    have hpos := length_pos_iff.mpr hne
    rw [hwritten, lit_hexadecimal_tail]
    simp only [length_append, length_cons, length_nil]
    omega
  rw [codePoint, fromCodePoint]
  split_ifs
  · exact (show 1 ≤ 3 by decide).trans_lt hlength
  · exact (show 2 ≤ 3 by decide).trans_lt hlength

theorem replacedLength_hex :
    replacedLength 38 entities (replaceAll hexRef 0 (partly Form.isDecimal ws)) ≤
        (written ws).length ∧
      (Somewhere Written.decimalMark HexFollows ws →
        replacedLength 38 entities (replaceAll hexRef 0 (partly Form.isDecimal ws)) <
          (written ws).length) := by
  refine measure_lt
    (f := fun ws => replacedLength 38 entities (replaceAll hexRef 0 (partly Form.isDecimal ws))) rfl
    (fun w ws hhead => ?_) (fun w ws hw hfollows => ?_) ws
  · rw [partly, flatMap_cons]
    by_cases hmark : w.decimalMark
    · have hkept := hexRef_kept fun h => hhead ⟨hmark, h⟩
      rw [Written.partly_direct (Or.inr hmark.1), Written.mark_units hmark.2]
      refine (congrArg (replacedLength 38 entities) hkept).trans_le ?_
      exact replacedLength_cons_le entities_clear 38 _
    · rw [hexRef_step hmark]
      exact replacedLength_partly w _
  · obtain ⟨run, post, u, rfl, hu, hagain⟩ := hexRef_again hfollows
    refine ⟨run, post, rfl, ?_⟩
    rw [partly, flatMap_cons, Written.partly_direct (Or.inr hw.1), mark_length hw.2,
      Written.mark_units hw.2]
    refine (congrArg (replacedLength 38 entities) hagain).trans_lt ?_
    have happend := replacedLength_append_le entities_clear u
      (replaceAll hexRef 0 (partly Form.isDecimal post))
    omega

/-- A text is read back exactly where no `&` of it is read again. -/
theorem xmlDecode_text : xmlDecode (text ws) = written ws ↔ ¬ Misread ws := by
  rw [xmlDecode_eq, decimalRef_text]
  constructor
  · rintro hdecoded (hhex | hname)
    · have hlt := (replacedLength_hex ws).2 hhex
      rw [replacedLength, hdecoded] at hlt
      exact lt_irrefl _ hlt
    · by_cases hhex : Somewhere Written.decimalMark HexFollows ws
      · have hlt := (replacedLength_hex ws).2 hhex
        rw [replacedLength, hdecoded] at hlt
        exact lt_irrefl _ hlt
      · have hlt := (replacedLength_named ws).2 hname
        rw [replacedLength, ← hexRef_partly hhex, hdecoded] at hlt
        exact lt_irrefl _ hlt
  · intro h
    obtain ⟨hhex, hname⟩ := not_or.mp h
    rw [hexRef_partly hhex, namedRef_partly hname]

end Turma.BlobStore
