import Mathlib.Data.List.Sort
import Turma.Lib.OrdMap

/-! JavaScript strings, read by code points, and the order in which an object lists its
string keys. -/

namespace Turma.Lib

open List

/-- What `[...s]` yields: a Unicode scalar value, or a surrogate (`0xD800 + u`) that is not
half of a pair. -/
inductive CodePoint
  | scalar (c : Char)
  | lone (u : Fin 0x800)
deriving DecidableEq

abbrev JsString := List CodePoint

instance : LawfulBEq JsString := inferInstance

instance : LawfulBEq (JsString × JsString) := inferInstance

namespace JsString

def ofString (s : String) : JsString := s.toList.map .scalar

end JsString

def CodePoint.units : CodePoint → List ℕ
  | .scalar c =>
    if c.toNat < 0x10000 then [c.toNat]
    else [0xD800 + (c.toNat - 0x10000) / 0x400, 0xDC00 + (c.toNat - 0x10000) % 0x400]
  | .lone u => [0xD800 + u]

/-- `a < b`: by code units. -/
def JsString.before (a b : JsString) : Bool :=
  decide (a.flatMap CodePoint.units < b.flatMap CodePoint.units)

/-- The number that a canonical array index spells. -/
def JsString.arrayIndex (s : JsString) : Option ℕ :=
  let n := s.foldl (fun n c => match c with
    | .scalar c => n * 10 + (c.toNat - '0'.toNat)
    | .lone _ => n) 0
  if n < 2 ^ 32 - 1 ∧ s = ofString (toString n) then some n else none

/-- `Object.keys`: the array indices in ascending order, then the rest as inserted. -/
def ownKeys {α : Type*} (m : OrdMap JsString α) : List JsString :=
  (m.keys.filter fun k => k.arrayIndex.isSome).insertionSort
      (fun a b => a.arrayIndex.getD 0 ≤ b.arrayIndex.getD 0) ++
    m.keys.filter fun k => k.arrayIndex.isNone

/-- `Object.entries`. -/
def ownEntries {α : Type*} (m : OrdMap JsString α) : List (JsString × α) :=
  (ownKeys m).filterMap fun k => (m.get? k).map fun v => (k, v)

variable {α : Type*} (m : OrdMap JsString α)

theorem ownKeys_perm : (ownKeys m).Perm m.keys := by
  refine ((perm_insertionSort _ _).append_right _).trans ?_
  have h := filter_append_perm (fun k : JsString => k.arrayIndex.isSome) m.keys
  simpa only [Option.not_isSome] using h

theorem mem_ownKeys {m : OrdMap JsString α} {k : JsString} :
    k ∈ ownKeys m ↔ k ∈ m.keys :=
  (ownKeys_perm m).mem_iff

theorem ownEntries_perm : (ownEntries m).Perm m.entries := by
  have hself : m.keys.filterMap (fun k => (m.get? k).map fun v => (k, v)) = m.entries := by
    rw [OrdMap.keys, filterMap_map]
    conv_rhs => rw [← filterMap_some (l := m.entries)]
    apply filterMap_congr
    intro e he
    simp [OrdMap.get?_eq_some.mpr (show (e.1, e.2) ∈ m.entries from he)]
  rw [← hself]
  exact (ownKeys_perm m).filterMap _

/-! Cleaning JavaScript strings that come from outside: control characters, lengths in code units
and classes of characters. -/

/-- `[\u0000-\u001f\u007f-\u009f]`. -/
def CodePoint.control : CodePoint → Bool
  | .scalar c => c.toNat < 0x20 || (0x7f ≤ c.toNat && c.toNat ≤ 0x9f)
  | .lone _ => false

def CodePoint.isIn (inClass : Char → Bool) : CodePoint → Bool
  | .scalar c => inClass c
  | .lone _ => false

/-- A lone surrogate becomes U+FFFD. -/
def CodePoint.wellFormed : CodePoint → CodePoint
  | .scalar c => .scalar c
  | .lone _ => .scalar (Char.ofNat 0xFFFD)

def CodePoint.high : CodePoint → CodePoint
  | .scalar c => .lone (Fin.ofNat 0x800 ((c.toNat - 0x10000) / 0x400))
  | .lone u => .lone u

namespace JsString

/-- `s.length`. -/
def length16 (s : JsString) : ℕ := (s.flatMap CodePoint.units).length

/-- `s.slice(0, n)`, which may leave the first half of a pair. -/
def slice : ℕ → JsString → JsString
  | _, [] => []
  | n, c :: s =>
    if c.units.length ≤ n then c :: slice (n - c.units.length) s
    else if n = 1 then [c.high] else []

/-- `s.replace(/[\u0000-\u001f\u007f-\u009f]/g, " ")`. -/
def blankControls (s : JsString) : JsString :=
  s.map fun c => if c.control = true then .scalar ' ' else c

/-- What `trim` strips: white space and line terminators. -/
def blank : CodePoint → Bool
  | .scalar c =>
    (9 ≤ c.toNat && c.toNat ≤ 13) || c.toNat = 0x20 || c.toNat = 0xa0 || c.toNat = 0x1680 ||
      (0x2000 ≤ c.toNat && c.toNat ≤ 0x200a) || c.toNat = 0x2028 || c.toNat = 0x2029 ||
      c.toNat = 0x202f || c.toNat = 0x205f || c.toNat = 0x3000 || c.toNat = 0xfeff
  | .lone _ => false

/-- `s` without what `strip` marks at both of its ends. -/
def stripEnds (strip : CodePoint → Bool) (s : JsString) : JsString :=
  ((s.dropWhile strip).reverse.dropWhile strip).reverse

/-- `s.trim()`. -/
def trim (s : JsString) : JsString := s.stripEnds blank

/-- What UTF-8 keeps of a string. -/
def toWellFormed (s : JsString) : JsString := s.map CodePoint.wellFormed

def allIn (inClass : Char → Bool) (s : JsString) : Bool := s.all (CodePoint.isIn inClass)

def matches1 (inClass : Char → Bool) (n : ℕ) (s : JsString) : Bool :=
  s ≠ [] && s.length ≤ n && s.all fun c => match c with
    | .scalar c => inClass c
    | .lone _ => false

end JsString

/-- `[A-Za-z0-9]`. -/
def asciiAlnum (c : Char) : Bool :=
  ('A' ≤ c && c ≤ 'Z') || ('a' ≤ c && c ≤ 'z') || ('0' ≤ c && c ≤ '9')

end Turma.Lib
