import Mathlib.Data.Rat.Defs
import Turma.Lib.JsString

/-! JSON values as Python reads them, the paths of `os.path` and the part of `re` that the shim
uses. A Python string is a list of code points, lone surrogates among them. -/

namespace Turma.QwenGuard

open Turma.Lib

abbrev Str := List CodePoint

def Str.lit (s : String) : Str := JsString.ofString s

inductive Value
  | none
  | bool (b : Bool)
  | num (n : ℚ)
  | str (s : Str)
  | list (vs : List Value)
  | dict (ms : List (Str × Value))

abbrev Dict := List (Str × Value)

/-- `d.get(k)`. -/
def Dict.get (d : Dict) (k : String) : Value :=
  match d.find? fun e => e.1 == Str.lit k with
  | some e => e.2
  | none => .none

/-- `k in d`. -/
def Dict.has (d : Dict) (k : String) : Bool := d.any fun e => e.1 == Str.lit k

namespace Value

def truthy : Value → Bool
  | none => false
  | bool b => b
  | num n => n != 0
  | str s => s != []
  | list vs => !vs.isEmpty
  | dict ms => !ms.isEmpty

/-- `a or b`. -/
def orElse (a b : Value) : Value := if a.truthy then a else b

def usable : Value → Option Str
  | str s => if s = [] then Option.none else some s
  | _ => Option.none

end Value

def space : CodePoint → Bool
  | .scalar c =>
    (9 ≤ c.toNat && c.toNat ≤ 13) || (0x1c ≤ c.toNat && c.toNat ≤ 0x20) || c.toNat = 0x85 ||
      c.toNat = 0xa0 || c.toNat = 0x1680 || (0x2000 ≤ c.toNat && c.toNat ≤ 0x200a) ||
      c.toNat = 0x2028 || c.toNat = 0x2029 || c.toNat = 0x202f || c.toNat = 0x205f ||
      c.toNat = 0x3000
  | .lone _ => false

def strip (s : Str) : Str := JsString.stripEnds space s

def slash : CodePoint := .scalar '/'

def isabs (p : Str) : Bool := p.head? == some slash

def join (a b : Str) : Str :=
  if isabs b then b
  else if a = [] ∨ a.getLast? = some slash then a ++ b
  else a ++ slash :: b

/-- `path.split("/")`. -/
def splitSlash : Str → List Str
  | [] => [[]]
  | c :: p =>
    if c = slash then [] :: splitSlash p
    else match splitSlash p with
      | [] => [[c]]
      | s :: ss => (c :: s) :: ss

def dotdot : Str := Str.lit ".."

/-- The components kept so far, the last one first. -/
def foldComponent (absolute : Bool) (kept : List Str) (comp : Str) : List Str :=
  if comp = [] ∨ comp = Str.lit "." then kept
  else if comp ≠ dotdot then comp :: kept
  else match kept with
    | [] => if absolute then [] else [dotdot]
    | last :: rest => if last = dotdot then dotdot :: last :: rest else rest

def normpath (p : Str) : Str :=
  let slashes : Str :=
    if !isabs p then []
    else if [slash, slash].isPrefixOf p && !([slash, slash, slash].isPrefixOf p) then [slash, slash]
    else [slash]
  let comps := (splitSlash p).foldl (foldComponent (isabs p)) []
  let out := slashes ++ (comps.reverse.intersperse [slash]).flatten
  if out = [] then Str.lit "." else out

/-- `c` matches the ASCII letter `w` under `re.I`. -/
def sameLetter (w : Char) : CodePoint → Bool
  | .scalar c => c == w || c.toLower == w || (w == 's' && c.toNat == 0x17f) ||
      (w == 'i' && (c.toNat == 0x130 || c.toNat == 0x131))
  | .lone _ => false

def afterWord : List Char → Str → Option Str
  | [], s => some s
  | _ :: _, [] => none
  | w :: ws, c :: s => if sameLetter w c then afterWord ws s else none

def hyphen (c : CodePoint) : Bool := c == .scalar '-' || c == .scalar '_'

def newline : CodePoint := .scalar '\n'

/-- `$`: the end, or a line feed before it. -/
def atEnd (s : Str) : Bool := s == [] || s == [newline]

def shellWords : List (List Char) :=
  ["bash", "sh", "zsh", "pwsh", "powershell", "shell", "terminal"].map String.toList

/-- `(bash|sh|…)([-_]|$)` at the head of `s`. -/
def shellWordAt (s : Str) : Bool :=
  shellWords.any fun w => match afterWord w s with
    | some rest => atEnd rest || (rest.head?.map hyphen).getD false
    | none => false

/-- What follows a `-` or a `_`. -/
def afterHyphens : Str → List Str
  | [] => []
  | c :: s => if hyphen c then s :: afterHyphens s else afterHyphens s

/-- `_SHELL_NAME_RE.search(n)`. -/
def shellNamed (n : Str) : Bool := (n :: afterHyphens n).any shellWordAt

inductive Token
  | deep
  | segment
  | one
  | char (c : CodePoint)

/-- `_glob_to_regexp`. -/
def globToRegexp : Str → List Token
  | [] => []
  | [c] => if c = .scalar '*' then [.segment] else if c = .scalar '?' then [.one] else [.char c]
  | c :: c' :: g =>
    if c = .scalar '*' then
      if c' = .scalar '*' then .deep :: globToRegexp g else .segment :: globToRegexp (c' :: g)
    else if c = .scalar '?' then .one :: globToRegexp (c' :: g)
    else .char c :: globToRegexp (c' :: g)

/-- `^…$` at the head of `s`. `.` takes no line feed. -/
def tokensMatch : List Token → Str → Bool
  | [], s => atEnd s
  | .char c :: ts, s => match s with
    | [] => false
    | c' :: s => c' == c && tokensMatch ts s
  | .one :: ts, s => match s with
    | [] => false
    | c' :: s => c' != slash && tokensMatch ts s
  | .segment :: ts, s => (s.tails.zip (s.inits.map fun p => p.all (· != slash))).any fun e =>
      e.2 && tokensMatch ts e.1
  | .deep :: ts, s => (s.tails.zip (s.inits.map fun p => p.all (· != newline))).any fun e =>
      e.2 && tokensMatch ts e.1

def matchesAny (target : Str) (regexps : List (List Token)) : Bool :=
  regexps.any fun r => tokensMatch r target

end Turma.QwenGuard
