import Turma.QwenGuard.Value

/-! The two lexers of `guard.py` that tell what of a shell command is quoted and what is in a group.
A place `i` of a command is what is before it, the last character first, and what is from it on. -/

namespace Turma.Guard

open Turma.Lib Turma.QwenGuard

abbrev ch (c : Char) : CodePoint := .scalar c

abbrev tick : CodePoint := ch '\x60'

abbrev apostrophe : CodePoint := ch '\x27'

abbrev quotation : CodePoint := ch '\x22'

abbrev backslash : CodePoint := ch '\x5c'

def wordEnd (c : CodePoint) : Bool := (" \t\n;&|()<>".toList.map ch).contains c

def cmdKeywords : List Str :=
  ["then", "do", "else", "elif", "if", "while", "until", "time", "!", "\x7b", "-p"].map Str.lit

def blank (c : CodePoint) : Bool := c = ch ' ' || c = ch '\t'

def startsCommand (before : Str) : Bool := before.head?.all (";&|(\n".toList.map ch).contains

def wordBefore (before : Str) : Str × Str :=
  ((before.takeWhile (!wordEnd ·)).reverse, before.dropWhile (!wordEnd ·))

/-- `_at_command_start`, with the hops that are left. -/
def atCommandStart : ℕ → Str → Bool
  | hops, before =>
    if startsCommand before then true
    else if !before.head?.any blank then false
    else if startsCommand (before.dropWhile blank) then true
    else match hops with
      | 0 => false
      | hops + 1 =>
        let (word, before) := wordBefore (before.dropWhile blank)
        cmdKeywords.contains word && atCommandStart hops before

def esacCloses (before : Str) : Bool :=
  if before.head?.any fun c => !(" \t\n;&|()\x7b\x7d".toList.map ch).contains c then false
  else if (before.dropWhile blank).head?.all (";&|()\n\x7b\x7d]".toList.map ch).contains then true
  else (["fi", "done", "esac", "in"].map Str.lit).contains (wordBefore (before.dropWhile blank)).1 ||
    atCommandStart 4 before

def wordAt (word s : Str) : Bool := word.isPrefixOf s && (s.drop word.length).head?.all wordEnd

def isComment (commentNl : Option ℕ) : Str → Bool
  | [] => true
  | prev :: before =>
    if (";&|(".toList.map ch).contains prev then true
    else if !(" \t\n".toList.map ch).contains prev then false
    else (before.takeWhile (· = backslash)).length % 2 = 0 || commentNl = some before.length

/-- `_CASE_PATTERN_OPEN_RE.search(command[max(0, i - 64):i])`; `word` is `\w`. -/
def casePatternOpen (word : CodePoint → Bool) (before : Str) : Bool :=
  let b := (before.take 64).dropWhile space
  ((Str.lit "ni").isPrefixOf b && (b.drop 2).head?.all (!word ·)) ||
    [";;", "&;;", "&;"].any fun x => (Str.lit x).isPrefixOf b

/-- How far the first `close` is; under `escapes` a backslash takes the next character along. -/
def closer (close : CodePoint) (escapes : Bool) : Str → ℕ
  | [] => 0
  | [c] => if c = close then 0 else if escapes && c = backslash then 2 else 1
  | c :: d :: s =>
    if c = close then 0
    else if escapes && c = backslash then closer close escapes s + 2
    else closer close escapes (d :: s) + 1

/-- `while i < n`: a turn says by how much `i` goes up, and `skip` characters are still to be
passed. -/
def loop {σ : Type} (turn : σ → Str → CodePoint → Str → ℕ × σ) (before : Str) : Str → ℕ → σ → σ
  | [], _, s => s
  | c :: rest, skip + 1, s => loop turn (c :: before) rest skip s
  | c :: rest, 0, s =>
    loop turn (c :: before) rest ((turn s before c rest).1 - 1) (turn s before c rest).2

/-- `"`, `p`, `[`, `c`, `(` and `h`. -/
inductive Frame
  | string
  | brace
  | test
  | case
  | group
  | heredoc
deriving DecidableEq

structure Scan where
  bodies : List Str
  stack : List Frame
  suspect : Bool
  start : ℕ
  commentNl : Option ℕ
deriving DecidableEq

namespace Scan

def push (s : Scan) (f : Frame) : Scan := { s with stack := f :: s.stack }

def pop (s : Scan) : Scan := { s with stack := s.stack.tail }

def openGroup (s : Scan) (j : ℕ) : Scan :=
  { s with start := if .group ∈ s.stack then s.start else j, stack := .group :: s.stack }

def found (s : Scan) (body : Str) : Scan :=
  if .group ∈ s.stack then s else { s with bodies := s.bodies ++ [body] }

def turn (word : CodePoint → Bool) (s : Scan) (before : Str) (c : CodePoint) (rest : Str) : ℕ × Scan :=
  let i := before.length
  let top := s.stack.head?
  if c = backslash then (2, s)
  else if c = tick then
    let n := closer (tick) true rest
    (n + 2, { s with suspect := s.suspect || rest.length ≤ n }.found (rest.take n))
  else if c = ch '$' ∧ rest.head? = some (ch '(') then (2, s.openGroup (i + 2))
  else if c = ch '$' ∧ rest.head? = some (ch '{') then (2, s.push .brace)
  else if top = some .string ∨ top = some .heredoc then
    (1, if c = quotation ∧ top = some .string then s.pop else s)
  else if c = ch '$' ∧ rest.head? = some (apostrophe) then (closer (apostrophe) true rest.tail + 3, s)
  else if c = apostrophe then (closer (apostrophe) false rest + 2, s)
  else if c = quotation then (1, s.push .string)
  else if top = some .brace then (1, if c = ch '}' then s.pop else s)
  else if top = some .test then
    if (Str.lit "]]").isPrefixOf (c :: rest) then (2, s.pop) else (1, s)
  else if c = ch '#' ∧ isComment s.commentNl before then
    let n := (rest.takeWhile (· ≠ ch '\n')).length + 1
    (n, { s with commentNl := some (i + n) })
  else if wordAt (Str.lit "[[") (c :: rest) && atCommandStart 4 before then (2, s.push .test)
  else if wordAt (Str.lit "case") (c :: rest) && atCommandStart 4 before then (4, s.push .case)
  else if top = some .case ∧ (wordAt (Str.lit "esac") (c :: rest) && esacCloses before) then (4, s.pop)
  else if c = ch '(' then
    if top = some .case ∧ casePatternOpen word before then (1, s) else (1, s.openGroup (i + 1))
  else if c = ch ')' then
    if top = some .group then (1, s.pop.found (before.take (i - s.start)).reverse)
    else (1, if top = some .case then s else { s with suspect := true })
  else (1, s)

end Scan

def balancedGroups (word : CodePoint → Bool) (command : Str) (heredoc : Bool) : List Str × Bool :=
  let base := if heredoc then [.heredoc] else []
  let s := loop (Scan.turn word) [] command 0 ⟨[], base, false, 0, none⟩
  (s.bodies.filter fun b => strip b ≠ [], s.suspect || s.stack ≠ base)

def ansiCDollar (before : Str) : Bool :=
  let run := (before.takeWhile (· = ch '$')).length + 1
  let slashes := ((before.dropWhile (· = ch '$')).takeWhile (· = backslash)).length
  (if slashes % 2 = 1 then run - 1 else run) % 2 = 1

def liveDollar (before : Str) : Bool :=
  let run := (before.takeWhile (· = ch '$')).length + 1
  let slashes := ((before.dropWhile (· = ch '$')).takeWhile (· = backslash)).length
  (run - slashes % 2) % 2 = 1

/-- "", `'`, `"`, `\` and `#`. -/
inductive Mark
  | bare
  | single
  | double
  | escaped
  | comment
deriving DecidableEq

/-- `(`, `"`, `{` and, within a string, `{"`. -/
inductive QuoteFrame
  | group
  | string
  | brace (quoted : Bool)
deriving DecidableEq

structure Quoting where
  out : List Mark
  stack : List QuoteFrame
  commentNl : Option ℕ

namespace Quoting

def mark (q : Quoting) (ms : List Mark) (stack : List QuoteFrame) : ℕ × Quoting :=
  (ms.length, { q with out := q.out ++ ms, stack := stack })

/-- A turn of `_quote_states` in its first reading, where neither `_MAIN_PARSE` nor
`_BRACE_OTHER_SHELL` is set; `inner` reads the body of backticks. -/
def turn (inner : Str → List Mark) (q : Quoting) (before : Str) (c : CodePoint) (rest : Str) :
    ℕ × Quoting :=
  let top := q.stack.head?
  let quoted := top = some .string ∨ top = some (.brace true)
  let here := if quoted then Mark.double else .bare
  if !("#\\$\x7d\x60'\"()".toList.map ch).contains c then q.mark [here] q.stack
  else if c = ch '#' ∧ (top = none ∨ top = some .group) ∧ isComment q.commentNl before then
    let n := (rest.takeWhile (· ≠ ch '\n')).length + 1
    { q with commentNl := some (before.length + n) }.mark (List.replicate n .comment) q.stack
  else if c = backslash then q.mark [.escaped, .escaped] q.stack
  else if c = ch '$' ∧ rest.head? = some (ch '(') then q.mark [.bare, .bare] (.group :: q.stack)
  else if c = ch '$' ∧ rest.head? = some (ch '{') ∧ liveDollar before then
    q.mark [here, here] (.brace quoted :: q.stack)
  else if c = ch '}' ∧ (top = some (.brace false) ∨ top = some (.brace true)) then
    q.mark [here] q.stack.tail
  else if c = tick ∧ closer tick true rest < rest.length then
    q.mark (.bare :: (inner (rest.take (closer tick true rest)) ++ [.bare])) q.stack
  else if c = ch '$' ∧ rest.head? = some apostrophe ∧
      (top = none ∨ top = some .group ∨ top = some (.brace false)) ∧ ansiCDollar before then
    q.mark (.bare :: List.replicate (closer apostrophe true rest.tail + 2) .single) q.stack
  else if top = some .string then q.mark [.double] (if c = quotation then q.stack.tail else q.stack)
  else if top = some (.brace true) then
    if c = apostrophe then q.mark (List.replicate (closer apostrophe false rest + 2) .double) q.stack
    else q.mark [.double] (if c = quotation then .string :: q.stack else q.stack)
  else if c = apostrophe then
    q.mark (List.replicate (closer apostrophe false rest + 2) .single) q.stack
  else if c = quotation then q.mark [.double] (.string :: q.stack)
  else if c = ch '(' ∧ top ≠ some (.brace false) then q.mark [.bare] (.group :: q.stack)
  else if c = ch ')' ∧ top = some .group then q.mark [.bare] q.stack.tail
  else q.mark [.bare] q.stack

end Quoting

/-- A body is shorter than the command that it is in; a mark behind the last character is none. -/
def quoteStates (command : Str) : List Mark :=
  let inner body := if body.length < command.length then quoteStates body else []
  (loop (Quoting.turn inner) [] command 0 ⟨[], [], none⟩).out.takeD command.length .bare
termination_by command.length

end Turma.Guard
