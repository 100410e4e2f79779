import Mathlib.Algebra.Group.Nat.Defs
import Mathlib.Data.Int.Init
import Mathlib.Data.List.Basic
import Mathlib.Data.Nat.Init
import Mathlib.Tactic.SplitIfs

/-! The screen of a terminal: a grid of cells, a cursor and a scroll region, and what each control
sequence does to them. -/

namespace Turma.Tty

open List Option

abbrev CodeUnit := UInt16

abbrev Text := List CodeUnit

def codeUnit (c : Char) : CodeUnit := UInt16.ofNat c.toNat

def blank : CodeUnit := codeUnit ' '

/-- A row; `none` is a hole, which reads as `undefined`. -/
abbrev Row := List (Option CodeUnit)

/-- `row[c] = v`, which makes a row longer that ends before `c`. -/
def assign (row : Row) (c : ℕ) (v : CodeUnit) : Row :=
  if c < row.length then row.set c (some v)
  else row ++ List.replicate (c - row.length) none ++ [some v]

/-- `grid[r][c] = v`, which throws where there is no row `r`. -/
def setCell (grid : List Row) (r c : ℕ) (v : CodeUnit) : Option (List Row) :=
  grid[r]?.map fun row => grid.set r (assign row c v)

/-- The loop that blanks the cells `cs` of row `r`. -/
def blankCells (r : ℕ) (cs : List ℕ) (grid : List Row) : Option (List Row) :=
  cs.foldlM (fun grid c => setCell grid r c blank) grid

def spliceOut (grid : List Row) (i : ℕ) : List Row := grid.take i ++ grid.drop (i + 1)

def spliceIn (grid : List Row) (i : ℕ) (row : Row) : List Row := grid.take i ++ row :: grid.drop i

structure Screen where
  cols : ℕ
  rows : ℕ
  grid : List Row
  cr : ℕ
  cc : ℕ
  saveR : ℕ
  saveC : ℕ
  top : ℕ
  bot : ℕ
deriving DecidableEq

namespace Screen

/-- `Math.max(1, x | 0)` of a number without a fraction. -/
def dimension (x : ℤ) : ℕ := (max 1 (x.bmod (2 ^ 32))).toNat

def blankRow (cols : ℕ) : Row := List.replicate cols (some blank)

def new (cols rows : ℤ) : Screen where
  cols := dimension cols
  rows := dimension rows
  grid := List.replicate (dimension rows) (blankRow (dimension cols))
  cr := 0
  cc := 0
  saveR := 0
  saveC := 0
  top := 0
  bot := dimension rows - 1

def clamp (n : ℕ) (x : ℤ) : ℕ := (max 0 (min (n - 1 : ℤ) x)).toNat

def clampR (s : Screen) (r : ℤ) : ℕ := clamp s.rows r

def clampC (s : Screen) (c : ℤ) : ℕ := clamp s.cols c

def kept (grid : List Row) (r c : ℕ) : CodeUnit :=
  ((grid[r]?.bind fun row => row[c]?).join).getD blank

def resize (s : Screen) (cols rows : ℤ) : Screen :=
  let cols := dimension cols
  let rows := dimension rows
  if cols = s.cols ∧ rows = s.rows then s
  else
    { cols := cols
      rows := rows
      grid := (List.range rows).map fun r => (List.range cols).map fun c => some (kept s.grid r c)
      top := 0
      bot := rows - 1
      cr := clamp rows s.cr
      cc := clamp cols s.cc
      saveR := clamp rows s.saveR
      saveC := clamp cols s.saveC }

def scrollUp (s : Screen) : Screen :=
  { s with grid := spliceIn (spliceOut s.grid s.top) s.bot (blankRow s.cols) }

def newline (s : Screen) : Screen :=
  if s.cr = s.bot then s.scrollUp else { s with cr := s.clampR (s.cr + 1) }

/-- `_put`: the wrap that was put off comes first. -/
def put (s : Screen) (ch : CodeUnit) : Option Screen :=
  let s := if s.cols ≤ s.cc then newline { s with cc := 0 } else s
  (setCell s.grid s.cr s.cc ch).map fun grid => { s with grid := grid, cc := s.cc + 1 }

def reverseIndex (s : Screen) : Screen :=
  if s.cr = s.top then
    { s with grid := spliceIn (spliceOut s.grid s.bot) s.top (blankRow s.cols) }
  else { s with cr := s.clampR (s.cr - 1) }

def digit (c : CodeUnit) : Bool := 0x30 ≤ c && c ≤ 0x39

def digitsValue (ds : Text) : ℕ := ds.foldl (fun n d => 10 * n + (d.toNat - 0x30)) 0

/-- `parseInt(p, 10)`, exactly, where the source has the nearest double of a long one; `none` is
NaN. -/
def parseInt (p : Text) : Option ℤ :=
  let p := p.dropWhile (· = blank)
  let minus := p.head? = some (codeUnit '-')
  let p := if p.head? = some (codeUnit '-') ∨ p.head? = some (codeUnit '+') then p.tail else p
  let ds := p.takeWhile digit
  if ds = [] then none
  else some (if minus then - (digitsValue ds : ℤ) else digitsValue ds)

/-- `nums`: with `none` also for an empty one. -/
def nums (params : Text) : List (Option ℤ) :=
  ((params.filter fun c => c ∉ [codeUnit '<', codeUnit '>', codeUnit '=', codeUnit '?']).splitOn
    (codeUnit ';')).map fun p => if p = [] then none else parseInt p

def num (params : Text) (k : ℕ) (d : ℤ) : ℤ := ((nums params)[k]?.join).getD d

def eraseLine (s : Screen) (m : ℤ) : Option Screen :=
  let cs :=
    if m = 0 then List.range' s.cc (s.cols - s.cc)
    else if m = 1 then List.range (min s.cc (s.cols - 1) + 1)
    else List.range s.cols
  (blankCells s.cr cs s.grid).map fun grid => { s with grid := grid }

/-- The rows `rs`, blanked over the width of the screen. -/
def blankRows (cols : ℕ) (rs : List ℕ) (grid : List Row) : Option (List Row) :=
  rs.foldlM (fun grid r => blankCells r (List.range cols) grid) grid

/-- ED, erase in display. -/
def eraseDisplay (s : Screen) (m : ℤ) : Option Screen :=
  let grid :=
    if m = 0 then
      (blankCells s.cr (List.range' s.cc (s.cols - s.cc)) s.grid).bind
        (blankRows s.cols (List.range' (s.cr + 1) (s.rows - (s.cr + 1))))
    else if m = 1 then
      (blankCells s.cr (List.range (min s.cc (s.cols - 1) + 1)) s.grid).bind
        (blankRows s.cols (List.range s.cr))
    else blankRows s.cols (List.range s.rows) s.grid
  grid.map fun grid => { s with grid := grid }

/-- DECSTBM: a region that is empty or upside down is ignored. -/
def setRegion (s : Screen) (top bot : ℕ) : Screen :=
  if bot ≤ top then s else { s with top := top, bot := bot, cr := top, cc := 0 }

def csi (s : Screen) (params : Text) (final : CodeUnit) : Option Screen :=
  let n := num params
  if final = codeUnit 'H' ∨ final = codeUnit 'f' then
    some { s with cr := s.clampR (n 0 1 - 1), cc := s.clampC (n 1 1 - 1) }
  else if final = codeUnit 'G' ∨ final = 0x60 then some { s with cc := s.clampC (n 0 1 - 1) }
  else if final = codeUnit 'd' then some { s with cr := s.clampR (n 0 1 - 1) }
  else if final = codeUnit 'A' then some { s with cr := s.clampR (s.cr - n 0 1) }
  else if final = codeUnit 'B' then some { s with cr := s.clampR (s.cr + n 0 1) }
  else if final = codeUnit 'C' then some { s with cc := s.clampC (s.cc + n 0 1) }
  else if final = codeUnit 'D' then some { s with cc := s.clampC (s.cc - n 0 1) }
  else if final = codeUnit 'E' then some { s with cr := s.clampR (s.cr + n 0 1), cc := 0 }
  else if final = codeUnit 'F' then some { s with cr := s.clampR (s.cr - n 0 1), cc := 0 }
  else if final = codeUnit 'K' then s.eraseLine (n 0 0)
  else if final = codeUnit 'J' then s.eraseDisplay (n 0 0)
  else if final = codeUnit 'r' then
    some (s.setRegion (s.clampR (n 0 1 - 1)) (s.clampR (n 1 s.rows - 1)))
  else some s

def control (s : Screen) (ch : CodeUnit) : Option Screen :=
  if ch = 0x0a ∨ ch = 0x0b ∨ ch = 0x0c then some s.newline
  else if ch = 0x0d then some { s with cc := 0 }
  else if ch = 0x08 then some { s with cc := s.clampC (s.cc - 1) }
  else if ch = 0x09 then some { s with cc := s.clampC ((s.cc / 8 + 1) * 8 : ℕ) }
  else if ch < 0x20 then some s
  else s.put ch

end Screen

/-! The tokens of a terminal's text, and a terminal that is written to in chunks: what may be the
start of an escape sequence waits for the next chunk. -/

inductive Token
  | unit (ch : CodeUnit)
  | csi (params : Text) (final : CodeUnit)
  | save
  | restore
  | reverseIndex
  /-- OSC, a charset selection or an escape that moves nothing. -/
  | dropped
deriving DecidableEq

def esc : CodeUnit := 0x1b

/-- `/[0-9;:<>=?]/` -/
def paramUnit (c : CodeUnit) : Bool := 0x30 ≤ c && c ≤ 0x3f

def intermediate (c : CodeUnit) : Bool := 0x20 ≤ c && c ≤ 0x2f

/-- CSI, behind its `ESC [`. -/
def nextCsi (s : Text) : Option (Token × Text) :=
  let params := s.takeWhile paramUnit
  let inter := (s.dropWhile paramUnit).takeWhile intermediate
  match (s.dropWhile paramUnit).dropWhile intermediate with
  | [] => none
  | final :: rest => some (.csi (params ++ inter) final, rest)

/-- OSC, behind its `ESC ]`: up to BEL or ST. -/
def skipOsc : Text → Option Text
  | [] => none
  | c :: s =>
    if c = 0x07 then some s
    else if c = esc then
      match s with
      | [] => none
      | d :: rest => if d = codeUnit '\\' then some rest else skipOsc s
    else skipOsc s

def nextEscape : Text → Option (Token × Text)
  | [] => none
  | c :: s =>
    if c = codeUnit '[' then nextCsi s
    else if c = codeUnit ']' then (skipOsc s).map fun rest => (.dropped, rest)
    else if c = codeUnit '7' then some (.save, s)
    else if c = codeUnit '8' then some (.restore, s)
    else if c = codeUnit 'M' then some (.reverseIndex, s)
    else if c = codeUnit '(' ∨ c = codeUnit ')' ∨ c = codeUnit '*' ∨ c = codeUnit '+' then
      match s with
      | [] => none
      | _ :: rest => some (.dropped, rest)
    else some (.dropped, s)

/-- The token at the front, and what is behind it; `none` where it is not complete. -/
def next : Text → Option (Token × Text)
  | [] => none
  | c :: s => if c = esc then nextEscape s else some (.unit c, s)

def Screen.apply (s : Screen) : Token → Option Screen
  | .unit ch => s.control ch
  | .csi params final => s.csi params final
  | .save => some { s with saveR := s.cr, saveC := s.cc }
  | .restore => some { s with cr := s.saveR, cc := s.saveC }
  | .reverseIndex => some s.reverseIndex
  | .dropped => some s

variable {s rest : Text}

theorem skipOsc_shorter (h : skipOsc s = some rest) : rest.length < s.length := by
  induction s with
  | nil => cases h
  | cons c s ih =>
    rw [length_cons]
    unfold skipOsc at h
    split_ifs at h with hbel hesc
    · rw [← some.inj h]
      exact Nat.lt_succ_self _
    · cases s with
      | nil => cases h
      | cons d s =>
        dsimp only at h
        split_ifs at h with hst
        · rw [← some.inj h, length_cons]
          omega
        · exact Nat.lt_succ_of_lt (ih h)
    · exact Nat.lt_succ_of_lt (ih h)

variable {t : Token}

theorem nextCsi_shorter (h : nextCsi s = some (t, rest)) :
    rest.length < s.length := by
  rw [nextCsi] at h
  have hsuffix : (s.dropWhile paramUnit).dropWhile intermediate <:+ s :=
    (dropWhile_suffix _).trans (dropWhile_suffix _)
  split at h
  · cases h
  · rename_i final rest' hrest
    obtain ⟨-, rfl⟩ := Prod.mk.inj (some.inj h)
    have hlen := hsuffix.length_le
    rw [hrest, length_cons] at hlen
    omega

theorem nextEscape_shorter (h : nextEscape s = some (t, rest)) :
    rest.length < s.length := by
  cases s with
  | nil => cases h
  | cons c s =>
    rw [length_cons]
    unfold nextEscape at h
    dsimp only at h
    split_ifs at h
    · exact Nat.lt_succ_of_lt (nextCsi_shorter h)
    · obtain ⟨rest', hosc, heq⟩ := Option.map_eq_some_iff.mp h
      obtain ⟨-, rfl⟩ := Prod.mk.inj heq
      exact Nat.lt_succ_of_lt (skipOsc_shorter hosc)
    · obtain ⟨-, rfl⟩ := Prod.mk.inj (some.inj h)
      exact Nat.lt_succ_self _
    · obtain ⟨-, rfl⟩ := Prod.mk.inj (some.inj h)
      exact Nat.lt_succ_self _
    · obtain ⟨-, rfl⟩ := Prod.mk.inj (some.inj h)
      exact Nat.lt_succ_self _
    · cases s with
      | nil => cases h
      | cons d s =>
        obtain ⟨-, rfl⟩ := Prod.mk.inj (some.inj h)
        rw [length_cons]
        omega
    · obtain ⟨-, rfl⟩ := Prod.mk.inj (some.inj h)
      exact Nat.lt_succ_self _

/-- A token takes something off the text. -/
theorem next_shorter (h : next s = some (t, rest)) :
    rest.length < s.length := by
  cases s with
  | nil => cases h
  | cons c s =>
    rw [next] at h
    split_ifs at h
    · exact Nat.lt_succ_of_lt (nextEscape_shorter h)
    · obtain ⟨-, rfl⟩ := Prod.mk.inj (some.inj h)
      exact Nat.lt_succ_self _

/-- `_process`: the screen behind the complete tokens, and the text that is left; `none` where it
throws. -/
def process (screen : Screen) (s : Text) : Option (Screen × Text) :=
  match _ : next s with
  | none => some (screen, s)
  | some (t, rest) => (screen.apply t).bind fun screen => process screen rest
termination_by s.length
decreasing_by exact next_shorter (by assumption)

def pendingMax : ℕ := 65536

structure TerminalGrid where
  screen : Screen
  pending : Text

namespace TerminalGrid

def new (cols rows : ℤ) : TerminalGrid := ⟨.new cols rows, []⟩

def resize (g : TerminalGrid) (cols rows : ℤ) : TerminalGrid :=
  { g with screen := g.screen.resize cols rows }

def write (g : TerminalGrid) (data : Text) : Option TerminalGrid :=
  (process g.screen (g.pending ++ data)).map fun out =>
    { screen := out.1
      pending := if pendingMax < out.2.length then [] else out.2 }

def writeAll (g : TerminalGrid) (chunks : List Text) : Option TerminalGrid :=
  chunks.foldlM write g

end TerminalGrid

end Turma.Tty
