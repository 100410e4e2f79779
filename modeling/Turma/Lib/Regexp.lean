import Turma.Lib.JsString

/-! The part of Python's `re` that has single characters, sets that leave one out, repetitions of
them and the two anchors: from the text of a pattern to what `re.match` takes of a string. -/

namespace Turma.Lib.Re

inductive Atom
  | any
  | lit (c : CodePoint)
  | noneOf (c : CodePoint)
deriving DecidableEq

def lineFeed : CodePoint := .scalar '\n'

/-- `.` takes no line feed, a set that leaves out another character does. -/
def Atom.accepts : Atom → CodePoint → Bool
  | .any, c => c ≠ lineFeed
  | .lit d, c => c = d
  | .noneOf d, c => c ≠ d

inductive Node
  | bol
  | eol
  | one (a : Atom)
  | many (a : Atom)
deriving DecidableEq

/-- Where the reader is: where nothing can be repeated, behind an atom that a `*` may repeat, or
inside an escape or a set. -/
inductive Mode
  | fresh
  | behind (a : Atom)
  | escape
  | set
  | negated
  | member (c : CodePoint)
deriving DecidableEq

structure Reading where
  nodes : List Node
  mode : Mode
deriving DecidableEq

/-- The characters with a meaning of their own that begin no atom here. -/
def reserved : List CodePoint := JsString.ofString "*+?(){}|]"

def isAlnum (c : CodePoint) : Bool := c.isIn Char.isAlphanum

/-- The reader at the first character of an atom or an anchor. -/
def start (nodes : List Node) (c : CodePoint) : Option Reading :=
  if c = .scalar '\\' then some ⟨nodes, .escape⟩
  else if c = .scalar '[' then some ⟨nodes, .set⟩
  else if c = .scalar '.' then some ⟨nodes, .behind .any⟩
  else if c = .scalar '^' then some ⟨nodes ++ [.bol], .fresh⟩
  else if c = .scalar '$' then some ⟨nodes ++ [.eol], .fresh⟩
  else if c ∈ reserved then none
  else some ⟨nodes, .behind (.lit c)⟩

/-- One character of a pattern, `none` where it is no pattern or one outside this part. -/
def Reading.read (r : Reading) (c : CodePoint) : Option Reading :=
  match r.mode with
  | .fresh => start r.nodes c
  | .behind a =>
    if c = .scalar '*' then some ⟨r.nodes ++ [.many a], .fresh⟩ else start (r.nodes ++ [.one a]) c
  | .escape => if isAlnum c then none else some ⟨r.nodes, .behind (.lit c)⟩
  | .set => if c = .scalar '^' then some ⟨r.nodes, .negated⟩ else none
  | .negated =>
    if c ∈ JsString.ofString "\\[]" then none else some ⟨r.nodes, .member c⟩
  | .member d => if c = .scalar ']' then some ⟨r.nodes, .behind (.noneOf d)⟩ else none

def Reading.close (r : Reading) : Option (List Node) :=
  match r.mode with
  | .fresh => some r.nodes
  | .behind a => some (r.nodes ++ [.one a])
  | _ => none

def compile (pattern : List CodePoint) : Option (List Node) :=
  (pattern.foldlM Reading.read ⟨[], .fresh⟩).bind Reading.close

def Reading.Rests (r : Reading) (nodes : List Node) : Prop := r.close = some nodes

/-- Between two items, what is no `*` begins another. -/
theorem Reading.Rests.read {r : Reading} {nodes : List Node} {c : CodePoint} (h : r.Rests nodes)
    (hc : c ≠ .scalar '*') : r.read c = start nodes c := by
  obtain ⟨read, mode⟩ := r
  cases mode with
  | fresh =>
    cases h
    rfl
  | behind a =>
    cases h
    exact if_neg hc
  | _ => exact absurd h (by simp [Rests, close])

/-- As many characters as the rest of the pattern leaves, fewer where it needs them. -/
def manyThen (a : Atom) (rest : Bool → List CodePoint → Bool) : Bool → List CodePoint → Bool
  | atStart, [] => rest atStart []
  | atStart, c :: s => (a.accepts c && manyThen a rest false s) || rest atStart (c :: s)

def oneThen (a : Atom) (rest : Bool → List CodePoint → Bool) : List CodePoint → Bool
  | [] => false
  | c :: s => a.accepts c && rest false s

def atEnd (s : List CodePoint) : Bool := s = [] ∨ s = [lineFeed]

/-- Whether the nodes match at the head of what is left of a string, which may be all of it. -/
def matchNodes : List Node → Bool → List CodePoint → Bool
  | [], _, _ => true
  | .bol :: ns, atStart, s => atStart && matchNodes ns atStart s
  | .eol :: ns, atStart, s => atEnd s && matchNodes ns atStart s
  | .one a :: ns, _, s => oneThen a (matchNodes ns) s
  | .many a :: ns, atStart, s => manyThen a (matchNodes ns) atStart s

/-- `re.match(pattern, s)`, `none` where the pattern does not compile. -/
def match? (pattern s : List CodePoint) : Option Bool :=
  (compile pattern).map fun ns => matchNodes ns true s

/-- A repetition takes a run of characters that its atom accepts. -/
theorem manyThen_iff {a : Atom} {rest : Bool → List CodePoint → Bool} {s : List CodePoint}
    (hrest : ∀ v, rest true v = rest false v) (atStart : Bool) :
    manyThen a rest atStart s = true ↔
      ∃ u v, s = u ++ v ∧ (∀ c ∈ u, a.accepts c = true) ∧ rest false v = true := by
  have hany : ∀ b v, rest b v = rest false v := fun b v => by
    cases b with
    | false => rfl
    | true => exact hrest v
  induction s generalizing atStart with
  | nil =>
    rw [manyThen, hany]
    constructor
    · intro h
      exact ⟨[], [], rfl, by simp, h⟩
    · rintro ⟨u, v, huv, -, h⟩
      obtain ⟨rfl, rfl⟩ := List.nil_eq_append_iff.mp huv
      exact h
  | cons c s ih =>
    rw [manyThen, hany, Bool.or_eq_true, Bool.and_eq_true]
    constructor
    · rintro (⟨hc, h⟩ | h)
      · obtain ⟨u, v, rfl, hu, hv⟩ := (ih false).mp h
        exact ⟨c :: u, v, rfl, by simpa [hc] using hu, hv⟩
      · exact ⟨[], c :: s, rfl, by simp, h⟩
    · rintro ⟨u, v, huv, hu, hv⟩
      cases u with
      | nil =>
        rw [List.nil_append] at huv
        exact .inr (huv ▸ hv)
      | cons d u =>
        obtain ⟨rfl, rfl⟩ := List.cons.inj huv
        refine .inl ⟨hu c List.mem_cons_self, (ih false).mpr ⟨u, v, rfl, fun e he => ?_, hv⟩⟩
        exact hu e (List.mem_cons_of_mem c he)

end Turma.Lib.Re
