import Turma.Lib.Regexp
import Turma.QwenGuard.Value

/-! What the pattern that a path glob compiles to matches, and what the glob means. -/

namespace Turma.QwenGuard

open Turma.Lib Option
open List hiding beq_eq_decide

def escapes : List CodePoint := Str.lit "\\^$.|+()[]{}"

/-- What one character of a glob appends, but for the second of a `**`. -/
def charText (c : CodePoint) : Str :=
  if c = .scalar '*' then Str.lit "[^/]*"
  else if c = .scalar '?' then Str.lit "[^/]"
  else if c ∈ escapes then [.scalar '\\', c]
  else [c]

/-- `"".join(out)`. -/
def globText : Str → Str
  | [] => []
  | [c] => charText c
  | c :: c' :: g =>
    if c = .scalar '*' ∧ c' = .scalar '*' then Str.lit ".*" ++ globText g
    else charText c ++ globText (c' :: g)

/-- The text that `_glob_to_regexp` compiles. -/
def globPattern (glob : Str) : Str := .scalar '^' :: globText glob ++ [.scalar '$']

/-- What a glob matches where a `**` takes the characters of which `across` holds: `*` takes any
within one segment, `?` one of them, and any other character itself. -/
inductive Matches (across : CodePoint → Prop) : Str → Str → Prop
  | nil : Matches across [] []
  | deep {g p : Str} (u : Str) (hu : ∀ c ∈ u, across c) (h : Matches across g p) :
    Matches across (.scalar '*' :: .scalar '*' :: g) (u ++ p)
  | segment {g p : Str} (u : Str) (hg : g.head? ≠ some (.scalar '*')) (hu : slash ∉ u)
    (h : Matches across g p) : Matches across (.scalar '*' :: g) (u ++ p)
  | one {g p : Str} (c : CodePoint) (hc : c ≠ slash) (h : Matches across g p) :
    Matches across (.scalar '?' :: g) (c :: p)
  | char {g p : Str} (c : CodePoint) (hstar : c ≠ .scalar '*') (hone : c ≠ .scalar '?')
    (h : Matches across g p) : Matches across (c :: g) (c :: p)

/-- What a glob means: `**` takes any characters. -/
abbrev GlobMatches : Str → Str → Prop := Matches fun _ => True

/-- A glob matches with no line feed taken by a `**`. -/
abbrev LineMatches : Str → Str → Prop := Matches (· ≠ newline)

/-- A path that a glob matches, but only with a `**` taking a line feed that is no last one left
over. -/
def Crossed (g p : Str) : Prop :=
  GlobMatches g p ∧ ¬ LineMatches g p ∧ ∀ q, p = q ++ [newline] → ¬ LineMatches g q

/-- A path that a glob matches only without its last line feed. -/
def LeftOver (g p : Str) : Prop :=
  (∃ q, p = q ++ [newline] ∧ LineMatches g q) ∧ ¬ GlobMatches g p

def charToken (c : CodePoint) : Token :=
  if c = .scalar '*' then .segment else if c = .scalar '?' then .one else .char c

theorem globToRegexp_pair (c c' : CodePoint) (g : Str) :
    globToRegexp (c :: c' :: g) =
      if c = .scalar '*' ∧ c' = .scalar '*' then .deep :: globToRegexp g
      else charToken c :: globToRegexp (c' :: g) := by
  rw [globToRegexp, charToken]
  by_cases hc : c = .scalar '*'
  · by_cases hc' : c' = .scalar '*' <;> simp [hc, hc']
  · by_cases hone : c = .scalar '?' <;> simp [hc, hone]

theorem globToRegexp_single (c : CodePoint) : globToRegexp [c] = [charToken c] := by
  rw [globToRegexp, charToken]
  split
  · rfl
  · split <;> rfl

def Token.node : Token → Re.Node
  | .deep => .many .any
  | .segment => .many (.noneOf slash)
  | .one => .one (.noneOf slash)
  | .char c => .one (.lit c)

/-- What is not escaped is no star, and begins no set, escape or anchor. -/
theorem start_plain {c : CodePoint} (nodes : List Re.Node) (hstar : c ≠ .scalar '*')
    (hone : c ≠ .scalar '?') (hc : c ∉ escapes) :
    Re.start nodes c = some ⟨nodes, .behind (.lit c)⟩ := by
  have hmem : ∀ d ∈ escapes, c ≠ d := fun d hd heq => hc (heq ▸ hd)
  rw [Re.start, if_neg (hmem _ (by decide)), if_neg (hmem _ (by decide)), if_neg (hmem _ (by decide)),
    if_neg (hmem _ (by decide)), if_neg (hmem _ (by decide)), if_neg]
  intro hreserved
  have hall : ∀ d ∈ Re.reserved, d = .scalar '*' ∨ d = .scalar '?' ∨ d ∈ escapes := by decide
  rcases hall c hreserved with h | h | h
  · exact hstar h
  · exact hone h
  · exact hc h

theorem text_segment : Str.lit "[^/]*" =
    [.scalar '[', .scalar '^', .scalar '/', .scalar ']', .scalar '*'] := by decide

theorem text_one : Str.lit "[^/]" = [.scalar '[', .scalar '^', .scalar '/', .scalar ']'] := by decide

theorem text_deep : Str.lit ".*" = [.scalar '.', .scalar '*'] := by decide

variable {nodes : List Re.Node}

/-- The text of one character is read as its token. -/
theorem read_char (c : CodePoint) {r : Re.Reading} (h : r.Rests nodes) :
    ∃ r', (charText c).foldlM Re.Reading.read r = some r' ∧
      r'.Rests (nodes ++ [(charToken c).node]) := by
  have hset : r.read (.scalar '[') = some ⟨nodes, .set⟩ := h.read (by decide)
  by_cases hstar : c = .scalar '*'
  · refine ⟨⟨nodes ++ [.many (.noneOf slash)], .fresh⟩, ?_, by simp [charToken, hstar, Token.node,
      Re.Reading.Rests, Re.Reading.close]⟩
    rw [charText, if_pos hstar, text_segment, foldlM_cons, hset]
    rfl
  by_cases hone : c = .scalar '?'
  · refine ⟨⟨nodes, .behind (.noneOf slash)⟩, ?_, by simp [charToken, hone, Token.node,
      Re.Reading.Rests, Re.Reading.close]⟩
    rw [charText, if_neg hstar, if_pos hone, text_one, foldlM_cons, hset]
    rfl
  refine ⟨⟨nodes, .behind (.lit c)⟩, ?_, by simp [charToken, hstar, hone, Token.node,
    Re.Reading.Rests, Re.Reading.close]⟩
  rw [charText, if_neg hstar, if_neg hone]
  by_cases hc : c ∈ escapes
  · have hescape : r.read (.scalar '\\') = some ⟨nodes, .escape⟩ := h.read (by decide)
    have hplain : ∀ d ∈ escapes, Re.isAlnum d = false := by decide
    rw [if_pos hc, foldlM_cons, hescape, bind_eq_bind, bind_some, foldlM_cons]
    simp [Re.Reading.read, hplain c hc]
  · rw [if_neg hc, foldlM_cons, h.read hstar, start_plain nodes hstar hone hc]
    rfl

variable (ts : List Token) (s : Str) (g : Str)

theorem read_text {r : Re.Reading} (h : r.Rests nodes) :
    ∃ r', (globText g).foldlM Re.Reading.read r = some r' ∧
      r'.Rests (nodes ++ (globToRegexp g).map Token.node) := by
  induction g using globText.induct generalizing r nodes with
  | case1 => exact ⟨r, rfl, by simpa [globToRegexp] using h⟩
  | case2 c =>
    obtain ⟨r', hread, hr'⟩ := read_char c h
    rw [globText, globToRegexp_single]
    exact ⟨r', hread, by simpa using hr'⟩
  | case3 c c' g hstars ih =>
    -- a `.` and a `*`
    have hdot : r.read (.scalar '.') = some ⟨nodes, .behind .any⟩ := h.read (by decide)
    obtain ⟨r', hread, hr'⟩ := ih (r := ⟨nodes ++ [.many .any], .fresh⟩) rfl
    refine ⟨r', ?_, by simpa [globToRegexp_pair, hstars, Token.node] using hr'⟩
    have htext : (Str.lit ".*").foldlM Re.Reading.read r = some ⟨nodes ++ [.many .any], .fresh⟩ := by
      rw [text_deep, foldlM_cons, hdot]
      rfl
    rw [globText, if_pos hstars, foldlM_append, htext]
    exact hread
  | case4 c c' g hstars ih =>
    obtain ⟨r₁, hread₁, hr₁⟩ := read_char c h
    obtain ⟨r', hread, hr'⟩ := ih hr₁
    refine ⟨r', ?_, by simpa [globToRegexp_pair, hstars] using hr'⟩
    rw [globText, if_neg hstars, foldlM_append, hread₁]
    exact hread

/-- Every glob compiles, to its tokens between the two anchors. -/
theorem compile_glob :
    Re.compile (globPattern g) = some (.bol :: (globToRegexp g).map Token.node ++ [.eol]) := by
  have hbol : Re.Reading.read ⟨[], .fresh⟩ (.scalar '^') = some ⟨[.bol], .fresh⟩ := rfl
  obtain ⟨r, hread, hr⟩ := read_text g (show Re.Reading.Rests ⟨[.bol], .fresh⟩ [.bol] from rfl)
  have heol : r.read (.scalar '$') =
      some ⟨.bol :: (globToRegexp g).map Token.node ++ [.eol], .fresh⟩ := hr.read (by decide)
  rw [Re.compile, globPattern, cons_append, foldlM_cons, hbol, bind_eq_bind,
    bind_some, foldlM_append, hread, bind_eq_bind, bind_some,
    foldlM_cons, heol]
  rfl

theorem any_splits {p : Str → Bool} {f : Str × Bool → Bool} :
    (s.tails.zip (s.inits.map p)).any f = true ↔ ∃ u v, s = u ++ v ∧ f (v, p u) = true := by
  induction s generalizing p with
  | nil => simp
  | cons c s ih =>
    rw [tails_cons, inits_cons, map_cons, zip_cons_cons, any_cons,
      Bool.or_eq_true, List.map_map]
    constructor
    · rintro (h | h)
      · exact ⟨[], c :: s, rfl, h⟩
      · obtain ⟨u, v, rfl, hf⟩ := ih.mp h
        exact ⟨c :: u, v, rfl, hf⟩
    · rintro ⟨u, v, huv, hf⟩
      cases u with
      | nil =>
        rw [nil_append] at huv
        exact .inl (huv ▸ hf)
      | cons d u =>
        obtain ⟨rfl, rfl⟩ := List.cons.inj huv
        exact .inr (ih.mpr ⟨u, v, rfl, hf⟩)

def Token.Takes (across : CodePoint → Prop) : Token → Str → Prop
  | .deep, u => ∀ c ∈ u, across c
  | .segment, u => slash ∉ u
  | .one, u => ∃ c, u = [c] ∧ c ≠ slash
  | .char c, u => u = [c]

theorem any_run {q : CodePoint → Bool} :
    (s.tails.zip (s.inits.map fun u => u.all q)).any (fun e => e.2 && tokensMatch ts e.1) = true ↔
      ∃ u v, s = u ++ v ∧ (∀ c ∈ u, q c = true) ∧ tokensMatch ts v = true := by
  rw [any_splits]
  simp only [Bool.and_eq_true, List.all_eq_true]

/-- The tokens match what the first one takes and the others match behind it. -/
theorem token_match (t : Token) : tokensMatch (t :: ts) s = true ↔
    ∃ u v, s = u ++ v ∧ t.Takes (· ≠ newline) u ∧ tokensMatch ts v = true := by
  cases t with
  | char c =>
    cases s with
    | nil => simp [tokensMatch, Token.Takes]
    | cons d s =>
      rw [tokensMatch, Bool.and_eq_true, beq_iff_eq]
      constructor
      · rintro ⟨rfl, h⟩
        exact ⟨[d], s, rfl, rfl, h⟩
      · rintro ⟨_, v, huv, rfl, h⟩
        obtain ⟨rfl, rfl⟩ := List.cons.inj huv
        exact ⟨rfl, h⟩
  | one =>
    cases s with
    | nil => simp [tokensMatch, Token.Takes]
    | cons d s =>
      rw [tokensMatch, Bool.and_eq_true, bne_iff_ne]
      constructor
      · rintro ⟨hd, h⟩
        exact ⟨[d], s, rfl, ⟨d, rfl, hd⟩, h⟩
      · rintro ⟨_, v, huv, ⟨c, rfl, hc⟩, h⟩
        obtain ⟨rfl, rfl⟩ := List.cons.inj huv
        exact ⟨hc, h⟩
  | segment =>
    rw [tokensMatch, any_run]
    simp only [bne_iff_ne, Token.Takes, forall_mem_ne']
  | deep =>
    rw [tokensMatch, any_run]
    simp only [bne_iff_ne, Token.Takes]

/-- The pattern's nodes match as the tokens do. -/
theorem matchNodes_eq (atStart : Bool) (s : Str) :
    Re.matchNodes (ts.map Token.node ++ [.eol]) atStart s = tokensMatch ts s := by
  induction ts generalizing atStart s with
  | nil =>
    show (Re.atEnd s && true) = atEnd s
    rw [Bool.and_true, Re.atEnd, atEnd, Bool.decide_or, beq_eq_decide, beq_eq_decide]
    rfl
  | cons t ts ih =>
    have hany : ∀ v, Re.matchNodes (ts.map Token.node ++ [.eol]) true v =
        Re.matchNodes (ts.map Token.node ++ [.eol]) false v := fun v => (ih true v).trans (ih false v).symm
    cases t with
    | char c =>
      cases s with
      | nil => rfl
      | cons d s =>
        rw [tokensMatch, ← ih false, beq_eq_decide]
        rfl
    | one =>
      cases s with
      | nil => rfl
      | cons d s =>
        show (decide (d ≠ slash) && Re.matchNodes (ts.map Token.node ++ [.eol]) false s) =
          (d != slash && tokensMatch ts s)
        rw [ih, bne, beq_eq_decide, decide_not]
    | segment =>
      rw [Bool.eq_iff_iff, tokensMatch, any_run]
      refine (Re.manyThen_iff hany atStart).trans ?_
      simp only [ih, Re.Atom.accepts, decide_eq_true_eq, bne_iff_ne]
    | deep =>
      rw [Bool.eq_iff_iff, tokensMatch, any_run]
      refine (Re.manyThen_iff hany atStart).trans ?_
      simp only [ih, Re.Atom.accepts, decide_eq_true_eq, bne_iff_ne]
      rfl

/-- `_glob_to_regexp(glob).match(p)` is what the shim's tokens say. -/
theorem match_glob (g p : Str) : Re.match? (globPattern g) p = some (tokensMatch (globToRegexp g) p) := by
  rw [Re.match?, compile_glob, map_some]
  exact congrArg some (matchNodes_eq (globToRegexp g) true p)

def Means (across : CodePoint → Prop) : List Token → Str → Prop
  | [], p => p = []
  | t :: ts, p => ∃ u v, p = u ++ v ∧ t.Takes across u ∧ Means across ts v

theorem globToRegexp_segment {g : Str} (hg : g.head? ≠ some (.scalar '*')) :
    globToRegexp (.scalar '*' :: g) = .segment :: globToRegexp g := by
  cases g with
  | nil => rfl
  | cons c g =>
    rw [globToRegexp_pair, if_neg]
    · rfl
    · rintro ⟨-, rfl⟩
      exact hg rfl

theorem globToRegexp_cons {c : CodePoint} (hc : c ≠ .scalar '*') :
    globToRegexp (c :: g) = charToken c :: globToRegexp g := by
  cases g with
  | nil => exact globToRegexp_single c
  | cons d g =>
    rw [globToRegexp_pair, if_neg]
    rintro ⟨h, -⟩
    exact hc h

variable {across : CodePoint → Prop}

theorem matches_charToken {c : CodePoint} (hg : c = .scalar '*' → g.head? ≠ some (.scalar '*'))
    (ih : ∀ p, Means across (globToRegexp g) p → Matches across g p) {p : Str}
    (h : Means across (charToken c :: globToRegexp g) p) : Matches across (c :: g) p := by
  obtain ⟨u, v, rfl, hu, hv⟩ := h
  by_cases hstar : c = .scalar '*'
  · rw [charToken, if_pos hstar] at hu
    rw [hstar]
    exact .segment u (hg hstar) hu (ih v hv)
  by_cases hone : c = .scalar '?'
  · rw [charToken, if_neg hstar, if_pos hone] at hu
    obtain ⟨d, rfl, hd⟩ := hu
    rw [hone]
    exact .one d hd (ih v hv)
  · rw [charToken, if_neg hstar, if_neg hone] at hu
    obtain rfl := (hu : u = [c])
    exact .char c hstar hone (ih v hv)

/-- The tokens of a glob mean what it does. -/
theorem matches_iff (g p : Str) : Matches across g p ↔ Means across (globToRegexp g) p := by
  constructor
  · intro h
    induction h with
    | nil => rfl
    | deep u hu h ih => exact ⟨u, _, rfl, hu, ih⟩
    | segment u hg hu h ih =>
      rw [globToRegexp_segment hg]
      exact ⟨u, _, rfl, hu, ih⟩
    | one c hc h ih =>
      rw [globToRegexp_cons _ (by decide)]
      exact ⟨[c], _, rfl, ⟨c, rfl, hc⟩, ih⟩
    | char c hstar hone h ih =>
      rw [globToRegexp_cons _ hstar, charToken, if_neg hstar, if_neg hone]
      exact ⟨[c], _, rfl, rfl, ih⟩
  · induction g using globText.induct generalizing p with
    | case1 =>
      rintro rfl
      exact .nil
    | case2 c =>
      rw [globToRegexp_single]
      exact matches_charToken [] (by simp) fun p hp => by obtain rfl := (hp : p = []); exact .nil
    | case3 c c' g hstars ih =>
      rw [globToRegexp_pair, if_pos hstars, hstars.1, hstars.2]
      rintro ⟨u, v, rfl, hu, hv⟩
      exact .deep u hu (ih v hv)
    | case4 c c' g hstars ih =>
      rw [globToRegexp_pair, if_neg hstars]
      exact matches_charToken _ (fun hc heq => hstars ⟨hc, by simpa using heq⟩) fun p hp => ih p hp

/-- The tokens match what they mean within lines, and a line feed may be left over. -/
theorem tokensMatch_iff : tokensMatch ts s = true ↔
    ∃ q e, s = q ++ e ∧ Means (· ≠ newline) ts q ∧ (e = [] ∨ e = [newline]) := by
  induction ts generalizing s with
  | nil =>
    show atEnd s = true ↔ _
    simp only [atEnd, Bool.or_eq_true, beq_iff_eq]
    constructor
    · exact fun h => ⟨[], s, rfl, rfl, h⟩
    · rintro ⟨_, e, rfl, rfl, h⟩
      exact h
  | cons t ts ih =>
    rw [token_match]
    constructor
    · rintro ⟨u, v, rfl, hu, hv⟩
      obtain ⟨q, e, rfl, hq, he⟩ := (ih v).mp hv
      exact ⟨u ++ q, e, (append_assoc _ _ _).symm, ⟨u, q, rfl, hu, hq⟩, he⟩
    · rintro ⟨_, e, rfl, ⟨u, q, rfl, hu, hq⟩, he⟩
      exact ⟨u, q ++ e, append_assoc _ _ _, hu, (ih _).mpr ⟨q, e, rfl, hq, he⟩⟩

theorem glob_matches {g p : Str} (h : LineMatches g p) : GlobMatches g p := by
  induction h with
  | nil => exact .nil
  | deep u hu h ih => exact .deep u (fun _ _ => trivial) ih
  | segment u hg hu h ih => exact .segment u hg hu ih
  | one c hc h ih => exact .one c hc ih
  | char c hstar hone h ih => exact .char c hstar hone ih

/-- `re.match` takes what the glob matches within lines, and a last line feed more. -/
theorem match_iff (g p : Str) : Re.match? (globPattern g) p = some true ↔
    LineMatches g p ∨ ∃ q, p = q ++ [newline] ∧ LineMatches g q := by
  rw [match_glob, some_inj, tokensMatch_iff]
  simp only [matches_iff]
  constructor
  · rintro ⟨q, e, rfl, hq, rfl | rfl⟩
    · exact .inl (by rwa [append_nil])
    · exact .inr ⟨q, rfl, hq⟩
  · rintro (h | ⟨q, rfl, hq⟩)
    · exact ⟨p, [], (append_nil p).symm, h, .inl rfl⟩
    · exact ⟨q, [newline], rfl, hq, .inr rfl⟩

/-- The pattern of a glob matches a path as the glob does, unless a `**` has to take a line feed of
it or its last line feed is left over. -/
theorem globs_match_iff (g p : Str) :
    (Re.match? (globPattern g) p = some true ↔ GlobMatches g p) ↔ ¬ Crossed g p ∧ ¬ LeftOver g p := by
  rw [match_iff]
  constructor
  · intro h
    refine ⟨fun ⟨hglob, hline, hlast⟩ => ?_, fun ⟨hlast, hglob⟩ => hglob (h.mp (.inr hlast))⟩
    rcases h.mpr hglob with hmatch | ⟨q, hq, hmatch⟩
    · exact hline hmatch
    · exact hlast q hq hmatch
  · rintro ⟨hcrossed, hleft⟩
    constructor
    · rintro (hline | hlast)
      · exact glob_matches hline
      · exact not_not.mp fun hglob => hleft ⟨hlast, hglob⟩
    · intro hglob
      by_contra hmatch
      obtain ⟨hline, hlast⟩ := not_or.mp hmatch
      exact hcrossed ⟨hglob, hline, fun q hq hmatch => hlast ⟨q, hq, hmatch⟩⟩

/-- Where the path holds no line feed the pattern of every glob is right. -/
theorem right_without_line_feed (g : Str) {p : Str} (hp : newline ∉ p) :
    Re.match? (globPattern g) p = some true ↔ GlobMatches g p := by
  have hline : GlobMatches g p → LineMatches g p := by
    intro h
    induction h with
    | nil => exact .nil
    | deep u hu h ih =>
      rw [mem_append, not_or] at hp
      exact .deep u (fun c hc heq => hp.1 (heq ▸ hc)) (ih hp.2)
    | segment u hg hu h ih => exact .segment u hg hu (ih fun h => hp (mem_append_right u h))
    | one c hc h ih => exact .one c hc (ih fun h => hp (mem_cons_of_mem c h))
    | char c hstar hone h ih => exact .char c hstar hone (ih fun h => hp (mem_cons_of_mem c h))
  refine match_iff g p |>.trans ⟨?_, fun h => .inl (hline h)⟩
  rintro (h | ⟨q, rfl, -⟩)
  · exact glob_matches h
  · exact absurd mem_concat_self hp

/-- A credential whose name holds a line feed is matched by its rule, and not by the pattern. -/
theorem glob_misses_line_feed :
    ¬ ∀ g p, Re.match? (globPattern g) p = some true ↔ GlobMatches g p := by
  intro h
  have hdeep : GlobMatches (Str.lit "/r/**") (Str.lit "/r/a\nb") := by
    refine .char _ (by decide) (by decide) (.char _ (by decide) (by decide)
      (.char _ (by decide) (by decide) ?_))
    exact .deep (Str.lit "a\nb") (fun _ _ => trivial) .nil
  have hmatch := (h (Str.lit "/r/**") (Str.lit "/r/a\nb")).mpr hdeep
  rw [match_glob] at hmatch
  cases hmatch

end Turma.QwenGuard
