import Mathlib.Data.List.Infix
import Turma.Lib.JsString

/-! Conditions on the text columns of a table: the three truth values of SQL, and the patterns that
a text is matched against. -/

namespace Turma.Lib

open List

/-- A truth value of SQL, `none` where it is not known. -/
abbrev Truth := Option Bool

namespace Truth

def not : Truth → Truth := Option.map Bool.not

def and : Truth → Truth → Truth
  | some false, _ => some false
  | _, some false => some false
  | some true, b => b
  | none, _ => none

def or : Truth → Truth → Truth
  | some true, _ => some true
  | _, some true => some true
  | some false, b => b
  | none, _ => none

def all (ts : List Truth) : Truth := ts.foldr and (some true)

def any (ts : List Truth) : Truth := ts.foldr or (some false)

def keeps (t : Truth) : Bool := t = some true

@[simp] theorem keeps_some (b : Bool) : keeps (some b) = b := by cases b <;> rfl

@[simp] theorem keeps_none : keeps none = false := rfl

@[simp] theorem not_some (b : Bool) : not (some b) = some !b := rfl

@[simp] theorem not_none : not none = none := rfl

theorem keeps_and (a b : Truth) : (and a b).keeps = (a.keeps && b.keeps) := by
  rcases a with _ | _ | _ <;> rcases b with _ | _ | _ <;> rfl

theorem keeps_or (a b : Truth) : (or a b).keeps = (a.keeps || b.keeps) := by
  rcases a with _ | _ | _ <;> rcases b with _ | _ | _ <;> rfl

@[simp] theorem keeps_all (ts : List Truth) : (all ts).keeps = ts.all keeps := by
  induction ts with
  | nil => rfl
  | cons t ts ih => rw [all_cons, ← ih, ← keeps_and]; rfl

@[simp] theorem keeps_any (ts : List Truth) : (any ts).keeps = ts.any keeps := by
  induction ts with
  | nil => rfl
  | cons t ts ih => rw [any_cons, ← ih, ← keeps_or]; rfl

end Truth

variable {α : Type*}

/-- A sign of a pattern: any run of symbols, or one symbol of a class. -/
inductive Wild (α : Type*)
  | run
  | one (inClass : α → Bool)

def wildMatch : List (Wild α) → List α → Bool
  | [], s => s.isEmpty
  | .run :: ps, s => s.tails.any (wildMatch ps)
  | .one _ :: _, [] => false
  | .one p :: ps, c :: s => p c && wildMatch ps s

def fits : List (α → Bool) → List α → Bool
  | [], s => s.isEmpty
  | _ :: _, [] => false
  | p :: ps, c :: s => p c && fits ps s

def endsIn (ps : List (α → Bool)) (s : List α) : Bool := s.tails.any (fits ps)

theorem fits_length {ps : List (α → Bool)} {s : List α} (h : fits ps s = true) :
    s.length = ps.length := by
  induction ps generalizing s with
  | nil => simpa [fits] using h
  | cons p ps ih =>
    cases s with
    | nil => simp [fits] at h
    | cons c s =>
      simp only [fits, Bool.and_eq_true] at h
      simp [ih h.2]

theorem fits_replicate (p : α → Bool) (n : ℕ) (s : List α) :
    fits (List.replicate n p) s = (decide (s.length = n) && s.all p) := by
  induction n generalizing s with
  | zero => cases s <;> simp [fits]
  | succ n ih =>
    cases s with
    | nil => simp [fits, replicate_succ]
    | cons c s =>
      simp only [replicate_succ, fits, ih, length_cons, all_cons, Nat.succ.injEq]
      cases p c <;> simp

theorem fits_literal [DecidableEq α] (t s : List α) :
    fits (t.map fun a c => decide (c = a)) s = decide (s = t) := by
  induction t generalizing s with
  | nil => cases s <;> simp [fits]
  | cons a t ih => cases s <;> simp [fits, ih]

theorem wildMatch_ones (ps : List (α → Bool)) (s : List α) :
    wildMatch (ps.map .one) s = fits ps s := by
  induction ps generalizing s with
  | nil => rfl
  | cons p ps ih => cases s <;> simp [wildMatch, fits, ih]

theorem wildMatch_run_ones (ps : List (α → Bool)) (s : List α) :
    wildMatch (.run :: ps.map .one) s = endsIn ps s := by
  rw [wildMatch, endsIn, funext (wildMatch_ones ps)]

/-- The classes have a fixed length, so that only one end of the text can fit them. -/
theorem endsIn_eq (ps : List (α → Bool)) (s : List α) :
    endsIn ps s = fits ps (s.drop (s.length - ps.length)) := by
  rw [Bool.eq_iff_iff, endsIn, any_eq_true]
  constructor
  · rintro ⟨t, hsuffix, hfits⟩
    rw [mem_tails] at hsuffix
    have hdrop := suffix_iff_eq_drop.mp hsuffix
    rw [fits_length hfits] at hdrop
    rwa [← hdrop]
  · intro hfits
    exact ⟨_, by rw [mem_tails]; exact drop_suffix _ _, hfits⟩

def CodePoint.code : CodePoint → ℕ
  | .scalar c => c.toNat
  | .lone u => 0xD800 + u

/-- A class `[…]` as it is read: the symbol that a `-` would make a range of, and what the class has
so far. -/
structure GlobSet where
  invert : Bool
  prior : Option CodePoint
  ranges : List (CodePoint × CodePoint)

def GlobSet.has (g : GlobSet) (c : CodePoint) : Bool :=
  (g.ranges.any fun r => decide (r.1.code ≤ c.code) && decide (c.code ≤ r.2.code)) != g.invert

def GlobSet.add (g : GlobSet) (c : CodePoint) : GlobSet :=
  { g with prior := some c, ranges := g.ranges ++ [(c, c)] }

def GlobSet.upTo (g : GlobSet) (lo hi : CodePoint) : GlobSet :=
  { g with prior := none, ranges := g.ranges ++ [(lo, hi)] }

inductive GlobAt
  | outside
  | opened
  | inverted
  | inside (g : GlobSet)
  | dashed (g : GlobSet) (lo : CodePoint)

/-- The first symbol of a class, where `]` stands for itself. -/
def GlobAt.first (invert : Bool) (c : CodePoint) : GlobAt :=
  .inside ⟨invert, if c = .scalar ']' then none else some c, [(c, c)]⟩

/-- The signs of a `GLOB` pattern. A class that is not closed matches nothing. -/
def globSigns : GlobAt → JsString → List (Wild CodePoint)
  | .outside, [] => []
  | _, [] => [.one fun _ => false]
  | .outside, c :: ps =>
    if c = .scalar '*' then .run :: globSigns .outside ps
    else if c = .scalar '?' then .one (fun _ => true) :: globSigns .outside ps
    else if c = .scalar '[' then globSigns .opened ps
    else .one (fun a => decide (a = c)) :: globSigns .outside ps
  | .opened, c :: ps =>
    if c = .scalar '^' then globSigns .inverted ps else globSigns (.first false c) ps
  | .inverted, c :: ps => globSigns (.first true c) ps
  | .inside g, c :: ps =>
    if c = .scalar ']' then .one g.has :: globSigns .outside ps
    else match g.prior with
      | some lo =>
        if c = .scalar '-' then globSigns (.dashed g lo) ps else globSigns (.inside (g.add c)) ps
      | none => globSigns (.inside (g.add c)) ps
  | .dashed g lo, c :: ps =>
    if c = .scalar ']' then .one (g.add (.scalar '-')).has :: globSigns .outside ps
    else globSigns (.inside (g.upTo lo c)) ps

/-- `text GLOB pattern` -/
def glob (pattern : JsString) (text : Option JsString) : Truth :=
  text.map (wildMatch (globSigns .outside pattern))

/-- The signs of a `LIKE` pattern, after a `\` or not. A pattern that ends in a `\` is an error, and
keeps nothing. -/
def likeSigns : Bool → JsString → List (Wild CodePoint)
  | false, [] => []
  | true, [] => [.one fun _ => false]
  | true, c :: ps => .one (fun a => decide (a = c)) :: likeSigns false ps
  | false, c :: ps =>
    if c = .scalar '%' then .run :: likeSigns false ps
    else if c = .scalar '_' then .one (fun _ => true) :: likeSigns false ps
    else if c = .scalar '\\' then likeSigns true ps
    else .one (fun a => decide (a = c)) :: likeSigns false ps

/-- `text LIKE pattern` -/
def like (pattern : JsString) (text : Option JsString) : Truth :=
  text.map (wildMatch (likeSigns false pattern))

/-- `text !~ re`, where the expression is a run of classes and `$`. -/
def notEndingIn (re : List (CodePoint → Bool)) (text : Option JsString) : Truth :=
  Truth.not (text.map (endsIn re))

def Plain (c : CodePoint) : Prop :=
  c ∉ [.scalar '*', .scalar '?', .scalar '[', .scalar '%', .scalar '_', .scalar '\\']

theorem globSigns_plain {t : JsString} (h : ∀ c ∈ t, Plain c) :
    globSigns .outside t = (t.map fun a c => decide (c = a)).map .one := by
  induction t with
  | nil => rfl
  | cons c t ih =>
    obtain ⟨hc, ht⟩ := forall_mem_cons.mp h
    simp only [Plain, mem_cons, not_or] at hc
    obtain ⟨hstar, hmark, hopen, -⟩ := hc
    simp only [globSigns, if_neg hstar, if_neg hmark, if_neg hopen, ih ht, map_cons]

theorem likeSigns_plain {t : JsString} (h : ∀ c ∈ t, Plain c) :
    likeSigns false t = (t.map fun a c => decide (c = a)).map .one := by
  induction t with
  | nil => rfl
  | cons c t ih =>
    obtain ⟨hc, ht⟩ := forall_mem_cons.mp h
    simp only [Plain, mem_cons, not_or] at hc
    obtain ⟨-, -, -, hpercent, hunder, hback, -⟩ := hc
    simp only [likeSigns, if_neg hpercent, if_neg hunder, if_neg hback, ih ht, map_cons]

end Turma.Lib
