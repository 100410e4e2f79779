import Mathlib.Data.List.Basic
import Turma.Lib.JsObject

/-! JavaScript values in memory: an object is known by its address, and what it holds can be
written. -/

namespace Turma.Lib

open List Option

inductive JsVal
  | null
  | bool (b : Bool)
  | num (n : JsNumber)
  | str (s : JsString)
  | ref (a : ℕ)
deriving DecidableEq

/-- An array or an object, its parts in their order. -/
structure JsCell where
  isArray : Bool
  slots : List (Option JsString × JsVal)

abbrev JsHeap := List JsCell

namespace JsHeap

/-- `cell[i] = y` -/
def write (h : JsHeap) (a i : ℕ) (y : JsVal) : JsHeap :=
  h.modify a fun c => { c with slots := c.slots.modify i fun s => (s.1, y) }

mutual

/-- In the heap `h`, with its objects at addresses of `P` only, a value is this one. -/
def Holds (P : ℕ → Prop) (h : JsHeap) : Json → JsVal → Prop
  | .null, x => x = .null
  | .bool b, x => x = .bool b
  | .num n, x => x = .num n
  | .str s, x => x = .str s
  | .arr vs, x => ∃ a slots, x = .ref a ∧ P a ∧ h[a]? = some ⟨true, slots⟩ ∧
      HoldsElements P h vs slots
  | .obj ms, x => ∃ a slots, x = .ref a ∧ P a ∧ h[a]? = some ⟨false, slots⟩ ∧
      HoldsMembers P h ms slots

def HoldsElements (P : ℕ → Prop) (h : JsHeap) :
    JsonElements → List (Option JsString × JsVal) → Prop
  | .nil, slots => slots = []
  | .cons v vs, slots => ∃ x rest, slots = (none, x) :: rest ∧ Holds P h v x ∧
      HoldsElements P h vs rest

def HoldsMembers (P : ℕ → Prop) (h : JsHeap) :
    JsonMembers → List (Option JsString × JsVal) → Prop
  | .nil, slots => slots = []
  | .cons k v ms, slots => ∃ x rest, slots = (some k, x) :: rest ∧ Holds P h v x ∧
      HoldsMembers P h ms rest

end

def HoldsParts (P : ℕ → Prop) (h : JsHeap) (parts : List (Option JsString × Json))
    (slots : List (Option JsString × JsVal)) : Prop :=
  List.Forall₂ (fun p s => s.1 = p.1 ∧ Holds P h p.2 s.2) parts slots

theorem holdsElements_iff {P : ℕ → Prop} {h : JsHeap} : ∀ {vs : JsonElements}
    {slots : List (Option JsString × JsVal)},
    HoldsElements P h vs slots ↔ HoldsParts P h (Json.arr vs).parts slots
  | .nil, slots => by simp [HoldsElements, HoldsParts, Json.parts, JsonElements.toList]
  | .cons v vs, slots => by
    have hrest := fun rest => @holdsElements_iff P h vs rest
    simp only [HoldsElements, HoldsParts, Json.parts, JsonElements.toList, map_cons,
      forall₂_cons_left_iff, hrest]
    constructor
    · rintro ⟨x, rest, rfl, hx, hrest⟩
      exact ⟨(none, x), rest, ⟨rfl, hx⟩, hrest, rfl⟩
    · rintro ⟨⟨_, x⟩, rest, ⟨rfl, hx⟩, hrest, rfl⟩
      exact ⟨x, rest, rfl, hx, hrest⟩

theorem holdsMembers_iff {P : ℕ → Prop} {h : JsHeap} : ∀ {ms : JsonMembers}
    {slots : List (Option JsString × JsVal)},
    HoldsMembers P h ms slots ↔ HoldsParts P h (Json.obj ms).parts slots
  | .nil, slots => by simp [HoldsMembers, HoldsParts, Json.parts, JsonMembers.toList]
  | .cons k v ms, slots => by
    have hrest := fun rest => @holdsMembers_iff P h ms rest
    simp only [HoldsMembers, HoldsParts, Json.parts, JsonMembers.toList, map_cons,
      forall₂_cons_left_iff, hrest]
    constructor
    · rintro ⟨x, rest, rfl, hx, hrest⟩
      exact ⟨(some k, x), rest, ⟨rfl, hx⟩, hrest, rfl⟩
    · rintro ⟨⟨_, x⟩, rest, ⟨rfl, hx⟩, hrest, rfl⟩
      exact ⟨x, rest, rfl, hx, hrest⟩

mutual

/-- What a heap holds, another holds that keeps the objects it is made of. -/
theorem Holds.mono {P Q : ℕ → Prop} {h h' : JsHeap}
    (hkeep : ∀ a c, P a → h[a]? = some c → Q a ∧ h'[a]? = some c) :
    ∀ {v : Json} {x : JsVal}, Holds P h v x → Holds Q h' v x
  | .null, _, hx => hx
  | .bool _, _, hx => hx
  | .num _, _, hx => hx
  | .str _, _, hx => hx
  | .arr _, _, ⟨a, slots, hx, ha, hcell, hslots⟩ =>
    ⟨a, slots, hx, (hkeep a _ ha hcell).1, (hkeep a _ ha hcell).2,
      HoldsElements.mono hkeep hslots⟩
  | .obj _, _, ⟨a, slots, hx, ha, hcell, hslots⟩ =>
    ⟨a, slots, hx, (hkeep a _ ha hcell).1, (hkeep a _ ha hcell).2,
      HoldsMembers.mono hkeep hslots⟩

theorem HoldsElements.mono {P Q : ℕ → Prop} {h h' : JsHeap}
    (hkeep : ∀ a c, P a → h[a]? = some c → Q a ∧ h'[a]? = some c) :
    ∀ {vs : JsonElements} {slots : List (Option JsString × JsVal)},
      HoldsElements P h vs slots → HoldsElements Q h' vs slots
  | .nil, _, hs => hs
  | .cons _ _, _, ⟨x, rest, hs, hx, hrest⟩ =>
    ⟨x, rest, hs, Holds.mono hkeep hx, HoldsElements.mono hkeep hrest⟩

theorem HoldsMembers.mono {P Q : ℕ → Prop} {h h' : JsHeap}
    (hkeep : ∀ a c, P a → h[a]? = some c → Q a ∧ h'[a]? = some c) :
    ∀ {ms : JsonMembers} {slots : List (Option JsString × JsVal)},
      HoldsMembers P h ms slots → HoldsMembers Q h' ms slots
  | .nil, _, hs => hs
  | .cons _ _ _, _, ⟨x, rest, hs, hx, hrest⟩ =>
    ⟨x, rest, hs, Holds.mono hkeep hx, HoldsMembers.mono hkeep hrest⟩

end

theorem HoldsParts.mono {P Q : ℕ → Prop} {h h' : JsHeap}
    (hkeep : ∀ a c, P a → h[a]? = some c → Q a ∧ h'[a]? = some c)
    {parts : List (Option JsString × Json)} {slots : List (Option JsString × JsVal)}
    (hparts : HoldsParts P h parts slots) : HoldsParts Q h' parts slots :=
  hparts.imp fun _ _ hp => ⟨hp.1, hp.2.mono hkeep⟩

theorem get_write_other {h : JsHeap} {a b i : ℕ} {y : JsVal} (hb : b ≠ a) :
    (h.write a i y)[b]? = h[b]? := by
  rw [write, getElem?_modify_ne _ _ (Ne.symm hb)]

theorem get_write {h : JsHeap} {a : ℕ} {y : JsVal} {c : JsCell}
    {done rest : List (Option JsString × JsVal)} {s : Option JsString × JsVal}
    (hcell : h[a]? = some c) (hslots : c.slots = done ++ s :: rest) :
    (h.write a done.length y)[a]? = some { c with slots := done ++ (s.1, y) :: rest } := by
  rw [write, getElem?_modify_eq, hcell]
  have hmod : (done ++ s :: rest).modify done.length (fun s => (s.1, y)) =
      done ++ (s.1, y) :: rest := by
    clear hslots
    induction done with
    | nil => rfl
    | cons d done ih => exact congrArg (d :: ·) ih
  rw [Option.map_eq_map, map_some, hslots, hmod]

theorem get_of_grown {h h' : JsHeap} (hgrown : h <+: h') {a : ℕ} {c : JsCell}
    (hcell : h[a]? = some c) : h'[a]? = some c := by
  obtain ⟨more, rfl⟩ := hgrown
  rw [getElem?_append_left (List.getElem?_eq_some_iff.mp hcell).1, hcell]

/-- A write beyond `h₀` leaves what was in `h₀`. -/
theorem grown_write {h₀ h : JsHeap} (hgrown : h₀ <+: h) {a : ℕ} (ha : h₀.length ≤ a) (i : ℕ)
    (y : JsVal) : h₀ <+: h.write a i y := by
  rw [write]
  generalize (fun c : JsCell => { c with slots := c.slots.modify i fun s => (s.1, y) }) = change
  induction h₀ generalizing a h with
  | nil => exact List.nil_prefix
  | cons c h₀ ih =>
    obtain ⟨more, rfl⟩ := hgrown
    obtain ⟨a, rfl⟩ : ∃ a', a = a' + 1 := ⟨a - 1, by rw [length_cons] at ha; omega⟩
    rw [cons_append, modify_succ_cons]
    exact prefix_cons_inj c |>.mpr
      (ih (prefix_append _ _) (by rw [length_cons] at ha; omega))

/-- The loop that rewrites the parts of the cell at `a` by `f`, in a copy that is made at the first
change. -/
def copyOnWrite (f : Option JsString → JsVal → JsHeap → JsHeap × JsVal) (a : ℕ) :
    ℕ → List (Option JsString × JsVal) → JsHeap → Option ℕ → JsHeap × Option ℕ
  | _, [], h, out => (h, out)
  | i, (k, x) :: rest, h, out =>
    let h' := (f k x h).1
    let y := (f k x h).2
    if y = x then copyOnWrite f a (i + 1) rest h' out
    else match out with
      | some o => copyOnWrite f a (i + 1) rest (h'.write o i y) (some o)
      | none =>
        copyOnWrite f a (i + 1) rest ((h' ++ h'[a]?.toList).write h'.length i y) (some h'.length)

/-- How far the loop is: the parts `done` are rewritten as `wrote`, in the cell at `out` or still in
the one at `a`. -/
structure Copying (P : ℕ → Prop) (h₀ : JsHeap) (a : ℕ) (isArray : Bool)
    (done : List (Option JsString × Json)) (wrote rest : List (Option JsString × JsVal))
    (h : JsHeap) (out : Option ℕ) : Prop where
  grown : h₀ <+: h
  cell : h[out.getD a]? = some ⟨isArray, wrote ++ rest⟩
  fresh : ∀ o, out = some o → h₀.length ≤ o
  parts : HoldsParts (fun b => (P b ∨ h₀.length ≤ b) ∧ some b ≠ out) h done wrote

theorem Copying.write {P : ℕ → Prop} {h₀ h : JsHeap} {a o : ℕ} {isArray : Bool}
    {done : List (Option JsString × Json)} {wrote rest : List (Option JsString × JsVal)}
    {k : Option JsString} {v : Json} {x y : JsVal}
    (hc : Copying P h₀ a isArray done wrote ((k, x) :: rest) h (some o))
    (hy : Holds (fun b => (P b ∨ h₀.length ≤ b) ∧ b ≠ o) h v y) :
    Copying P h₀ a isArray (done ++ [(k, v)]) (wrote ++ [(k, y)]) rest
      (h.write o wrote.length y) (some o) where
  grown := grown_write hc.grown (hc.fresh o rfl) _ _
  cell := by
    rw [append_assoc]
    exact get_write hc.cell rfl
  fresh := hc.fresh
  parts := by
    have hkeep : ∀ b c, b ≠ o → h[b]? = some c → (h.write o wrote.length y)[b]? = some c := by
      intro b c hb hcell
      rw [get_write_other hb, hcell]
    refine rel_append (hc.parts.mono fun b c hb hcell => ⟨hb, ?_⟩)
      (.cons ⟨rfl, hy.mono fun b c hb hcell => ⟨⟨hb.1, ?_⟩, ?_⟩⟩ .nil)
    · exact hkeep b c (fun heq => hb.2 (congrArg some heq)) hcell
    · exact hkeep b c hb.2 hcell
    · exact fun heq => hb.2 (some.inj heq)

/-- What the loop is asked to do with a part. -/
def Rewrites (P : ℕ → Prop) (f : Option JsString → JsVal → JsHeap → JsHeap × JsVal)
    (g : Option JsString → Json → Json) (h₀ : JsHeap) (parts : List (Option JsString × Json)) :
    Prop :=
  ∀ k v x h, (k, v) ∈ parts → h₀ <+: h → Holds P h v x →
    h <+: (f k x h).1 ∧ Holds (fun b => P b ∨ h.length ≤ b) (f k x h).1 (g k v) (f k x h).2

theorem Copying.run {P : ℕ → Prop} {f : Option JsString → JsVal → JsHeap → JsHeap × JsVal}
    {g : Option JsString → Json → Json} {h₀ : JsHeap} {a : ℕ} {isArray : Bool}
    {todo : List (Option JsString × Json)} (hP : ∀ b, P b → b < h₀.length)
    (hf : Rewrites P f g h₀ todo) {done : List (Option JsString × Json)}
    {wrote rest : List (Option JsString × JsVal)} {h : JsHeap} {out : Option ℕ}
    (hc : Copying P h₀ a isArray done wrote rest h out) (hrest : HoldsParts P h₀ todo rest) :
    ∃ wrote', Copying P h₀ a isArray (done ++ todo.map fun p => (p.1, g p.1 p.2)) wrote' []
      (copyOnWrite f a wrote.length rest h out).1 (copyOnWrite f a wrote.length rest h out).2 := by
  induction hrest generalizing done wrote h out with
  | nil =>
    rw [map_nil, append_nil]
    exact ⟨wrote, hc⟩
  | @cons p s todo rest hhead hrest ih =>
    obtain ⟨k, v⟩ := p
    obtain ⟨k', x⟩ := s
    obtain ⟨rfl, hx⟩ := hhead
    have hnext : Rewrites P f g h₀ todo := fun k v x h hmem =>
      hf k v x h (.tail _ hmem)
    obtain ⟨hgrown, hy⟩ := hf k' v x h mem_cons_self hc.grown
      (hx.mono fun b c hb hcell => ⟨hb, get_of_grown hc.grown hcell⟩)
    unfold copyOnWrite
    dsimp only
    generalize f k' x h = r at hgrown hy ⊢
    obtain ⟨h', y⟩ := r
    have hlen := hc.grown.length_le
    have hlen' := hgrown.length_le
    have hcell := get_of_grown hgrown hc.cell
    have hold : HoldsParts (fun b => (P b ∨ h₀.length ≤ b) ∧ some b ≠ out) h' done wrote :=
      hc.parts.mono fun b c hb hcell => ⟨hb, get_of_grown hgrown hcell⟩
    have hnew : Holds (fun b => (P b ∨ h₀.length ≤ b) ∧ some b ≠ out) h' (g k' v) y := by
      refine hy.mono fun b c hb hcell => ⟨?_, hcell⟩
      rcases hb with hb | hb
      · refine ⟨.inl hb, fun hout => ?_⟩
        have hfresh := hc.fresh b hout.symm
        have hlow := hP b hb
        omega
      · refine ⟨.inr (by omega), fun hout => ?_⟩
        have hinside := hc.cell
        rw [← hout] at hinside
        have hlt := (List.getElem?_eq_some_iff.mp hinside).1
        dsimp only [getD_some] at hlt
        omega
    have happ : done ++ ((k', g k' v) :: todo.map fun p => (p.1, g p.1 p.2)) =
        done ++ [(k', g k' v)] ++ todo.map fun p => (p.1, g p.1 p.2) := by simp
    have hcount : wrote.length + 1 = (wrote ++ [(k', y)]).length := by simp
    rw [map_cons, happ]
    split_ifs with hsame
    · subst hsame
      rw [hcount]
      refine ih hnext ⟨hc.grown.trans hgrown, ?_, hc.fresh, ?_⟩
      · rw [append_assoc]
        exact hcell
      · exact rel_append hold (.cons ⟨rfl, hnew⟩ .nil)
    · cases out with
      | some o =>
        rw [hcount]
        refine ih hnext (Copying.write (x := x) ⟨hc.grown.trans hgrown, hcell, hc.fresh, hold⟩ ?_)
        exact hnew.mono fun b c hb hcell => ⟨⟨hb.1, fun heq => hb.2 (congrArg some heq)⟩, hcell⟩
      | none =>
        rw [hcount]
        have hcopy : h'[a]?.toList = [⟨isArray, wrote ++ (k', x) :: rest⟩] := by
          rw [getD_none] at hcell
          rw [hcell]
          rfl
        have hkeep : ∀ b c, h'[b]? = some c → b ≠ h'.length ∧
            (h' ++ h'[a]?.toList)[b]? = some c := by
          intro b c hb
          have hlt := (List.getElem?_eq_some_iff.mp hb).1
          exact ⟨by omega, get_of_grown (prefix_append _ _) hb⟩
        refine ih hnext (Copying.write (x := x) ⟨?_, ?_, fun o ho => ?_, ?_⟩ ?_)
        · exact (hc.grown.trans hgrown).trans (prefix_append _ _)
        · rw [getD_some, hcopy, getElem?_append_right (le_refl _), Nat.sub_self]
          rfl
        · rw [← some.inj ho]
          omega
        · refine hold.mono fun b c hb hcell => ⟨⟨hb.1, fun heq => ?_⟩, (hkeep b c hcell).2⟩
          exact (hkeep b c hcell).1 (some.inj heq)
        · exact hnew.mono fun b c hb hcell => ⟨⟨hb.1, (hkeep b c hcell).1⟩, (hkeep b c hcell).2⟩

/-- The cell that the loop ends with holds the rewritten parts, and no cell there was is changed. -/
theorem copyOnWrite_holds {P : ℕ → Prop}
    {f : Option JsString → JsVal → JsHeap → JsHeap × JsVal} {g : Option JsString → Json → Json}
    {h : JsHeap} {a : ℕ} {isArray : Bool} {parts : List (Option JsString × Json)}
    {slots : List (Option JsString × JsVal)} (hP : ∀ b, P b → b < h.length) (ha : P a)
    (hcell : h[a]? = some ⟨isArray, slots⟩) (hf : Rewrites P f g h parts)
    (hparts : HoldsParts P h parts slots) :
    h <+: (copyOnWrite f a 0 slots h none).1 ∧
      ∃ o slots', ((copyOnWrite f a 0 slots h none).2.elim (.ref a) .ref : JsVal) = .ref o ∧
        (P o ∨ h.length ≤ o) ∧
        (copyOnWrite f a 0 slots h none).1[o]? = some ⟨isArray, slots'⟩ ∧
        HoldsParts (fun b => P b ∨ h.length ≤ b) (copyOnWrite f a 0 slots h none).1
          (parts.map fun p => (p.1, g p.1 p.2)) slots' := by
  have hstart : Copying P h a isArray [] [] slots h none :=
    ⟨prefix_refl _, hcell, fun _ => (nomatch ·), .nil⟩
  obtain ⟨wrote, hc⟩ := hstart.run hP hf hparts
  rw [length_nil, nil_append] at hc
  refine ⟨hc.grown, (copyOnWrite f a 0 slots h none).2.getD a, wrote, ?_, ?_, ?_,
    hc.parts.mono fun b c hb hcell => ⟨hb.1, hcell⟩⟩
  · cases (copyOnWrite f a 0 slots h none).2 <;> rfl
  · cases hout : (copyOnWrite f a 0 slots h none).2 with
    | none => exact .inl ha
    | some o => exact .inr (hc.fresh o hout)
  · rw [hc.cell, append_nil]

end JsHeap

end Turma.Lib
