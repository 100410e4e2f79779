import Mathlib.Data.List.Basic
import Mathlib.Data.Nat.Init

/-! Readers that are fed a stream in chunks. `reads b (some (a, r))` says that a value `a` stands at
the front of the buffer `b` and `r` behind it, `reads b none` that the front is not complete yet. -/

namespace Turma.Lib

open List

variable {α β : Type*} (reads : List β → Option (α × List β) → Prop)

/-- The values that a loop takes off a buffer, and the tail that it leaves. -/
inductive Drains : List β → List α → List β → Prop
  | stop {b : List β} (h : reads b none) : Drains b [] b
  | next {b r rest : List β} {a : α} {out : List α} (h : reads b (some (a, r)))
      (hr : Drains r out rest) : Drains b (a :: out) rest

/-- Every chunk goes behind the tail that the one before it left. -/
inductive Feeds : List β → List (List β) → List α → List β → Prop
  | done (b : List β) : Feeds b [] [] b
  | feed {b r rest c : List β} {cs : List (List β)} {out outs : List α}
      (h : Drains reads (b ++ c) out r) (hr : Feeds r cs outs rest) :
      Feeds b (c :: cs) (out ++ outs) rest

/-- A complete value is read the same whatever comes behind it. -/
def Stable (b : List β) : Prop :=
  ∀ a r x, reads b (some (a, r)) → reads (b ++ x) (some (a, r ++ x))

/-- The buffers on which the reader is well behaved: it decides, it takes something off the front,
and it is stable. `ok` holds of every start of one, and of what a read leaves of one. -/
structure Admits (ok : List β → Prop) : Prop where
  one : ∀ b x y, reads b x → reads b y → x = y
  total : ∀ b, ok b → ∃ x, reads b x
  shrinks : ∀ b a r, ok b → reads b (some (a, r)) → r.length < b.length
  stable : ∀ b, ok b → Stable reads b
  start : ∀ b x, ok (b ++ x) → ok b
  rest : ∀ b a r, ok b → reads b (some (a, r)) → ok r

variable {reads} {ok : List β → Prop}

variable {out : List α}

theorem Drains.stuck {b rest : List β} (h : Drains reads b out rest) :
    reads rest none := by
  induction h with
  | stop h => exact h
  | next _ _ ih => exact ih

/-- One buffer is drained in one way. -/
theorem Drains.unique (hone : ∀ b x y, reads b x → reads b y → x = y) {b rest rest' : List β}
    {out out' : List α} (h : Drains reads b out rest) (h' : Drains reads b out' rest') :
    out = out' ∧ rest = rest' := by
  induction h generalizing out' rest' with
  | stop h =>
    cases h' with
    | stop => exact ⟨rfl, rfl⟩
    | next h' => exact absurd (hone _ _ _ h h') (by simp)
  | next h _ ih =>
    cases h' with
    | stop h' => exact absurd (hone _ _ _ h h') (by simp)
    | next h' hr' =>
      obtain ⟨rfl, rfl⟩ := Prod.mk.inj (Option.some.inj (hone _ _ _ h h'))
      obtain ⟨rfl, rfl⟩ := ih hr'
      exact ⟨rfl, rfl⟩

theorem Admits.drains (had : Admits reads ok) {b : List β} (hb : ok b) :
    ∃ out rest, Drains reads b out rest := by
  induction hm : b.length using Nat.strong_induction_on generalizing b with
  | _ m ih =>
    obtain ⟨x, hx⟩ := had.total b hb
    cases x with
    | none => exact ⟨[], b, .stop hx⟩
    | some x =>
      have hlt := had.shrinks b x.1 x.2 hb hx
      obtain ⟨out, rest, h⟩ := ih x.2.length (by omega) (had.rest b x.1 x.2 hb hx) rfl
      exact ⟨x.1 :: out, rest, .next hx h⟩

theorem Drains.admits (had : Admits reads ok) {b x r : List β}
    (hb : ok (b ++ x)) (h : Drains reads b out r) : ok (r ++ x) := by
  induction h with
  | stop => exact hb
  | next h _ ih =>
    exact ih (had.rest _ _ _ hb (had.stable _ (had.start _ _ hb) _ _ x h))

/-- What comes later goes behind the tail. -/
theorem Drains.append (had : Admits reads ok) {b x r rest : List β} {out outs : List α}
    (hb : ok b) (h : Drains reads b out r) (hr : Drains reads (r ++ x) outs rest) :
    Drains reads (b ++ x) (out ++ outs) rest := by
  induction h with
  | stop => exact hr
  | next h _ ih => exact .next (had.stable _ hb _ _ x h) (ih (had.rest _ _ _ hb h) hr)

variable {cs : List (List β)}

theorem Admits.feeds (had : Admits reads ok) {b : List β}
    (hb : ok (b ++ cs.flatten)) : ∃ out rest, Feeds reads b cs out rest := by
  induction cs generalizing b with
  | nil => exact ⟨[], b, .done b⟩
  | cons c cs ih =>
    rw [flatten_cons, ← append_assoc] at hb
    obtain ⟨out, r, h⟩ := had.drains (had.start _ _ hb)
    obtain ⟨outs, rest, hr⟩ := ih (h.admits had hb)
    exact ⟨out ++ outs, rest, .feed h hr⟩

/-- Feeding a stream in chunks drains it. -/
theorem Feeds.drains (had : Admits reads ok) {b rest : List β}
    (hb : ok (b ++ cs.flatten)) (hstuck : reads b none)
    (h : Feeds reads b cs out rest) : Drains reads (b ++ cs.flatten) out rest := by
  induction h with
  | done b =>
    rw [flatten_nil, append_nil]
    exact .stop hstuck
  | feed h _ ih =>
    rw [flatten_cons, ← append_assoc] at hb ⊢
    exact Drains.append had (had.start _ _ hb) h (ih (h.admits had hb) h.stuck)

/-- However a stream is cut, the reader takes from it what it takes from the whole. -/
theorem Admits.cut (had : Admits reads ok) (hstuck : reads [] none)
    {rest : List β} (hok : ok cs.flatten) (h : Drains reads cs.flatten out rest) :
    Feeds reads [] cs out rest := by
  have hwhole : ok ([] ++ cs.flatten) := hok
  obtain ⟨out', rest', hfeeds⟩ := had.feeds hwhole
  obtain ⟨rfl, rfl⟩ := (hfeeds.drains had hwhole hstuck).unique had.one h
  exact hfeeds

end Turma.Lib
