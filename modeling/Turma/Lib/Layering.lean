import Mathlib.Data.Fintype.Card
import Mathlib.Data.List.Chain
import Mathlib.Data.Set.Finite.Basic
import Mathlib.Logic.Relation
import Mathlib.Order.WellFounded

/-! Dependencies: chains of them, the length of the longest one, and the cycles that they reach. -/

namespace Turma.Lib

open Relation

variable {α : Type*} {deps : α → List α} {a b : α} {m n : ℕ}

def Chained (deps : α → List α) (a : α) (n : ℕ) : Prop :=
  ∃ chain : List α, (a :: chain).IsChain (fun a b => b ∈ deps a) ∧ chain.length = n

structure Depth (deps : α → List α) (a : α) (n : ℕ) : Prop where
  chained : Chained deps a n
  longest : ∀ m, Chained deps a m → m ≤ n

theorem chained_zero (deps : α → List α) (a : α) : Chained deps a 0 := ⟨[], .singleton a, rfl⟩

theorem chained_succ : Chained deps a (n + 1) ↔ ∃ b ∈ deps a, Chained deps b n := by
  constructor
  · rintro ⟨chain, hchain, hlen⟩
    obtain ⟨b, rest, rfl⟩ := List.exists_cons_of_length_eq_add_one hlen
    rw [List.isChain_cons_cons] at hchain
    exact ⟨b, hchain.1, rest, hchain.2, by simpa using hlen⟩
  · rintro ⟨b, hb, chain, hchain, rfl⟩
    exact ⟨b :: chain, List.isChain_cons_cons.mpr ⟨hb, hchain⟩, rfl⟩

theorem Depth.unique (hm : Depth deps a m) (hn : Depth deps a n) : m = n :=
  Nat.le_antisymm (hn.longest m hm.chained) (hm.longest n hn.chained)

/-- What `a` depends on is less deep. -/
theorem Depth.lt (ha : Depth deps a m) (hb : Depth deps b n) (hab : b ∈ deps a) : n < m :=
  ha.longest (n + 1) (chained_succ.mpr ⟨b, hab, hb.chained⟩)

/-- `a` depends on something that depends on itself, at however many removes. -/
def ReachesCycle (deps : α → List α) (a : α) : Prop :=
  ∃ c, ReflTransGen (fun a b => b ∈ deps a) a c ∧ TransGen (fun a b => b ∈ deps a) c c

/-- Where everything depends on something, it all reaches a cycle. -/
theorem reachesCycle_of_stalled {s : List α} (hstalled : ∀ a ∈ s, ∃ b ∈ s, b ∈ deps a)
    (ha : a ∈ s) : ReachesCycle deps a := by
  by_contra hno
  have hacyclic : ∀ c, ReflTransGen (fun a b => b ∈ deps a) a c →
      ¬ TransGen (fun a b => b ∈ deps a) c c := fun c hreach hcycle => hno ⟨c, hreach, hcycle⟩
  -- what is reached from `a` has no least element, and it is finite
  let reached := {x : α // x ∈ s ∧ ReflTransGen (fun a b => b ∈ deps a) a x}
  let below : reached → reached → Prop := fun y x => TransGen (fun a b => b ∈ deps a) x.1 y.1
  have : Finite reached := (s.finite_toSet.subset fun _ hx => hx.1).to_subtype
  have : Std.Irrefl below := ⟨fun x hx => hacyclic x.1 x.2.2 hx⟩
  have hwf : WellFounded below := Finite.wellFounded_of_trans_of_irrefl below
  obtain ⟨x, -, hmin⟩ := hwf.has_min Set.univ ⟨⟨a, ha, .refl⟩, trivial⟩
  obtain ⟨y, hy, hxy⟩ := hstalled x.1 x.2.1
  exact hmin ⟨y, hy, x.2.2.tail hxy⟩ trivial (.single hxy)

/-- A step adds one to the length of a chain. -/
theorem chained_of_reach (h : ReflTransGen (fun a b => b ∈ deps a) a b) (hb : Chained deps b n) :
    ∃ m, n ≤ m ∧ Chained deps a m := by
  induction h using ReflTransGen.head_induction_on with
  | refl => exact ⟨n, le_rfl, hb⟩
  | head hstep _ ih =>
    obtain ⟨m, hm, hchained⟩ := ih
    exact ⟨m + 1, by omega, chained_succ.mpr ⟨_, hstep, hchained⟩⟩

/-- There is no longest chain around a cycle, or from where one is reached. -/
theorem ReachesCycle.not_depth (h : ReachesCycle deps a) : ¬ Depth deps a n := by
  obtain ⟨c, hreach, hcycle⟩ := h
  have hround : ∀ k, ∃ m, k ≤ m ∧ Chained deps c m := by
    intro k
    induction k with
    | zero => exact ⟨0, le_rfl, chained_zero deps c⟩
    | succ k ih =>
      obtain ⟨m, hm, hchained⟩ := ih
      obtain ⟨d, hstep, hback⟩ := TransGen.head'_iff.mp hcycle
      obtain ⟨m', hm', hchained'⟩ := chained_of_reach hback hchained
      exact ⟨m' + 1, by omega, chained_succ.mpr ⟨d, hstep, hchained'⟩⟩
  intro hdepth
  obtain ⟨m, hm, hchained⟩ := hround (n + 1)
  obtain ⟨m', hm', hchained'⟩ := chained_of_reach hreach hchained
  have hle := hdepth.longest m' hchained'
  omega

end Turma.Lib
