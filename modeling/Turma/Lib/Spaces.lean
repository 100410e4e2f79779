import Mathlib.Data.List.Chain
import Turma.Lib.Utf16

/-! Strings whose words stand one space apart. -/

namespace Turma.Lib.Units

open List hiding head?_append_of_ne_nil

/-- `s.replace(/ +/g, " ")`. -/
def squeeze : Units → Units
  | [] => []
  | c :: s => if c = 32 ∧ s.head? = some 32 then squeeze s else c :: squeeze s

/-- `s.replace(/^ | $/g, "")`. -/
def trimOne (s : Units) : Units :=
  let t := if s.head? = some 32 then s.tail else s
  if t.getLast? = some 32 then t.dropLast else t

def firstWord (s : Units) : Units := (s.dropWhile (· = 32)).takeWhile (· ≠ 32)

def Single (s : Units) : Prop := s.IsChain fun a b => ¬ (a = 32 ∧ b = 32)

structure Tidy (s : Units) : Prop where
  single : Single s
  head : s.head? ≠ some 32
  last : s.getLast? ≠ some 32

variable (s : Units)

theorem head?_squeeze : (squeeze s).head? = s.head? := by
  induction s with
  | nil => rfl
  | cons c s ih =>
    rw [squeeze]
    split_ifs with h
    · rw [ih, h.2, h.1]
      rfl
    · rfl

theorem single_squeeze : Single (squeeze s) := by
  induction s with
  | nil => exact .nil
  | cons c s ih =>
    rw [squeeze]
    split_ifs with h
    · exact ih
    · refine isChain_cons.mpr ⟨fun d hd hboth => h ⟨hboth.1, ?_⟩, ih⟩
      rw [head?_squeeze, Option.mem_def] at hd
      rw [hd, hboth.2]

theorem squeeze_of_single {s : Units} (h : Single s) : squeeze s = s := by
  induction s with
  | nil => rfl
  | cons c s ih =>
    obtain ⟨hc, hs⟩ := isChain_cons.mp h
    rw [squeeze, if_neg fun hboth => hc 32 hboth.2 ⟨hboth.1, rfl⟩, ih hs]

theorem cpLength_squeeze : cpLength (squeeze s) ≤ cpLength s := by
  induction s with
  | nil => exact le_rfl
  | cons c s ih =>
    rw [squeeze]
    split_ifs with h
    · exact ih.trans (cpLength_le_cons c s)
    · rw [cpLength_cons, cpLength_cons, paired_congr (head?_squeeze s)]
      split_ifs
      · exact ih
      · exact Nat.add_le_add_right ih 1

theorem squeeze_append {x y : Units} (h : ¬ (x.getLast? = some 32 ∧ y.head? = some 32)) :
    squeeze (x ++ y) = squeeze x ++ squeeze y := by
  induction x with
  | nil => rfl
  | cons c x ih =>
    rw [cons_append, squeeze, squeeze]
    cases x with
    | nil =>
      have hc : ¬ (c = 32 ∧ y.head? = some 32) := by simpa using h
      rw [nil_append, if_neg hc]
      simp [squeeze]
    | cons d x =>
      rw [ih (by simpa [getLast?_cons_cons] using h)]
      by_cases hboth : c = 32 ∧ d = 32
      · simp [hboth]
      · simp [hboth]

theorem squeeze_replicate (k : ℕ) : squeeze (List.replicate k 32) = [] ∨
    squeeze (List.replicate k 32) = [32] := by
  induction k with
  | zero => exact .inl rfl
  | succ k ih =>
    rw [replicate_succ, squeeze]
    cases k with
    | zero => exact .inr rfl
    | succ k =>
      rw [if_pos ⟨rfl, rfl⟩]
      exact ih

variable {c : ℕ}

theorem mem_squeeze {s : Units} (h : c ∈ squeeze s) : c ∈ s := by
  induction s with
  | nil => exact h
  | cons d s ih =>
    rw [squeeze] at h
    split_ifs at h
    · exact .tail _ (ih h)
    · rcases mem_cons.mp h with rfl | h
      · exact mem_cons_self
      · exact .tail _ (ih h)

theorem dropWhile_of_head {p : ℕ → Bool} {s : Units} (h : ∀ c ∈ s.head?, p c = false) :
    s.dropWhile p = s := by
  cases s with
  | nil => rfl
  | cons c s => rw [dropWhile_cons, if_neg (by simp [h c rfl])]

/-- `s.replace(/^ +| +$/g, "")` has nothing to do. -/
theorem Tidy.trimmed {s : Units} (h : Tidy s) :
    ((s.dropWhile (· = 32)).reverse.dropWhile (· = 32)).reverse = s := by
  have hhead : s.dropWhile (· = 32) = s :=
    dropWhile_of_head fun c hc => decide_eq_false fun h32 => h.head (by rw [← h32]; exact hc)
  have hlast : s.reverse.dropWhile (· = 32) = s.reverse :=
    dropWhile_of_head fun c hc => decide_eq_false fun h32 => by
      rw [head?_reverse] at hc
      exact h.last (by rw [← h32]; exact hc)
  rw [hhead, hlast, reverse_reverse]

theorem Tidy.firstWord {s : Units} (h : Tidy s) : firstWord s = s.takeWhile (· ≠ 32) := by
  rw [Units.firstWord, dropWhile_of_head fun c hc => decide_eq_false fun h32 =>
    h.head (by rw [← h32]; exact hc)]

theorem trimOne_of_tidy {s : Units} (h : Tidy s) : trimOne s = s := by
  rw [trimOne, if_neg h.head, if_neg h.last]

theorem trimOne_inside : trimOne s <:+: s := by
  have ht : (if s.head? = some 32 then s.tail else s) <:+ s := by
    split_ifs
    · exact tail_suffix s
    · exact suffix_refl s
  rw [trimOne]
  generalize (if s.head? = some 32 then s.tail else s) = t at ht
  split_ifs
  · exact (List.dropLast_prefix _).isInfix.trans ht.isInfix
  · exact ht.isInfix

theorem cpLength_inside {s t : Units} (h : s <:+: t) : cpLength s ≤ cpLength t := by
  obtain ⟨x, y, rfl⟩ := h
  exact (cpLength_suffix ⟨x, rfl⟩).trans (cpLength_start ⟨y, rfl⟩)

theorem Single.of_inside {s t : Units} (ht : Single t) (h : s <:+: t) : Single s := by
  obtain ⟨x, y, rfl⟩ := h
  exact ht.left_of_append.right_of_append

/-- A string without doubled spaces has one space at most at each end. -/
theorem tidy_trimOne {s : Units} (h : Single s) : Tidy (trimOne s) := by
  have hhead : (if s.head? = some 32 then s.tail else s).head? ≠ some 32 := by
    split_ifs with hs
    · cases s with
      | nil => simp
      | cons c s =>
        obtain rfl : c = 32 := by simpa using hs
        exact fun hd => (isChain_cons.mp h).1 32 hd ⟨rfl, rfl⟩
    · exact hs
  have hsingle : Single (if s.head? = some 32 then s.tail else s) := by
    split_ifs
    · exact h.of_inside (tail_suffix s).isInfix
    · exact h
  refine ⟨h.of_inside (trimOne_inside s), ?_, ?_⟩
  · rw [trimOne]
    generalize (if s.head? = some 32 then s.tail else s) = t at hhead
    split_ifs with ht
    · cases t with
      | nil => simp at ht
      | cons c t =>
        cases t with
        | nil => simp
        | cons d t => exact hhead
    · exact hhead
  · rw [trimOne]
    generalize (if s.head? = some 32 then s.tail else s) = t at hsingle
    split_ifs with ht
    · obtain ⟨x, rfl⟩ : ∃ x, t = x ++ [32] := ⟨_, (dropLast_append_getLast? 32 ht).symm⟩
      rw [dropLast_concat]
      exact fun hx => (isChain_append.mp hsingle).2.2 32 hx 32 rfl ⟨rfl, rfl⟩
    · exact ht

theorem tidy_squeeze : Tidy (trimOne (squeeze s)) := tidy_trimOne (single_squeeze s)

theorem squeeze_tidy {s : Units} (h : Tidy s) : trimOne (squeeze s) = s := by
  rw [squeeze_of_single h.single, trimOne_of_tidy h]

theorem firstWord_space : firstWord (32 :: s) = firstWord s := rfl

theorem firstWord_cons (hc : c ≠ 32) (s : Units) :
    firstWord (c :: s) = c :: s.takeWhile (· ≠ 32) := by
  simp [firstWord, hc]

theorem takeWhile_squeeze :
    (squeeze s).takeWhile (· ≠ 32) = s.takeWhile (· ≠ 32) := by
  induction s with
  | nil => rfl
  | cons c s ih =>
    rw [squeeze]
    split_ifs with h
    · have hnone : (squeeze s).takeWhile (· ≠ 32) = [] := by
        have hhead := head?_squeeze s
        cases hq : squeeze s with
        | nil => rfl
        | cons d q =>
          rw [hq, h.2] at hhead
          simp [Option.some.inj hhead]
      rw [hnone]
      simp [h.1]
    · rw [takeWhile_cons, takeWhile_cons, ih]

theorem firstWord_squeeze : firstWord (squeeze s) = firstWord s := by
  induction s with
  | nil => rfl
  | cons c s ih =>
    by_cases hc : c = 32
    · subst hc
      rw [squeeze, firstWord_space]
      split_ifs
      · exact ih
      · rw [firstWord_space, ih]
    · rw [squeeze, if_neg fun h => hc h.1, firstWord_cons hc, firstWord_cons hc,
        takeWhile_squeeze]

theorem firstWord_append (x y : Units) :
    firstWord (x ++ 32 :: y) = if firstWord x = [] then firstWord y else firstWord x := by
  induction x with
  | nil => rfl
  | cons c x ih =>
    by_cases hc : c = 32
    · subst hc
      rw [cons_append, firstWord_space, firstWord_space, ih]
    · rw [cons_append, firstWord_cons hc, firstWord_cons hc, if_neg (by simp)]
      congr 1
      clear ih
      induction x with
      | nil => simp
      | cons d x ih =>
        rw [cons_append, takeWhile_cons, takeWhile_cons]
        split_ifs
        · rw [ih]
        · rfl

theorem firstWord_trimOne : firstWord (trimOne s) = firstWord s := by
  have hhead : firstWord (if s.head? = some 32 then s.tail else s) = firstWord s := by
    split_ifs with h
    · cases s with
      | nil => rfl
      | cons c s =>
        obtain rfl : c = 32 := by simpa using h
        rfl
    · rfl
  rw [trimOne, ← hhead]
  generalize (if s.head? = some 32 then s.tail else s) = t
  split_ifs with ht
  · obtain ⟨x, rfl⟩ : ∃ x, t = x ++ [32] := ⟨_, (dropLast_append_getLast? 32 ht).symm⟩
    rw [dropLast_concat, firstWord_append]
    split_ifs with hx
    · rw [hx]
      rfl
    · rfl
  · rfl

theorem intercalate_cons_cons (l l' : Units) (ls : List Units) :
    [32].intercalate (l :: l' :: ls) = l ++ 32 :: [32].intercalate (l' :: ls) := by
  simp [List.intercalate, List.intersperse]

variable {ls : List Units}

/-- What starts a joined text starts a line of it. -/
theorem firstWord_intercalate {P : Units → Prop} (hnil : P [])
    (h : ∀ l ∈ ls, P (firstWord l)) : P (firstWord ([32].intercalate ls)) := by
  induction ls with
  | nil => exact hnil
  | cons l ls ih =>
    cases ls with
    | nil => simpa [List.intercalate] using h l mem_cons_self
    | cons l' ls =>
      rw [intercalate_cons_cons, firstWord_append]
      split_ifs
      · exact ih fun m hm => h m (.tail _ hm)
      · exact h l mem_cons_self

/-- Joined lines are spaces alone, or a line with spaces behind it ends them. -/
theorem intercalate_last (ls : List Units) : (∃ k, [32].intercalate ls = List.replicate k 32) ∨
    ∃ x l k, l ∈ ls ∧ l ≠ [] ∧ [32].intercalate ls = x ++ l ++ List.replicate k 32 := by
  induction ls with
  | nil => exact .inl ⟨0, rfl⟩
  | cons l ls ih =>
    cases ls with
    | nil =>
      rcases eq_or_ne l [] with rfl | hl
      · exact .inl ⟨0, rfl⟩
      · exact .inr ⟨[], l, 0, mem_cons_self, hl, by simp [List.intercalate]⟩
    | cons l' ls =>
      rw [intercalate_cons_cons]
      rcases ih with ⟨k, hk⟩ | ⟨x, m, k, hm, hne, hk⟩
      · rcases eq_or_ne l [] with rfl | hl
        · exact .inl ⟨k + 1, by rw [hk]; rfl⟩
        · exact .inr ⟨[], l, k + 1, mem_cons_self, hl, by rw [hk]; rfl⟩
      · exact .inr ⟨l ++ 32 :: x, m, k, .tail _ hm, hne, by rw [hk]; simp⟩

/-- Tidied, joined tidy lines are nothing, or one of them ends them. -/
theorem tidied_last (hls : ∀ l ∈ ls, Tidy l) :
    trimOne (squeeze ([32].intercalate ls)) = [] ∨
      ∃ l ∈ ls, l ≠ [] ∧ l <:+ trimOne (squeeze ([32].intercalate ls)) := by
  rcases intercalate_last ls with ⟨k, hk⟩ | ⟨x, l, k, hl, hne, hk⟩
  · refine .inl ?_
    rw [hk]
    rcases squeeze_replicate k with h | h <;> rw [h] <;> rfl
  · refine .inr ⟨l, hl, hne, ?_⟩
    have htidy := hls l hl
    have hsq : squeeze (x ++ l ++ List.replicate k 32) =
        squeeze x ++ l ++ squeeze (List.replicate k 32) := by
      rw [append_assoc, squeeze_append, squeeze_append, squeeze_of_single htidy.single,
        append_assoc]
      · exact fun h => htidy.last h.1
      · exact fun h => htidy.head (by rw [← head?_append_of_ne_nil hne]; exact h.2)
    rw [hk, hsq]
    have hstart : ∀ e : Units, ∃ z, (if (squeeze x ++ l ++ e).head? = some 32 then
        (squeeze x ++ l ++ e).tail else squeeze x ++ l ++ e) = z ++ l ++ e := by
      intro e
      split_ifs with h
      · cases hx : squeeze x with
        | nil =>
          rw [hx, nil_append, head?_append_of_ne_nil hne] at h
          exact absurd h htidy.head
        | cons c z => exact ⟨z, rfl⟩
      · exact ⟨squeeze x, rfl⟩
    have hlast : ∀ z : Units, (z ++ l).getLast? = l.getLast? := by
      intro z
      rw [getLast?_append_of_ne_nil _ hne]
    obtain ⟨z, hz⟩ := hstart (squeeze (List.replicate k 32))
    rw [trimOne, hz]
    rcases squeeze_replicate k with h | h
    · rw [h, append_nil, hlast, if_neg htidy.last]
      exact suffix_append z l
    · rw [h, getLast?_concat, if_pos rfl, dropLast_concat]
      exact suffix_append z l

/-- A join by a space is as long as its parts and the spaces between. -/
theorem cpLength_intercalate (hc : surrogate c = false) (hls : ls ≠ []) :
    cpLength ([c].intercalate ls) + 1 = (ls.map fun l => cpLength l + 1).sum := by
  induction ls with
  | nil => exact absurd rfl hls
  | cons l ls ih =>
    cases ls with
    | nil => simp [List.intercalate]
    | cons l' ls =>
      have hcons : [c].intercalate (l :: l' :: ls) = (l ++ [c]) ++ [c].intercalate (l' :: ls) := by
        simp [List.intercalate, List.intersperse]
      rw [hcons, cpLength_append (by simp [hc]), cpLength_concat hc, map_cons, sum_cons,
        ← ih (cons_ne_nil _ _)]
      omega

end Turma.Lib.Units
