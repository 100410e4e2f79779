import Turma.DailyBrief.Narrative
import Turma.Lib.Formed

/-! The plain text of a meeting's fields: what cleaning leaves of a text, that it leaves a cleaned
one alone, and the cut that shortens it. -/

namespace Turma.Meetings

open Turma.Lib Turma.Lib.Units Turma.DailyBrief Option
open List hiding take_takeWhile

/-- Control, bidi and zero-width characters, all but the tab and the newline. -/
def removed (c : ℕ) : Bool :=
  c ≤ 0x08 || (0x0b ≤ c && c ≤ 0x1f) || (0x7f ≤ c && c ≤ 0x9f) || (0x200b ≤ c && c ≤ 0x200f) ||
    (0x2028 ≤ c && c ≤ 0x202e) || (0x2060 ≤ c && c ≤ 0x2069) || c = 0xfeff

/-- `[^\S\n]`. -/
def blank (c : ℕ) : Bool := whitespace c && c ≠ 10

/-- `/p{least,}/`, replaced by `r`. -/
def runs (p : ℕ → Bool) (least : ℕ) (r : Units) (s : Units) : Option (Units × ℕ) :=
  if least ≤ (s.takeWhile p).length then some (r, (s.takeWhile p).length) else none

/-- `/ *\n */`, replaced by a newline. -/
def newline (s : Units) : Option (Units × ℕ) :=
  let n := (s.takeWhile (· = 32)).length
  match s.drop n with
  | 10 :: rest => some ([10], n + 1 + (rest.takeWhile (· = 32)).length)
  | _ => none

def trim (s : Units) : Units := trimEnd (s.dropWhile whitespace)

def meetingText (v : Option Units) (max : ℕ) (multiline : Bool) : Units :=
  let s := (toWellFormed (cpPrefix (v.getD []) (max * 2 + 64))).filter fun c => !removed c
  let s :=
    if multiline = true then
      trim (replaceAll (runs (· = 10) 3 [10, 10]) 0
        (replaceAll newline 0 (replaceAll (runs blank 1 [32]) 0 s)))
    else trim (replaceAll (runs whitespace 1 [32]) 0 s)
  trimEnd (cpPrefix s max)

/-- `meetingCut`: the first code points and an ellipsis, unless that takes no fewer bytes. -/
def meetingCut (v : Units) (max : ℕ) : Units :=
  if cpPrefix v (max + 1) = cpPrefix v max then v
  else
    let cut := trimEnd (cpPrefix v (max - 1)) ++ [0x2026]
    if jsonBytes cut < jsonBytes v then cut else v

/-- What may stand next to what: blanks stand alone, and none beside a newline. -/
def Beside (a b : ℕ) : Prop := ¬ (a = 32 ∧ (b = 32 ∨ b = 10)) ∧ ¬ (a = 10 ∧ b = 32)

structure Spaced (multiline : Bool) (s : Units) : Prop where
  kept : ∀ c ∈ s, removed c = false
  spaces : ∀ c ∈ s, whitespace c = true → c = 32 ∨ multiline = true ∧ c = 10
  beside : s.IsChain Beside
  lines : ¬ [10, 10, 10] <:+: s

/-- A text that cleaning to `max` leaves as it is. -/
structure Clean (multiline : Bool) (max : ℕ) (s : Units) : Prop where
  formed : Formed s
  spaced : Spaced multiline s
  head : ∀ c ∈ s.head?, whitespace c = false
  last : ∀ c ∈ s.getLast?, whitespace c = false
  short : cpLength s ≤ max

theorem Spaced.of_inside {multiline : Bool} {s t : Units} (h : Spaced multiline t) (hst : s <:+: t) :
    Spaced multiline s := by
  refine ⟨fun c hc => h.kept c (hst.subset hc), fun c hc => h.spaces c (hst.subset hc), ?_,
    fun htriple => h.lines (htriple.trans hst)⟩
  obtain ⟨x, y, rfl⟩ := hst
  exact h.beside.left_of_append.right_of_append

theorem removed_plain {c : ℕ} (h : removed c = true) : surrogate c = false := by
  by_contra hc
  rw [Bool.not_eq_false] at hc
  simp only [removed, surrogate, Bool.or_eq_true, Bool.and_eq_true, decide_eq_true_eq] at h hc
  omega

section

variable {p : ℕ → Bool} {c : ℕ} {s : Units}

theorem drop_takeWhile (p : ℕ → Bool) (s : Units) :
    s.drop (s.takeWhile p).length = s.dropWhile p := by
  induction s with
  | nil => rfl
  | cons c s ih =>
    rw [takeWhile_cons, dropWhile_cons]
    split_ifs
    · rw [length_cons, drop_succ_cons, ih]
    · rfl

theorem replaceAll_match {m : Units → Option (Units × ℕ)} {r : Units} {n : ℕ}
    (h : m (c :: s) = some (r, n + 1)) : replaceAll m 0 (c :: s) = r ++ replaceAll m 0 (s.drop n) := by
  rw [replaceAll, h]
  dsimp only
  rw [Nat.add_sub_cancel, replaceAll_drop]

theorem replaceAll_skip {m : Units → Option (Units × ℕ)} (h : m (c :: s) = none) :
    replaceAll m 0 (c :: s) = c :: replaceAll m 0 s := by
  rw [replaceAll, h]

theorem runs_one (hc : p c = true) (s : Units) : replaceAll (runs p 1 [32]) 0 (c :: s) =
    32 :: replaceAll (runs p 1 [32]) 0 (s.dropWhile p) := by
  rw [replaceAll_match (r := [32]) (n := (s.takeWhile p).length), drop_takeWhile,
    singleton_append]
  rw [runs, takeWhile_cons, if_pos hc, length_cons, if_pos (Nat.le_add_left 1 _)]

theorem runs_other (hc : p c = false) (s : Units) : replaceAll (runs p 1 [32]) 0 (c :: s) =
    c :: replaceAll (runs p 1 [32]) 0 s := by
  refine replaceAll_skip ?_
  rw [runs, takeWhile_cons, hc, if_neg Bool.false_ne_true, length_nil, if_neg (by omega)]

theorem eq_of_takeWhile {k : ℕ} (h : c ∈ s.takeWhile (· = k)) : c = k := by
  simpa using mem_takeWhile_imp h

theorem length_dropWhile_le (p : ℕ → Bool) (s : Units) : (s.dropWhile p).length ≤ s.length :=
  (dropWhile_suffix p).length_le

theorem head?_dropWhile (p : ℕ → Bool) (s : Units) : ∀ c ∈ (s.dropWhile p).head?, p c = false := by
  induction s with
  | nil => exact fun c hc => absurd hc (by simp)
  | cons d s ih =>
    rw [dropWhile_cons]
    split_ifs with hd
    · exact ih
    · exact fun c hc => by
        rw [← some.inj hc]
        exact eq_false_of_ne_true hd

/-- Runs come to one blank each, and no two stand side by side. -/
theorem runs_blanks (p : ℕ → Bool) (s : Units) :
    (∀ c ∈ replaceAll (runs p 1 [32]) 0 s, c ∈ s ∨ c = 32) ∧
      (∀ c ∈ replaceAll (runs p 1 [32]) 0 s, p c = true → c = 32) ∧
      (replaceAll (runs p 1 [32]) 0 s).IsChain (fun a b => ¬ (p a = true ∧ p b = true)) ∧
      ((∀ c ∈ s.head?, p c = false) → (replaceAll (runs p 1 [32]) 0 s).head? = s.head?) := by
  induction hlen : s.length using Nat.strong_induction_on generalizing s with
  | _ n ih =>
    subst hlen
    cases s with
    | nil => exact ⟨fun c hc => absurd hc not_mem_nil, fun c hc => absurd hc not_mem_nil,
        .nil, fun _ => rfl⟩
    | cons c s =>
      cases hc : p c with
      | true =>
        have hshort := length_dropWhile_le p s
        obtain ⟨hmem, hblank, hchain, hhead⟩ := ih (s.dropWhile p).length
          (by rw [length_cons]; omega) _ rfl
        rw [runs_one hc]
        refine ⟨fun d hd => ?_, fun d hd hpd => ?_, isChain_cons.mpr ⟨fun d hd hboth => ?_, hchain⟩,
          fun h => absurd (h c rfl) (by simp [hc])⟩
        · rcases mem_cons.mp hd with rfl | hd
          · exact .inr rfl
          · rcases hmem d hd with hd | rfl
            · exact .inl (mem_cons_of_mem c ((dropWhile_suffix p).subset hd))
            · exact .inr rfl
        · rcases mem_cons.mp hd with rfl | hd
          · rfl
          · exact hblank d hd hpd
        · have hnot := head?_dropWhile p s
          rw [hhead hnot] at hd
          rw [hnot d hd] at hboth
          exact absurd hboth.2 Bool.false_ne_true
      | false =>
        obtain ⟨hmem, hblank, hchain, hhead⟩ := ih s.length (Nat.lt_succ_self _) s rfl
        rw [runs_other hc]
        refine ⟨fun d hd => ?_, fun d hd hpd => ?_, isChain_cons.mpr ⟨fun d _ hboth => ?_, hchain⟩,
          fun _ => rfl⟩
        · rcases mem_cons.mp hd with rfl | hd
          · exact .inl mem_cons_self
          · exact (hmem d hd).imp_left (mem_cons_of_mem c)
        · rcases mem_cons.mp hd with rfl | hd
          · rw [hc] at hpd
            cases hpd
          · exact hblank d hd hpd
        · rw [hc] at hboth
          exact absurd hboth.1 Bool.false_ne_true

/-- Blanks that stand alone stay. -/
theorem runs_self (hs : ∀ c ∈ s, p c = true → c = 32)
    (hchain : s.IsChain fun a b => ¬ (p a = true ∧ p b = true)) :
    replaceAll (runs p 1 [32]) 0 s = s := by
  induction s with
  | nil => rfl
  | cons c s ih =>
    obtain ⟨hnext, hrest⟩ := isChain_cons.mp hchain
    have hself := ih (fun d hd => hs d (mem_cons_of_mem c hd)) hrest
    cases hc : p c with
    | true =>
      rw [runs_one hc, dropWhile_of_head fun d hd => eq_false_of_ne_true fun hpd =>
        hnext d hd ⟨hc, hpd⟩, hself, hs c mem_cons_self hc]
    | false => rw [runs_other hc, hself]

theorem newline_found {rest : Units} (h : (c :: s).dropWhile (· = 32) = 10 :: rest) :
    replaceAll newline 0 (c :: s) = 10 :: replaceAll newline 0 (rest.dropWhile (· = 32)) := by
  have hdrop := drop_takeWhile (· = 32) (c :: s)
  rw [h] at hdrop
  have hmatch : newline (c :: s) = some ([10],
      ((c :: s).takeWhile (· = 32)).length + (rest.takeWhile (· = 32)).length + 1) := by
    rw [newline, hdrop]
    simp only [some.injEq, Prod.mk.injEq, true_and]
    omega
  have hrest : s.drop (((c :: s).takeWhile (· = 32)).length + (rest.takeWhile (· = 32)).length) =
      rest.dropWhile (· = 32) := by
    have hall : (c :: s).drop (((c :: s).takeWhile (· = 32)).length + 1 +
        (rest.takeWhile (· = 32)).length) = rest.dropWhile (· = 32) := by
      rw [← drop_drop, ← drop_drop, hdrop, drop_succ_cons, drop_zero,
        drop_takeWhile]
    rw [← hall, Nat.add_right_comm, drop_succ_cons]
  rw [replaceAll_match hmatch, hrest, singleton_append]

theorem newline_other (h : ((c :: s).dropWhile (· = 32)).head? ≠ some 10) :
    replaceAll newline 0 (c :: s) = c :: replaceAll newline 0 s := by
  refine replaceAll_skip ?_
  rw [newline, drop_takeWhile]
  cases hrest : (c :: s).dropWhile (· = 32) with
  | nil => rfl
  | cons d rest =>
    rw [hrest, head?_cons] at h
    split
    · rename_i heq
      exact absurd (congrArg some (List.cons.inj heq).1) h
    · rfl

/-- Single blanks next to no newline, as they stand before newlines are tightened. -/
theorem newlines_tight (s : Units) (hs : s.IsChain fun a b => ¬ (blank a = true ∧ blank b = true)) :
    (∀ c ∈ replaceAll newline 0 s, c ∈ s) ∧
      (replaceAll newline 0 s).IsChain Beside ∧
      (s.head? ≠ some 32 → (replaceAll newline 0 s).head? ≠ some 32) ∧
      (s.head? ≠ some 32 → s.head? ≠ some 10 → (replaceAll newline 0 s).head? = s.head?) := by
  induction hlen : s.length using Nat.strong_induction_on generalizing s with
  | _ n ih =>
    subst hlen
    cases s with
    | nil => exact ⟨fun c hc => hc, .nil, fun h => h, fun _ _ => rfl⟩
    | cons c s =>
      by_cases hfound : ((c :: s).dropWhile (· = 32)).head? = some 10
      · obtain ⟨rest, hrest⟩ : ∃ rest, (c :: s).dropWhile (· = 32) = 10 :: rest := by
          cases hd : (c :: s).dropWhile (· = 32) with
          | nil => rw [hd] at hfound; cases hfound
          | cons d rest =>
            rw [hd] at hfound
            exact ⟨rest, by rw [some.inj hfound]⟩
        have hsuffix : 10 :: rest <:+ c :: s := hrest ▸ dropWhile_suffix _
        have hrest' : rest.dropWhile (· = 32) <:+ c :: s :=
          (dropWhile_suffix _).trans ((suffix_cons 10 rest).trans hsuffix)
        have hlength := hsuffix.length_le
        have hshort := length_dropWhile_le (· = 32) rest
        have hchain : (rest.dropWhile (· = 32)).IsChain
            fun a b => ¬ (blank a = true ∧ blank b = true) := by
          obtain ⟨x, hx⟩ := hrest'
          rw [← hx] at hs
          exact hs.right_of_append
        obtain ⟨hmem, hbeside, hhead, -⟩ := ih (rest.dropWhile (· = 32)).length
          (by simp only [length_cons] at hlength ⊢; omega) _ hchain rfl
        have hnot : (rest.dropWhile (· = 32)).head? ≠ some 32 := fun h =>
          absurd (head?_dropWhile (· = 32) rest 32 h) (by decide)
        rw [newline_found hrest]
        refine ⟨fun d hd => ?_, isChain_cons.mpr ⟨fun d hd => ⟨fun h => ?_, fun h => ?_⟩,
          hbeside⟩, fun _ h => ?_, fun hblank hline => ?_⟩
        · rcases mem_cons.mp hd with rfl | hd
          · exact hsuffix.subset mem_cons_self
          · exact hrest'.subset (hmem d hd)
        · exact absurd h.1 (by decide)
        · exact hhead hnot (h.2 ▸ hd)
        · exact absurd (some.inj h) (by decide)
        · rw [dropWhile_of_head fun d hd => decide_eq_false fun h : d = 32 => hblank (h ▸ hd)] at hfound
          exact absurd hfound hline
      · obtain ⟨hnext, hrest⟩ := isChain_cons.mp hs
        obtain ⟨hmem, hbeside, hhead, hsame⟩ := ih s.length (Nat.lt_succ_self _) s hrest rfl
        have hline : c ≠ 10 := fun h => hfound (by
          rw [h, dropWhile_cons, if_neg (by decide), head?_cons])
        rw [newline_other hfound]
        refine ⟨fun d hd => ?_, isChain_cons.mpr ⟨fun d hd => ⟨fun h => ?_, fun h => hline h.1⟩,
          hbeside⟩, fun h => h, fun _ _ => rfl⟩
        · rcases mem_cons.mp hd with rfl | hd
          · exact mem_cons_self
          · exact mem_cons_of_mem c (hmem d hd)
        · -- behind a blank there is neither, so the text goes on as it was
          have hblank : s.head? ≠ some 32 := fun h32 =>
            hnext 32 h32 ⟨by rw [h.1]; decide, by decide⟩
          have hten : s.head? ≠ some 10 := fun h10 => hfound (by
            rw [h.1, dropWhile_cons, if_pos (by decide), dropWhile_of_head]
            · exact h10
            · exact fun e he => decide_eq_false fun h32 => hblank (h32 ▸ he))
          rw [hsame hblank hten] at hd
          rcases h.2 with h32 | h10
          · exact hblank (h32 ▸ hd)
          · exact hten (h10 ▸ hd)

/-- Newlines that have no blanks beside them stay. -/
theorem newlines_self (hs : s.IsChain Beside) : replaceAll newline 0 s = s := by
  induction s with
  | nil => rfl
  | cons c s ih =>
    obtain ⟨hnext, hrest⟩ := isChain_cons.mp hs
    by_cases hc : c = 10
    · subst hc
      have hplain : ∀ d ∈ s.head?, decide (d = 32) = false := fun d hd =>
        decide_eq_false fun h => (hnext d hd).2 ⟨rfl, h⟩
      have hhead : (10 :: s).dropWhile (· = 32) = 10 :: s := by
        rw [dropWhile_cons, if_neg (by decide)]
      rw [newline_found hhead, dropWhile_of_head hplain, ih hrest]
    · rw [newline_other, ih hrest]
      rw [dropWhile_cons]
      split_ifs with h32
      · have hc : c = 32 := of_decide_eq_true h32
        rw [dropWhile_of_head fun d hd => decide_eq_false fun h => (hnext d hd).1 ⟨hc, .inl h⟩]
        exact fun h10 => (hnext 10 h10).1 ⟨hc, .inr rfl⟩
      · exact fun h => hc (some.inj h)

theorem three_found (h : 3 ≤ ((c :: s).takeWhile (· = 10)).length) :
    replaceAll (runs (· = 10) 3 [10, 10]) 0 (c :: s) =
      10 :: 10 :: replaceAll (runs (· = 10) 3 [10, 10]) 0 ((c :: s).dropWhile (· = 10)) := by
  obtain ⟨n, hn⟩ := Nat.exists_eq_succ_of_ne_zero (show ((c :: s).takeWhile (· = 10)).length ≠ 0 by omega)
  have hmatch : runs (· = 10) 3 [10, 10] (c :: s) = some ([10, 10], n + 1) := by
    rw [runs, if_pos h, hn]
  rw [replaceAll_match hmatch, ← drop_takeWhile, hn, drop_succ_cons]
  rfl

theorem three_other (h : ((c :: s).takeWhile (· = 10)).length < 3) :
    replaceAll (runs (· = 10) 3 [10, 10]) 0 (c :: s) =
      c :: replaceAll (runs (· = 10) 3 [10, 10]) 0 s :=
  replaceAll_skip (by rw [runs, if_neg (by omega)])

theorem no_three_cons (h : ¬ [10, 10, 10] <:+: s) (hc : ¬ (c = 10 ∧ [10, 10] <+: s)) :
    ¬ [10, 10, 10] <:+: c :: s := fun hin => by
  rcases infix_cons_iff.mp hin with hstart | hin
  · rw [cons_prefix_cons] at hstart
    exact hc ⟨hstart.1.symm, hstart.2⟩
  · exact h hin

theorem head_other (h : s.head? ≠ some 10) :
    (replaceAll (runs (· = 10) 3 [10, 10]) 0 s).head? = s.head? := by
  cases s with
  | nil => rfl
  | cons c s =>
    rw [three_other, head?_cons, head?_cons]
    rw [takeWhile_cons, if_neg (by simpa using h), length_nil]
    omega

theorem behind_newlines (s : Units) (hs : (10 :: s).IsChain Beside) :
    ((10 :: s).dropWhile (· = 10)).head? ≠ some 32 := by
  rw [dropWhile_cons, if_pos (by decide)]
  induction s with
  | nil => exact fun h => nomatch h
  | cons d s ih =>
    obtain ⟨hnext, hrest⟩ := isChain_cons.mp hs
    rw [dropWhile_cons]
    split_ifs with hd
    · rw [of_decide_eq_true hd] at hrest
      exact ih hrest
    · exact fun h => (hnext d rfl).2 ⟨rfl, some.inj h⟩

/-- Of three newlines or more two are left. -/
theorem three_spaced (s : Units) (hs : s.IsChain Beside) :
    (∀ c ∈ replaceAll (runs (· = 10) 3 [10, 10]) 0 s, c ∈ s) ∧
      (replaceAll (runs (· = 10) 3 [10, 10]) 0 s).IsChain Beside ∧
      ¬ [10, 10, 10] <:+: replaceAll (runs (· = 10) 3 [10, 10]) 0 s ∧
      (s.head? ≠ some 32 → (replaceAll (runs (· = 10) 3 [10, 10]) 0 s).head? ≠ some 32) := by
  induction hlen : s.length using Nat.strong_induction_on generalizing s with
  | _ n ih =>
    subst hlen
    cases s with
    | nil => exact ⟨fun c hc => hc, .nil, by simp [replaceAll], fun h => h⟩
    | cons c s =>
      by_cases hthree : 3 ≤ ((c :: s).takeWhile (· = 10)).length
      · have hc : c = 10 := by
          by_contra hc
          rw [takeWhile_cons, if_neg (by simpa using hc), length_nil] at hthree
          omega
        subst hc
        have hrest : (10 :: s).dropWhile (· = 10) <:+ 10 :: s := dropWhile_suffix _
        have hshort : ((10 :: s).dropWhile (· = 10)).length ≤ s.length := by
          rw [dropWhile_cons, if_pos (by decide)]
          exact length_dropWhile_le _ s
        have hten : ((10 :: s).dropWhile (· = 10)).head? ≠ some 10 := fun h =>
          absurd (head?_dropWhile (· = 10) _ 10 h) (by decide)
        have hblank := behind_newlines s hs
        have hchain : ((10 :: s).dropWhile (· = 10)).IsChain Beside := by
          obtain ⟨x, hx⟩ := hrest
          rw [← hx] at hs
          exact hs.right_of_append
        obtain ⟨hmem, hbeside, hlines, -⟩ := ih _ (by rw [length_cons]; omega) _ hchain rfl
        have hhead := head_other hten
        rw [three_found hthree]
        generalize replaceAll (runs (· = 10) 3 [10, 10]) 0 ((10 :: s).dropWhile (· = 10)) = out at *
        have hout : ¬ [10] <+: out := fun h => by
          obtain ⟨y, rfl⟩ := h
          rw [singleton_append, head?_cons] at hhead
          exact hten hhead.symm
        refine ⟨fun d hd => ?_, ?_, no_three_cons (no_three_cons hlines ?_) ?_, fun _ h => ?_⟩
        · rcases mem_cons.mp hd with rfl | hd
          · exact mem_cons_self
          · rcases mem_cons.mp hd with rfl | hd
            · exact mem_cons_self
            · exact hrest.subset (hmem d hd)
        · refine isChain_cons.mpr ⟨fun d hd => ?_, isChain_cons.mpr ⟨fun d hd => ?_, hbeside⟩⟩
          · rw [head?_cons, mem_some_iff] at hd
            rw [← hd]
            exact ⟨by decide, by decide⟩
          · refine ⟨by omega, fun h => hblank ?_⟩
            rw [← hhead, ← h.2]
            exact hd
        · exact fun h => hout (by
            obtain ⟨y, hy⟩ := h.2
            exact ⟨10 :: y, hy⟩)
        · exact fun h => hout (cons_prefix_cons.mp h.2).2
        · exact absurd (some.inj h) (by decide)
      · obtain ⟨hnext, hrest⟩ := isChain_cons.mp hs
        obtain ⟨hmem, hbeside, hlines, hhead⟩ := ih s.length (Nat.lt_succ_self _) s hrest rfl
        rw [three_other (by omega)]
        refine ⟨fun d hd => ?_, isChain_cons.mpr ⟨fun d hd => ⟨fun h => ?_, fun h => ?_⟩,
          hbeside⟩, no_three_cons hlines fun h => ?_, fun h => h⟩
        · rcases mem_cons.mp hd with rfl | hd
          · exact mem_cons_self
          · exact mem_cons_of_mem c (hmem d hd)
        · have hten : s.head? ≠ some 10 := fun h10 => (hnext 10 h10).1 ⟨h.1, .inr rfl⟩
          rw [head_other hten] at hd
          exact (hnext d hd).1 h
        · exact hhead (fun h32 => (hnext 32 h32).2 ⟨h.1, rfl⟩) (h.2 ▸ hd)
        · -- two newlines behind this one would have been three
          obtain ⟨rfl, y, hy⟩ := h
          by_cases hten : s.head? = some 10
          · obtain ⟨t, rfl⟩ : ∃ t, s = 10 :: t := by
              cases s with
              | nil => cases hten
              | cons d t => exact ⟨t, by rw [some.inj hten]⟩
            have hlast : t.head? ≠ some 10 := fun h10 => hthree (by
              cases t with
              | nil => cases h10
              | cons d t =>
                rw [some.inj h10]
                simp)
            rw [three_other (by
              have : ((10 :: 10 :: t).takeWhile (· = 10)).length =
                  ((10 :: t).takeWhile (· = 10)).length + 1 := by simp
              omega)] at hy
            have hhead := head_other hlast
            rw [← (List.cons.inj hy).2] at hhead
            exact hlast hhead.symm
          · have hhead := head_other hten
            rw [← hy] at hhead
            exact hten hhead.symm

theorem trimEnd_of_last (h : ∀ c ∈ s.getLast?, whitespace c = false) : trimEnd s = s := by
  rw [trimEnd, dropWhile_of_head fun c hc => h c (by rwa [head?_reverse] at hc),
    reverse_reverse]

theorem trimEnd_split (s : Units) : ∃ t, s = trimEnd s ++ t ∧ ∀ c ∈ t, whitespace c = true := by
  refine ⟨(s.reverse.takeWhile whitespace).reverse, ?_, fun c hc => ?_⟩
  · rw [trimEnd, ← reverse_append, takeWhile_append_dropWhile, reverse_reverse]
  · exact mem_takeWhile_imp (mem_reverse.mp hc)

theorem formed_trimEnd (h : Formed s) : Formed (trimEnd s) := by
  obtain ⟨t, ht, hspaces⟩ := trimEnd_split s
  rw [ht] at h
  exact h.of_append fun c hc => whitespace_plain (hspaces c hc)

/-- What starts a text and ends in no space starts the trimmed text. -/
theorem start_trimEnd {t : Units} (ht : t <+: s) (hlast : ∀ c ∈ t.getLast?, whitespace c = false) :
    t <+: trimEnd s := by
  obtain ⟨u, hs, hspaces⟩ := trimEnd_split s
  have hstart := trimEnd_start s
  generalize trimEnd s = kept at *
  by_cases hlen : t.length ≤ kept.length
  · exact prefix_of_prefix_length_le ht hstart hlen
  · obtain ⟨w, rfl⟩ := prefix_of_prefix_length_le hstart ht (by omega)
    rw [hs] at ht
    have hw : w <+: u := (prefix_append_right_inj _).mp ht
    cases hlastw : w.getLast? with
    | none =>
      simp only [getLast?_eq_none_iff.mp hlastw, append_nil, prefix_rfl]
    | some c =>
      have hc := hspaces c (hw.subset (mem_of_getLast? hlastw))
      rw [hlast c (by rw [getLast?_append, hlastw]; rfl)] at hc
      cases hc

theorem start_head {t : Units} (h : t <+: s) (hs : ∀ c ∈ s.head?, whitespace c = false) :
    ∀ c ∈ t.head?, whitespace c = false := by
  obtain ⟨u, rfl⟩ := h
  cases t with
  | nil => exact fun c hc => nomatch hc
  | cons d t => exact fun c hc => hs c hc

end

section

variable {multiline : Bool} {max : ℕ} {s : Units}

/-- What is left of a spaced text once it is trimmed and cut is clean. -/
theorem clean_of_spaced (hformed : Formed s) (hs : Spaced multiline s) (max : ℕ) :
    Clean multiline max (trimEnd (cpPrefix (trim s) max)) := by
  have hcut : cpPrefix (trim s) max <+: trim s := cpPrefix_start _ _
  have htrim : trim s <+: s.dropWhile whitespace := trimEnd_start _
  have hstart := (trimEnd_start (cpPrefix (trim s) max)).trans (hcut.trans htrim)
  refine ⟨?_, hs.of_inside (hstart.isInfix.trans (dropWhile_suffix _).isInfix),
    start_head hstart (head?_dropWhile whitespace s), fun c hc => trimEnd_last c hc, ?_⟩
  · refine formed_trimEnd (Formed.cpPrefix (formed_trimEnd ?_) max)
    exact hformed.dropWhile fun c => whitespace_plain
  · exact (cpLength_start (trimEnd_start _)).trans (cpLength_cpPrefix _ _)

theorem runs_plain {p : ℕ → Bool} (hp : ∀ c, p c = true → surrogate c = false) {least : ℕ}
    (hleast : 0 < least) {r : Units} (hr : ∀ c ∈ r, surrogate c = false) : Plain (runs p least r) := by
  intro s r' n h
  rw [runs] at h
  split_ifs at h with hlong
  obtain ⟨rfl, rfl⟩ := Prod.mk.inj (some.inj h)
  refine ⟨by omega, fun c hc => hp c ?_, hr⟩
  rw [take_takeWhile] at hc
  exact mem_takeWhile_imp hc

theorem newline_plain : Plain newline := by
  intro s r n h
  rw [newline, drop_takeWhile] at h
  have hs : s = s.takeWhile (· = 32) ++ s.dropWhile (· = 32) :=
    takeWhile_append_dropWhile.symm
  cases hrest : s.dropWhile (· = 32) with
  | nil => rw [hrest] at h; cases h
  | cons d rest =>
    rw [hrest] at h hs
    split at h
    · rename_i rest' heq
      obtain ⟨rfl, rfl⟩ := List.cons.inj heq
      obtain ⟨rfl, rfl⟩ := Prod.mk.inj (some.inj h)
      have htake : s.take ((s.takeWhile (· = 32)).length + 1 +
          (rest.takeWhile (· = 32)).length) =
            s.takeWhile (· = 32) ++ 10 :: rest.takeWhile (· = 32) := by
        have hall : s = (s.takeWhile (· = 32) ++ 10 :: rest.takeWhile (· = 32)) ++
            rest.dropWhile (· = 32) := by
          rw [append_assoc, cons_append, takeWhile_append_dropWhile]
          exact hs
        conv_lhs => rw [hall]
        refine take_left' ?_
        rw [length_append, length_cons, ← hall]
        omega
      refine ⟨by omega, fun c hc => ?_, by decide⟩
      rw [htake] at hc
      rcases mem_append.mp hc with hc | hc
      · rw [eq_of_takeWhile hc]
        rfl
      · rcases mem_cons.mp hc with rfl | hc
        · rfl
        · rw [eq_of_takeWhile hc]
          rfl
    · cases h

theorem blank_plain {c : ℕ} (h : blank c = true) : surrogate c = false :=
  whitespace_plain (Bool.and_eq_true_iff.mp h).1

theorem no_three_of_chain {p : ℕ → Bool} (hp : p 10 = true)
    (h : s.IsChain fun a b => ¬ (p a = true ∧ p b = true)) : ¬ [10, 10, 10] <:+: s := by
  rintro ⟨x, y, rfl⟩
  exact (isChain_cons.mp h.left_of_append.right_of_append).1 10 rfl ⟨hp, hp⟩

/-- A text on one line, once its blanks are single. -/
theorem spaced_line (hkept : ∀ c ∈ s, removed c = false) :
    Spaced false (replaceAll (runs whitespace 1 [32]) 0 s) := by
  obtain ⟨hmem, hblank, hchain, -⟩ := runs_blanks whitespace s
  refine ⟨fun c hc => ?_, fun c hc hspace => .inl (hblank c hc hspace), hchain.imp fun a b hab => ?_,
    no_three_of_chain (by decide) hchain⟩
  · rcases hmem c hc with hc | rfl
    · exact hkept c hc
    · decide
  · refine ⟨fun h => hab ?_, fun h => hab ?_⟩
    · rcases h with ⟨rfl, rfl | rfl⟩ <;> decide
    · rcases h with ⟨rfl, rfl⟩
      decide

theorem spaced_lines (hkept : ∀ c ∈ s, removed c = false) :
    Spaced true (replaceAll (runs (· = 10) 3 [10, 10]) 0
      (replaceAll newline 0 (replaceAll (runs blank 1 [32]) 0 s))) := by
  obtain ⟨hmem, hblank, hchain, -⟩ := runs_blanks blank s
  obtain ⟨hmem', hbeside, -, -⟩ := newlines_tight _ hchain
  obtain ⟨hmem'', hbeside', hlines, -⟩ := three_spaced _ hbeside
  refine ⟨fun c hc => ?_, fun c hc hspace => ?_, hbeside', hlines⟩
  · rcases hmem c (hmem' c (hmem'' c hc)) with hc | rfl
    · exact hkept c hc
    · decide
  · by_cases hten : c = 10
    · exact .inr ⟨rfl, hten⟩
    · refine .inl (hblank c (hmem' c (hmem'' c hc)) ?_)
      rw [blank, hspace, decide_eq_true hten]
      rfl

/-- A cleaned text is clean. -/
theorem meetingText_clean (v : Option Units) (max : ℕ) (multiline : Bool) :
    Clean multiline max (meetingText v max multiline) := by
  rw [meetingText]
  generalize htext : (toWellFormed (cpPrefix (v.getD []) (max * 2 + 64))).filter
    (fun c => !removed c) = text
  have hformed : Formed text := by
    rw [← htext]
    refine (formed_toWellFormed _).filter fun c hc => ?_
    rw [Bool.not_eq_true', ← Bool.not_eq_true]
    intro hremoved
    rw [removed_plain hremoved] at hc
    cases hc
  have hkept : ∀ c ∈ text, removed c = false := fun c hc => by
    rw [← htext] at hc
    simpa using (mem_filter.mp hc).2
  have hone : ∀ c ∈ [32], surrogate c = false := by decide
  cases multiline with
  | true =>
    refine clean_of_spaced (Formed.replaceAll ?_ (Formed.replaceAll newline_plain
      (Formed.replaceAll ?_ hformed))) (spaced_lines hkept) max
    · refine runs_plain (fun c hc => ?_) (by decide) (by decide)
      rw [of_decide_eq_true hc]
      rfl
    · exact runs_plain (fun c => blank_plain) (by decide) hone
  | false =>
    exact clean_of_spaced (Formed.replaceAll (runs_plain (fun c => whitespace_plain) (by decide) hone)
      hformed) (spaced_line hkept) max

theorem trim_of_clean (h : Clean multiline max s) : trim s = s := by
  rw [trim, dropWhile_of_head h.head, trimEnd_of_last h.last]

/-- Blanks of a clean text stand alone. -/
theorem Clean.alone (h : Clean multiline max s) {p : ℕ → Bool} (hp : ∀ c ∈ s, p c = true → c = 32) :
    s.IsChain fun a b => ¬ (p a = true ∧ p b = true) :=
  h.spaced.beside.imp_of_mem_imp fun a b ha hb hab hboth =>
    hab.1 ⟨hp a ha hboth.1, .inl (hp b hb hboth.2)⟩

/-- Cleaning leaves a clean text alone. -/
theorem meetingText_fixed (h : Clean multiline max s) : meetingText (some s) max multiline = s := by
  have hread : (toWellFormed (cpPrefix s (max * 2 + 64))).filter (fun c => !removed c) = s := by
    rw [cpPrefix_of_le (h.short.trans (by omega)), toWellFormed_of_formed h.formed]
    exact filter_eq_self.mpr fun c hc => by rw [h.spaced.kept c hc]; rfl
  have hcut : trimEnd (cpPrefix s max) = s := by
    rw [cpPrefix_of_le h.short, trimEnd_of_last h.last]
  rw [meetingText, getD_some, hread]
  cases multiline with
  | true =>
    have hblank : ∀ c ∈ s, blank c = true → c = 32 := fun c hc hb => by
      obtain ⟨hspace, hten⟩ := Bool.and_eq_true_iff.mp hb
      exact (h.spaced.spaces c hc hspace).resolve_right fun hline =>
        of_decide_eq_true hten hline.2
    have hthree : replaceAll (runs (· = 10) 3 [10, 10]) 0 s = s := by
      refine replaceAll_none fun t ht => ?_
      rw [runs, if_neg]
      intro hlong
      refine h.spaced.lines (List.IsInfix.trans ?_ ht.isInfix)
      have hten : t.takeWhile (· = 10) = List.replicate (t.takeWhile (· = 10)).length 10 :=
        eq_replicate_of_mem fun c hc => eq_of_takeWhile hc
      refine List.IsInfix.trans ?_ (List.takeWhile_prefix (p := (· = 10))).isInfix
      obtain ⟨k, hk⟩ := Nat.exists_eq_add_of_le hlong
      rw [hten, hk, replicate_add]
      exact (prefix_append [10, 10, 10] _).isInfix
    simp only [if_true]
    rw [runs_self hblank (h.alone hblank), newlines_self h.spaced.beside, hthree, trim_of_clean h,
      hcut]
  | false =>
    have hblank : ∀ c ∈ s, whitespace c = true → c = 32 := fun c hc hspace =>
      (h.spaced.spaces c hc hspace).resolve_right fun hline => Bool.false_ne_true hline.1
    simp only [Bool.false_eq_true, if_false]
    rw [runs_self hblank (h.alone hblank), trim_of_clean h, hcut]

theorem meetingText_none (max : ℕ) (multiline : Bool) :
    meetingText none max multiline = meetingText (some []) max multiline := rfl

theorem cut_eq (s : Units) (max : ℕ) :
    cpPrefix s (max + 1) = cpPrefix s max ↔ cpLength s ≤ max := by
  refine ⟨fun h => ?_, fun h => by rw [cpPrefix_of_le h, cpPrefix_of_le (h.trans (Nat.le_succ _))]⟩
  induction s generalizing max with
  | nil => exact Nat.zero_le _
  | cons c s ih =>
    cases max with
    | zero => exact absurd h (by simp [cpPrefix])
    | succ max =>
      rw [cpPrefix, cpPrefix] at h
      have hrest := (List.cons.inj h).2
      rw [cpLength_cons]
      split_ifs at hrest ⊢
      · exact ih _ hrest
      · exact Nat.add_le_add_right (ih _ hrest) 1

theorem start_cut (s : Units) {n n' : ℕ} (h : n ≤ n') : cpPrefix s n <+: cpPrefix s n' := by
  induction s generalizing n n' with
  | nil => exact prefix_rfl
  | cons c s ih =>
    cases n with
    | zero => exact List.nil_prefix
    | succ n =>
      obtain ⟨n', rfl⟩ := Nat.exists_eq_succ_of_ne_zero (show n' ≠ 0 by omega)
      rw [cpPrefix, cpPrefix]
      refine (prefix_cons_inj c).mpr (ih ?_)
      split_ifs <;> omega

/-- The text with an ellipsis behind its first code points. -/
theorem clean_ellipsis (h : Clean multiline max s) {cap : ℕ} (hcap : 1 ≤ cap) (hmax : cap ≤ max) :
    Clean multiline max (trimEnd (cpPrefix s (cap - 1)) ++ [0x2026]) := by
  have hstart : trimEnd (cpPrefix s (cap - 1)) <+: s := (trimEnd_start _).trans (cpPrefix_start _ _)
  have hspaced := h.spaced.of_inside hstart.isInfix
  have hlength := (cpLength_start (trimEnd_start (cpPrefix s (cap - 1)))).trans (cpLength_cpPrefix _ _)
  have hformed : Formed (trimEnd (cpPrefix s (cap - 1))) := formed_trimEnd (h.formed.cpPrefix _)
  have hhead := start_head hstart h.head
  generalize trimEnd (cpPrefix s (cap - 1)) = kept at *
  have hmem : ∀ c ∈ kept ++ [0x2026], c ∈ kept ∨ c = 0x2026 := fun c hc =>
    (mem_append.mp hc).imp_right mem_singleton.mp
  refine ⟨hformed.append (.one rfl .nil), ⟨fun c hc => ?_, fun c hc hspace => ?_, ?_, fun hin => ?_⟩,
    ?_, fun c hc => ?_, ?_⟩
  · rcases hmem c hc with hc | rfl
    · exact hspaced.kept c hc
    · decide
  · rcases hmem c hc with hc | rfl
    · exact hspaced.spaces c hc hspace
    · cases hspace
  · refine isChain_append.mpr ⟨hspaced.beside, isChain_singleton _, fun a _ b hb => ?_⟩
    rw [head?_cons, mem_some_iff] at hb
    rw [← hb]
    exact ⟨by omega, by omega⟩
  · rcases infix_concat_iff.mp hin with hend | hin
    · obtain ⟨x, hx⟩ := hend
      have hlast : (x ++ [10, 10, 10]).getLast? = some 0x2026 := by rw [hx, getLast?_concat]
      simp at hlast
    · exact hspaced.lines hin
  · cases kept with
    | nil => exact fun c hc => by rw [← some.inj hc]; decide
    | cons d kept => exact fun c hc => hhead c hc
  · rw [getLast?_concat] at hc
    rw [← some.inj hc]
    decide
  · rw [cpLength_concat rfl]
    omega

/-- A cut of a clean text is clean. -/
theorem clean_cut (h : Clean multiline max s) {cap : ℕ} (hcap : 1 ≤ cap) (hmax : cap ≤ max) :
    Clean multiline max (meetingCut s cap) := by
  rw [meetingCut]
  dsimp only
  split_ifs
  · exact h
  · exact clean_ellipsis h hcap hmax
  · exact h

theorem cut_le (s : Units) (cap : ℕ) : jsonBytes (meetingCut s cap) ≤ jsonBytes s := by
  rw [meetingCut]
  dsimp only
  split_ifs with hall hless
  · exact le_rfl
  · exact hless.le
  · exact le_rfl

/-- More code points take no fewer bytes. -/
theorem ellipsis_mono (h : Formed s) {n n' : ℕ} (hle : n ≤ n') :
    jsonBytes (trimEnd (cpPrefix s n) ++ [0x2026]) ≤ jsonBytes (trimEnd (cpPrefix s n') ++ [0x2026]) := by
  have hformed : ∀ n, Formed (trimEnd (cpPrefix s n)) := fun n => formed_trimEnd (h.cpPrefix n)
  have hstart : trimEnd (cpPrefix s n) <+: trimEnd (cpPrefix s n') :=
    start_trimEnd ((trimEnd_start _).trans (start_cut s hle)) fun c hc => trimEnd_last c hc
  have hbytes := bodyBytes_le (hformed n) hstart
  rw [jsonBytes, jsonBytes, bodyBytes_append (hformed n), bodyBytes_append (hformed n')]
  omega

/-- A later cut takes no fewer bytes. -/
theorem cut_mono (h : Formed s) {cap cap' : ℕ} (hle : cap ≤ cap') :
    jsonBytes (meetingCut s cap) ≤ jsonBytes (meetingCut s cap') := by
  have hcut := ellipsis_mono h (show cap - 1 ≤ cap' - 1 by omega)
  have hall := cut_le s cap
  by_cases hless : ¬ cpLength s ≤ cap' ∧
      jsonBytes (trimEnd (cpPrefix s (cap' - 1)) ++ [0x2026]) < jsonBytes s
  · have hcap : ¬ cpLength s ≤ cap := fun h => hless.1 (h.trans hle)
    rw [meetingCut, meetingCut, if_neg fun h => hcap ((cut_eq s cap).mp h),
      if_neg fun h => hless.1 ((cut_eq s cap').mp h)]
    rw [if_pos (hcut.trans_lt hless.2), if_pos hless.2]
    exact hcut
  · have hself : meetingCut s cap' = s := by
      rw [meetingCut]
      dsimp only
      split_ifs with hall hless'
      · rfl
      · exact absurd ⟨fun h => hall ((cut_eq s cap').mpr h), hless'⟩ hless
      · rfl
    rw [hself]
    exact hall

end

attribute [irreducible] meetingText

end Turma.Meetings
