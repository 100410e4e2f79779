import Mathlib.Algebra.Order.BigOperators.Group.List
import Mathlib.Algebra.Order.Group.Nat
import Mathlib.Data.List.TakeWhile
import Turma.Lib.Spaces

/-! The text a model's section is reduced to before it is read aloud: without markup, on one line,
and cut at a word. -/

namespace Turma.DailyBrief

open Turma.Lib Turma.Lib.Units
open List hiding intercalate_cons_cons

/-- ```` /```[^\n]*/ ````. -/
def fence (s : Units) : Option (Units × ℕ) :=
  if [96, 96, 96] <+: s then some ([32], 3 + ((s.drop 3).takeWhile (· ≠ 10)).length) else none

/-- `/<[^<>\n]*>/`. -/
def tag : Units → Option (Units × ℕ)
  | 60 :: s =>
    let body := s.takeWhile fun c => c ∉ [60, 62, 10]
    if (s.drop body.length).head? = some 62 then some ([32], body.length + 2) else none
  | _ => none

/-- `/\[([^[\]\n]*)\]\([^()\n]*\)/`, replaced by its text. -/
def bracketed : Units → Option (Units × ℕ)
  | 91 :: s =>
    let text := s.takeWhile fun c => c ∉ [91, 93, 10]
    match s.drop text.length with
    | 93 :: 40 :: rest =>
      let url := rest.takeWhile fun c => c ∉ [40, 41, 10]
      if (rest.drop url.length).head? = some 41 then some (text, text.length + url.length + 4)
      else none
    | _ => none
  | _ => none

/-- The link with the `!` of an image before it, or without. -/
def link : Units → Option (Units × ℕ)
  | 33 :: s => (bracketed s).map fun found => (found.1, found.2 + 1)
  | s => bracketed s

/-- Control, bidi and zero-width characters, all but the newline. -/
def control (c : ℕ) : Bool :=
  c ≤ 0x09 || (0x0b ≤ c && c ≤ 0x1f) || (0x7f ≤ c && c ≤ 0x9f) || (0x200b ≤ c && c ≤ 0x200f) ||
    (0x2028 ≤ c && c ≤ 0x202e) || (0x2060 ≤ c && c ≤ 0x2069) || c = 0xfeff

/-- `\s`. -/
def whitespace (c : ℕ) : Bool :=
  (0x09 ≤ c && c ≤ 0x0d) || c = 0x20 || c = 0xa0 || c = 0x1680 || (0x2000 ≤ c && c ≤ 0x200a) ||
    c = 0x2028 || c = 0x2029 || c = 0x202f || c = 0x205f || c = 0x3000 || c = 0xfeff

/-- The star, backtick, tilde, bar and the angle and square brackets. -/
def markup : List ℕ := [42, 96, 126, 124, 60, 62, 91, 93]

/-- `#{1,6}`. -/
def hashes (w : Units) : Bool := 1 ≤ w.length && w.length ≤ 6 && w.all (· = 35)

/-- `/^\*{1,3}[^*]+\*{1,3}:?$/`. -/
def emphasized (t : Units) : Bool :=
  let u := if t.getLast? = some 58 then t.dropLast else t
  let opening := u.takeWhile (· = 42)
  let body := (u.drop opening.length).takeWhile (· ≠ 42)
  let closing := u.drop (opening.length + body.length)
  (1 ≤ opening.length && opening.length ≤ 3) && !body.isEmpty &&
    (1 ≤ closing.length && closing.length ≤ 3 && closing.all (· = 42))

def heading (l : Units) : Bool :=
  let t := ((l.dropWhile (· = 32)).reverse.dropWhile (· = 32)).reverse
  hashes (t.takeWhile (· ≠ 32)) || (cpLength t ≤ 80 && emphasized t)

/-- A list bullet or a heading mark: `[-+]`, `[0-9]+[.)]` or `#{1,6}`. -/
def mark (w : Units) : Bool :=
  w = [45] || w = [43] ||
    ((w.getLast? = some 46 || w.getLast? = some 41) && !w.dropLast.isEmpty &&
      w.dropLast.all fun c => 48 ≤ c && c ≤ 57) ||
    hashes w

/-- `/^ *(?:mark(?: +|$))+/`: marks go as long as the first word is one. -/
def dropMarks : ℕ → Units → Units
  | 0, s => s
  | n + 1, s =>
    if mark (firstWord s) = true then
      dropMarks n (((s.dropWhile (· = 32)).dropWhile (· ≠ 32)).dropWhile (· = 32))
    else s

def cleanLine (l : Units) : Units :=
  let t := l.filter (· ∉ markup)
  trimOne (squeeze (dropMarks t.length t))

/-- A short line ending in a colon. -/
def label (l : Units) : Bool := l.getLast? = some 58 && cpLength l ≤ 40

def lines (v : Units) : List Units :=
  let s := replaceAll link 0 (replaceAll tag 0 (replaceAll fence 0 (cpPrefix v 20000)))
  let spaced := (s.map fun c => if control c = true then 32 else c).map fun c =>
    if whitespace c = true ∧ c ≠ 10 then 32 else c
  (((spaced.splitOn 10).filter fun l => !heading l).map cleanLine).filter fun l => !label l

/-- What comes before the last space. -/
def beforeLastSpace (s : Units) : Option Units :=
  match s.reverse.dropWhile (· ≠ 32) with
  | [] => none
  | _ :: r => some r.reverse

def trimEnd (s : Units) : Units := (s.reverse.dropWhile whitespace).reverse

/-- The cut on a word, unless that would take more than a quarter. -/
def cutWords (s : Units) (max : ℕ) : Units :=
  let cut := cpPrefix s (max - 1)
  let kept := match beforeLastSpace cut with
    | some words => if max * 3 / 4 < cpLength words then words else cut
    | none => cut
  trimEnd kept ++ [0x2026]

def cleanBriefNarrative (v : Units) (max : ℕ) : Units :=
  if v = [] then []
  else
    let s := trimOne (squeeze ([32].intercalate (lines v)))
    if max < cpLength s then cutWords s max else s

/-- A text fit to be read aloud, of at most `max` code points. -/
structure Spoken (max : ℕ) (s : Units) : Prop where
  bounded : cpLength s ≤ max
  newline : 10 ∉ s
  control : ∀ c ∈ s, control c = false
  spaces : ∀ c ∈ s, whitespace c = true → c = 32
  markup : ∀ c ∈ s, c ∉ markup
  tidy : Tidy s
  mark : mark (firstWord s) = false
  label : label s = false

variable {t : Units} {c : ℕ}

section

variable {max : ℕ} {s v : Units}

theorem fence_none (h : 96 ∉ t) : fence t = none := by
  rw [fence, if_neg]
  rintro ⟨rest, rfl⟩
  simp at h

theorem tag_none (h : 60 ∉ t) : tag t = none := by
  cases t with
  | nil => rfl
  | cons c t =>
    have hc : c ≠ 60 := fun heq => h (heq ▸ mem_cons_self)
    unfold tag
    split
    · rename_i heq
      exact absurd (List.cons.inj heq).1 hc
    · rfl

theorem bracketed_none (h : 91 ∉ t) : bracketed t = none := by
  cases t with
  | nil => rfl
  | cons c t =>
    have hc : c ≠ 91 := fun heq => h (heq ▸ mem_cons_self)
    unfold bracketed
    split
    · rename_i heq
      exact absurd (List.cons.inj heq).1 hc
    · rfl

theorem link_none (h : 91 ∉ t) : link t = none := by
  unfold link
  split
  · rw [bracketed_none fun hmem => h (.tail _ hmem)]
    rfl
  · exact bracketed_none h

theorem emphasized_star (h : 42 ∉ t) : emphasized t = false := by
  have hopening : (if t.getLast? = some 58 then t.dropLast else t).takeWhile (· = 42) = [] := by
    refine eq_nil_iff_forall_not_mem.mpr fun c hc => ?_
    have hstar := mem_takeWhile_imp hc
    rw [decide_eq_true_eq] at hstar
    have hmem := (takeWhile_sublist _).subset hc
    rw [hstar] at hmem
    split_ifs at hmem
    · exact h ((dropLast_sublist t).subset hmem)
    · exact h hmem
  simp [emphasized, hopening]

theorem heading_of_spoken (h : Spoken max s) : heading s = false := by
  have hmark : hashes (s.takeWhile (· ≠ 32)) = false := by
    have hm := h.mark
    rw [h.tidy.firstWord, mark, Bool.or_eq_false_iff] at hm
    exact hm.2
  have hstar := emphasized_star fun hmem => h.markup 42 hmem (by decide)
  rw [heading, h.tidy.trimmed, hmark, hstar, Bool.and_false, Bool.or_false]

theorem cleanLine_of_spoken (h : Spoken max s) : cleanLine s = s := by
  have hfilter : s.filter (· ∉ markup) = s :=
    filter_eq_self.mpr fun c hc => decide_eq_true (h.markup c hc)
  have hmarks : dropMarks s.length s = s := by
    cases s with
    | nil => rfl
    | cons c s => rw [length_cons, dropMarks, if_neg (by simp [h.mark])]
  rw [cleanLine, hfilter, hmarks, squeeze_tidy h.tidy]

theorem lines_of_spoken (h : Spoken max s) (hread : cpLength s ≤ 20000) : lines s = [s] := by
  have hsub : ∀ {c}, c ∈ markup → ∀ t, t <:+ s → c ∉ t :=
    fun hc t ht hmem => h.markup _ (ht.mem hmem) hc
  have hcontrol : (s.map fun c => if control c = true then 32 else c) = s := by
    conv_rhs => rw [← map_id s]
    refine map_congr_left fun c hc => ?_
    rw [if_neg (by simp [h.control c hc]), id]
  have hspaces : (s.map fun c => if whitespace c = true ∧ c ≠ 10 then 32 else c) = s := by
    conv_rhs => rw [← map_id s]
    refine map_congr_left fun c hc => ?_
    split_ifs with hw
    · exact (h.spaces c hc hw.1).symm
    · rfl
  rw [lines, cpPrefix_of_le hread,
    replaceAll_none fun t ht => fence_none (hsub (by decide) t ht),
    replaceAll_none fun t ht => tag_none (hsub (by decide) t ht),
    replaceAll_none fun t ht => link_none (hsub (by decide) t ht)]
  rw [hcontrol, hspaces, splitOn_eq_singleton h.newline]
  simp [heading_of_spoken h, cleanLine_of_spoken h, h.label]

theorem clean_of_spoken (h : Spoken max s) (hread : cpLength s ≤ 20000) :
    cleanBriefNarrative s max = s := by
  rw [cleanBriefNarrative]
  split_ifs with hnil
  · exact hnil.symm
  · have hjoin : [32].intercalate [s] = s := by simp [List.intercalate]
    rw [lines_of_spoken h hread, hjoin, squeeze_tidy h.tidy, if_neg h.bounded.not_gt]

theorem mem_splitOn {a c : ℕ} {s l : Units} (hl : l ∈ s.splitOn a) (hc : c ∈ l) : c ∈ s ∧ c ≠ a := by
  induction s generalizing l with
  | nil =>
    rw [splitOn_nil, mem_singleton] at hl
    rw [hl] at hc
    cases hc
  | cons d s ih =>
    rw [splitOn_cons_eq_if_modifyHead] at hl
    split_ifs at hl with hd
    · rcases mem_cons.mp hl with rfl | hl
      · cases hc
      · exact (ih hl hc).imp_left (mem_cons_of_mem _)
    · obtain ⟨first, rest, hsplit⟩ := exists_cons_of_ne_nil (splitOn_ne_nil a s)
      rw [hsplit, modifyHead_cons] at hl
      rcases mem_cons.mp hl with rfl | hl
      · rcases mem_cons.mp hc with rfl | hc
        · exact ⟨mem_cons_self, by simpa using hd⟩
        · exact (ih (hsplit ▸ mem_cons_self) hc).imp_left (mem_cons_of_mem _)
      · exact (ih (hsplit ▸ .tail _ hl) hc).imp_left (mem_cons_of_mem _)

theorem dropMarks_suffix (n : ℕ) (s : Units) : dropMarks n s <:+ s := by
  induction n generalizing s with
  | zero => exact suffix_refl s
  | succ n ih =>
    rw [dropMarks]
    split_ifs
    · exact (ih _).trans (((dropWhile_suffix _).trans (dropWhile_suffix _)).trans
        (dropWhile_suffix _))
    · exact suffix_refl s

theorem dropMarks_mark {n : ℕ} {s : Units} (h : s.length ≤ n) :
    mark (firstWord (dropMarks n s)) = false := by
  induction n generalizing s with
  | zero =>
    obtain rfl := length_eq_zero_iff.mp (Nat.le_zero.mp h)
    rfl
  | succ n ih =>
    rw [dropMarks]
    split_ifs with hmark
    · refine ih ?_
      -- a mark is not empty, so a unit of it is gone
      have hword : firstWord s ≠ [] := fun hnil => by
        rw [hnil] at hmark
        cases hmark
      rw [firstWord] at hword
      have hsplit := congrArg List.length
        (takeWhile_append_dropWhile (p := (· ≠ 32)) (l := s.dropWhile (· = 32)))
      rw [length_append] at hsplit
      have hpos := length_pos_iff.mpr hword
      have h₁ := (dropWhile_suffix (p := (· = 32)) (l := s)).length_le
      have h₂ := (dropWhile_suffix (p := (· = 32))
        (l := (s.dropWhile (· = 32)).dropWhile (· ≠ 32))).length_le
      omega
    · exact eq_false_of_ne_true hmark

/-- What the passes over single characters leave. -/
structure Legible (s : Units) : Prop where
  newline : 10 ∉ s
  control : ∀ c ∈ s, control c = false
  spaces : ∀ c ∈ s, whitespace c = true → c = 32
  markup : ∀ c ∈ s, c ∉ markup

theorem Legible.subset {s t : Units} (h : Legible t) (hst : ∀ c ∈ s, c ∈ t) : Legible s :=
  ⟨fun hmem => h.newline (hst 10 hmem), fun c hc => h.control c (hst c hc),
    fun c hc => h.spaces c (hst c hc), fun c hc => h.markup c (hst c hc)⟩

theorem mem_cleanLine {l : Units} (h : c ∈ cleanLine l) : c ∈ l ∧ c ∉ markup := by
  have hmarks := mem_squeeze ((trimOne_inside _).subset h)
  have hfilter := mem_filter.mp ((dropMarks_suffix _ _).subset hmarks)
  exact ⟨hfilter.1, of_decide_eq_true hfilter.2⟩

structure Line (l : Units) : Prop extends Legible l where
  tidy : Tidy l
  mark : mark (firstWord l) = false
  label : label l = false

theorem lines_line {l : Units} (hl : l ∈ lines v) : Line l := by
  rw [lines] at hl
  obtain ⟨hl, hlabel⟩ := mem_filter.mp hl
  obtain ⟨l₀, hl₀, rfl⟩ := mem_map.mp hl
  have hsplit := (mem_filter.mp hl₀).1
  refine ⟨⟨?_, ?_, ?_, fun c hc => (mem_cleanLine hc).2⟩, tidy_squeeze _, ?_, by simpa using hlabel⟩
  · exact fun hmem => (mem_splitOn hsplit (mem_cleanLine hmem).1).2 rfl
  · intro c hc
    obtain ⟨hmem, hne⟩ := mem_splitOn hsplit (mem_cleanLine hc).1
    obtain ⟨d, hd, rfl⟩ := mem_map.mp hmem
    obtain ⟨e, he, rfl⟩ := mem_map.mp hd
    split_ifs with h₁ h₂ h₃
    · rfl
    · rfl
    · rfl
    · exact eq_false_of_ne_true ‹_›
  · intro c hc hw
    obtain ⟨hmem, hne⟩ := mem_splitOn hsplit (mem_cleanLine hc).1
    obtain ⟨d, hd, rfl⟩ := mem_map.mp hmem
    split_ifs at hw hne ⊢ with h₁
    · rfl
    · exact absurd ⟨hw, hne⟩ h₁
  · rw [cleanLine, firstWord_trimOne, firstWord_squeeze]
    exact dropMarks_mark le_rfl

theorem mem_intercalate {ls : List Units} (h : c ∈ [32].intercalate ls) :
    c = 32 ∨ ∃ l ∈ ls, c ∈ l := by
  induction ls with
  | nil => cases h
  | cons l ls ih =>
    cases ls with
    | nil => exact .inr ⟨l, mem_cons_self, by simpa [List.intercalate] using h⟩
    | cons l' ls =>
      rw [intercalate_cons_cons] at h
      rcases mem_append.mp h with h | h
      · exact .inr ⟨l, mem_cons_self, h⟩
      · rcases mem_cons.mp h with rfl | h
        · exact .inl rfl
        · rcases ih h with h | ⟨m, hm, h⟩
          · exact .inl h
          · exact .inr ⟨m, .tail _ hm, h⟩

/-- Lines joined and tidied are a line. -/
theorem joined_line {ls : List Units} (h : ∀ l ∈ ls, Line l) :
    Line (trimOne (squeeze ([32].intercalate ls))) := by
  have hmem : ∀ c ∈ trimOne (squeeze ([32].intercalate ls)), c = 32 ∨ ∃ l ∈ ls, c ∈ l :=
    fun c hc => mem_intercalate (mem_squeeze ((trimOne_inside _).subset hc))
  refine ⟨⟨?_, ?_, ?_, ?_⟩, tidy_squeeze _, ?_, ?_⟩
  · intro hc
    rcases hmem 10 hc with h32 | ⟨l, hl, hc⟩
    · cases h32
    · exact (h l hl).newline hc
  · intro c hc
    rcases hmem c hc with rfl | ⟨l, hl, hc⟩
    · rfl
    · exact (h l hl).control c hc
  · intro c hc hw
    rcases hmem c hc with rfl | ⟨l, hl, hc⟩
    · rfl
    · exact (h l hl).spaces c hc hw
  · intro c hc
    rcases hmem c hc with rfl | ⟨l, hl, hc⟩
    · decide
    · exact (h l hl).markup c hc
  · rw [firstWord_trimOne, firstWord_squeeze]
    exact firstWord_intercalate (P := fun w => DailyBrief.mark w = false) rfl
      fun l hl => (h l hl).mark
  · rcases tidied_last fun l hl => (h l hl).tidy with hnil | ⟨l, hl, hne, hsuffix⟩
    · rw [hnil]
      rfl
    · -- a colon at the end of the text is one at the end of a line of it, which is no longer
      have hlabel := (h l hl).label
      have hlast : (trimOne (squeeze ([32].intercalate ls))).getLast? = l.getLast? := by
        obtain ⟨x, hx⟩ := hsuffix
        rw [← hx, getLast?_append_of_ne_nil _ hne]
      have hle := cpLength_suffix hsuffix
      refine eq_false_of_ne_true fun hboth => ?_
      simp only [DailyBrief.label, hlast, Bool.and_eq_true, decide_eq_true_eq] at hboth
      have hshort : DailyBrief.label l = true := by
        simp only [DailyBrief.label, Bool.and_eq_true, decide_eq_true_eq]
        exact ⟨hboth.1, hle.trans hboth.2⟩
      rw [hshort] at hlabel
      cases hlabel

theorem fence_shrinks : Shrinks fence := by
  intro s r n h
  rw [fence] at h
  split_ifs at h with hfence
  obtain ⟨rest, rfl⟩ := hfence
  obtain ⟨rfl, rfl⟩ := Prod.mk.inj (Option.some.inj h)
  have hdrop : ([96, 96, 96] ++ rest).drop 3 = rest := rfl
  have hend : (rest.drop (rest.takeWhile (· ≠ 10)).length).head?.all
      (fun c => !surrogate c) = true := by
    have hsplit := takeWhile_append_dropWhile (p := (· ≠ 10)) (l := rest)
    have hrest : rest.drop (rest.takeWhile (· ≠ 10)).length = rest.dropWhile (· ≠ 10) :=
      append_cancel_left ((split_takeWhile _ rest).trans hsplit.symm)
    rw [hrest]
    cases hd : rest.dropWhile (· ≠ 10) with
    | nil => rfl
    | cons c t =>
      have hc := head_dropWhile_not (· ≠ 10) (l := rest) (by rw [hd]; simp)
      simp only [hd, head_cons] at hc
      obtain rfl : c = 10 := by simpa using hc
      rfl
  have hlen : 3 + (rest.takeWhile (· ≠ 10)).length =
      ([96, 96, 96] ++ rest.takeWhile (· ≠ 10)).length := by simp; omega
  have happ := shrinks_append (r := [32]) (a := [96, 96, 96] ++ rest.takeWhile (· ≠ 10))
    (by simp) rfl (by rw [cons_append]; exact cpLength_pos 96 _)
    (cpLength_append_head hend _)
  rw [hdrop, hlen]
  rwa [append_assoc, split_takeWhile] at happ

theorem tag_shrinks : Shrinks tag := by
  intro s r n h
  unfold tag at h
  split at h
  · rename_i t
    dsimp only at h
    generalize hbody : t.takeWhile (fun c => decide (c ∉ [60, 62, 10])) = body at h
    split_ifs at h with hend
    obtain ⟨rfl, rfl⟩ := Prod.mk.inj (Option.some.inj h)
    obtain ⟨rest, hrest⟩ := head?_eq_some_iff.mp hend
    have hs : 60 :: t = (60 :: body ++ [62]) ++ rest := by
      have hsplit := split_takeWhile (fun c => decide (c ∉ [60, 62, 10])) t
      rw [hbody, hrest] at hsplit
      rw [← hsplit]
      simp
    have hlen : body.length + 2 = (60 :: body ++ [62]).length := by simp
    rw [hs, hlen]
    have hlast : (60 :: body ++ [62]).getLast?.all (fun c => !surrogate c) = true := by
      rw [getLast?_concat]
      rfl
    exact shrinks_append (by simp) rfl (cpLength_pos _ _) (cpLength_append hlast rest)
  · cases h

theorem bracketed_shrinks : Shrinks bracketed := by
  intro s r n h
  unfold bracketed at h
  split at h
  · rename_i t
    dsimp only at h
    generalize htext : t.takeWhile (fun c => decide (c ∉ [91, 93, 10])) = text at h
    split at h
    · rename_i rest hrest
      generalize hurl : rest.takeWhile (fun c => decide (c ∉ [40, 41, 10])) = url at h
      split_ifs at h with hend
      obtain ⟨rfl, rfl⟩ := Prod.mk.inj (Option.some.inj h)
      obtain ⟨after, hafter⟩ := head?_eq_some_iff.mp hend
      have hs : 91 :: t = (91 :: text ++ (93 :: 40 :: url ++ [41])) ++ after := by
        have hsplit := split_takeWhile (fun c => decide (c ∉ [91, 93, 10])) t
        have hsplit' := split_takeWhile (fun c => decide (c ∉ [40, 41, 10])) rest
        rw [hurl, hafter] at hsplit'
        rw [htext, hrest, ← hsplit'] at hsplit
        rw [← hsplit]
        simp
      have hlen : text.length + url.length + 4 =
          (91 :: text ++ (93 :: 40 :: url ++ [41])).length := by simp; omega
      rw [hs, hlen]
      have hlast : (91 :: text ++ (93 :: 40 :: url ++ [41])).getLast?.all
          (fun c => !surrogate c) = true := by
        rw [getLast?_append_of_ne_nil _ (by simp), getLast?_concat]
        rfl
      refine shrinks_append (by simp) rfl ?_ (cpLength_append hlast after)
      exact cpLength_inside ⟨[91], 93 :: 40 :: url ++ [41], rfl⟩
    · cases h
  · cases h

theorem link_shrinks : Shrinks link := by
  intro s r n h
  unfold link at h
  split at h
  · rename_i t
    obtain ⟨⟨r', k⟩, hfound, heq⟩ := Option.map_eq_some_iff.mp h
    obtain ⟨rfl, rfl⟩ := Prod.mk.inj heq
    obtain ⟨hk, -, hr, hsplit⟩ := bracketed_shrinks t _ k hfound
    have hbang : ∀ x, cpLength (33 :: x) = cpLength x + 1 := cpLength_cons_plain rfl
    dsimp only at hk hr hsplit ⊢
    refine ⟨by omega, rfl, ?_, ?_⟩
    · rw [take_succ_cons]
      exact hr.trans (cpLength_le_cons 33 _)
    · rw [take_succ_cons, drop_succ_cons, hbang, hbang]
      omega
  · exact bracketed_shrinks s r n h

theorem cpLength_map {f : ℕ → ℕ} (hf : ∀ c, f c = c ∨ surrogate c = false ∧ surrogate (f c) = false)
    (s : Units) : cpLength (s.map f) = cpLength s := by
  have hpair : ∀ c (s : Units), paired (f c) (s.map f) = paired c s := by
    intro c s
    rcases hf c with hc | ⟨hc, hfc⟩
    · cases s with
      | nil => rw [hc]; rfl
      | cons d s =>
        rcases hf d with hd | ⟨hd, hfd⟩
        · rw [hc]
          exact paired_congr (by rw [map_cons, head?_cons, head?_cons, hd])
        · rw [map_cons, paired_plain hd, paired_plain hfd]
    · rw [plain_paired hc, plain_paired hfc]
  induction s with
  | nil => rfl
  | cons c s ih => rw [map_cons, cpLength_cons, cpLength_cons, hpair, ih]

theorem control_plain (h : control c = true) : surrogate c = false := by
  simp only [control, surrogate, Bool.or_eq_true, Bool.and_eq_true, decide_eq_true_eq,
    Bool.and_eq_false_iff, decide_eq_false_iff_not] at h ⊢
  omega

theorem whitespace_plain (h : whitespace c = true) : surrogate c = false := by
  simp only [whitespace, surrogate, Bool.or_eq_true, Bool.and_eq_true, decide_eq_true_eq,
    Bool.and_eq_false_iff, decide_eq_false_iff_not] at h ⊢
  omega

theorem cpLength_filter {p : ℕ → Bool} (hp : ∀ c, surrogate c = true → p c = true) (s : Units) :
    cpLength (s.filter p) ≤ cpLength s := by
  induction s with
  | nil => exact le_rfl
  | cons c s ih =>
    rw [filter_cons]
    split_ifs with hc
    · by_cases hpair : paired c s = true
      · have hhead : (s.filter p).head? = s.head? := by
          have hlow := (paired_surrogate hpair).2
          cases s with
          | nil => rfl
          | cons d s =>
            rw [filter_cons, if_pos (hp d (by simpa using hlow))]
            rfl
        rw [cpLength_cons c s, cpLength_cons, paired_congr hhead, if_pos hpair, if_pos hpair]
        exact ih
      · rw [cpLength_cons c s, if_neg hpair]
        exact (cpLength_cons_le c _).trans (Nat.add_le_add_right ih 1)
    · exact ih.trans (cpLength_le_cons c s)

theorem cleanLine_length (l : Units) : cpLength (cleanLine l) ≤ cpLength l := by
  have hfilter : cpLength (l.filter (· ∉ markup)) ≤ cpLength l := by
    have hplain : ∀ d ∈ markup, surrogate d = false := by decide
    refine cpLength_filter (fun c hc => ?_) l
    rw [decide_eq_true_eq]
    intro hmem
    rw [hplain c hmem] at hc
    cases hc
  calc cpLength (cleanLine l)
      ≤ cpLength (squeeze (dropMarks (l.filter (· ∉ markup)).length (l.filter (· ∉ markup)))) :=
        cpLength_inside (trimOne_inside _)
    _ ≤ cpLength (dropMarks (l.filter (· ∉ markup)).length (l.filter (· ∉ markup))) :=
        cpLength_squeeze _
    _ ≤ cpLength (l.filter (· ∉ markup)) := cpLength_suffix (dropMarks_suffix _ _)
    _ ≤ cpLength l := hfilter

theorem lines_length (v : Units) : cpLength ([32].intercalate (lines v)) ≤ 20000 := by
  have htext : ∀ s : Units, cpLength ((s.map fun c => if control c = true then 32 else c).map
      fun c => if whitespace c = true ∧ c ≠ 10 then 32 else c) = cpLength s := by
    intro s
    rw [cpLength_map, cpLength_map]
    · intro c
      split_ifs with h
      · exact .inr ⟨control_plain h, rfl⟩
      · exact .inl rfl
    · intro c
      split_ifs with h
      · exact .inr ⟨whitespace_plain h.1, rfl⟩
      · exact .inl rfl
  have hread : cpLength (replaceAll link 0 (replaceAll tag 0 (replaceAll fence 0
      (cpPrefix v 20000)))) ≤ 20000 :=
    ((cpLength_replaceAll link_shrinks _).trans ((cpLength_replaceAll tag_shrinks _).trans
      (cpLength_replaceAll fence_shrinks _))).trans (cpLength_cpPrefix v 20000)
  rcases eq_or_ne (lines v) [] with hnil | hne
  · rw [hnil]
    exact Nat.zero_le _
  · have hsum := cpLength_intercalate (c := 32) rfl hne
    rw [lines] at hsum ⊢
    generalize replaceAll link 0 (replaceAll tag 0 (replaceAll fence 0 (cpPrefix v 20000))) = t
      at hread hsum ⊢
    rw [← htext] at hread
    generalize (t.map fun c => if control c = true then 32 else c).map (fun c =>
      if whitespace c = true ∧ c ≠ 10 then 32 else c) = text at hread hsum ⊢
    have hwhole := cpLength_intercalate (c := 10) rfl (splitOn_ne_nil 10 text)
    rw [intercalate_splitOn] at hwhole
    have hkept := ((filter_sublist (p := fun l => !label l)
      (l := ((text.splitOn 10).filter fun l => !heading l).map cleanLine)).map
        fun l => cpLength l + 1).sum_le_sum fun _ _ => Nat.zero_le _
    have hclean := sum_le_sum (l := (text.splitOn 10).filter fun l => !heading l)
      (f := fun l => cpLength (cleanLine l) + 1) (g := fun l => cpLength l + 1)
      fun l _ => Nat.add_le_add_right (cleanLine_length l) 1
    have hlines := ((filter_sublist (p := fun l => !heading l) (l := text.splitOn 10)).map
        fun l => cpLength l + 1).sum_le_sum fun _ _ => Nat.zero_le _
    rw [map_map] at hkept
    have hmap : (fun l => cpLength l + 1) ∘ cleanLine = fun l => cpLength (cleanLine l) + 1 := rfl
    rw [hmap] at hkept
    omega

theorem beforeLastSpace_start {words : Units} (h : beforeLastSpace s = some words) :
    words <+: s := by
  unfold beforeLastSpace at h
  split at h
  · cases h
  · rename_i c r hr
    cases h
    have hsuffix : r <:+ s.reverse :=
      (suffix_cons c r).trans (hr ▸ dropWhile_suffix _)
    rw [← reverse_reverse s]
    exact List.reverse_prefix.mpr hsuffix

theorem trimEnd_start (s : Units) : trimEnd s <+: s := by
  conv_rhs => rw [← reverse_reverse s]
  exact List.reverse_prefix.mpr (dropWhile_suffix _)

theorem trimEnd_last (c : ℕ) (h : (trimEnd s).getLast? = some c) : whitespace c = false := by
  rw [trimEnd, getLast?_reverse] at h
  cases hd : s.reverse.dropWhile whitespace with
  | nil => rw [hd] at h; cases h
  | cons d t =>
    have hnot := head_dropWhile_not whitespace (l := s.reverse) (by rw [hd]; simp)
    simp only [hd, head_cons] at hnot
    rw [hd, head?_cons] at h
    rw [← Option.some.inj h]
    exact hnot

theorem trimEnd_head (hc : whitespace c = false) (t : Units) :
    ∃ rest, trimEnd (c :: t) = c :: rest := by
  have hne : trimEnd (c :: t) ≠ [] := by
    intro hnil
    rw [trimEnd, reverse_eq_nil_iff, dropWhile_eq_nil_iff] at hnil
    rw [hnil c (by simp)] at hc
    cases hc
  obtain ⟨d, rest, hd⟩ := exists_cons_of_ne_nil hne
  obtain ⟨y, hy⟩ := trimEnd_start (c :: t)
  rw [hd, cons_append] at hy
  exact ⟨rest, by rw [hd, (List.cons.inj hy).1]⟩

/-- The cut is a start of the text and the ellipsis. -/
theorem cutWords_eq (hc : whitespace c = false) (hmax : 2 ≤ max) :
    ∃ rest, cutWords (c :: t) max = c :: rest ++ [0x2026] ∧ c :: rest <+: c :: t ∧
      cpLength (c :: rest) ≤ max - 1 ∧ ∀ d, (c :: rest).getLast? = some d → whitespace d = false := by
  obtain ⟨cut, hcut⟩ := cpPrefix_head (c := c) (v := t) (show 0 < max - 1 by omega)
  have hkept : ∃ kept, cutWords (c :: t) max = trimEnd (c :: kept) ++ [0x2026] ∧
      c :: kept <+: cpPrefix (c :: t) (max - 1) := by
    rw [cutWords]
    cases hwords : beforeLastSpace (cpPrefix (c :: t) (max - 1)) with
    | none => exact ⟨cut, by rw [hcut], hcut ▸ prefix_rfl⟩
    | some words =>
      dsimp only
      split_ifs with hlong
      · have hprefix := beforeLastSpace_start hwords
        cases words with
        | nil =>
          exact absurd hlong (by simp [cpLength])
        | cons d words =>
          have hd := hprefix
          rw [hcut] at hd
          obtain rfl := (cons_prefix_cons.mp hd).1
          exact ⟨words, rfl, hprefix⟩
      · exact ⟨cut, by rw [hcut], hcut ▸ prefix_rfl⟩
  obtain ⟨kept, heq, hprefix⟩ := hkept
  obtain ⟨rest, hrest⟩ := trimEnd_head hc kept
  have hstart := (trimEnd_start (c :: kept)).trans hprefix
  rw [hrest] at hstart heq
  refine ⟨rest, heq, hstart.trans (cpPrefix_start _ _),
    (cpLength_start hstart).trans (cpLength_cpPrefix _ _), fun d hd => ?_⟩
  rw [← hrest] at hd
  exact trimEnd_last d hd

theorem hashes_ascii {w : Units} (h : hashes w = true) : ∀ c ∈ w, c = 35 := by
  intro c hc
  rw [hashes, Bool.and_eq_true] at h
  exact of_decide_eq_true (all_eq_true.mp h.2 c hc)

theorem mark_ascii {w : Units} (h : mark w = true) : 0x2026 ∉ w := by
  intro hmem
  rw [mark, Bool.or_eq_true, Bool.or_eq_true, Bool.or_eq_true] at h
  rcases h with ((h | h) | h) | h
  · rw [of_decide_eq_true h] at hmem
    exact absurd hmem (by decide)
  · rw [of_decide_eq_true h] at hmem
    exact absurd hmem (by decide)
  · simp only [Bool.and_eq_true, Bool.or_eq_true, decide_eq_true_eq] at h
    obtain ⟨⟨hlast, -⟩, hdigits⟩ := h
    rcases eq_nil_or_concat w with rfl | ⟨x, d, rfl⟩
    · cases hmem
    · rw [concat_eq_append, getLast?_concat, dropLast_concat] at *
      rcases mem_append.mp hmem with hx | hx
      · have hdigit := all_eq_true.mp hdigits _ hx
        simp at hdigit
      · rw [mem_singleton] at hx
        subst hx
        simp at hlast
  · exact absurd (hashes_ascii h _ hmem) (by decide)

theorem spoken_cut (h : Line s) (hmax : 2 ≤ max) (hlong : max < cpLength s) :
    Spoken max (cutWords s max) := by
  cases s with
  | nil => exact absurd hlong (by simp [cpLength])
  | cons c t =>
    have hc : whitespace c = false := by
      refine eq_false_of_ne_true fun hw => h.tidy.head ?_
      rw [h.spaces c mem_cons_self hw]
      rfl
    obtain ⟨rest, heq, hprefix, hlen, hlast⟩ := cutWords_eq (t := t) hc hmax
    have hlegible : Legible (c :: rest) := h.toLegible.subset fun d hd => hprefix.subset hd
    have hmem : ∀ d ∈ c :: rest ++ [0x2026], d ∈ c :: rest ∨ d = 0x2026 := fun d hd =>
      (mem_append.mp hd).imp_right mem_singleton.mp
    rw [heq]
    refine ⟨?_, ?_, ?_, ?_, ?_, ⟨?_, ?_, ?_⟩, ?_, ?_⟩
    · rw [cpLength_concat rfl]
      omega
    · intro hd
      rcases hmem _ hd with hd | hd
      · exact hlegible.newline hd
      · cases hd
    · intro d hd
      rcases hmem d hd with hd | rfl
      · exact hlegible.control d hd
      · rfl
    · intro d hd hw
      rcases hmem d hd with hd | rfl
      · exact hlegible.spaces d hd hw
      · cases hw
    · intro d hd
      rcases hmem d hd with hd | rfl
      · exact hlegible.markup d hd
      · decide
    · refine (h.tidy.single.of_inside hprefix.isInfix).append (isChain_singleton _) ?_
      rintro x - y hy ⟨-, rfl⟩
      exact absurd (Option.some.inj hy) (by decide)
    · intro h32
      obtain rfl : c = 32 := by simpa using h32
      cases hc
    · rw [getLast?_concat]
      decide
    · have hc32 : c ≠ 32 := fun h32 => h.tidy.head (by rw [h32]; rfl)
      have hword := h.mark
      obtain ⟨y, hy⟩ := (cons_prefix_cons.mp hprefix).2
      rw [firstWord_cons hc32, ← hy, takeWhile_append] at hword
      refine eq_false_of_ne_true fun hmark => ?_
      rw [cons_append, firstWord_cons hc32, takeWhile_append] at hmark
      split_ifs at hmark hword with hfull
      · exact mark_ascii hmark (by simp)
      · rw [hmark] at hword
        cases hword
    · rw [DailyBrief.label, getLast?_concat]
      rfl

theorem spoken_clean (v : Units) (hmax : 2 ≤ max) :
    Spoken max (cleanBriefNarrative v max) ∧ cpLength (cleanBriefNarrative v max) ≤ 20000 := by
  rw [cleanBriefNarrative]
  split_ifs with hnil
  · exact ⟨⟨Nat.zero_le _, by simp, by simp, by simp, by simp, ⟨.nil, by simp, by simp⟩, rfl, rfl⟩,
      Nat.zero_le _⟩
  · have hline := joined_line fun l hl => lines_line (v := v) hl
    have hread : cpLength (trimOne (squeeze ([32].intercalate (lines v)))) ≤ 20000 :=
      (cpLength_inside (trimOne_inside _)).trans ((cpLength_squeeze _).trans (lines_length v))
    dsimp only
    split_ifs with hlong
    · have hspoken := spoken_cut hline hmax hlong
      exact ⟨hspoken, hspoken.bounded.trans (hlong.le.trans hread)⟩
    · exact ⟨⟨not_lt.mp hlong, hline.newline, hline.control, hline.spaces, hline.markup,
        hline.tidy, hline.mark, hline.label⟩, hread⟩

end

/-- Cleaning a cleaned text changes nothing, and a cleaned text is fit to be read aloud. -/
theorem clean_fixed (v : Units) (max : ℕ) (hmax : 2 ≤ max) :
    cleanBriefNarrative (cleanBriefNarrative v max) max = cleanBriefNarrative v max ∧
      Spoken max (cleanBriefNarrative v max) := by
  obtain ⟨hspoken, hread⟩ := spoken_clean v hmax
  exact ⟨clean_of_spoken hspoken hread, hspoken⟩

/-- A heading, a bullet under emphasis and a link, cut at ten code points. -/
theorem clean_fixed_sample :
    let v := "## Today\n*-* [merged](x) it".toList.map Char.toNat
    cleanBriefNarrative (cleanBriefNarrative v 10) 10 = cleanBriefNarrative v 10 ∧
      Spoken 10 (cleanBriefNarrative v 10) :=
  clean_fixed _ 10 (by decide)

example : cleanBriefNarrative ("## Today\n*-* [merged](x) it".toList.map Char.toNat) 10 =
    "merged it".toList.map Char.toNat := by decide

end Turma.DailyBrief
