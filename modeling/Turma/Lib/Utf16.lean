import Mathlib.Algebra.GroupWithZero.Nat
import Mathlib.Data.List.Basic
import Mathlib.Order.Lattice

/-! JavaScript strings by their UTF-16 code units: lengths and prefixes in code points, and
replacing by a regular expression. -/

namespace Turma.Lib

open List Option

/-- A string, as its code units. -/
abbrev Units := List ℕ

variable {c : ℕ} {e : Units × ℕ} {x : Units} {n : ℕ}

namespace Units

def surrogate (c : ℕ) : Bool := 0xD800 ≤ c && c ≤ 0xDFFF

def paired (c : ℕ) (rest : Units) : Bool :=
  (0xD800 ≤ c && c ≤ 0xDBFF) && rest.head?.any fun d => 0xDC00 ≤ d && d ≤ 0xDFFF

/-- `[...s].length`. -/
def cpLength : Units → ℕ
  | [] => 0
  | c :: s => if paired c s = true then cpLength s else cpLength s + 1

def cpPrefix : Units → ℕ → Units
  | [], _ => []
  | _ :: _, 0 => []
  | c :: v, n + 1 => c :: cpPrefix v (if paired c v = true then n + 1 else n)

theorem paired_surrogate {s : Units} (h : paired c s = true) :
    surrogate c = true ∧ s.head?.any surrogate = true := by
  rw [paired, Bool.and_eq_true] at h
  obtain ⟨hc, hs⟩ := h
  refine ⟨?_, ?_⟩
  · simp only [surrogate, Bool.and_eq_true, decide_eq_true_eq] at hc ⊢
    omega
  · cases s with
    | nil => simp at hs
    | cons d s =>
      simp only [head?_cons, any_some, surrogate, Bool.and_eq_true,
        decide_eq_true_eq] at hs ⊢
      omega

theorem paired_congr {s t : Units} (h : s.head? = t.head?) : paired c s = paired c t := by
  rw [paired, paired, h]

theorem plain_paired (hc : surrogate c = false) (s : Units) : paired c s = false := by
  by_contra h
  rw [(paired_surrogate (eq_true_of_ne_false h)).1] at hc
  cases hc

theorem cpLength_cons (c : ℕ) (s : Units) :
    cpLength (c :: s) = if paired c s = true then cpLength s else cpLength s + 1 := rfl

theorem cpLength_cons_plain (hc : surrogate c = false) (s : Units) :
    cpLength (c :: s) = cpLength s + 1 := by
  rw [cpLength, plain_paired hc, if_neg Bool.false_ne_true]

theorem cpLength_pos (c : ℕ) (s : Units) : 1 ≤ cpLength (c :: s) := by
  induction s generalizing c with
  | nil => simp [cpLength, paired]
  | cons d s ih =>
    rw [cpLength_cons]
    split_ifs
    · exact ih d
    · omega

theorem cpLength_cons_le (c : ℕ) (s : Units) : cpLength (c :: s) ≤ cpLength s + 1 := by
  rw [cpLength]
  split_ifs <;> omega

theorem cpLength_le_cons (c : ℕ) (s : Units) : cpLength s ≤ cpLength (c :: s) := by
  rw [cpLength]
  split_ifs <;> omega

/-- A string is no shorter than its end. -/
theorem cpLength_suffix {s t : Units} (h : s <:+ t) : cpLength s ≤ cpLength t := by
  obtain ⟨x, rfl⟩ := h
  induction x with
  | nil => exact le_rfl
  | cons c x ih => exact ih.trans (cpLength_le_cons c _)

theorem head?_append_of_ne_nil {x y : Units} (hx : x ≠ []) : (x ++ y).head? = x.head? := by
  cases x with
  | nil => exact absurd rfl hx
  | cons c x => rfl

/-- A string is no shorter than its start. -/
theorem cpLength_start {s t : Units} (h : s <+: t) : cpLength s ≤ cpLength t := by
  obtain ⟨y, rfl⟩ := h
  induction s with
  | nil => exact Nat.zero_le _
  | cons c s ih =>
    cases s with
    | nil =>
      cases y with
      | nil => exact le_rfl
      | cons d y => exact (cpLength_cons_le c []).trans (cpLength_pos c (d :: y))
    | cons d s =>
      have hpair : paired c (d :: s ++ y) = paired c (d :: s) := paired_congr rfl
      rw [cons_append, cpLength_cons c, cpLength_cons c, hpair]
      split_ifs
      · exact ih
      · exact Nat.add_le_add_right ih 1

theorem cpLength_append_le (x y : Units) : cpLength (x ++ y) ≤ cpLength x + cpLength y := by
  induction x with
  | nil => simp
  | cons c x ih =>
    cases x with
    | nil =>
      have hone : cpLength [c] = 1 := by simp [cpLength, paired]
      rw [hone, singleton_append]
      exact (cpLength_cons_le c y).trans (by omega)
    | cons d x =>
      have hpair : paired c (d :: x ++ y) = paired c (d :: x) := paired_congr rfl
      rw [cons_append, cpLength_cons c, hpair, cpLength_cons c]
      split_ifs <;> omega

theorem paired_plain {c d : ℕ} (hd : surrogate d = false) (s : Units) : paired c (d :: s) = false := by
  by_contra h
  have hlow := (paired_surrogate (eq_true_of_ne_false h)).2
  simp [hd] at hlow

theorem cpLength_concat (hc : surrogate c = false) (x : Units) :
    cpLength (x ++ [c]) = cpLength x + 1 := by
  induction x with
  | nil => exact cpLength_cons_plain hc []
  | cons d x ih =>
    have hpair : paired d (x ++ [c]) = paired d x := by
      cases x with
      | nil => rw [nil_append, paired_plain hc, paired, head?_nil, any_none,
          Bool.and_false]
      | cons e x => exact paired_congr rfl
    rw [cons_append, cpLength_cons, cpLength_cons, hpair, ih]
    split_ifs <;> rfl

/-- Where the first part ends in no half of a code point the lengths add up. -/
theorem cpLength_append (hx : x.getLast?.all (fun c => !surrogate c) = true)
    (y : Units) : cpLength (x ++ y) = cpLength x + cpLength y := by
  induction x with
  | nil => simp [cpLength]
  | cons c x ih =>
    cases x with
    | nil =>
      have hc : surrogate c = false := by simpa using hx
      rw [singleton_append, cpLength_cons_plain hc, cpLength_cons_plain hc, cpLength]
      omega
    | cons d x =>
      have hpair : paired c (d :: x ++ y) = paired c (d :: x) := paired_congr rfl
      have hrest := ih (by simpa [getLast?_cons_cons] using hx)
      rw [cons_append, cpLength_cons c, hpair, cpLength_cons c, hrest]
      split_ifs <;> omega

/-- So they do where the second part starts with none. -/
theorem cpLength_append_head {y : Units} (hy : y.head?.all (fun c => !surrogate c) = true)
    (x : Units) : cpLength (x ++ y) = cpLength x + cpLength y := by
  induction x with
  | nil => simp [cpLength]
  | cons c x ih =>
    have hpair : paired c (x ++ y) = paired c x := by
      cases x with
      | nil =>
        cases y with
        | nil => rfl
        | cons d y =>
          have hd : surrogate d = false := by simpa using hy
          rw [nil_append, paired_plain hd, paired, head?_nil, any_none,
            Bool.and_false]
      | cons d x => exact paired_congr rfl
    rw [cons_append, cpLength_cons c, hpair, cpLength_cons c, ih]
    split_ifs <;> omega

theorem cpPrefix_start (v : Units) (n : ℕ) : cpPrefix v n <+: v := by
  induction v generalizing n with
  | nil => exact prefix_rfl
  | cons c v ih =>
    cases n with
    | zero => exact List.nil_prefix
    | succ n => exact (prefix_cons_inj c).mpr (ih _)

theorem cpLength_cpPrefix (v : Units) (n : ℕ) : cpLength (cpPrefix v n) ≤ n := by
  induction v generalizing n with
  | nil => exact Nat.zero_le n
  | cons c v ih =>
    cases n with
    | zero => exact le_rfl
    | succ n =>
      rw [cpPrefix]
      by_cases h : paired c v = true
      · rw [if_pos h]
        have hhead : paired c (cpPrefix v (n + 1)) = paired c v := by
          refine paired_congr ?_
          cases v with
          | nil => rfl
          | cons d v => rfl
        rw [cpLength_cons, if_pos (hhead.trans h)]
        exact ih (n + 1)
      · rw [if_neg h]
        exact (cpLength_cons_le c _).trans (Nat.add_le_add_right (ih n) 1)

theorem cpPrefix_of_le {v : Units} (h : cpLength v ≤ n) : cpPrefix v n = v := by
  induction v generalizing n with
  | nil => rfl
  | cons c v ih =>
    cases n with
    | zero =>
      have hpos := cpLength_pos c v
      omega
    | succ n =>
      rw [cpPrefix]
      rw [cpLength_cons] at h
      split_ifs at h ⊢
      · rw [ih h]
      · rw [ih (by omega)]

theorem cpPrefix_head {v : Units} (h : 0 < n) :
    ∃ rest, cpPrefix (c :: v) n = c :: rest := by
  cases n with
  | zero => omega
  | succ n => exact ⟨_, rfl⟩

/-! `s.replace(re, …)` of a global expression `m`, which tells the replacement and the length of its
match at the start of a string. -/

/-- The first `k` units are left of the last match. -/
def replaceAll (m : Units → Option (Units × ℕ)) : ℕ → Units → Units
  | _, [] => []
  | k + 1, _ :: s => replaceAll m k s
  | 0, c :: s =>
    match m (c :: s) with
    | some (r, n) => r ++ replaceAll m (n - 1) s
    | none => c :: replaceAll m 0 s

theorem take_takeWhile (p : ℕ → Bool) (s : Units) :
    s.take (s.takeWhile p).length = s.takeWhile p :=
  prefix_iff_eq_take.mp (List.takeWhile_prefix p) |>.symm

theorem split_takeWhile (p : ℕ → Bool) (s : Units) :
    s.takeWhile p ++ s.drop (s.takeWhile p).length = s := by
  conv_rhs => rw [← take_append_drop (s.takeWhile p).length s, take_takeWhile]

/-- The match that takes `a`, before which no code point starts and behind which none goes on. -/
theorem shrinks_append {r a b : Units} (ha : a ≠ [])
    (hhead : a.head?.all (fun c => !surrogate c) = true) (hr : cpLength r ≤ cpLength a)
    (hb : cpLength (a ++ b) = cpLength a + cpLength b) :
    0 < a.length ∧ (a ++ b).head?.all (fun c => !surrogate c) = true ∧
      cpLength r ≤ cpLength ((a ++ b).take a.length) ∧
      cpLength ((a ++ b).take a.length) + cpLength ((a ++ b).drop a.length) ≤
        cpLength (a ++ b) := by
  rw [take_left, drop_left, head?_append_of_ne_nil ha]
  exact ⟨length_pos_iff.mpr ha, hhead, hr, hb.ge⟩

theorem replaceAll_drop (m : Units → Option (Units × ℕ)) (k : ℕ) (s : Units) :
    replaceAll m k s = replaceAll m 0 (s.drop k) := by
  induction s generalizing k with
  | nil => cases k <;> rfl
  | cons c s ih =>
    cases k with
    | zero => rfl
    | succ k => exact ih k

theorem replaceAll_none {m : Units → Option (Units × ℕ)} {s : Units}
    (h : ∀ t, t <:+ s → m t = none) : replaceAll m 0 s = s := by
  induction s with
  | nil => rfl
  | cons c s ih =>
    rw [replaceAll, h _ (suffix_refl _)]
    exact congrArg _ (ih fun t ht => h t (ht.trans (suffix_cons c s)))

/-- A match takes whole code points, and its replacement is no longer. -/
def Shrinks (m : Units → Option (Units × ℕ)) : Prop :=
  ∀ s r n, m s = some (r, n) → 0 < n ∧ s.head?.all (fun c => !surrogate c) = true ∧
    cpLength r ≤ cpLength (s.take n) ∧ cpLength (s.take n) + cpLength (s.drop n) ≤ cpLength s

theorem cpLength_replaceAll {m : Units → Option (Units × ℕ)} (hm : Shrinks m) (s : Units) :
    cpLength (replaceAll m 0 s) ≤ cpLength s := by
  induction hlen : s.length using Nat.strong_induction_on generalizing s with
  | _ n ih =>
    cases s with
    | nil => exact le_rfl
    | cons c s =>
      rw [length_cons] at hlen
      rw [replaceAll]
      cases hmatch : m (c :: s) with
      | some found =>
        obtain ⟨r, k⟩ := found
        obtain ⟨hk, -, hr, hsplit⟩ := hm _ r k hmatch
        have hrest : (c :: s).drop k = s.drop (k - 1) := by
          obtain ⟨j, rfl⟩ := Nat.exists_eq_succ_of_ne_zero hk.ne'
          rfl
        simp only [replaceAll_drop m (k - 1) s]
        have hshort := ih (s.drop (k - 1)).length (by rw [length_drop]; omega) _ rfl
        have hsum := cpLength_append_le r (replaceAll m 0 (s.drop (k - 1)))
        rw [hrest] at hsplit
        omega
      | none =>
        have hshort := ih s.length (by omega) s rfl
        by_cases hpair : paired c s = true
        · have hhead : (replaceAll m 0 s).head? = s.head? := by
            have hlow := (paired_surrogate hpair).2
            cases s with
            | nil => rfl
            | cons d s =>
              rw [replaceAll]
              cases hd : m (d :: s) with
              | none => rfl
              | some found =>
                have hplain := (hm _ found.1 found.2 hd).2.1
                simp_all
          rw [cpLength_cons c s, cpLength_cons, if_pos hpair,
            if_pos ((paired_congr hhead).trans hpair)]
          exact hshort
        · rw [cpLength_cons c s, if_neg hpair]
          exact (cpLength_cons_le c _).trans (Nat.add_le_add_right hshort 1)

def Marked {α : Type*} (a : ℕ) (m : Units → Option α) : Prop := ∀ c s, c ≠ a → m (c :: s) = none

section

variable {a : ℕ} {m : Units → Option (Units × ℕ)}

/-- What holds no mark is kept. -/
theorem replaceAll_unmarked (hm : Marked a m) (hx : a ∉ x) (y : Units) :
    replaceAll m 0 (x ++ y) = x ++ replaceAll m 0 y := by
  induction x with
  | nil => rfl
  | cons c x ih =>
    rw [cons_append, replaceAll, hm c (x ++ y) fun h => hx (h ▸ mem_cons_self)]
    exact congrArg _ (ih fun h => hx (mem_cons_of_mem c h))

theorem replaceAll_match {x y r : Units} (h : m (c :: x ++ y) = some (r, x.length + 1)) :
    replaceAll m 0 (c :: x ++ y) = r ++ replaceAll m 0 y := by
  rw [cons_append] at h ⊢
  rw [replaceAll, h]
  show r ++ replaceAll m (x.length + 1 - 1) (x ++ y) = _
  rw [Nat.add_sub_cancel, replaceAll_drop, drop_left]

theorem replaceAll_miss (h : m (c :: x) = none) :
    replaceAll m 0 (c :: x) = c :: replaceAll m 0 x := by
  rw [replaceAll, h]

/-- A text of one mark, where no match begins, is kept. -/
theorem replaceAll_kept (hm : Marked a m) {x y : Units} (hx : a ∉ x) (h : m (a :: x ++ y) = none) :
    replaceAll m 0 (a :: x ++ y) = a :: x ++ replaceAll m 0 y := by
  rw [cons_append] at h ⊢
  rw [replaceAll_miss h, replaceAll_unmarked hm hx]
  rfl

end

/-! Named references: a mark and one of the names of a table, each of which stands for a unit. -/

/-- The reference at the head of a string, by the first of the names that it is. -/
def namedRef (a : ℕ) (table : List (Units × ℕ)) : Units → Option (Units × ℕ)
  | [] => none
  | c :: s =>
    if c = a then (table.find? fun e => e.1.isPrefixOf s).map fun e => ([e.2], e.1.length + 1)
    else none

def NamesClear (a : ℕ) (table : List (Units × ℕ)) : Prop := ∀ e ∈ table, a ∉ e.1

section

variable {a : ℕ} {table : List (Units × ℕ)}

theorem marked_namedRef (a : ℕ) (table : List (Units × ℕ)) : Marked a (namedRef a table) :=
  fun _ _ hc => if_neg hc

theorem namedRef_mark (a : ℕ) (table : List (Units × ℕ)) (s : Units) :
    namedRef a table (a :: s) =
      (table.find? fun e => e.1.isPrefixOf s).map fun e => ([e.2], e.1.length + 1) := if_pos rfl

theorem namedRef_some {s r : Units} (h : namedRef a table (a :: s) = some (r, n)) :
    ∃ name out rest, (name, out) ∈ table ∧ s = name ++ rest ∧ r = [out] ∧ n = name.length + 1 := by
  rw [namedRef_mark] at h
  obtain ⟨e, he, heq⟩ := map_eq_some_iff.mp h
  have hprefix : e.1.isPrefixOf s = true := find?_some (p := fun e : Units × ℕ => e.1.isPrefixOf s) he
  obtain ⟨rest, hrest⟩ := List.isPrefixOf_iff_prefix.mp hprefix
  obtain ⟨rfl, rfl⟩ := Prod.mk.inj heq
  exact ⟨e.1, e.2, rest, mem_of_find?_eq_some he, hrest.symm, rfl, rfl⟩

theorem namedRef_none {s : Units} (h : namedRef a table (a :: s) = none) {name : Units} {out : ℕ}
    (hmem : (name, out) ∈ table) : ¬ name <+: s := by
  rw [namedRef_mark, map_eq_none_iff, find?_eq_none] at h
  intro hprefix
  exact h _ hmem (List.isPrefixOf_iff_prefix.mpr hprefix)

/-- How long a string is once its references are replaced. -/
def replacedLength (a : ℕ) (table : List (Units × ℕ)) (s : Units) : ℕ :=
  (replaceAll (namedRef a table) 0 s).length

theorem replaceAll_named {name rest : Units} {out : ℕ}
    (h : namedRef a table (a :: (name ++ rest)) = some ([out], name.length + 1)) :
    replaceAll (namedRef a table) 0 (a :: (name ++ rest)) =
      out :: replaceAll (namedRef a table) 0 rest :=
  replaceAll_match (x := name) (y := rest) h

theorem replacedLength_cons_le (hclear : NamesClear a table) (c : ℕ) (s : Units) :
    replacedLength a table (c :: s) ≤ 1 + replacedLength a table s := by
  cases hm : namedRef a table (c :: s) with
  | none => rw [replacedLength, replaceAll_miss hm, length_cons, Nat.add_comm, replacedLength]
  | some found =>
    obtain rfl : c = a := by
      by_contra hc
      rw [marked_namedRef a table c s hc] at hm
      cases hm
    obtain ⟨name, out, rest, hmem, rfl, hr, hn⟩ := namedRef_some hm
    have hname := replaceAll_unmarked (marked_namedRef c table) (hclear _ hmem) rest
    rw [replacedLength, replacedLength, replaceAll_named (by rw [hm, ← hr, ← hn]), hname,
      length_cons, length_append]
    omega

/-- Units set before a string can complete a reference, but add no more than themselves. -/
theorem replacedLength_append_le (hclear : NamesClear a table) (s t : Units) :
    replacedLength a table (s ++ t) ≤ s.length + replacedLength a table t := by
  induction s with
  | nil => exact (Nat.zero_add _).ge
  | cons c s ih =>
    have hcons := replacedLength_cons_le hclear c (s ++ t)
    rw [cons_append, length_cons]
    omega

theorem namedRef_cons (e : Units × ℕ) (s : Units) :
    namedRef a (e :: table) (a :: s) =
      if e.1.isPrefixOf s = true then some ([e.2], e.1.length + 1)
      else namedRef a table (a :: s) := by
  rw [namedRef_mark, namedRef_mark, find?_cons]
  cases e.1.isPrefixOf s <;> rfl

theorem namedRef_single_none {s : Units} (h : ¬ e.1 <+: s) :
    namedRef a [e] (a :: s) = none := by
  rw [namedRef_cons, if_neg fun hp => h (List.isPrefixOf_iff_prefix.mp hp)]
  exact namedRef_mark a [] s

theorem namedRef_head (rest : Units) :
    namedRef a (e :: table) (a :: (e.1 ++ rest)) = some ([e.2], e.1.length + 1) := by
  rw [namedRef_cons, if_pos (List.isPrefixOf_iff_prefix.mpr (prefix_append e.1 rest))]

/-- A replacement neither makes nor breaks a string that it is not part of. -/
theorem prefix_replaceAll_iff (ha : a ∉ x) (hout : e.2 ∉ x) (s : Units) :
    x <+: replaceAll (namedRef a [e]) 0 s ↔ x <+: s := by
  constructor
  · intro hx
    induction x generalizing s with
    | nil => exact List.nil_prefix
    | cons d x ih =>
      cases s with
      | nil => exact hx
      | cons c s =>
        cases hm : namedRef a [e] (c :: s) with
        | none =>
          rw [replaceAll_miss hm] at hx
          obtain ⟨rfl, hrest⟩ := cons_prefix_cons.mp hx
          exact cons_prefix_cons.mpr ⟨rfl, ih (fun h => ha (.tail _ h))
            (fun h => hout (.tail _ h)) s hrest⟩
        | some found =>
          by_cases hc : c = a
          · subst hc
            obtain ⟨name, out, rest, hmem, rfl, hr, hn⟩ := namedRef_some hm
            rw [replaceAll_named (by rw [hm, ← hr, ← hn])] at hx
            obtain rfl : (name, out) = e := mem_singleton.mp hmem
            exact absurd (cons_prefix_cons.mp hx).1 fun h => hout (h ▸ mem_cons_self)
          · rw [marked_namedRef a [e] c s hc] at hm
            cases hm
  · rintro ⟨rest, rfl⟩
    rw [replaceAll_unmarked (marked_namedRef a [e]) ha]
    exact prefix_append x _

theorem namedRef_replaceAll (hclear : NamesClear a table)
    (hout : ∀ f ∈ table, e.2 ∉ f.1) (s : Units) :
    namedRef a table (a :: replaceAll (namedRef a [e]) 0 s) = namedRef a table (a :: s) := by
  induction table with
  | nil => rfl
  | cons f table ih =>
    have hf : f.1.isPrefixOf (replaceAll (namedRef a [e]) 0 s) = f.1.isPrefixOf s := by
      rw [Bool.eq_iff_iff, List.isPrefixOf_iff_prefix, List.isPrefixOf_iff_prefix]
      exact prefix_replaceAll_iff (hclear f mem_cons_self) (hout f mem_cons_self) s
    rw [namedRef_cons, namedRef_cons, hf,
      ih (fun g hg => hclear g (mem_cons_of_mem f hg))
        fun g hg => hout g (mem_cons_of_mem f hg)]

/-- A name replaced before those of a table is replaced along with them, where what it stands for
is neither the mark nor part of a name. -/
theorem replaceAll_namedRef_cons (hclear : NamesClear a (e :: table)) (hmark : e.2 ≠ a)
    (hout : ∀ f ∈ table, e.2 ∉ f.1) (s : Units) :
    replaceAll (namedRef a table) 0 (replaceAll (namedRef a [e]) 0 s) =
      replaceAll (namedRef a (e :: table)) 0 s := by
  have hnames : NamesClear a table := fun f hf => hclear f (mem_cons_of_mem e hf)
  induction hlen : s.length using Nat.strong_induction_on generalizing s with
  | _ n ih =>
    cases s with
    | nil => rfl
    | cons c s =>
      rw [length_cons] at hlen
      by_cases hc : c = a
      · subst hc
        by_cases hp : e.1 <+: s
        · obtain ⟨rest, rfl⟩ := hp
          rw [length_append] at hlen
          rw [replaceAll_named (namedRef_head rest), replaceAll_named (namedRef_head rest),
            replaceAll_miss (marked_namedRef c table e.2 _ hmark), ih rest.length (by omega) rest rfl]
        · have htail : namedRef c (e :: table) (c :: s) = namedRef c table (c :: s) := by
            rw [namedRef_cons, if_neg fun h => hp (List.isPrefixOf_iff_prefix.mp h)]
          have hthrough := namedRef_replaceAll hnames hout s
          rw [replaceAll_miss (namedRef_single_none hp)]
          cases hm : namedRef c table (c :: s) with
          | none =>
            rw [replaceAll_miss (hthrough.trans hm), replaceAll_miss (htail.trans hm),
              ih s.length (by omega) s rfl]
          | some found =>
            obtain ⟨r, k⟩ := found
            obtain ⟨name, out, rest, hmem, rfl, rfl, rfl⟩ := namedRef_some hm
            rw [length_append] at hlen
            have hkeep := replaceAll_unmarked (marked_namedRef c [e]) (hnames _ hmem) rest
            rw [hkeep] at hthrough ⊢
            rw [replaceAll_named (hthrough.trans hm), replaceAll_named (htail.trans hm),
              ih rest.length (by omega) rest rfl]
      · rw [replaceAll_miss (marked_namedRef a [e] c s hc),
          replaceAll_miss (marked_namedRef a table c _ hc),
          replaceAll_miss (marked_namedRef a (e :: table) c s hc), ih s.length (by omega) s rfl]

theorem replaceAll_namedRef_nil (s : Units) : replaceAll (namedRef a []) 0 s = s := by
  refine replaceAll_none fun t _ => ?_
  cases t with
  | nil => rfl
  | cons c t => exact ite_self none

/-- Names replaced one after another are replaced at once, where what each stands for is neither the
mark nor part of a later name. -/
theorem foldl_replaceAll_namedRef (hclear : NamesClear a table)
    (hapart : table.Pairwise fun e f => e.2 ≠ a ∧ e.2 ∉ f.1) (s : Units) :
    table.foldl (fun s e => replaceAll (namedRef a [e]) 0 s) s =
      replaceAll (namedRef a table) 0 s := by
  induction table generalizing s with
  | nil => exact (replaceAll_namedRef_nil s).symm
  | cons e table ih =>
    obtain ⟨he, htable⟩ := pairwise_cons.mp hapart
    rw [foldl_cons, ih (fun f hf => hclear f (mem_cons_of_mem e hf)) htable]
    cases table with
    | nil => exact replaceAll_namedRef_nil _
    | cons f table =>
      exact replaceAll_namedRef_cons hclear (he f mem_cons_self).1 (fun g hg => (he g hg).2) s

end

/-! Searching with an expression `m`, which tells what it finds at the start of a string. -/

section

variable {α : Type*}

def locate (m : Units → Option α) : Units → Option (Units × α)
  | [] => none
  | c :: s =>
    match m (c :: s) with
    | some found => some ([], found)
    | none => (locate m s).map fun found => (c :: found.1, found.2)

/-- Every match of an expression that also tells its length, each behind the last. -/
def locateAll (m : Units → Option (α × ℕ)) : ℕ → Units → List α
  | _, [] => []
  | k + 1, _ :: s => locateAll m k s
  | 0, c :: s =>
    match m (c :: s) with
    | some (r, n) => r :: locateAll m (n - 1) s
    | none => locateAll m 0 s

variable {a : ℕ}

theorem locate_match {m : Units → Option α} {s : Units} {found : α}
    (h : m (c :: s) = some found) : locate m (c :: s) = some ([], found) := by
  rw [locate, h]

theorem locate_miss {m : Units → Option α} {s : Units} (h : m (c :: s) = none) :
    locate m (c :: s) = (locate m s).map fun found => (c :: found.1, found.2) := by
  rw [locate, h]

/-- What holds no mark is before the first match. -/
theorem locate_unmarked {m : Units → Option α} (hm : Marked a m) (hx : a ∉ x)
    (y : Units) : locate m (x ++ y) = (locate m y).map fun found => (x ++ found.1, found.2) := by
  induction x with
  | nil => simp
  | cons c x ih =>
    rw [cons_append, locate_miss (hm c _ fun h => hx (h ▸ mem_cons_self)),
      ih fun h => hx (mem_cons_of_mem c h), Option.map_map]
    rfl

/-- A text of one mark, where no match begins, is before the first match. -/
theorem locate_kept {m : Units → Option α} (hm : Marked a m) {x y : Units} (hx : a ∉ x)
    (h : m (a :: x ++ y) = none) :
    locate m (a :: x ++ y) = (locate m y).map fun found => (a :: x ++ found.1, found.2) := by
  rw [cons_append] at h ⊢
  rw [locate_miss h, locate_unmarked hm hx, Option.map_map]
  rfl

theorem locateAll_drop (m : Units → Option (α × ℕ)) (k : ℕ) (s : Units) :
    locateAll m k s = locateAll m 0 (s.drop k) := by
  induction s generalizing k with
  | nil => cases k <;> rfl
  | cons c s ih =>
    cases k with
    | zero => rfl
    | succ k => exact ih k

theorem locateAll_miss {m : Units → Option (α × ℕ)} {s : Units} (h : m (c :: s) = none) :
    locateAll m 0 (c :: s) = locateAll m 0 s := by
  rw [locateAll, h]

theorem locateAll_match {m : Units → Option (α × ℕ)} {x y : Units} {r : α}
    (h : m (c :: x ++ y) = some (r, x.length + 1)) :
    locateAll m 0 (c :: x ++ y) = r :: locateAll m 0 y := by
  rw [cons_append] at h ⊢
  rw [locateAll, h]
  show r :: locateAll m (x.length + 1 - 1) (x ++ y) = _
  rw [Nat.add_sub_cancel, locateAll_drop, drop_left]

theorem locateAll_unmarked {m : Units → Option (α × ℕ)} (hm : Marked a m) (hx : a ∉ x)
    (y : Units) : locateAll m 0 (x ++ y) = locateAll m 0 y := by
  induction x with
  | nil => rfl
  | cons c x ih =>
    rw [cons_append, locateAll_miss (hm c _ fun h => hx (h ▸ mem_cons_self))]
    exact ih fun h => hx (mem_cons_of_mem c h)

theorem locateAll_kept {m : Units → Option (α × ℕ)} (hm : Marked a m) {x y : Units} (hx : a ∉ x)
    (h : m (a :: x ++ y) = none) : locateAll m 0 (a :: x ++ y) = locateAll m 0 y := by
  rw [cons_append] at h ⊢
  rw [locateAll_miss h, locateAll_unmarked hm hx]

end

end Units

end Turma.Lib
