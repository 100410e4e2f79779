import Turma.Lib.Utf16

/-! Strings without lone surrogates: what keeps them so, and how many bytes their JSON takes. -/

namespace Turma.Lib.Units

open List

/-- The surrogates stand in pairs. -/
inductive Formed : Units → Prop
  | nil : Formed []
  | one {c : ℕ} {s : Units} (hc : surrogate c = false) (h : Formed s) : Formed (c :: s)
  | two {c d : ℕ} {s : Units} (hpair : paired c (d :: s) = true) (h : Formed s) : Formed (c :: d :: s)

/-- `s.toWellFormed()`. -/
def toWellFormed : Units → Units
  | [] => []
  | [c] => [if surrogate c = true then 0xFFFD else c]
  | c :: d :: s =>
    if paired c (d :: s) = true then c :: d :: toWellFormed s
    else (if surrogate c = true then 0xFFFD else c) :: toWellFormed (d :: s)

variable {c : ℕ}

theorem plain_mark : surrogate (if surrogate c = true then 0xFFFD else c) = false := by
  split_ifs with h
  · rfl
  · exact eq_false_of_ne_true h

theorem formed_toWellFormed (s : Units) : Formed (toWellFormed s) := by
  induction s using toWellFormed.induct with
  | case1 => exact .nil
  | case2 c => exact .one plain_mark .nil
  | case3 c d s hpair ih =>
    rw [toWellFormed, if_pos hpair]
    exact .two ((paired_congr rfl).trans hpair) ih
  | case4 c d s hpair ih =>
    rw [toWellFormed, if_neg hpair]
    exact .one plain_mark ih

variable {s : Units}

theorem toWellFormed_of_formed (h : Formed s) : toWellFormed s = s := by
  induction h with
  | nil => rfl
  | @one c s hc h ih =>
    cases s with
    | nil => rw [toWellFormed, hc, if_neg Bool.false_ne_true]
    | cons d s =>
      rw [toWellFormed, plain_paired hc, if_neg Bool.false_ne_true, hc, if_neg Bool.false_ne_true,
        ih]
  | two hpair h ih => rw [toWellFormed, if_pos hpair, ih]

theorem pair_low {c d : ℕ} (h : paired c (d :: s) = true) : surrogate d = true := by
  simpa using (paired_surrogate h).2

theorem pair_high {c d : ℕ} (h : paired c (d :: s) = true) : surrogate c = true :=
  (paired_surrogate h).1

theorem low_not_high {c d : ℕ} {s t : Units} (h : paired c (d :: s) = true) :
    paired d t = false := by
  simp only [paired, head?_cons, Option.any_some, Bool.and_eq_true, decide_eq_true_eq] at h
  rw [paired, decide_eq_true (show 0xD800 ≤ d by omega),
    decide_eq_false (show ¬ d ≤ 0xDBFF by omega), Bool.and_false, Bool.false_and]

theorem Formed.append {s t : Units} (hs : Formed s) (ht : Formed t) : Formed (s ++ t) := by
  induction hs with
  | nil => exact ht
  | one hc h ih => exact .one hc ih
  | two hpair h ih => exact .two ((paired_congr rfl).trans hpair) ih

theorem Formed.tail (h : Formed (c :: s)) (hc : surrogate c = false) :
    Formed s := by
  cases h with
  | one _ h => exact h
  | two hpair h =>
    rw [pair_high hpair] at hc
    cases hc

theorem Formed.filter {p : ℕ → Bool} (hp : ∀ c, surrogate c = true → p c = true)
    (h : Formed s) : Formed (s.filter p) := by
  induction h with
  | nil => exact .nil
  | @one c s hc h ih =>
    rw [filter_cons]
    split_ifs
    · exact .one hc ih
    · exact ih
  | two hpair h ih =>
    rw [filter_cons, if_pos (hp _ (pair_high hpair)), filter_cons,
      if_pos (hp _ (pair_low hpair))]
    exact .two ((paired_congr rfl).trans hpair) ih

/-- Plain units may be left out at the start. -/
theorem Formed.dropWhile {p : ℕ → Bool} (hp : ∀ c, p c = true → surrogate c = false)
    (h : Formed s) : Formed (s.dropWhile p) := by
  induction s with
  | nil => exact h
  | cons c s ih =>
    rw [dropWhile_cons]
    split_ifs with hc
    · exact ih (h.tail (hp c hc))
    · exact h

theorem Formed.drop (h : Formed s) {n : ℕ}
    (hn : ∀ c ∈ s.take n, surrogate c = false) : Formed (s.drop n) := by
  induction n generalizing s with
  | zero => exact h
  | succ n ih =>
    cases s with
    | nil => exact h
    | cons c s =>
      rw [take_succ_cons] at hn
      exact ih (h.tail (hn c mem_cons_self)) fun d hd => hn d (mem_cons_of_mem c hd)

/-- And at the end. -/
theorem Formed.of_append {s t : Units} (h : Formed (s ++ t)) (ht : ∀ c ∈ t, surrogate c = false) :
    Formed s := by
  generalize hu : s ++ t = u at h
  induction h generalizing s with
  | nil =>
    rw [(append_eq_nil_iff.mp hu).1]
    exact .nil
  | @one c u hc h ih =>
    cases s with
    | nil => exact .nil
    | cons d s =>
      obtain ⟨rfl, rfl⟩ := List.cons.inj hu
      exact .one hc (ih rfl)
  | @two c d u hpair h ih =>
    cases s with
    | nil => exact .nil
    | cons e s =>
      obtain ⟨he, hrest⟩ := List.cons.inj hu
      subst he
      cases s with
      | nil =>
        have hlow := ht d (by rw [show t = d :: u from hrest]; exact mem_cons_self)
        rw [pair_low hpair] at hlow
        cases hlow
      | cons f s =>
        obtain ⟨hf, hlast⟩ := List.cons.inj hrest
        subst hf
        exact .two ((paired_congr rfl).trans hpair) (ih hlast)

theorem Formed.cpPrefix (h : Formed s) (n : ℕ) : Formed (cpPrefix s n) := by
  induction h generalizing n with
  | nil => exact .nil
  | @one c s hc h ih =>
    cases n with
    | zero => exact .nil
    | succ n =>
      rw [Units.cpPrefix, plain_paired hc, if_neg Bool.false_ne_true]
      exact .one hc (ih n)
  | @two c d s hpair h ih =>
    cases n with
    | zero => exact .nil
    | succ n =>
      rw [Units.cpPrefix, if_pos hpair, Units.cpPrefix, low_not_high hpair,
        if_neg Bool.false_ne_true]
      exact .two ((paired_congr rfl).trans hpair) (ih n)

/-- The matches of an expression take plain units only, and leave such. -/
def Plain (m : Units → Option (Units × ℕ)) : Prop :=
  ∀ s r n, m s = some (r, n) → 0 < n ∧ (∀ c ∈ s.take n, surrogate c = false) ∧
    ∀ c ∈ r, surrogate c = false

theorem formed_of_plain (h : ∀ c ∈ s, surrogate c = false) : Formed s := by
  induction s with
  | nil => exact .nil
  | cons c s ih =>
    exact .one (h c mem_cons_self) (ih fun d hd => h d (mem_cons_of_mem c hd))

variable {m : Units → Option (Units × ℕ)}

theorem Plain.none (hm : Plain m) (hc : surrogate c = true)
    (s : Units) : m (c :: s) = none := by
  cases hmatch : m (c :: s) with
  | none => rfl
  | some found =>
    obtain ⟨hn, htake, -⟩ := hm _ found.1 found.2 hmatch
    obtain ⟨n, hn⟩ := Nat.exists_eq_succ_of_ne_zero hn.ne'
    have hplain := htake c (by rw [hn, take_succ_cons]; exact mem_cons_self)
    rw [hc] at hplain
    cases hplain

theorem Formed.replaceAll (hm : Plain m)
    (h : Formed s) : Formed (replaceAll m 0 s) := by
  induction hlen : s.length using Nat.strong_induction_on generalizing s with
  | _ n ih =>
    subst hlen
    cases h with
    | nil => exact .nil
    | @one c s hc h =>
      rw [Units.replaceAll]
      cases hmatch : m (c :: s) with
      | none => exact .one hc (ih _ (Nat.lt_succ_self _) h rfl)
      | some found =>
        obtain ⟨hn, htake, hr⟩ := hm _ found.1 found.2 hmatch
        obtain ⟨n, hn⟩ := Nat.exists_eq_succ_of_ne_zero hn.ne'
        rw [hn, take_succ_cons] at htake
        dsimp only
        rw [replaceAll_drop, hn, Nat.succ_sub_one]
        refine (formed_of_plain hr).append (ih _ ?_ (h.drop fun d hd =>
          htake d (mem_cons_of_mem c hd)) rfl)
        rw [length_drop, length_cons]
        omega
    | @two c d s hpair h =>
      rw [Units.replaceAll, hm.none (pair_high hpair)]
      rw [Units.replaceAll, hm.none (pair_low hpair)]
      refine .two ((paired_congr rfl).trans hpair) (ih _ ?_ h rfl)
      rw [length_cons, length_cons]
      omega

/-- The bytes of a unit that is no half of a pair; the escapes of a lone surrogate take six. -/
def unitBytes (c : ℕ) : ℕ :=
  if c ∈ [34, 92, 8, 9, 10, 12, 13] then 2
  else if c < 0x20 ∨ surrogate c = true then 6
  else if c < 0x80 then 1
  else if c < 0x800 then 2
  else 3

def bodyBytes : Units → ℕ
  | [] => 0
  | [c] => unitBytes c
  | c :: d :: s =>
    if paired c (d :: s) = true then 4 + bodyBytes s else unitBytes c + bodyBytes (d :: s)

/-- `Buffer.byteLength(JSON.stringify(s))`. -/
def jsonBytes (s : Units) : ℕ := bodyBytes s + 2

theorem bodyBytes_cons (hc : surrogate c = false) (s : Units) :
    bodyBytes (c :: s) = unitBytes c + bodyBytes s := by
  cases s with
  | nil => rfl
  | cons d s => rw [bodyBytes, plain_paired hc, if_neg Bool.false_ne_true]

/-- Behind formed text the bytes add up. -/
theorem bodyBytes_append (hs : Formed s) (t : Units) :
    bodyBytes (s ++ t) = bodyBytes s + bodyBytes t := by
  induction hs with
  | nil => rw [nil_append, bodyBytes, Nat.zero_add]
  | one hc h ih =>
    rw [cons_append, bodyBytes_cons hc, bodyBytes_cons hc, ih]
    omega
  | @two c d s hpair h ih =>
    have hpair' : paired c (d :: (s ++ t)) = true := (paired_congr rfl).trans hpair
    rw [cons_append, cons_append, bodyBytes, if_pos hpair', bodyBytes, if_pos hpair, ih]
    omega

theorem bodyBytes_le {s t : Units} (hs : Formed s) (h : s <+: t) : bodyBytes s ≤ bodyBytes t := by
  obtain ⟨u, rfl⟩ := h
  rw [bodyBytes_append hs]
  exact Nat.le_add_right _ _

end Turma.Lib.Units
