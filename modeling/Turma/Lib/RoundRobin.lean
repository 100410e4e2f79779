import Mathlib.Data.List.Basic
import Mathlib.Data.List.Pairwise
import Mathlib.Order.Lattice

/-! Lines dealt out round by round, an element of each line in a round. -/

namespace Turma.Lib.RoundRobin

open List

variable {α κ : Type*}

def round (lines : List (List α)) (depth : ℕ) : List α := lines.filterMap fun row => row[depth]?

def rounds (lines : List (List α)) (n : ℕ) : List α := (List.range n).flatMap (round lines)

def longest (lines : List (List α)) : ℕ := lines.foldr (fun row n => max row.length n) 0

/-- The loop over `depth`: the round behind the longest line is the first one with no element. -/
def deal (lines : List (List α)) : List α := rounds lines (longest lines)

theorem rounds_succ (lines : List (List α)) (n : ℕ) :
    rounds lines (n + 1) = rounds lines n ++ round lines n := by
  simp [rounds, range_succ]

theorem length_le_longest {lines : List (List α)} {row : List α} (h : row ∈ lines) :
    row.length ≤ longest lines := by
  induction lines with
  | nil => cases h
  | cons head lines ih =>
    rw [longest, foldr_cons]
    rcases mem_cons.mp h with rfl | h
    · exact le_max_left _ _
    · exact (ih h).trans (le_max_right _ _)

theorem take_round (lines : List (List α)) (n : ℕ) :
    ((lines.map (List.take n)).flatten ++ round lines n).Perm
      (lines.map (List.take (n + 1))).flatten := by
  induction lines with
  | nil => exact .refl _
  | cons row lines ih =>
    have htake : row.take (n + 1) = row.take n ++ row[n]?.toList := take_add_one
    have hround : round (row :: lines) n = row[n]?.toList ++ round lines n := by
      rw [round, filterMap_cons]
      cases row[n]? <;> rfl
    rw [map_cons, flatten_cons, map_cons, flatten_cons, htake, hround,
      append_assoc, append_assoc]
    refine Perm.append_left _ ?_
    rw [← append_assoc]
    refine (perm_append_comm.append_right _).trans ?_
    rw [append_assoc]
    exact ih.append_left _

theorem rounds_perm (lines : List (List α)) (n : ℕ) :
    (rounds lines n).Perm (lines.map (List.take n)).flatten := by
  induction n with
  | zero =>
    have hnone : (lines.map (List.take 0)).flatten = [] := by simp
    rw [hnone]
    exact .refl _
  | succ n ih =>
    rw [rounds_succ]
    exact (ih.append_right _).trans (take_round lines n)

/-- Each element is dealt once. -/
theorem deal_perm (lines : List (List α)) : (deal lines).Perm lines.flatten := by
  have hwhole : lines.map (List.take (longest lines)) = lines := by
    conv_rhs => rw [← map_id lines]
    exact map_congr_left fun row h => take_of_length_le (length_le_longest h)
  have h := rounds_perm lines (longest lines)
  rwa [hwhole] at h

/-- The round of an element at some place among the first rounds. -/
theorem round_of {lines : List (List α)} {n : ℕ} {p : List α} {x : α}
    (h : p ++ [x] <+: rounds lines n) :
    ∃ d, rounds lines d <+: p ∧ p ++ [x] <+: rounds lines (d + 1) := by
  induction n with
  | zero => simp [rounds] at h
  | succ n ih =>
    have hbefore : rounds lines n <+: rounds lines (n + 1) := by
      rw [rounds_succ]
      exact prefix_append _ _
    rcases List.prefix_or_prefix_of_prefix h hbefore with hin | hout
    · exact ih hin
    · rcases prefix_concat_iff.mp hout with heq | hp
      · exact ih (heq ▸ prefix_rfl)
      · exact ⟨n, hp, h⟩

def Alone (lab : α → κ) (k : κ) (row : List α) (lines : List (List α)) : Prop :=
  ∃ before after, lines = before ++ row :: after ∧ (∀ x ∈ row, lab x = k) ∧
    ∀ other ∈ before ++ after, ∀ x ∈ other, lab x ≠ k

theorem Alone.mem {lab : α → κ} {k : κ} {row : List α} {lines : List (List α)}
    (h : Alone lab k row lines) : row ∈ lines := by
  obtain ⟨before, after, rfl, -⟩ := h
  exact mem_append_right _ mem_cons_self

variable [DecidableEq κ]

section

variable {lab : α → κ} {k : κ} {row : List α} {lines : List (List α)}

theorem filter_other {others : List (List α)} (h : ∀ other ∈ others, ∀ x ∈ other, lab x ≠ k)
    (depth : ℕ) : (round others depth).filter (fun x => lab x = k) = [] := by
  rw [filter_eq_nil_iff]
  intro x hx
  obtain ⟨other, hother, hget⟩ := mem_filterMap.mp hx
  simpa using h other hother x (mem_of_getElem? hget)

theorem Alone.filter_round (h : Alone lab k row lines) (depth : ℕ) :
    (round lines depth).filter (fun x => lab x = k) = row[depth]?.toList := by
  obtain ⟨before, after, rfl, hline, hothers⟩ := h
  have hbefore := filter_other (fun o ho => hothers o (mem_append_left _ ho)) depth
  have hafter := filter_other (fun o ho => hothers o (mem_append_right _ ho)) depth
  rw [round] at hbefore hafter
  rw [round, filterMap_append, filter_append, hbefore, nil_append,
    filterMap_cons]
  cases hget : row[depth]? with
  | none => simpa using hafter
  | some x =>
    have hx := hline x (mem_of_getElem? hget)
    rw [filter_cons, if_pos (decide_eq_true hx), hafter]
    rfl

theorem Alone.filter_rounds (h : Alone lab k row lines) (n : ℕ) :
    (rounds lines n).filter (fun x => lab x = k) = row.take n := by
  induction n with
  | zero => rfl
  | succ n ih => rw [rounds_succ, filter_append, ih, h.filter_round, take_add_one]

/-- What is dealt of a label is its line, in the line's order. -/
theorem Alone.filter_deal (h : Alone lab k row lines) :
    (deal lines).filter (fun x => lab x = k) = row := by
  rw [deal, h.filter_rounds, take_of_length_le (length_le_longest h.mem)]

theorem Alone.count_rounds (h : Alone lab k row lines) (n : ℕ) :
    (rounds lines n).countP (fun x => lab x = k) = min n row.length := by
  rw [countP_eq_length_filter, h.filter_rounds, length_take]

theorem Alone.count_deal (h : Alone lab k row lines) :
    (deal lines).countP (fun x => lab x = k) = row.length := by
  rw [countP_eq_length_filter, h.filter_deal]

end

theorem count_of_prefix (lab : α → κ) {p q : List α} (h : p <+: q) (k : κ) :
    p.countP (fun x => lab x = k) ≤ q.countP (fun x => lab x = k) :=
  h.sublist.countP_le

/-- In what has been dealt so far two lines are within one of each other, unless the shorter
count is the whole of its line. -/
theorem even {lab : α → κ} {k k' : κ} {row row' : List α} {lines : List (List α)} {p : List α}
    (h : Alone lab k row lines) (h' : Alone lab k' row' lines) (hp : p <+: deal lines)
    (hmore : p.countP (fun x => lab x = k') + 1 < p.countP (fun x => lab x = k)) :
    p.countP (fun x => lab x = k') = row'.length := by
  rcases eq_nil_or_concat p with rfl | ⟨q, x, rfl⟩
  · simp at hmore
  · rw [concat_eq_append] at hp hmore ⊢
    obtain ⟨d, hd, hd'⟩ := round_of hp
    have hlow := count_of_prefix lab (hd.trans (prefix_append q [x])) k'
    have hhigh := count_of_prefix lab hd' k
    have htop := count_of_prefix lab hp k'
    rw [h'.count_rounds] at hlow
    rw [h.count_rounds] at hhigh
    rw [h'.count_deal] at htop
    omega

/-- The place of an element among those of its label names its round. -/
theorem Alone.round_eq {lab : α → κ} {x : α} {row : List α} {lines : List (List α)} {p : List α}
    (h : Alone lab (lab x) row lines) (hp : p ++ [x] <+: deal lines) :
    rounds lines (p.countP fun y => lab y = lab x) <+: p ∧
      p ++ [x] <+: rounds lines ((p.countP fun y => lab y = lab x) + 1) := by
  obtain ⟨d, hd, hd'⟩ := round_of hp
  have hlow := count_of_prefix lab hd (lab x)
  have hhigh := count_of_prefix lab hd' (lab x)
  have htop := count_of_prefix lab hp (lab x)
  rw [h.count_rounds] at hlow hhigh
  rw [h.count_deal] at htop
  rw [countP_append, countP_singleton, if_pos (decide_eq_true rfl)] at hhigh htop
  have hc : p.countP (fun y => lab y = lab x) = d := by omega
  rw [hc]
  exact ⟨hd, hd'⟩

/-- Within a round the elements come in the order of the lines. -/
theorem same_round (lab : α → κ) {R : α → α → Prop} {lines row row' : List _} {x y : α}
    {before between after : List α} (hx : Alone lab (lab x) row lines)
    (hy : Alone lab (lab y) row' lines)
    (hR : lines.Pairwise fun l l' => ∀ a ∈ l, ∀ b ∈ l', R a b)
    (hdeal : deal lines = before ++ x :: between ++ y :: after)
    (hround : before.countP (fun z => lab z = lab x) =
      (before ++ x :: between).countP fun z => lab z = lab y) : R x y := by
  have hpx : before ++ [x] <+: deal lines :=
    ⟨between ++ y :: after, by rw [hdeal]; simp⟩
  have hpy : before ++ x :: between ++ [y] <+: deal lines := ⟨after, by rw [hdeal]; simp⟩
  obtain ⟨hstart, -⟩ := hx.round_eq hpx
  obtain ⟨-, hend⟩ := hy.round_eq hpy
  rw [← hround, rounds_succ] at hend
  generalize before.countP (fun z => lab z = lab x) = d at hstart hend
  obtain ⟨rest, hrest⟩ := hstart
  -- the first of the two starts in the round in which the second one stands
  have hsub : [x, y].Sublist (round lines d) := by
    rw [← hrest, append_assoc, append_assoc, prefix_append_right_inj] at hend
    refine Sublist.trans ?_ hend.sublist
    refine Sublist.trans ?_ (sublist_append_right rest _)
    simp
  have hpair : (round lines d).Pairwise R := by
    refine hR.filterMap _ fun l l' hll a ha b hb => ?_
    exact hll a (mem_of_getElem? ha) b (mem_of_getElem? hb)
  exact (pairwise_cons.mp (hpair.sublist hsub)).1 y mem_cons_self

/-- Where a line comes before another one, its first element is dealt first. -/
theorem heads_dealt (lab : α → κ) {lines : List (List α)} {x y : α} {row row' : List α}
    (hx : Alone lab (lab x) (x :: row) lines) (hy : Alone lab (lab y) (y :: row') lines)
    (hsub : [x :: row, y :: row'].Sublist lines) :
    ∃ before between after, deal lines = before ++ x :: between ++ y :: after ∧
      before.countP (fun z => lab z = lab x) = 0 ∧
      (before ++ x :: between).countP (fun z => lab z = lab y) = 0 := by
  have hround : round [x :: row, y :: row'] 0 = [x, y] := by simp [round]
  have hhead : [x, y].Sublist (round lines 0) := hround ▸ hsub.filterMap fun l => l[0]?
  have hcx : (round lines 0).countP (fun z => lab z = lab x) = 1 := by
    rw [countP_eq_length_filter, hx.filter_round]
    rfl
  have hcy : (round lines 0).countP (fun z => lab z = lab y) = 1 := by
    rw [countP_eq_length_filter, hy.filter_round]
    rfl
  obtain ⟨r₁, r₂, hr, hr₁, hr₂⟩ := cons_sublist_iff.mp hhead
  obtain ⟨before, mid, rfl⟩ := append_of_mem hr₁
  obtain ⟨mid', after, rfl⟩ := append_of_mem (singleton_sublist.mp hr₂)
  have hone : 0 < longest lines :=
    lt_of_lt_of_le (by simp) (length_le_longest hx.mem)
  obtain ⟨n, hn⟩ := Nat.exists_eq_succ_of_ne_zero hone.ne'
  have hfirst : round lines 0 <+: deal lines := by
    rw [deal, hn, rounds, Nat.succ_eq_add_one, range_succ_eq_map, flatMap_cons]
    exact prefix_append _ _
  obtain ⟨rest, hrest⟩ := hfirst
  rw [hr] at hcx hcy
  simp only [countP_append, countP_cons, decide_true, if_true] at hcx hcy
  refine ⟨before, mid ++ mid', after ++ rest, by rw [← hrest, hr]; simp, by omega, ?_⟩
  simp only [countP_append, countP_cons]
  omega

end Turma.Lib.RoundRobin
