import Turma.Meetings.Items
import Mathlib.Algebra.Order.BigOperators.Group.List
import Mathlib.Order.Bounds.Basic

/-! What the budget costs a list of items: the texts are cut at the largest cap that fits, and no
item is dropped unless none does. -/

namespace Turma.Meetings

open Turma.Lib Turma.Lib.Units Turma.DailyBrief List

variable {items : List Item} {i : ℕ} {out : List Item} {it : Item} (list : List (Option RawItem))

section

variable {hidden : ℕ → Bool}

/-- Kept items whose numbers go on from `i`. -/
def KeptFrom (hidden : ℕ → Bool) : ℕ → List Item → Prop
  | _, [] => True
  | i, it :: items => it.Kept hidden i ∧ KeptFrom hidden (i + 1) items

theorem keptFrom_append {items items' : List Item} :
    KeptFrom hidden i (items ++ items') ↔
      KeptFrom hidden i items ∧ KeptFrom hidden (i + items.length) items' := by
  induction items generalizing i with
  | nil => simp [KeptFrom]
  | cons it items ih =>
    rw [cons_append, KeptFrom, KeptFrom, ih, length_cons, and_assoc, Nat.add_right_comm,
      Nat.add_assoc]

theorem KeptFrom.start {items items' : List Item} (h : KeptFrom hidden i items')
    (hst : items <+: items') : KeptFrom hidden i items := by
  obtain ⟨rest, rfl⟩ := hst
  exact (keptFrom_append.mp h).1

theorem KeptFrom.mem (h : KeptFrom hidden i items)
    (hit : it ∈ items) : ∃ j, it.Kept hidden j := by
  induction items generalizing i with
  | nil => cases hit
  | cons it' items ih =>
    rcases mem_cons.mp hit with rfl | hit
    · exact ⟨i, h.1⟩
    · exact ih h.2 hit

theorem KeptFrom.ids (h : KeptFrom hidden i items) :
    items.map Item.id = (List.range items.length).map fun j => itemId (i + j) := by
  induction items generalizing i with
  | nil => rfl
  | cons it items ih =>
    rw [map_cons, h.1.id, ih h.2, length_cons, range_succ_eq_map, map_cons,
      map_map]
    refine congrArg₂ _ rfl (map_congr_left fun j _ => ?_)
    rw [Function.comp_apply, Nat.succ_eq_add_one, Nat.add_right_comm, Nat.add_assoc]

theorem gather_kept (h : KeptFrom hidden 0 out) :
    KeptFrom hidden 0 (gather hidden list out) := by
  induction list generalizing out with
  | nil => exact h
  | cons v list ih =>
    rw [gather]
    split_ifs
    · exact h
    · cases hv : v.bind fun v => sanitizeMeetingItem hidden v out.length with
      | none => exact ih h
      | some it =>
        obtain ⟨raw, -, hraw⟩ := Option.bind_eq_some_iff.mp hv
        refine ih (keptFrom_append.mpr ⟨h, ?_, trivial⟩)
        rw [Nat.zero_add]
        exact item_kept hraw

theorem gather_length
    (h : out.length ≤ MEETING_ITEMS_MAX) : (gather hidden list out).length ≤ MEETING_ITEMS_MAX := by
  induction list generalizing out with
  | nil => exact h
  | cons v list ih =>
    rw [gather]
    split_ifs with hfull
    · exact h
    · cases v.bind fun v => sanitizeMeetingItem hidden v out.length with
      | none => exact ih h
      | some it =>
        refine ih ?_
        rw [length_append, length_singleton]
        omega

/-- Kept items are gathered as they are. -/
theorem gather_raw (items out : List Item) (h : KeptFrom hidden out.length items)
    (hlen : out.length + items.length ≤ MEETING_ITEMS_MAX) :
    gather hidden (items.map fun it => some it.raw) out = out ++ items := by
  induction items generalizing out with
  | nil => exact (append_nil out).symm
  | cons it items ih =>
    rw [length_cons] at hlen
    rw [map_cons, gather, if_neg (by omega), Option.bind_some, item_raw h.1]
    dsimp only
    rw [ih]
    · rw [append_assoc, singleton_append]
    · rw [length_append, length_singleton]
      exact h.2
    · rw [length_append, length_singleton]
      omega

theorem whitelisted_raw {items : List Item} (h : KeptFrom hidden 0 items)
    (hlen : items.length ≤ MEETING_ITEMS_MAX) :
    whitelisted hidden (items.map fun it => some it.raw) = items := by
  rw [whitelisted, take_of_length_le (by rw [length_map]; omega), gather_raw items [] h]
  · rfl
  · rwa [length_nil, Nat.zero_add]

theorem whitelisted_kept :
    KeptFrom hidden 0 (whitelisted hidden list) := gather_kept _ trivial

theorem whitelisted_length :
    (whitelisted hidden list).length ≤ MEETING_ITEMS_MAX := gather_length _ (Nat.zero_le _)

theorem quoteCap_bounds (cap : ℕ) : 1 ≤ quoteCap cap ∧ quoteCap cap ≤ 500 := by
  unfold quoteCap
  omega

theorem quoteCap_mono {cap cap' : ℕ} (h : cap ≤ cap') : quoteCap cap ≤ quoteCap cap' := by
  unfold quoteCap
  omega

theorem cut_ne_nil {s : Units} (h : s ≠ []) (cap : ℕ) : meetingCut s cap ≠ [] := by
  rw [meetingCut]
  dsimp only
  split_ifs
  · exact h
  · simp
  · exact h

theorem shrink_kept {i cap : ℕ} (h : it.Kept hidden i) (hcap : 1 ≤ cap)
    (hmax : cap ≤ 4000) : (shrinkMeetingItem it cap).Kept hidden i := by
  obtain ⟨hlow, hhigh⟩ := quoteCap_bounds cap
  refine ⟨h.id, h.title, h.titled, clean_cut h.description hcap hmax, h.suggestedAssignee, h.due,
    fun q hq => ?_, (length_map _).trans_le h.fewQuotes, h.keys, h.distinct, h.fewKeys, h.repoGuess,
    h.review⟩
  obtain ⟨q', hq', rfl⟩ := mem_map.mp hq
  have hkept := h.quotes q' hq'
  exact ⟨hkept.speaker, clean_cut hkept.text hlow hhigh, cut_ne_nil hkept.some _, hkept.atMs⟩

theorem shrunk_kept {i cap : ℕ} (h : KeptFrom hidden i items) (hcap : 1 ≤ cap)
    (hmax : cap ≤ 4000) : KeptFrom hidden i (shrunk items cap) := by
  induction items generalizing i with
  | nil => trivial
  | cons it items ih => exact ⟨shrink_kept h.1 hcap hmax, ih h.2⟩

theorem listBytes_mono {sizes sizes' : List ℕ} (h : List.Forall₂ (· ≤ ·) sizes sizes') :
    listBytes sizes ≤ listBytes sizes' := by
  have hsum := h.sum_le_sum
  rw [listBytes, listBytes, h.length_eq]
  omega

theorem member_mono (key : String) {size size' : ℕ} (h : size ≤ size') :
    member key size ≤ member key size' := Nat.add_le_add_left h _

theorem listBytes_map_mono {α : Type*} {f g : α → ℕ} {l : List α} (h : ∀ x ∈ l, f x ≤ g x) :
    listBytes (l.map f) ≤ listBytes (l.map g) := by
  have hsum := sum_le_sum h
  rw [listBytes, listBytes, length_map, length_map]
  omega

theorem quoteBytes_mono {q q' : Quote} (hspeaker : q.speaker = q'.speaker) (hat : q.atMs = q'.atMs)
    (htext : jsonBytes q.text ≤ jsonBytes q'.text) : quoteBytes q ≤ quoteBytes q' := by
  rw [quoteBytes, quoteBytes, hspeaker, hat, listBytes, listBytes]
  simp only [sum_append, sum_cons, length_append, length_cons, member]
  omega

theorem shrink_mono {i cap cap' : ℕ} (h : it.Kept hidden i) (hle : cap ≤ cap') :
    itemBytes (shrinkMeetingItem it cap) ≤ itemBytes (shrinkMeetingItem it cap') := by
  have hquotes : listBytes ((shrinkMeetingItem it cap).quotes.map quoteBytes) ≤
      listBytes ((shrinkMeetingItem it cap').quotes.map quoteBytes) := by
    rw [shrinkMeetingItem, shrinkMeetingItem, map_map, map_map]
    exact listBytes_map_mono fun q hq => quoteBytes_mono rfl rfl
      (cut_mono (h.quotes q hq).text.formed (quoteCap_mono hle))
  have htext := cut_mono h.description.formed hle
  have hsame : ∀ sizes : List ℕ, List.Forall₂ (· ≤ ·) sizes sizes := fun sizes =>
    forall₂_same.mpr fun _ _ => le_rfl
  refine listBytes_mono (rel_append (rel_append (rel_append (rel_append ?_
    (hsame _)) (hsame _)) ?_) (hsame _))
  · exact .cons le_rfl (.cons le_rfl (.cons le_rfl (.cons (member_mono _ htext) .nil)))
  · exact .cons (member_mono _ hquotes) (.cons le_rfl .nil)

theorem shrunk_mono {i cap cap' : ℕ} (h : KeptFrom hidden i items)
    (hle : cap ≤ cap') :
    meetingItemsBytes (shrunk items cap) ≤ meetingItemsBytes (shrunk items cap') := by
  rw [meetingItemsBytes, meetingItemsBytes, shrunk, shrunk, map_map, map_map]
  refine listBytes_map_mono fun it hit => ?_
  obtain ⟨j, hj⟩ := h.mem hit
  exact shrink_mono hj hle

theorem bisect_largest (fits : ℕ → Bool) (hdown : ∀ c c', c ≤ c' → fits c' = true → fits c = true)
    (lo hi : ℕ) (hle : lo ≤ hi) : lo ≤ bisect fits lo hi ∧ bisect fits lo hi ≤ hi ∧
      (bisect fits lo hi = lo ∨ fits (bisect fits lo hi) = true) ∧
        ∀ c, bisect fits lo hi < c → c ≤ hi → fits c = false := by
  induction lo, hi using bisect.induct fits with
  | case1 lo hi hlt hfits ih =>
    obtain ⟨hlow, hhigh, hone, hrest⟩ := ih (by omega)
    rw [bisect, if_pos hlt, if_pos hfits]
    refine ⟨by omega, hhigh, .inr ?_, hrest⟩
    rcases hone with hone | hone
    · rw [hone]
      exact hfits
    · exact hone
  | case2 lo hi hlt hfits ih =>
    obtain ⟨hlow, hhigh, hone, hrest⟩ := ih (by omega)
    rw [bisect, if_pos hlt, if_neg hfits]
    refine ⟨hlow, by omega, hone, fun c hc hchi => ?_⟩
    by_cases hmid : c ≤ (lo + hi + 1) / 2 - 1
    · exact hrest c hc hmid
    · exact eq_false_of_ne_true fun hfit => hfits (hdown _ c (by omega) hfit)
  | case3 lo hi hlt =>
    rw [bisect, if_neg hlt]
    exact ⟨le_rfl, hle, .inl rfl, fun c hc hchi => absurd hchi (by omega)⟩

theorem popOver_start (n : ℕ) (out : List Item) : popOver n out <+: out := by
  induction n generalizing out with
  | zero => exact prefix_rfl
  | succ n ih =>
    rw [popOver]
    split_ifs
    · exact prefix_rfl
    · exact (ih _).trans (List.dropLast_prefix out)

theorem popOver_fits (n : ℕ) (out : List Item) (h : out.length ≤ n) :
    inBudget (popOver n out) = true := by
  induction n generalizing out with
  | zero =>
    rw [popOver, length_eq_zero_iff.mp (Nat.le_zero.mp h)]
    decide
  | succ n ih =>
    rw [popOver]
    split_ifs with hfits
    · exact hfits
    · exact ih _ (by rw [length_dropLast]; omega)

theorem popOver_longest {start : List Item} (hfits : inBudget start = true) (n : ℕ) (out : List Item)
    (hstart : start <+: out) : start <+: popOver n out := by
  induction n generalizing out with
  | zero => exact hstart
  | succ n ih =>
    rw [popOver]
    split_ifs with hall
    · exact hstart
    · obtain ⟨rest, rfl⟩ := hstart
      -- the whole does not fit, so the start that does lacks an item
      have hrest : rest ≠ [] := by
        rintro rfl
        rw [append_nil] at hall
        exact hall hfits
      refine ih _ ?_
      rw [dropLast_append_of_ne_nil hrest]
      exact prefix_append _ _

theorem popOver_of_fits (h : inBudget out = true) (n : ℕ) : popOver n out = out := by
  cases n with
  | zero => rfl
  | succ n => rw [popOver, if_pos h]

/-- The cap that is used. -/
def capOf (items : List Item) : ℕ := bisect (fun cap => inBudget (shrunk items cap)) 1 4000

theorem sanitize_of_fits {list : List (Option RawItem)}
    (h : inBudget (whitelisted hidden list) = true) :
    sanitizeMeetingItems hidden list = whitelisted hidden list := if_pos h

theorem sanitize_of_over {list : List (Option RawItem)}
    (h : ¬ inBudget (whitelisted hidden list) = true) :
    sanitizeMeetingItems hidden list =
      popOver (shrunk (whitelisted hidden list) (capOf (whitelisted hidden list))).length
        (shrunk (whitelisted hidden list) (capOf (whitelisted hidden list))) := if_neg h

theorem capOf_spec (h : KeptFrom hidden i items) :
    1 ≤ capOf items ∧ capOf items ≤ 4000 ∧
      (capOf items = 1 ∨ inBudget (shrunk items (capOf items)) = true) ∧
        ∀ cap, capOf items < cap → cap ≤ 4000 → inBudget (shrunk items cap) = false :=
  bisect_largest _ (fun _ _ hle hfits =>
    decide_eq_true ((shrunk_mono h hle).trans (of_decide_eq_true hfits))) 1 4000 (by decide)

/-- The bisection stops at the largest cap that fits, since those below it fit as well. -/
theorem capOf_greatest (h : KeptFrom hidden i items) {cap : ℕ} (hcap : IsGreatest
    {cap | 1 ≤ cap ∧ cap ≤ 4000 ∧ meetingItemsBytes (shrunk items cap) ≤ MEETING_ITEMS_BYTES_MAX} cap) :
    capOf items = cap := by
  obtain ⟨hlow, hhigh, hone, hrest⟩ := capOf_spec h
  obtain ⟨⟨hcap1, hcapmax, hfits⟩, hgreatest⟩ := hcap
  refine le_antisymm ?_ ?_
  · rcases hone with hone | hone
    · rwa [hone]
    · exact hgreatest ⟨hlow, hhigh, of_decide_eq_true hone⟩
  · by_contra hlt
    have hnot := hrest cap (by omega) hcapmax
    rw [inBudget, decide_eq_false_iff_not] at hnot
    exact hnot hfits

/-- Where no cap fits it ends at the first. -/
theorem capOf_one (h : KeptFrom hidden i items)
    (hover : MEETING_ITEMS_BYTES_MAX < meetingItemsBytes (shrunk items 1)) : capOf items = 1 := by
  obtain ⟨hlow, -, hone | hone, -⟩ := capOf_spec h
  · exact hone
  · exact absurd ((shrunk_mono h hlow).trans (of_decide_eq_true hone)) (by omega)

/-- A list that is cut is a start of the list shortened at the cap. -/
theorem sanitize_start :
    sanitizeMeetingItems hidden list = whitelisted hidden list ∨
      sanitizeMeetingItems hidden list <+:
        shrunk (whitelisted hidden list) (capOf (whitelisted hidden list)) := by
  by_cases h : inBudget (whitelisted hidden list) = true
  · exact .inl (sanitize_of_fits h)
  · rw [sanitize_of_over h]
    exact .inr (popOver_start _ _)

theorem sanitize_kept :
    KeptFrom hidden 0 (sanitizeMeetingItems hidden list) := by
  have hkept : KeptFrom hidden 0 (whitelisted hidden list) := whitelisted_kept list
  rcases sanitize_start list with heq | hstart
  · rw [heq]
    exact hkept
  · obtain ⟨hlow, hhigh, -, -⟩ := capOf_spec hkept
    exact (shrunk_kept hkept hlow hhigh).start hstart

theorem sanitize_fits :
    inBudget (sanitizeMeetingItems hidden list) = true := by
  by_cases h : inBudget (whitelisted hidden list) = true
  · rw [sanitize_of_fits h]
    exact h
  · rw [sanitize_of_over h]
    exact popOver_fits _ _ le_rfl

theorem sanitize_length :
    (sanitizeMeetingItems hidden list).length ≤ MEETING_ITEMS_MAX := by
  have hlen : (whitelisted hidden list).length ≤ MEETING_ITEMS_MAX := whitelisted_length list
  rcases sanitize_start list with heq | hstart
  · rwa [heq]
  · have hle := hstart.length_le
    rw [shrunk, length_map] at hle
    omega

/-- Only the description and the texts of the quotes differ, and they take no more bytes. -/
def NoLonger (it it' : Item) : Prop :=
  it' = { it with description := it'.description, quotes := it'.quotes } ∧
    jsonBytes it'.description ≤ jsonBytes it.description ∧
      List.Forall₂ (fun q q' : Quote => q' = { q with text := q'.text } ∧
        jsonBytes q'.text ≤ jsonBytes q.text) it.quotes it'.quotes

theorem noLonger_refl (it : Item) : NoLonger it it :=
  ⟨rfl, le_rfl, forall₂_same.mpr fun _ _ => ⟨rfl, le_rfl⟩⟩

theorem noLonger_shrink (it : Item) (cap : ℕ) : NoLonger it (shrinkMeetingItem it cap) :=
  ⟨rfl, cut_le _ _, forall₂_map_right_iff.mpr (forall₂_same.mpr fun _ _ => ⟨rfl, cut_le _ _⟩)⟩

theorem noLonger_start {items items' out : List Item} (h : List.Forall₂ NoLonger items items')
    (hstart : out <+: items') : List.Forall₂ NoLonger (items.take out.length) out := by
  have htake := forall₂_take out.length h
  rwa [← prefix_iff_eq_take.mp hstart] at htake

/-- `t` is `s` cut at `cap` code points: the first of them, trimmed, and an ellipsis, where `s` has
more and that takes fewer bytes, and else `s` itself. -/
def CutAt (cap : ℕ) (s t : Units) : Prop :=
  let cut := trimEnd (cpPrefix s (cap - 1)) ++ [0x2026]
  t = if cap < cpLength s ∧ jsonBytes cut < jsonBytes s then cut else s

/-- The description is cut at `cap`, a quote's text at an eighth of it, from 40 to 500. -/
def ShrunkAt (cap : ℕ) (it it' : Item) : Prop :=
  it' = { it with description := it'.description, quotes := it'.quotes } ∧
    CutAt cap it.description it'.description ∧
      List.Forall₂ (fun q q' : Quote => q' = { q with text := q'.text } ∧
        CutAt (max 40 (min 500 (cap / 8))) q.text q'.text) it.quotes it'.quotes

theorem cutAt_cut (s : Units) (cap : ℕ) : CutAt cap s (meetingCut s cap) := by
  have hshort := cut_eq s cap
  rw [CutAt, meetingCut]
  dsimp only
  by_cases hcap : cap < cpLength s
  · rw [if_neg fun h => absurd (hshort.mp h) (Nat.not_le.mpr hcap)]
    simp only [hcap, true_and]
  · rw [if_pos (hshort.mpr (Nat.le_of_not_lt hcap)), if_neg fun h => hcap h.1]

theorem shrunkAt_shrink (it : Item) (cap : ℕ) : ShrunkAt cap it (shrinkMeetingItem it cap) :=
  ⟨rfl, cutAt_cut _ _,
    forall₂_map_right_iff.mpr (forall₂_same.mpr fun q _ => ⟨rfl, cutAt_cut q.text _⟩)⟩

/-- Every text of an item is without lone surrogates. -/
def Item.Formed (it : Item) : Prop :=
  Units.Formed it.title ∧ Units.Formed it.description ∧ Units.Formed it.suggestedAssignee ∧
    Units.Formed it.due ∧ Units.Formed it.repoGuess ∧
      ∀ q ∈ it.quotes, Units.Formed q.speaker ∧ Units.Formed q.text

/-- What the budget leaves of a list of raw items. -/
structure LosesLeast (hidden : ℕ → Bool) (list : List (Option RawItem)) (out : List Item) : Prop where
  few : out.length ≤ MEETING_ITEMS_MAX
  numbered : out.map Item.id = (List.range out.length).map itemId
  fits : meetingItemsBytes out ≤ MEETING_ITEMS_BYTES_MAX
  uncut : meetingItemsBytes (whitelisted hidden list) ≤ MEETING_ITEMS_BYTES_MAX →
    out = whitelisted hidden list
  grows : ∀ cap cap', cap ≤ cap' → meetingItemsBytes (shrunk (whitelisted hidden list) cap) ≤
    meetingItemsBytes (shrunk (whitelisted hidden list) cap')
  largest : MEETING_ITEMS_BYTES_MAX < meetingItemsBytes (whitelisted hidden list) → ∀ cap,
    IsGreatest {cap | 1 ≤ cap ∧ cap ≤ 4000 ∧
      meetingItemsBytes (shrunk (whitelisted hidden list) cap) ≤ MEETING_ITEMS_BYTES_MAX} cap →
      out = shrunk (whitelisted hidden list) cap
  texts : ∀ cap, List.Forall₂ (ShrunkAt cap) (whitelisted hidden list)
    (shrunk (whitelisted hidden list) cap)
  dropped : out.length < (whitelisted hidden list).length →
    MEETING_ITEMS_BYTES_MAX < meetingItemsBytes (shrunk (whitelisted hidden list) 1)
  longest : MEETING_ITEMS_BYTES_MAX < meetingItemsBytes (whitelisted hidden list) →
    MEETING_ITEMS_BYTES_MAX < meetingItemsBytes (shrunk (whitelisted hidden list) 1) →
      out <+: shrunk (whitelisted hidden list) 1 ∧
        ∀ start, start <+: shrunk (whitelisted hidden list) 1 →
          meetingItemsBytes start ≤ MEETING_ITEMS_BYTES_MAX → start <+: out
  shorter : List.Forall₂ NoLonger ((whitelisted hidden list).take out.length) out
  formed : ∀ it ∈ out, it.Formed
  again : sanitizeMeetingItems hidden (out.map fun it => some it.raw) = out

theorem sanitize_shorter : List.Forall₂ NoLonger
    ((whitelisted hidden list).take (sanitizeMeetingItems hidden list).length)
    (sanitizeMeetingItems hidden list) := by
  rcases sanitize_start list with heq | hstart
  · rw [heq, take_length]
    exact forall₂_same.mpr fun it _ => noLonger_refl it
  · refine noLonger_start (forall₂_map_right_iff.mpr ?_) hstart
    exact forall₂_same.mpr fun it _ => noLonger_shrink it _

theorem item_formed (h : it.Kept hidden i) : it.Formed :=
  ⟨h.title.formed, h.description.formed, h.suggestedAssignee.formed, h.due.formed, h.repoGuess.formed,
    fun q hq => ⟨(h.quotes q hq).speaker.formed, (h.quotes q hq).text.formed⟩⟩

theorem sanitize_again :
    sanitizeMeetingItems hidden ((sanitizeMeetingItems hidden list).map fun it => some it.raw) =
      sanitizeMeetingItems hidden list := by
  have hkept : KeptFrom hidden 0 (sanitizeMeetingItems hidden list) := sanitize_kept list
  have hlen : (sanitizeMeetingItems hidden list).length ≤ MEETING_ITEMS_MAX := sanitize_length list
  have hfits : inBudget (sanitizeMeetingItems hidden list) = true := sanitize_fits list
  generalize sanitizeMeetingItems hidden list = out at *
  have hread := whitelisted_raw hkept hlen
  rw [sanitize_of_fits (by rw [hread]; exact hfits), hread]

theorem loses_least (hidden : ℕ → Bool) (list : List (Option RawItem)) :
    LosesLeast hidden list (sanitizeMeetingItems hidden list) := by
  have hkept : KeptFrom hidden 0 (whitelisted hidden list) := whitelisted_kept list
  refine ⟨sanitize_length list, ?_, of_decide_eq_true (sanitize_fits list),
    fun h => sanitize_of_fits (decide_eq_true h), fun cap cap' hle => shrunk_mono hkept hle,
    fun hover cap hcap => ?_,
    fun cap => forall₂_map_right_iff.mpr (forall₂_same.mpr fun it _ => shrunkAt_shrink it cap),
    fun hless => ?_, fun hover hone => ?_, sanitize_shorter list, fun it hit => ?_,
    sanitize_again list⟩
  · rw [(sanitize_kept list).ids]
    simp only [Nat.zero_add]
  · rw [sanitize_of_over fun h => absurd (of_decide_eq_true h) (by omega), capOf_greatest hkept hcap,
      popOver_of_fits (decide_eq_true hcap.1.2.2)]
  · by_contra hfits
    have hcap : inBudget (shrunk (whitelisted hidden list) (capOf (whitelisted hidden list))) =
        true := by
      obtain ⟨-, -, hone | hone, -⟩ := capOf_spec hkept
      · rw [hone]
        exact decide_eq_true (Nat.le_of_not_lt hfits)
      · exact hone
    by_cases hall : inBudget (whitelisted hidden list) = true
    · rw [sanitize_of_fits hall] at hless
      exact lt_irrefl _ hless
    · rw [sanitize_of_over hall, popOver_of_fits hcap, shrunk, length_map] at hless
      exact lt_irrefl _ hless
  · rw [sanitize_of_over fun h => absurd (of_decide_eq_true h) (by omega), capOf_one hkept hone]
    exact ⟨popOver_start _ _, fun start hstart hfits =>
      popOver_longest (decide_eq_true hfits) _ _ hstart⟩
  · obtain ⟨i, hi⟩ := (sanitize_kept list).mem hit
    exact item_formed hi

end

def letters (n : ℕ) : Units := replicate n 120

theorem letters_cp (n : ℕ) : cpLength (letters n) = n := by
  induction n with
  | zero => rfl
  | succ n ih => rw [letters, replicate_succ, cpLength_cons_plain (by decide), ← letters, ih]

theorem letters_cut {k n : ℕ} (h : k ≤ n) : cpPrefix (letters n) k = letters k := by
  induction n generalizing k with
  | zero =>
    rw [Nat.le_zero.mp h]
    rfl
  | succ n ih =>
    cases k with
    | zero => rfl
    | succ k =>
      rw [letters, replicate_succ, cpPrefix, plain_paired (by decide), if_neg Bool.false_ne_true,
        ← letters, ih (Nat.le_of_succ_le_succ h)]
      rfl

theorem letters_bytes (n : ℕ) (t : Units) : bodyBytes (letters n ++ t) = n + bodyBytes t := by
  induction n with
  | zero => exact (Nat.zero_add _).symm
  | succ n ih =>
    have hone : unitBytes 120 = 1 := by decide
    rw [letters, replicate_succ, cons_append, bodyBytes_cons (by decide), ← letters, ih, hone]
    omega

theorem letters_clean (multiline : Bool) {n max : ℕ} (h : n ≤ max) :
    Clean multiline max (letters n) := by
  have hletter : ∀ c ∈ letters n, c = 120 := fun c hc => eq_of_mem_replicate hc
  have hplain : ∀ c ∈ letters n, whitespace c = false := by
    intro c hc
    rw [hletter c hc]
    decide
  refine ⟨formed_of_plain fun c hc => ?_, ⟨fun c hc => ?_, fun c hc hspace => ?_,
    isChain_replicate_of_rel n (by simp [Beside]), fun h => ?_⟩, fun c hc => hplain c (mem_of_head? hc),
    fun c hc => hplain c (mem_of_getLast? hc), (letters_cp n).trans_le h⟩
  · rw [hletter c hc]
    decide
  · rw [hletter c hc]
    decide
  · exact absurd ((hplain c hc).symm.trans hspace) Bool.false_ne_true
  · exact absurd (hletter 10 (h.subset (by decide))) (by decide)

/-- An item described by `d`. -/
def described (d : Units) (i : ℕ) : Item where
  id := itemId i
  kind := .task
  title := [120]
  description := d
  suggestedAssignee := []
  due := []
  quotes := []
  duplicateKeys := []
  repoGuess := []
  review := none

theorem described_kept (i n : ℕ) :
    KeptFrom (fun _ => false) i ((range' i n).map (described (letters 4000))) := by
  induction n generalizing i with
  | zero => trivial
  | succ n ih =>
    have hnil (max : ℕ) : Clean false max [] := letters_clean false (Nat.zero_le max)
    have hone : Clean false 200 [120] := letters_clean false (n := 1) (by decide)
    exact ⟨⟨rfl, hone, cons_ne_nil _ _, letters_clean true le_rfl, hnil _, hnil _, by simp [described],
      by simp [described], by simp [described], nodup_nil, by simp [described], hnil _,
      by simp [described]⟩, ih (i + 1)⟩

theorem described_bytes (d : Units) (i : ℕ) :
    itemBytes (described d i) = 79 + jsonBytes (itemId i) + jsonBytes d := by
  have hkind : jsonBytes (text ItemKind.task.name) = 6 := by decide
  have htitle : jsonBytes [120] = 3 := by decide
  have hkeys : ["id", "kind", "title", "description", "quotes", "duplicateKeys"].map String.length =
      [2, 4, 5, 11, 6, 13] := by decide
  simp only [map_cons, map_nil, cons.injEq, and_true] at hkeys
  simp only [itemBytes, described, listBytes, member, optionalMember, hkind, htitle, hkeys, if_true,
    append_nil, map_nil, sum_nil, length_nil, cons_append, nil_append, sum_cons, length_cons]
  omega

theorem seventeen_bytes (d : Units) :
    meetingItemsBytes ((range' 0 17).map (described d)) = 1437 + 17 * jsonBytes d := by
  have hids : ((range' 0 17).map fun i => jsonBytes (itemId i)).sum = 76 := by decide
  have hsum : ((range' 0 17).map fun i => 79 + jsonBytes (itemId i) + jsonBytes d).sum =
      17 * 79 + 76 + 17 * jsonBytes d := by
    rw [sum_map_add, sum_map_add, hids, map_const', map_const', sum_replicate, sum_replicate]
    rfl
  rw [meetingItemsBytes, map_map]
  simp only [Function.comp_def, described_bytes, listBytes, hsum, length_map, length_range']
  omega

theorem cut_letters {cap : ℕ} (hlow : 1 ≤ cap) (hhigh : cap < 3998) :
    meetingCut (letters 4000) cap = letters (cap - 1) ++ [0x2026] := by
  have hellipsis : bodyBytes [0x2026] = 3 := by decide
  have htrim : trimEnd (letters (cap - 1)) = letters (cap - 1) :=
    trimEnd_of_last (letters_clean false le_rfl).last
  have hless : jsonBytes (letters (cap - 1) ++ [0x2026]) < jsonBytes (letters 4000) := by
    have hall := letters_bytes 4000 []
    rw [append_nil] at hall
    rw [jsonBytes, jsonBytes, letters_bytes, hall, hellipsis, bodyBytes]
    omega
  rw [meetingCut, if_neg fun h => ?_, letters_cut (by omega), htrim]
  · exact if_pos hless
  · have hshort := (cut_eq _ _).mp h
    rw [letters_cp] at hshort
    omega

theorem shrunk_letters {cap : ℕ} (hlow : 1 ≤ cap) (hhigh : cap < 3998) :
    shrunk ((range' 0 17).map (described (letters 4000))) cap =
      (range' 0 17).map (described (letters (cap - 1) ++ [0x2026])) := by
  rw [shrunk, map_map, ← cut_letters hlow hhigh]
  rfl

theorem shrunk_letters_bytes {cap : ℕ} (hlow : 1 ≤ cap) (hhigh : cap < 3998) :
    meetingItemsBytes (shrunk ((range' 0 17).map (described (letters 4000))) cap) =
      1437 + 17 * (cap + 4) := by
  have hellipsis : bodyBytes [0x2026] = 3 := by decide
  rw [shrunk_letters hlow hhigh, seventeen_bytes, jsonBytes, letters_bytes, hellipsis]
  omega

/-- Seventeen items of 4000 letters are over the budget: all are kept, cut at 3766 code points. -/
theorem loses_least_over :
    sanitizeMeetingItems (fun _ => false)
        (((range' 0 17).map (described (letters 4000))).map fun it => some it.raw) =
      (range' 0 17).map (described (letters 3765 ++ [0x2026])) := by
  have hread := whitelisted_raw (described_kept 0 17) (by decide)
  have hspec := loses_least (fun _ => false)
    (((range' 0 17).map (described (letters 4000))).map fun it => some it.raw)
  have hover : MEETING_ITEMS_BYTES_MAX <
      meetingItemsBytes ((range' 0 17).map (described (letters 4000))) := by
    have hall := letters_bytes 4000 []
    rw [append_nil] at hall
    rw [seventeen_bytes, jsonBytes, hall, MEETING_ITEMS_BYTES_MAX, bodyBytes]
    decide
  have hgrows := hspec.grows 3767
  have hlargest := hspec.largest
  rw [hread] at hgrows hlargest
  rw [hlargest hover 3766 ⟨⟨by decide, by decide, ?_⟩, fun cap hcap => ?_⟩,
    shrunk_letters (by decide) (by decide)]
  · rw [shrunk_letters_bytes (by decide) (by decide)]
    decide
  · by_contra hlarge
    have hmore := hgrows cap (by omega)
    rw [shrunk_letters_bytes (by decide) (by decide)] at hmore
    have hfits := hcap.2.2
    rw [MEETING_ITEMS_BYTES_MAX] at hfits
    omega

end Turma.Meetings
