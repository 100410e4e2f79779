import Turma.Lib.JsObject
import Turma.Lib.Layering
import Turma.Lib.Sort

/-! The waves of an epic: what nothing in the set blocks comes first, then what only the first wave
blocks, and so on. What a dependency loop stalls is reported. -/

namespace Turma.EpicPlan

open Turma.Lib List

/-- A row as it is read, with `none` for `undefined`; a row that is no object has neither. -/
structure ChildRow where
  key : Option Json
  blockedBy : Option Json

structure Layout where
  waves : List (List JsString)
  cycle : List JsString
deriving DecidableEq

def ChildRow.ownKey (r : ChildRow) : Option JsString :=
  match r.key with
  | some (.str k) => if k = [] then none else some k
  | _ => none

def keysOf (childRows : List ChildRow) : List JsString :=
  (childRows.filterMap ChildRow.ownKey).eraseDups

/-- `byKey.get(k)`: the last row of a key counts. -/
def byKey (childRows : List ChildRow) (k : JsString) : Option ChildRow :=
  childRows.reverse.find? fun r => r.ownKey = some k

def elements : Option Json → List Json
  | some (.arr vs) => vs.toList
  | _ => []

def blockersOf (childRows : List ChildRow) (k : JsString) : List JsString :=
  let bs := elements ((byKey childRows k).bind ChildRow.blockedBy)
  (bs.filterMap fun b => match b with
    | .str b => if b ∈ keysOf childRows ∧ b ≠ k then some b else none
    | _ => none).eraseDups

/-- The `while` over `remaining`; `none` is that it has not come to its end. -/
def layers (blockers : JsString → List JsString) :
    ℕ → List JsString → List JsString → Option Layout
  | _, _, [] => some ⟨[], []⟩
  | 0, _, _ :: _ => none
  | fuel + 1, placed, k :: ks =>
    let wave := (k :: ks).filter fun k => (blockers k).all (· ∈ placed)
    if wave = [] then some ⟨[], k :: ks⟩
    else
      (layers blockers fuel (placed ++ wave) ((k :: ks).filter (· ∉ placed ++ wave))).map
        fun rest => { rest with waves := wave :: rest.waves }

def layerWaves (childRows : List ChildRow) : Option Layout :=
  let keys := keysOf childRows
  layers (blockersOf childRows) keys.length [] keys

/-- The waves are the keys by their depth, and what is left has none. -/
structure Layered (keys : List JsString) (blockers : JsString → List JsString) (out : Layout) :
    Prop where
  once : (out.waves.flatten ++ out.cycle).Perm keys
  wave : ∀ k ∈ keys, ∀ i, (∃ wave, out.waves[i]? = some wave ∧ k ∈ wave) ↔ Depth blockers k i
  cycle : ∀ k, k ∈ out.cycle ↔ k ∈ keys ∧ ReachesCycle blockers k
  filled : ∀ wave ∈ out.waves, wave ≠ []

/-- How far the loop is after `n` waves: `placed` is less deep than `n`, `remaining` at least as
deep. -/
structure Placing (blockers : JsString → List JsString) (n : ℕ) (placed remaining : List JsString) :
    Prop where
  nodup : (placed ++ remaining).Nodup
  within : ∀ k ∈ remaining, ∀ b ∈ blockers k, b ∈ placed ++ remaining
  shallow : ∀ k ∈ placed, ∀ m, Chained blockers k m → m < n
  deep : ∀ k ∈ remaining, Chained blockers k n

variable {blockers : JsString → List JsString}

theorem Placing.next {n : ℕ}
    {placed remaining wave : List JsString} (h : Placing blockers n placed remaining)
    (hwave : wave = remaining.filter fun k => (blockers k).all (· ∈ placed)) :
    (wave ++ remaining.filter (· ∉ placed ++ wave)).Perm remaining ∧
      (∀ k ∈ wave, Depth blockers k n) ∧
      Placing blockers (n + 1) (placed ++ wave) (remaining.filter (· ∉ placed ++ wave)) := by
  have hmem : ∀ k, k ∈ wave ↔ k ∈ remaining ∧ ∀ b ∈ blockers k, b ∈ placed := by
    intro k
    simp [hwave]
  have hapart : ∀ k ∈ remaining, k ∉ placed := fun k hk hplaced =>
    (nodup_append.mp h.nodup).2.2 k hplaced k hk rfl
  have hleft : remaining.filter (· ∉ placed ++ wave) =
      remaining.filter fun k => !(blockers k).all (· ∈ placed) := by
    refine filter_congr fun k hk => ?_
    rw [Bool.eq_iff_iff, decide_eq_true_eq, Bool.not_eq_true', Bool.eq_false_iff, ne_eq,
      mem_append, hmem, all_eq_true]
    simp [hk, hapart k hk]
  have hdepth : ∀ k ∈ wave, Depth blockers k n := by
    intro k hk
    obtain ⟨hk, hblockers⟩ := (hmem k).mp hk
    refine ⟨h.deep k hk, fun m hm => ?_⟩
    cases m with
    | zero => exact Nat.zero_le n
    | succ m =>
      obtain ⟨b, hb, hchained⟩ := chained_succ.mp hm
      exact h.shallow b (hblockers b hb) m hchained
  have hperm : (wave ++ remaining.filter (· ∉ placed ++ wave)).Perm remaining := by
    rw [hleft, hwave]
    exact filter_append_perm _ remaining
  refine ⟨hperm, hdepth, ?_, fun k hk b hb => ?_, fun k hk m hm => ?_, fun k hk => ?_⟩
  · rw [append_assoc]
    exact (hperm.append_left placed).nodup_iff.mpr h.nodup
  · rw [append_assoc]
    exact (hperm.append_left placed).mem_iff.mpr (h.within k (mem_filter.mp hk).1 b hb)
  · rcases mem_append.mp hk with hk | hk
    · exact (h.shallow k hk m hm).trans (Nat.lt_succ_self n)
    · exact Nat.lt_succ_of_le ((hdepth k hk).longest m hm)
  · rw [mem_filter, decide_eq_true_eq, mem_append, not_or] at hk
    -- a blocker that is not placed yet is as deep as the wave
    obtain ⟨b, hb, hno⟩ : ∃ b ∈ blockers k, b ∉ placed := by
      by_contra hall
      push Not at hall
      exact hk.2.2 ((hmem k).mpr ⟨hk.1, hall⟩)
    have hbmem := (mem_append.mp (h.within k hk.1 b hb)).resolve_left hno
    exact chained_succ.mpr ⟨b, hb, h.deep b hbmem⟩

/-- The loop from `n` waves on. -/
theorem layers_spec (blockers : JsString → List JsString) (fuel : ℕ) :
    ∀ {n : ℕ} {placed remaining : List JsString}, Placing blockers n placed remaining →
      remaining.length ≤ fuel →
      ∃ out, layers blockers fuel placed remaining = some out ∧
        (out.waves.flatten ++ out.cycle).Perm remaining ∧
        (∀ i wave, out.waves[i]? = some wave → wave ≠ [] ∧ ∀ k ∈ wave, Depth blockers k (n + i)) ∧
        ∀ k ∈ out.cycle, ∃ b ∈ out.cycle, b ∈ blockers k := by
  induction fuel with
  | zero =>
    intro n placed remaining _ hlen
    obtain rfl := length_eq_zero_iff.mp (Nat.le_zero.mp hlen)
    exact ⟨⟨[], []⟩, rfl, .refl _, fun i wave hi => by simp at hi, fun k hk => absurd hk not_mem_nil⟩
  | succ fuel ih =>
    intro n placed remaining h hlen
    cases remaining with
    | nil =>
      exact ⟨⟨[], []⟩, rfl, .refl _, fun i wave hi => by simp at hi,
        fun k hk => absurd hk not_mem_nil⟩
    | cons k₀ ks =>
      rw [layers]
      generalize hwave : (k₀ :: ks).filter (fun k => (blockers k).all (· ∈ placed)) = wave
      obtain ⟨hperm, hdepth, hnext⟩ := h.next hwave.symm
      split_ifs with hempty
      · refine ⟨⟨[], k₀ :: ks⟩, rfl, .refl _, fun i wave hi => by simp at hi, fun k hk => ?_⟩
        rw [hempty, filter_eq_nil_iff] at hwave
        have hstalled := hwave k hk
        rw [all_eq_true] at hstalled
        push Not at hstalled
        obtain ⟨b, hb, hno⟩ := hstalled
        rw [ne_eq, decide_eq_true_eq] at hno
        exact ⟨b, (mem_append.mp (h.within k hk b hb)).resolve_left hno, hb⟩
      · have hpos := length_pos_iff.mpr hempty
        have hlength := hperm.length_eq
        rw [length_append] at hlength
        obtain ⟨out, hout, hrest, hwaves, hcycle⟩ := ih hnext (by omega)
        refine ⟨⟨wave :: out.waves, out.cycle⟩, by rw [hout]; rfl, ?_, fun i w hi => ?_, hcycle⟩
        · rw [flatten_cons, append_assoc]
          exact (hrest.append_left wave).trans hperm
        · cases i with
          | zero =>
            cases hi
            exact ⟨hempty, hdepth⟩
          | succ i =>
            rw [getElem?_cons_succ] at hi
            have hi := hwaves i w hi
            rw [Nat.add_assoc, Nat.add_comm 1 i] at hi
            exact hi

theorem layers_layered {keys : List JsString}
    (hnodup : keys.Nodup) (hwithin : ∀ k ∈ keys, ∀ b ∈ blockers k, b ∈ keys) :
    ∃ out, layers blockers keys.length [] keys = some out ∧ Layered keys blockers out := by
  have hstart : Placing blockers 0 [] keys :=
    ⟨hnodup, hwithin, fun k hk => absurd hk not_mem_nil, fun k _ => chained_zero blockers k⟩
  obtain ⟨out, hout, hperm, hwaves, hstalled⟩ := layers_spec blockers keys.length hstart le_rfl
  have hplace : ∀ k ∈ keys,
      (∃ (i : ℕ) (wave : List JsString), out.waves[i]? = some wave ∧ k ∈ wave) ∨ k ∈ out.cycle := by
    intro k hk
    rcases mem_append.mp (hperm.mem_iff.mpr hk) with hk | hk
    · obtain ⟨wave, hwave, hk⟩ := mem_flatten.mp hk
      obtain ⟨i, hi⟩ := mem_iff_getElem?.mp hwave
      exact .inl ⟨i, wave, hi, hk⟩
    · exact .inr hk
  have hdepth : ∀ k i, ∀ wave : List JsString, out.waves[i]? = some wave → k ∈ wave →
      Depth blockers k i := by
    intro k i wave hi hk
    have hd := (hwaves i wave hi).2 k hk
    rwa [Nat.zero_add] at hd
  have hreaches : ∀ k ∈ out.cycle, ReachesCycle blockers k := fun k hk =>
    reachesCycle_of_stalled hstalled hk
  refine ⟨out, hout, hperm, fun k hk i => ⟨?_, fun hd => ?_⟩, fun k => ⟨fun hk => ?_, ?_⟩,
    fun wave hwave => ?_⟩
  · rintro ⟨wave, hi, hk⟩
    exact hdepth k i wave hi hk
  · rcases hplace k hk with ⟨j, wave, hj, hmem⟩ | hcycle
    · rw [hd.unique (hdepth k j wave hj hmem)]
      exact ⟨wave, hj, hmem⟩
    · exact absurd hd (hreaches k hcycle).not_depth
  · exact ⟨hperm.mem_iff.mp (mem_append_right _ hk), hreaches k hk⟩
  · rintro ⟨hk, hreach⟩
    rcases hplace k hk with ⟨i, wave, hi, hmem⟩ | hcycle
    · exact absurd (hdepth k i wave hi hmem) hreach.not_depth
    · exact hcycle
  · obtain ⟨i, hi⟩ := mem_iff_getElem?.mp hwave
    exact (hwaves i wave hi).1

variable {childRows : List ChildRow}

theorem mem_keysOf {k : JsString} :
    k ∈ keysOf childRows ↔ ∃ r ∈ childRows, r.ownKey = some k := by
  rw [keysOf, mem_eraseDups, mem_filterMap]

theorem mem_blockersOf {k b : JsString} :
    b ∈ blockersOf childRows k ↔
      .str b ∈ elements ((byKey childRows k).bind ChildRow.blockedBy) ∧ b ∈ keysOf childRows ∧
        b ≠ k := by
  rw [blockersOf, mem_eraseDups, mem_filterMap]
  constructor
  · rintro ⟨v, hv, hb⟩
    split at hb
    · split_ifs at hb with hin
      cases hb
      exact ⟨hv, hin⟩
    · cases hb
  · rintro ⟨hv, hin⟩
    exact ⟨.str b, hv, if_pos hin⟩

theorem layerWaves_layered (childRows : List ChildRow) :
    ∃ out, layerWaves childRows = some out ∧
      Layered (keysOf childRows) (blockersOf childRows) out :=
  layers_layered (nodup_eraseDups _) fun _ _ _ hb => (mem_blockersOf.mp hb).2.1

/-- Where all the others block `final`, it is a wave of its own, and the last. -/
theorem Layered.last {keys : List JsString} {out : Layout}
    (h : Layered keys blockers out) (hnodup : keys.Nodup) (hcycle : out.cycle = [])
    {final : JsString} (hfinal : final ∈ keys)
    (hsink : ∀ k ∈ keys, k ≠ final → k ∈ blockers final) :
    out.waves.getLast? = some [final] := by
  have honce := h.once
  rw [hcycle, append_nil] at honce
  have hplace : ∀ k ∈ keys, ∃ (i : ℕ) (wave : List JsString),
      out.waves[i]? = some wave ∧ k ∈ wave ∧ Depth blockers k i := by
    intro k hk
    obtain ⟨wave, hwave, hmem⟩ := mem_flatten.mp (honce.mem_iff.mpr hk)
    obtain ⟨i, hi⟩ := mem_iff_getElem?.mp hwave
    exact ⟨i, wave, hi, hmem, (h.wave k hk i).mp ⟨wave, hi, hmem⟩⟩
  have hkeys : ∀ {i : ℕ} {wave : List JsString}, out.waves[i]? = some wave →
      ∀ k ∈ wave, k ∈ keys := fun hi k hk =>
    honce.mem_iff.mp (mem_flatten.mpr ⟨_, mem_of_getElem? hi, hk⟩)
  obtain ⟨i, wave, hi, hmem, hdepth⟩ := hplace final hfinal
  have hless : ∀ k ∈ keys, k ≠ final → ∀ j, Depth blockers k j → j < i := fun k hk hne j hj =>
    hdepth.lt hj (hsink k hk hne)
  have hlast : i + 1 = out.waves.length := by
    have hlt : i < out.waves.length := (List.getElem?_eq_some_iff.mp hi).1
    by_contra hmore
    obtain ⟨next, hnext⟩ : ∃ next, out.waves[i + 1]? = some next :=
      ⟨_, getElem?_eq_getElem (by omega)⟩
    obtain ⟨k, hk⟩ := exists_mem_of_ne_nil _ (h.filled next (mem_of_getElem? hnext))
    have hkd := (h.wave k (hkeys hnext k hk) (i + 1)).mp ⟨next, hnext, hk⟩
    by_cases hne : k = final
    · have heq := hdepth.unique (hne ▸ hkd)
      omega
    · have hlt := hless k (hkeys hnext k hk) hne (i + 1) hkd
      omega
  have hall : ∀ k ∈ wave, k = final := by
    intro k hk
    by_contra hne
    have hkd := (h.wave k (hkeys hi k hk) i).mp ⟨wave, hi, hk⟩
    exact absurd (hless k (hkeys hi k hk) hne i hkd) (Nat.lt_irrefl i)
  have hwave : wave.Nodup := by
    have hflat := honce.nodup_iff.mpr hnodup
    rw [nodup_flatten] at hflat
    exact hflat.1 wave (mem_of_getElem? hi)
  have hsingle : wave = [final] := by
    rw [eq_replicate_iff.mpr ⟨rfl, hall⟩, nodup_replicate] at hwave
    have hpos := length_pos_of_mem hmem
    rw [eq_replicate_iff.mpr ⟨rfl, hall⟩, show wave.length = 1 by omega]
    rfl
  rw [getLast?_eq_getElem?, ← hlast, Nat.add_sub_cancel, hi, hsingle]

end Turma.EpicPlan
