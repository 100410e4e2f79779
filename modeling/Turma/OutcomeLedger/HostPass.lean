import Turma.Lib.Sort
import Turma.OutcomeLedger.Evict
import Turma.OutcomeLedger.OrgPass

/-! What retention and the host pass leave: each host within its share of live rows and of shadow
rows, and no shadow of a live row that they dropped. -/

namespace Turma.OutcomeLedger

open Turma.Lib List OrdMap

variable {L : Limits} {now : ℕ} {sweep : Option Sweep} {rows : List Row}

variable {r : Row}

theorem mem_without {ks : List JsString} :
    r ∈ without rows ks ↔ r ∈ rows ∧ r.key ∉ ks := by
  simp [without]

theorem eq_of_key (hnodup : (rows.map Row.key).Nodup) {a b : Row} (ha : a ∈ rows) (hb : b ∈ rows)
    (hkey : a.key = b.key) : a = b := inj_on_of_nodup_map hnodup ha hb hkey

structure OneHost (rows : List Row) (e : (Bool × JsString) × List Row) : Prop where
  list : e.2 = rows.filter fun r => (r.isShadow, r.host) = e.1

variable {e : (Bool × JsString) × List Row}

theorem OneHost.mem (h : OneHost rows e) :
    r ∈ e.2 ↔ r ∈ rows ∧ (r.isShadow, r.host) = e.1 := by
  rw [h.list, mem_filter, decide_eq_true_eq]

/-- How far the host pass is: the lists `done` are within the share. -/
structure Passing (L : Limits) (rows : List Row) (done : List ((Bool × JsString) × List Row))
    (s : HostPass) : Prop where
  nodup : s.dropped.Nodup
  keys : ∀ k ∈ s.dropped, k ∈ rows.map Row.key
  share : ∀ e ∈ done, (without e.2 s.dropped).length ≤ L.hostMaxRows
  live : ∀ r ∈ rows, r.isShadow = false → r.key ∈ s.dropped → r.key ∈ s.goneLive
  pairs : ∀ e ∈ done, e.1.1 = true → ∀ r ∈ without e.2 s.dropped, r.pairOf ∉ s.goneLive

/-- What a list loses for the sake of its share. -/
theorem overShare_spec (L : Limits) (sweep : Option Sweep) {list : List Row}
    (hnodup : (list.map Row.key).Nodup) :
    (∀ r ∈ overShare L sweep list, r ∈ list) ∧ ((overShare L sweep list).map Row.key).Nodup ∧
      (without list ((overShare L sweep list).map Row.key)).length ≤ L.hostMaxRows := by
  have hperm : (list.mergeSort (victimFirst sweep)).Perm list := mergeSort_perm _ _
  have hsplit : overShare L sweep list ++
      (list.mergeSort (victimFirst sweep)).drop (list.length - L.hostMaxRows) =
        list.mergeSort (victimFirst sweep) := take_append_drop _ _
  have hkeys := ((hperm.map Row.key).nodup_iff).mpr hnodup
  rw [← hsplit] at hkeys
  refine ⟨fun r hr => hperm.mem_iff.mp (mem_of_mem_take hr), ?_, ?_⟩
  · rw [map_append] at hkeys
    exact (nodup_append.mp hkeys).1
  · have hleft := filter_outside hkeys
    rw [hsplit] at hleft
    have hlen := (hperm.filter fun r => decide (r.key ∉ (overShare L sweep list).map Row.key)).length_eq
    rw [hleft, length_drop, length_mergeSort] at hlen
    rw [without, ← hlen]
    omega

theorem without_append (ks ks' : List JsString) :
    without rows (ks ++ ks') = without (without rows ks) ks' := by
  rw [without, without, without, filter_filter]
  refine filter_congr fun r _ => ?_
  simp [Bool.and_comm]

/-- The rows left fall as keys are added. -/
theorem length_without_le (rows : List Row) (ks ks' : List JsString) :
    (without rows (ks ++ ks')).length ≤ (without rows ks).length := by
  rw [without_append]
  exact length_filter_le _ _

variable {done : List ((Bool × JsString) × List Row)} {s : HostPass}

/-- Keys of rows that have not been dropped are added. -/
theorem Passing.drop
    (h : Passing L rows done s) (hnodup : (rows.map Row.key).Nodup) (gone : List Row)
    (goneLive : List JsString) (hgone : ∀ r ∈ gone, r ∈ rows ∧ r.key ∉ s.dropped)
    (hkeys : (gone.map Row.key).Nodup)
    (hlive : ∀ r ∈ gone, r.isShadow = false → r.key ∈ s.goneLive ++ goneLive)
    (hpairs : goneLive = [] ∨ ∀ e ∈ done, e.1.1 = false) :
    Passing L rows done ⟨s.dropped ++ gone.map Row.key, s.goneLive ++ goneLive⟩ where
  nodup := by
    refine nodup_append.mpr ⟨h.nodup, hkeys, fun a ha b hb heq => ?_⟩
    obtain ⟨r, hr, rfl⟩ := mem_map.mp hb
    exact (hgone r hr).2 (heq ▸ ha)
  keys k hk := by
    rcases mem_append.mp hk with hk | hk
    · exact h.keys k hk
    · obtain ⟨r, hr, rfl⟩ := mem_map.mp hk
      exact mem_map_of_mem (hgone r hr).1
  share e he := (length_without_le e.2 s.dropped _).trans (h.share e he)
  live r hr hkind hk := by
    rcases mem_append.mp hk with hk | hk
    · exact mem_append_left _ (h.live r hr hkind hk)
    · obtain ⟨r', hr', hkey⟩ := mem_map.mp hk
      obtain rfl := eq_of_key hnodup (hgone r' hr').1 hr hkey
      exact hlive r' hr' hkind
  pairs e he hshadow r hr := by
    rcases hpairs with rfl | hno
    · rw [without_append] at hr
      rw [append_nil]
      exact h.pairs e he hshadow r (mem_without.mp hr).1
    · rw [hno e he] at hshadow
      cases hshadow

theorem Passing.add
    (h : Passing L rows done s)
    (hshare : (without e.2 s.dropped).length ≤ L.hostMaxRows)
    (hpairs : e.1.1 = true → ∀ r ∈ without e.2 s.dropped, r.pairOf ∉ s.goneLive) :
    Passing L rows (done ++ [e]) s where
  nodup := h.nodup
  keys := h.keys
  share e' he' := by
    rcases mem_append.mp he' with he' | he'
    · exact h.share e' he'
    · rw [mem_singleton.mp he']
      exact hshare
  live := h.live
  pairs e' he' hshadow := by
    rcases mem_append.mp he' with he' | he'
    · exact h.pairs e' he' hshadow
    · rw [mem_singleton.mp he'] at hshadow ⊢
      exact hpairs hshadow

/-- One list: the live ones come before the shadow ones. -/
theorem Passing.cap
    (h : Passing L rows done s) (hnodup : (rows.map Row.key).Nodup)
    {left : List Row} (hleft : left.Sublist rows)
    (hhost : OneHost left e) (hfirst : e.1.1 = false → ∀ d ∈ done, d.1.1 = false) :
    Passing L rows (done ++ [e]) (capHost L sweep s e) := by
  have hin : ∀ r ∈ e.2, r ∈ rows ∧ r.isShadow = e.1.1 := by
    intro r hr
    obtain ⟨hr, hkind⟩ := hhost.mem.mp hr
    exact ⟨hleft.mem hr, congrArg Prod.fst hkind⟩
  have hlistKeys : (e.2.map Row.key).Nodup := by
    rw [hhost.list]
    exact hnodup.sublist ((filter_sublist.trans hleft).map _)
  have hbereft : ∀ r ∈ bereft s e, r ∈ without e.2 s.dropped ∧ e.1.1 = true := by
    intro r hr
    rw [bereft] at hr
    split_ifs at hr with hshadow
    · exact ⟨(mem_filter.mp hr).1, hshadow.1⟩
    · exact absurd hr not_mem_nil
  have hbereftKeys : ((bereft s e).map Row.key).Nodup := by
    rw [bereft]
    split_ifs
    · exact hlistKeys.sublist ((filter_sublist.trans filter_sublist).map _)
    · exact nodup_nil
  -- the shadows that went, if these are shadows
  have h₁ : Passing L rows done ⟨s.dropped ++ (bereft s e).map Row.key, s.goneLive ++ []⟩ := by
    refine h.drop hnodup _ _ (fun r hr => ?_) hbereftKeys (fun r hr hkind => ?_) (.inl rfl)
    · obtain ⟨hmem, hkey⟩ := mem_without.mp (hbereft r hr).1
      exact ⟨(hin r hmem).1, hkey⟩
    · rw [(hin r (mem_without.mp (hbereft r hr).1).1).2, (hbereft r hr).2] at hkind
      cases hkind
  have hpairs : e.1.1 = true → ∀ r ∈ without e.2 (s.dropped ++ (bereft s e).map Row.key),
      r.pairOf ∉ s.goneLive := by
    intro hshadow r hr hpair
    rw [without_append] at hr
    obtain ⟨hr, hkey⟩ := mem_without.mp hr
    refine hkey (mem_map_of_mem ?_)
    rw [bereft, if_pos ⟨hshadow, ne_nil_of_mem hpair⟩]
    exact mem_filter.mpr ⟨hr, decide_eq_true hpair⟩
  rw [append_nil] at h₁
  rw [capHost]
  split_ifs with hfits
  · exact h₁.add hfits hpairs
  · generalize hlist : without e.2 (s.dropped ++ (bereft s e).map Row.key) = list at *
    have hlistMem : ∀ r ∈ list, r ∈ e.2 ∧ r.key ∉ s.dropped ++ (bereft s e).map Row.key := by
      rw [← hlist]
      exact fun r hr => mem_without.mp hr
    obtain ⟨hvictims, hvictimKeys, hlength⟩ := overShare_spec L sweep
      (hlist ▸ hlistKeys.sublist (filter_sublist.map _) : (list.map Row.key).Nodup)
    have hshadows : e.1.1 = true → (overShare L sweep list).filter (fun r => !r.isShadow) = [] := by
      intro hshadow
      rw [filter_eq_nil_iff]
      intro r hr
      simp [(hin r (hlistMem r (hvictims r hr)).1).2, hshadow]
    have h₂ := h₁.drop hnodup (overShare L sweep list)
      (((overShare L sweep list).filter fun r => !r.isShadow).map Row.key)
      (fun r hr => ⟨(hin r (hlistMem r (hvictims r hr)).1).1, (hlistMem r (hvictims r hr)).2⟩)
      hvictimKeys
      (fun r hr hkind => mem_append_right _
        (mem_map_of_mem (mem_filter.mpr ⟨hr, by simp [hkind]⟩)))
      (by
        cases hkind : e.1.1 with
        | false => exact .inr (hfirst hkind)
        | true =>
          left
          rw [hshadows hkind]
          rfl)
    refine h₂.add ?_ fun hshadow r hr => ?_
    · rw [without_append, hlist]
      exact hlength
    · rw [without_append, hlist] at hr
      rw [hshadows hshadow, map_nil, append_nil]
      exact hpairs hshadow r (mem_without.mp hr).1

end Turma.OutcomeLedger

/-! Eviction as a whole: every limit is kept, no evidence is orphaned, and what is returned is what
is gone. -/

namespace Turma.OutcomeLedger

open Turma.Lib OrdMap

variable {rows : List Row}

/-- No live row and shadow of it are in different tenants or sites. -/
def PairsWithin (rows : List Row) : Prop :=
  ∀ r ∈ rows, r.isShadow = true → ∀ q ∈ rows, q.isShadow = false → q.key = r.pairOf →
    rowTenant q = rowTenant r ∧ q.site = r.site

variable {gone rest : List Row}

/-- What is left without some of the rows is the others. -/
theorem without_perm (hnodup : (rows.map Row.key).Nodup)
    (h : rows.Perm (gone ++ rest)) : (without rows (gone.map Row.key)).Perm rest := by
  have hkeys := (h.map Row.key).nodup_iff.mp hnodup
  have hleft := filter_outside hkeys
  refine (h.filter _).trans (.of_eq ?_)
  exact hleft

theorem PairsWithin.owner (h : PairsWithin rows) (hr : r ∈ rows) :
    rowTenant (ownerOf rows r) = rowTenant r ∧ (ownerOf rows r).site = r.site := by
  rcases ownerOf_cases rows r with ⟨hown, -⟩ | ⟨hshadow, -, hmem, hkey, hlive⟩
  · rw [hown]
    exact ⟨rfl, rfl⟩
  · exact h r hr hshadow _ hmem hlive hkey

end Turma.OutcomeLedger
