import Turma.Ledger.NewestReport
import Turma.Ledger.Entry

/-! Live cards and retired rows against the recorded hosts. A name that is not live goes on
the card of its group's one live member, or on its group's row; `fold` gives a live member
without an entry of its own no card to put it on. -/

namespace Turma.Ledger

open Turma.Lib List OrdMap JsString
open Option hiding max_eq_right max_le

section

variable {s : Series} {u : Usage} (h : augments s u = false) (k : TokenKey)

include h

theorem pre_le_of_not_augments (hpre : s.pre k ≤ maxSafe) : s.pre k ≤ preR s u k := by
  simp only [augments, Bool.or_eq_false_iff] at h
  have hk := List.any_eq_false.mp h.1.1.1.1.1.2 k (mem_tokenKeys k)
  rw [decide_eq_true_eq, num_of_le hpre, num_of_le (preR_le s u k)] at hk
  omega

/-- With nothing held that the report lacks, a day is held at what is reported or less. -/
theorem day_le_of_not_augments (hs : s.Sound) (d : IsoDay) : s.day k d ≤ u.day k d := by
  simp only [augments, Bool.or_eq_false_iff] at h
  obtain ⟨⟨⟨⟨⟨⟨hheld, -⟩, hdays⟩, -⟩, -⟩, -⟩, -⟩ := h
  cases hd : s.days.get? d with
  | none => simp [Series.day, OrdMap.figure, hd]
  | some b =>
    have hin : d ∈ s.days.keys := OrdMap.mem_keys.mpr ⟨b, hd⟩
    have hrep : d ∈ u.days.keys := by
      by_contra hout
      have hmem : d ∈ (heldDays s u).keys :=
        mem_keys_filterKeys.mpr ⟨decide_eq_true hout, hin⟩
      rw [Bool.not_eq_false', List.isEmpty_iff] at hheld
      simp [hheld] at hmem
    obtain ⟨b', hb'⟩ := OrdMap.mem_keys.mp hrep
    have hopen : (openDays s.cutoff u).get? d = some b' := by
      rw [openDays_get?, hs.unfolded d hin, hb']
      rfl
    have hnot := List.any_eq_false.mp hdays (d, b') (get?_eq_some.mp hopen)
    have hk := List.any_eq_false.mp (Bool.eq_false_iff.mpr hnot) k (mem_tokenKeys k)
    rw [decide_eq_true_eq, hd, getD_some, num_of_le (hs.days_safe d b hd k),
      num_of_le (u.days_safe d b' hb' k)] at hk
    rw [Series.day, Usage.day, figure_of_get? hd, figure_of_get? hb']
    omega

/-- Where `absorb` found nothing to add, the report is not below what is recorded, so the
record can be served as its agent sent it. -/
theorem spent_le_of_not_augments (L : Limits) (hs : s.Sound) (hpre : s.pre k ≤ maxSafe)
    (hu : reportedSum u k ≤ u.totals k) : (absorb L s u).spent k ≤ u.totals k := by
  have hraise : (raise s u).spent k ≤ u.totals k := by
    have hdays : ∑ d, (raise s u).day k d ≤ ∑ d, u.day k d := by
      apply Finset.sum_le_sum
      intro d _
      rw [raise_day]
      split_ifs
      · exact day_le_of_not_augments h k hs d
      · exact max_le (day_le_of_not_augments h k hs d) le_rfl
    have hle := pre_le_of_not_augments h k hpre
    rw [preR_sums hs u k hu] at hle
    rw [Series.spent_eq, raise_pre, preR_sums hs u k hu, max_eq_right hle]
    rw [← reportedSum_eq] at hdays
    omega
  have hmax : maxSafe < 2 ^ 53 := by decide
  rw [(absorb_folded L s u).spent (hs.raise u) (hraise.trans ((u.totals_safe k).trans hmax.le))]
  exact hraise

end

section

variable (L : Limits)

def Merged.Holds (m : Merged) : Prop := m.host.isSome ∨ ∃ rk, rk ∈ m.repos.keys

end

section

variable {lower : JsString → JsString} {hostAliasRoots : OrdMap JsString JsString} {hosts : Hosts}
variable (L : Limits) {live : List JsString}

end

/-- The cluster-wide agent of a cluster, renamed to a node's, with 10 tokens to its old name. -/
def clusterWide : Entry :=
  ⟨ofString "k8x", [], 0, 0, true,
    some (absorb shipped blankSeries (inputReport 10 [(20260101, 10)])), .empty⟩

def renamed : Hosts :=
  ⟨[(ofString "k8x", clusterWide)], nodup_singleton _⟩

end Turma.Ledger
