import Turma.Ledger.MergeLoss
import Turma.Ledger.Store

/-! What `enforceHostShare` gives up of a host that is over its share. Days are folded before
a model is dropped and models are dropped before a repo, and what is left keeps its all-time
figures. -/

namespace Turma.Ledger

open Turma.Lib List OrdMap

def overAt (L : Limits) (now : ℕ) : Bool := decide (L.ledgerHosts ≠ 0 ∧ hostShare L < now)

def measuredRounds (L : Limits) (left : Series → Bool) (round : Series → Series) :
    ℕ → Entry × ℕ → Entry × ℕ
  | 0, m => m
  | guard + 1, (e, now) =>
    if overAt L now = true then
      if (allSeries e).any left = true then
        measuredRounds L left round guard (mapSeries round e, entrySize (mapSeries round e))
      else (e, now)
    else (e, now)

def measuredDrops (L : Limits) : ℕ → Entry × ℕ → Entry × ℕ
  | 0, m => m
  | n + 1, (e, now) =>
    if overAt L now = true then
      match (ownKeys e.repos).insertionSort fun a b => tokensAt e a ≤ tokensAt e b with
      | [] => (e, now)
      | k :: _ =>
        let e := { e with repos := e.repos.erase k }
        measuredDrops L n (e, entrySize e)
    else (e, now)

/-- `enforceHostShare` with what it returns: whether the entry fits. -/
def holdToShare (L : Limits) (e : Entry) : Entry × Bool :=
  if overAt L (entrySize e) = false then (e, true)
  else
    let m := measuredRounds L (fun s => decide (0 < s.days.size)) halveDays 40 (e, entrySize e)
    let m := measuredRounds L (fun s => decide (0 < s.models.size)) halveModels 40 m
    let m := measuredDrops L m.1.repos.size m
    (m.1, !overAt L m.2)

theorem measuredRounds_eq (L : Limits) (left : Series → Bool) (round : Series → Series)
    (guard : ℕ) (e : Entry) :
    measuredRounds L left round guard (e, entrySize e) =
      (trimRounds L left round guard e, entrySize (trimRounds L left round guard e)) := by
  induction guard generalizing e with
  | zero => rfl
  | succ guard ih =>
    rw [measuredRounds, trimRounds]
    change (if overShare L e = true then _ else _) = _
    by_cases hover : overShare L e = true
    · by_cases hleft : (allSeries e).any left = true
      · rw [if_pos hover, if_pos hleft, if_pos ⟨hover, hleft⟩, ih]
      · rw [if_pos hover, if_neg hleft, if_neg fun h => hleft h.2]
    · rw [if_neg hover, if_neg fun h => hover h.1]

theorem measuredDrops_eq (L : Limits) (n : ℕ) (e : Entry) :
    measuredDrops L n (e, entrySize e) = (dropRepos L n e, entrySize (dropRepos L n e)) := by
  induction n generalizing e with
  | zero => rfl
  | succ n ih =>
    rw [measuredDrops, dropRepos]
    change (if overShare L e = true then _ else _) = _
    split_ifs
    · cases (ownKeys e.repos).insertionSort fun a b => tokensAt e a ≤ tokensAt e b with
      | nil => rfl
      | cons k ks => exact ih _
    · rfl

theorem allSeries_mapSeries (f : Series → Series) (e : Entry) :
    allSeries (mapSeries f e) = (allSeries e).map f := by
  simp only [allSeries, mapSeries, OrdMap.values, OrdMap.mapValues, map_append, map_map]
  cases e.host <;> rfl

theorem keys_mapSeries (f : Series → Series) (e : Entry) :
    (mapSeries f e).repos.keys = e.repos.keys := by
  simp only [mapSeries, OrdMap.keys, OrdMap.mapValues, map_map]
  rfl

section

variable {L : Limits} {left : Series → Bool} {round : Series → Series} {guard : ℕ} {e : Entry}

theorem trimRounds_of_fits (h : overShare L e = false) : trimRounds L left round guard e = e := by
  cases guard with
  | zero => rfl
  | succ guard => exact if_neg fun hgo => Bool.false_ne_true (h.symm.trans hgo.1)

theorem keys_trimRounds (L : Limits) (left : Series → Bool) (round : Series → Series)
    (guard : ℕ) (e : Entry) : (trimRounds L left round guard e).repos.keys = e.repos.keys := by
  induction guard generalizing e with
  | zero => rfl
  | succ guard ih =>
    rw [trimRounds]
    split_ifs
    · rw [ih, keys_mapSeries]
    · rfl

/-- What a round keeps of each series the rounds keep. -/
theorem allSeries_trimRounds {P : Series → Prop} (hround : ∀ s, P s → P (round s))
    (h : ∀ s ∈ allSeries e, P s) : ∀ s ∈ allSeries (trimRounds L left round guard e), P s := by
  induction guard generalizing e with
  | zero => exact h
  | succ guard ih =>
    rw [trimRounds]
    split_ifs
    · apply ih
      rw [allSeries_mapSeries]
      intro s hs
      obtain ⟨s₀, hs₀, rfl⟩ := mem_map.mp hs
      exact hround s₀ (h s₀ hs₀)
    · exact h

/-- Rounds that halve `size` end with nothing to trim, or with an entry that fits. -/
theorem trimRounds_stripped {size : Series → ℕ} (hleft : ∀ s, left s = decide (0 < size s))
    (hround : ∀ s, size (round s) = size s / 2) (hsize : ∀ s ∈ allSeries e, size s < 2 ^ guard)
    (hover : overShare L (trimRounds L left round guard e) = true) :
    ∀ s ∈ allSeries (trimRounds L left round guard e), size s = 0 := by
  induction guard generalizing e with
  | zero =>
    intro s hs
    have hlt := hsize s hs
    omega
  | succ guard ih =>
    rw [trimRounds] at hover ⊢
    split_ifs at hover ⊢ with hgo
    · refine ih ?_ hover
      rw [allSeries_mapSeries]
      intro s hs
      obtain ⟨s₀, hs₀, rfl⟩ := mem_map.mp hs
      have hlt := hsize s₀ hs₀
      rw [hround]
      omega
    · intro s hs
      have hnone : ¬(allSeries e).any left = true := fun hany => hgo ⟨hover, hany⟩
      have hnot := any_eq_false.mp (Bool.eq_false_iff.mpr hnone) s hs
      rw [hleft, decide_eq_true_eq] at hnot
      omega

end

variable (s : Series)

theorem halveDays_size : (halveDays s).days.size = s.days.size / 2 := by
  have hfold := (foldOldest_folded (max 1 ((s.days.size + 1) / 2)) s).size
  rw [oldest_length] at hfold
  unfold halveDays
  omega

variable {gone : List JsString}

/-- Distinct keys taken out of a map leave that many fewer. -/
theorem size_filterKeys_not_mem {α : Type*} {m : OrdMap JsString α}
    (hnodup : gone.Nodup) (hheld : ∀ k ∈ gone, k ∈ m.keys) :
    (m.filterKeys fun k => k ∉ gone).size + gone.length = m.size := by
  have hgone : (m.keys.filter fun k => k ∈ gone).Perm gone := by
    refine (perm_ext_iff_of_nodup (m.nodup.filter _) hnodup).mpr fun k => ?_
    rw [mem_filter, decide_eq_true_eq]
    exact ⟨And.right, fun hk => ⟨hheld k hk, hk⟩⟩
  have hsplit := length_eq_length_filter_add (l := m.keys) fun k => decide (k ∈ gone)
  have hkept : (m.filterKeys fun k => k ∉ gone).size =
      (m.keys.filter fun k => !decide (k ∈ gone)).length := by
    simp [OrdMap.filterKeys, OrdMap.size, OrdMap.keys, filter_map, Function.comp_def]
  rw [length_keys, hgone.length_eq] at hsplit
  omega

theorem halveModels_size : (halveModels s).models.size = s.models.size / 2 := by
  have hperm : ((ownKeys s.models).insertionSort fun a b => modelTokens s a ≤ modelTokens s b).Perm
      s.models.keys := (perm_insertionSort _ _).trans (ownKeys_perm s.models)
  have hnodup := (hperm.nodup_iff.mpr s.models.nodup).sublist
    (take_sublist (max 1 ((s.models.size + 1) / 2)) _)
  have hsize := size_filterKeys_not_mem hnodup fun k hk =>
    hperm.mem_iff.mp (mem_of_mem_take hk)
  rw [length_take, hperm.length_eq, length_keys] at hsize
  change (s.models.filterKeys _).size = _
  omega

/-- There are only so many dates. -/
theorem days_size_le : s.days.size ≤ 100000000 := by
  have hcard := s.days.nodup.length_le_card
  rwa [length_map, Fintype.card_fin] at hcard

def Series.allTime (s : Series) (k : TokenKey) : ℕ :=
  s.pre k + (s.days.entries.map fun e => num (e.2 k)).sum

variable {k : TokenKey}

theorem seriesTotals_allTime (h : s.allTime k ≤ maxSafe) :
    seriesTotals s k = s.allTime k := by
  have hpre : s.pre k ≤ maxSafe := (Nat.le_add_right _ _).trans h
  have hmap : (s.days.values.map fun b => num (b k)) = s.days.entries.map fun e => num (e.2 k) := by
    rw [OrdMap.values, map_map]
    rfl
  rw [seriesTotals, foldl_addBucket, bucketOf, num_of_le hpre, hmap, flSum_of_le]
  · rfl
  · exact h.trans (by decide)

theorem Series.allTime_eq (k : TokenKey) :
    s.allTime k = s.pre k + ∑ d, s.days.figure (fun b => num (b k)) d := by
  rw [Series.allTime, sum_entries fun b : Bucket => num (b k)]

theorem foldDay_allTime (d : IsoDay) (h : s.allTime k ≤ maxSafe) :
    (foldDay s d).allTime k = s.allTime k := by
  have hpre : (foldDay s d).pre k = fl (s.pre k + s.days.figure (fun b => num (b k)) d) ∨
      (foldDay s d).pre k = s.pre k ∧ s.days.figure (fun b => num (b k)) d = 0 := by
    unfold foldDay OrdMap.figure
    cases s.days.get? d with
    | none => exact Or.inr ⟨rfl, rfl⟩
    | some b => exact Or.inl rfl
  have hday (d' : IsoDay) : (foldDay s d).days.figure (fun b => num (b k)) d' =
      if d' = d then 0 else s.days.figure (fun b => num (b k)) d' := by
    unfold OrdMap.figure
    rw [show (foldDay s d).days = s.days.erase d from rfl, get?_erase]
    split_ifs <;> rfl
  have hsplit := Finset.add_sum_erase Finset.univ (fun d' => s.days.figure (fun b => num (b k)) d')
    (Finset.mem_univ d)
  have hsplit' := Finset.add_sum_erase Finset.univ
    (fun d' => (foldDay s d).days.figure (fun b => num (b k)) d') (Finset.mem_univ d)
  have hgone := (hday d).trans (if_pos rfl)
  have hrest : ∑ d' ∈ Finset.univ.erase d, (foldDay s d).days.figure (fun b => num (b k)) d' =
      ∑ d' ∈ Finset.univ.erase d, s.days.figure (fun b => num (b k)) d' :=
    Finset.sum_congr rfl fun d' hd' => (hday d').trans (if_neg (Finset.ne_of_mem_erase hd'))
  rw [Series.allTime_eq] at h ⊢
  rw [Series.allTime_eq]
  have hsafe : maxSafe ≤ 2 ^ 53 := by decide
  rcases hpre with hpre | ⟨hpre, hzero⟩
  · rw [hpre, fl_of_le (by omega)]
    omega
  · omega

theorem halveDays_allTime (h : s.allTime k ≤ maxSafe) :
    (halveDays s).allTime k = s.allTime k := by
  unfold halveDays foldOldest
  generalize oldest s (max 1 ((s.days.size + 1) / 2)) = ds
  induction ds generalizing s with
  | nil => rfl
  | cons d ds ih =>
    have hday := foldDay_allTime s d h
    rw [foldl_cons, ih _ (by rw [hday]; exact h), hday]

/-- The all-time figures that are safe integers stand. -/
def SameTotals (s s' : Series) : Prop :=
  ∀ k, s.allTime k ≤ maxSafe → s'.allTime k = s.allTime k

theorem SameTotals.refl : SameTotals s s := fun _ _ => rfl

theorem SameTotals.trans {s s' s'' : Series} (h : SameTotals s s') (h' : SameTotals s' s'') :
    SameTotals s s'' := fun k hk => (h' k (by rw [h k hk]; exact hk)).trans (h k hk)

theorem SameTotals.seriesTotals {s s' : Series} (h : SameTotals s s')
    (hk : s.allTime k ≤ maxSafe) : seriesTotals s' k = seriesTotals s k := by
  rw [seriesTotals_allTime s hk, seriesTotals_allTime s' (by rw [h k hk]; exact hk), h k hk]

theorem sameTotals_halveModels : SameTotals s (halveModels s) := fun _ _ => rfl

structure Keeps (e e' : Entry) : Prop where
  host : ∀ s, e.host = some s → ∃ s', e'.host = some s' ∧ SameTotals s s'
  no_host : e.host = none → e'.host = none
  repos : ∀ k r', e'.repos.get? k = some r' →
    ∃ r, e.repos.get? k = some r ∧ SameTotals r.series r'.series

theorem Keeps.refl (e : Entry) : Keeps e e :=
  ⟨fun s hs => ⟨s, hs, SameTotals.refl s⟩, id, fun _ r hr => ⟨r, hr, SameTotals.refl r.series⟩⟩

theorem Keeps.trans {e e' e'' : Entry} (h : Keeps e e') (h' : Keeps e' e'') : Keeps e e'' where
  host s hs := by
    obtain ⟨s', hs', hsame⟩ := h.host s hs
    obtain ⟨s'', hs'', hsame'⟩ := h'.host s' hs'
    exact ⟨s'', hs'', hsame.trans hsame'⟩
  no_host hnone := h'.no_host (h.no_host hnone)
  repos k r'' hr'' := by
    obtain ⟨r', hr', hs'⟩ := h'.repos k r'' hr''
    obtain ⟨r, hr, hs⟩ := h.repos k r' hr'
    exact ⟨r, hr, hs.trans hs'⟩

theorem keeps_mapSeries {f : Series → Series} (hf : ∀ s, SameTotals s (f s)) (e : Entry) :
    Keeps e (mapSeries f e) where
  host s hs := ⟨f s, by rw [mapSeries, hs]; rfl, hf s⟩
  no_host hnone := by
    rw [mapSeries, hnone]
    rfl
  repos k r' hr' := by
    rw [mapSeries, get?_mapValues, Option.map_eq_some_iff] at hr'
    obtain ⟨r, hr, rfl⟩ := hr'
    exact ⟨r, hr, hf r.series⟩

theorem keeps_trimRounds {L : Limits} {left : Series → Bool} {round : Series → Series}
    (hround : ∀ s, SameTotals s (round s)) (guard : ℕ) (e : Entry) :
    Keeps e (trimRounds L left round guard e) := by
  induction guard generalizing e with
  | zero => exact Keeps.refl e
  | succ guard ih =>
    rw [trimRounds]
    split_ifs
    · exact (keeps_mapSeries hround e).trans (ih _)
    · exact Keeps.refl e

def without (e : Entry) (gone : List JsString) : Entry :=
  { e with repos := e.repos.filterKeys fun k => k ∉ gone }

theorem without_nil (e : Entry) : without e [] = e := by
  have hrepos : (e.repos.filterKeys fun k => k ∉ []) = e.repos := by
    apply eq_of_entries
    simp [OrdMap.filterKeys]
  rw [without, hrepos]

theorem without_cons (e : Entry) (k : JsString) (gone : List JsString) :
    without e (k :: gone) = without { e with repos := e.repos.erase k } gone := by
  have hrepos : (e.repos.filterKeys fun k' => k' ∉ k :: gone) =
      (e.repos.erase k).filterKeys fun k' => k' ∉ gone := by
    apply eq_of_entries
    simp only [OrdMap.filterKeys, OrdMap.erase, filter_filter]
    apply filter_congr
    intro x _
    simp [Bool.and_comm]
  rw [without, hrepos]
  rfl

/-- Taking `gone` out of `e`, in that order, is what `dropRepos` does: the smallest repo each
time, while the entry is over its share. -/
structure Drops (L : Limits) (e : Entry) (gone : List JsString) : Prop where
  held : ∀ k ∈ gone, k ∈ e.repos.keys
  nodup : gone.Nodup
  in_order : gone.Pairwise fun a b => tokensAt e a ≤ tokensAt e b
  smallest : ∀ k ∈ gone, ∀ k' ∈ (without e gone).repos.keys, tokensAt e k ≤ tokensAt e k'
  needed : ∀ n, n < gone.length → overShare L (without e (gone.take n)) = true

theorem Drops.nil (L : Limits) (e : Entry) : Drops L e [] :=
  ⟨nofun, nodup_nil, List.Pairwise.nil, nofun, nofun⟩

theorem tokensAt_erase {e : Entry} {k k' : JsString} (h : k' ≠ k) :
    tokensAt { e with repos := e.repos.erase k } k' = tokensAt e k' := by
  rw [tokensAt, get?_erase, if_neg h, tokensAt]

theorem Drops.cons {L : Limits} {e : Entry} {k : JsString}
    (hk : k ∈ e.repos.keys) (hmin : ∀ k' ∈ e.repos.keys, tokensAt e k ≤ tokensAt e k')
    (hover : overShare L e = true) (h : Drops L { e with repos := e.repos.erase k } gone) :
    Drops L e (k :: gone) := by
  have hrest : ∀ k' ∈ gone, k' ≠ k ∧ k' ∈ e.repos.keys := by
    intro k' hk'
    obtain ⟨hne, hmem⟩ := mem_keys_filterKeys.mp (h.held k' hk')
    exact ⟨of_decide_eq_true hne, hmem⟩
  refine ⟨?_, nodup_cons.mpr ⟨fun hin => (hrest k hin).1 rfl, h.nodup⟩, ?_, ?_, ?_⟩
  · rintro k' (_ | ⟨_, hk'⟩)
    · exact hk
    · exact (hrest k' hk').2
  · refine pairwise_cons.mpr ⟨fun k' hk' => hmin k' (hrest k' hk').2, ?_⟩
    refine h.in_order.imp_of_mem fun ha hb hle => ?_
    rwa [tokensAt_erase (hrest _ ha).1, tokensAt_erase (hrest _ hb).1] at hle
  · intro k₁ hk₁ k' hk'
    obtain ⟨hne, hmem⟩ := mem_keys_filterKeys.mp hk'
    rcases mem_cons.mp hk₁ with rfl | hk₁
    · exact hmin k' hmem
    · have hkk : k' ≠ k := fun heq => of_decide_eq_true hne (heq ▸ mem_cons_self)
      have hle := h.smallest k₁ hk₁ k' (by rw [← without_cons]; exact hk')
      rwa [tokensAt_erase (hrest _ hk₁).1, tokensAt_erase hkk] at hle
  · intro n hn
    cases n with
    | zero =>
      rw [take_zero, without_nil]
      exact hover
    | succ n =>
      rw [take_succ_cons, without_cons]
      exact h.needed n (Nat.lt_of_succ_lt_succ hn)

theorem dropRepos_of_fits {L : Limits} {n : ℕ} {e : Entry} (h : overShare L e = false) :
    dropRepos L n e = e := by
  cases n with
  | zero => rfl
  | succ n => exact if_neg (by rw [h]; exact Bool.false_ne_true)

theorem dropRepos_drops {L : Limits} {n : ℕ} {e : Entry} (hn : e.repos.size ≤ n) :
    ∃ gone, Drops L e gone ∧ dropRepos L n e = without e gone ∧
      (overShare L (without e gone) = true → (without e gone).repos.size = 0) := by
  induction n generalizing e with
  | zero =>
    refine ⟨[], Drops.nil L e, (without_nil e).symm, fun _ => ?_⟩
    rw [without_nil]
    omega
  | succ n ih =>
    rw [dropRepos]
    split_ifs with hover
    · have hperm : ((ownKeys e.repos).insertionSort fun a b => tokensAt e a ≤ tokensAt e b).Perm
          e.repos.keys := (perm_insertionSort _ _).trans (ownKeys_perm e.repos)
      have hsorted := pairwise_insertionSort (fun a b => tokensAt e a ≤ tokensAt e b)
        (ownKeys e.repos)
      cases hkeys : (ownKeys e.repos).insertionSort fun a b => tokensAt e a ≤ tokensAt e b with
      | nil =>
        have hlen := hperm.length_eq
        rw [hkeys, length_keys] at hlen
        refine ⟨[], Drops.nil L e, (without_nil e).symm, fun _ => ?_⟩
        rw [without_nil]
        exact hlen.symm
      | cons k ks =>
        rw [hkeys] at hperm hsorted
        have hk : k ∈ e.repos.keys := hperm.mem_iff.mp mem_cons_self
        have hmin : ∀ k' ∈ e.repos.keys, tokensAt e k ≤ tokensAt e k' := by
          intro k' hk'
          rcases mem_cons.mp (hperm.mem_iff.mpr hk') with rfl | hmem
          · exact le_rfl
          · exact (pairwise_cons.mp hsorted).1 k' hmem
        have hsize : (e.repos.erase k).size < e.repos.size := size_erase_lt hk
        obtain ⟨gone, hdrops, heq, hend⟩ :=
          ih (e := { e with repos := e.repos.erase k }) (by change (e.repos.erase k).size ≤ n; omega)
        refine ⟨k :: gone, hdrops.cons hk hmin hover, ?_, ?_⟩
        · rw [without_cons]
          exact heq
        · rwa [without_cons]
    · refine ⟨[], Drops.nil L e, (without_nil e).symm, fun h => ?_⟩
      rw [without_nil] at h
      exact absurd h hover

theorem keeps_without (e : Entry) (gone : List JsString) : Keeps e (without e gone) where
  host s hs := ⟨s, hs, SameTotals.refl s⟩
  no_host := id
  repos k r' hr' := by
    rw [without, get?_filterKeys] at hr'
    split_ifs at hr'
    exact ⟨r', hr', SameTotals.refl _⟩

def Stripped (s : Series) : Prop := s.days.size = 0 ∧ s.models.size = 0

structure GivesUpDetailFirst (L : Limits) (e out : Entry) (fit : Bool) : Prop where
  host_kept : e.host.isSome = out.host.isSome
  host_totals : ∀ s s', e.host = some s → out.host = some s' →
    ∀ k, s.allTime k ≤ maxSafe → seriesTotals s' k = seriesTotals s k
  repo_totals : ∀ rk r', out.repos.get? rk = some r' → ∃ r, e.repos.get? rk = some r ∧
    ∀ k, r.series.allTime k ≤ maxSafe → seriesTotals r'.series k = seriesTotals r.series k
  repos_last : ∃ trimmed gone, Drops L trimmed gone ∧ out = without trimmed gone ∧
    trimmed.repos.keys = e.repos.keys ∧ (gone ≠ [] → ∀ s ∈ allSeries trimmed, Stripped s)
  returns : fit = !overShare L out
  spent : fit = false → out.repos.size = 0 ∧ ∀ s ∈ allSeries out, Stripped s

def trimDetail (L : Limits) (e : Entry) : Entry :=
  trimRounds L (fun s => decide (0 < s.models.size)) halveModels 40
    (trimRounds L (fun s => decide (0 < s.days.size)) halveDays 40 e)

theorem enforceHostShare_eq (L : Limits) (e : Entry) :
    enforceHostShare L e = dropRepos L (trimDetail L e).repos.size (trimDetail L e) := rfl

theorem holdToShare_eq (L : Limits) (e : Entry) :
    holdToShare L e = (enforceHostShare L e, !overShare L (enforceHostShare L e)) := by
  unfold holdToShare
  split_ifs with hfits
  · have hfits : overShare L e = false := hfits
    have hsame : enforceHostShare L e = e := by
      rw [enforceHostShare_eq, trimDetail, trimRounds_of_fits hfits, trimRounds_of_fits hfits]
      exact dropRepos_of_fits hfits
    rw [hsame, hfits]
    rfl
  · simp only [measuredRounds_eq, measuredDrops_eq]
    rfl

/-- A host that its details cannot bring under its share has none left. -/
theorem trimDetail_stripped {L : Limits} {e : Entry}
    (hkeys : ∀ s ∈ allSeries e, s.models.size < 2 ^ 32)
    (hover : overShare L (trimDetail L e) = true) :
    ∀ s ∈ allSeries (trimDetail L e), Stripped s := by
  unfold trimDetail at hover ⊢
  have hdays : ∀ s ∈ allSeries (trimRounds L (fun s => decide (0 < s.days.size)) halveDays 40 e),
      s.days.size = 0 := by
    refine trimRounds_stripped (fun _ => rfl) halveDays_size (fun s _ => ?_) ?_
    · have hle := days_size_le s
      omega
    · cases hfits : overShare L (trimRounds L (fun s => decide (0 < s.days.size)) halveDays 40 e) with
      | false => rwa [trimRounds_of_fits hfits, hfits] at hover
      | true => rfl
  have hmodels : ∀ s ∈ allSeries (trimRounds L (fun s => decide (0 < s.days.size)) halveDays 40 e),
      s.models.size < 2 ^ 40 := by
    refine allSeries_trimRounds (P := fun s => s.models.size < 2 ^ 40) (fun s hs => ?_) fun s hs => ?_
    · rwa [show (halveDays s).models = s.models from (foldDays_rest _ s).1]
    · have hlt := hkeys s hs
      omega
  intro s hs
  refine ⟨?_, trimRounds_stripped (fun _ => rfl) halveModels_size hmodels hover s hs⟩
  have hround : ∀ s, s.days.size = 0 → (halveModels s).days.size = 0 := fun _ h => h
  exact allSeries_trimRounds hround hdays s hs

theorem keeps_trimDetail (L : Limits) (e : Entry) : Keeps e (trimDetail L e) :=
  (keeps_trimRounds (fun s _ hk => halveDays_allTime s hk) 40 e).trans
    (keeps_trimRounds sameTotals_halveModels 40 _)

/-- `Object.keys` gives an array, so the models of one series are fewer than `2 ^ 32`. -/
theorem gives_up_detail_first (L : Limits) (e : Entry)
    (hkeys : ∀ s ∈ allSeries e, s.models.size < 2 ^ 32) :
    GivesUpDetailFirst L e (holdToShare L e).1 (holdToShare L e).2 := by
  obtain ⟨gone, hdrops, hout, hend⟩ := dropRepos_drops (L := L) (e := trimDetail L e) le_rfl
  rw [holdToShare_eq, enforceHostShare_eq, hout]
  have hkept := (keeps_trimDetail L e).trans (keeps_without (trimDetail L e) gone)
  have hdetail := keys_trimRounds L (fun s => decide (0 < s.models.size)) halveModels 40
    (trimRounds L (fun s => decide (0 < s.days.size)) halveDays 40 e)
  have hstart : gone ≠ [] → overShare L (trimDetail L e) = true := by
    intro hne
    have hfirst := hdrops.needed 0 (length_pos_of_ne_nil hne)
    rwa [take_zero, without_nil] at hfirst
  constructor
  · cases hhost : e.host with
    | none => rw [hkept.no_host hhost]
    | some s =>
      obtain ⟨s', hs', -⟩ := hkept.host s hhost
      rw [hs']
      rfl
  · intro s s' hs hs' k hk
    obtain ⟨s'', hs'', hsame⟩ := hkept.host s hs
    rw [hs'', Option.some.injEq] at hs'
    rw [← hs']
    exact hsame.seriesTotals hk
  · intro rk r' hr'
    obtain ⟨r, hr, hsame⟩ := hkept.repos rk r' hr'
    exact ⟨r, hr, fun k hk => hsame.seriesTotals hk⟩
  · refine ⟨trimDetail L e, gone, hdrops, rfl, ?_, fun hne => trimDetail_stripped hkeys (hstart hne)⟩
    rw [trimDetail, hdetail, keys_trimRounds]
  · rfl
  · intro hfit
    have hover : overShare L (without (trimDetail L e) gone) = true := by
      simpa using hfit
    refine ⟨hend hover, fun s hs => ?_⟩
    have hin : s ∈ allSeries (trimDetail L e) := by
      rw [allSeries, mem_append] at hs ⊢
      rcases hs with hs | hs
      · exact Or.inl hs
      · obtain ⟨r, hr, rfl⟩ := mem_map.mp hs
        obtain ⟨x, hx, rfl⟩ := mem_map.mp hr
        exact Or.inr (mem_map_of_mem (mem_map_of_mem (mem_of_mem_filter hx)))
    have hstripped : overShare L (trimDetail L e) = true := by
      by_cases hne : gone = []
      · rwa [hne, without_nil] at hover
      · exact hstart hne
    exact trimDetail_stripped hkeys hstripped s hin

theorem length_le_jsLength (t : List Char) : t.length ≤ jsLength t := by
  induction t with
  | nil => exact le_rfl
  | cons c t ih =>
    simp only [jsLength, map_cons, sum_cons, length_cons] at ih ⊢
    split_ifs <;> omega

theorem quoteChar_length_pos (c : CodePoint) : 0 < (quoteChar c).length := by
  cases c with
  | scalar c =>
    dsimp only [quoteChar]
    split_ifs <;> simp
  | lone u => simp [quoteChar]

theorem length_le_jsonString (s : JsString) : s.length ≤ (jsonString s).length := by
  have hbody : s.length ≤ (s.flatMap quoteChar).length := by
    induction s with
    | nil => exact le_rfl
    | cons c s ih =>
      have hpos := quoteChar_length_pos c
      rw [flatMap_cons, length_append, length_cons]
      omega
  rw [jsonString, length_append, length_cons]
  omega

theorem device_le_entrySize (e : Entry) : e.device.length ≤ entrySize e := by
  have hdevice := length_le_jsonString e.device
  have hentry : (jsonString e.device).length ≤ (jsonEntry e).length := by
    simp only [jsonEntry, jsonObject, jsonMembers, length_cons, length_append]
    omega
  rw [entrySize]
  exact hdevice.trans (hentry.trans (length_le_jsLength _))

/-- A device name that takes more than the share of a host. -/
def longName : JsString := List.replicate 240000 (.scalar 'a')

/-- `pre` at the largest safe integer, and one day of one token. -/
def fullSeries : Series :=
  { blankSeries with
    pre := inputOnly maxSafe
    days := OrdMap.empty.upsert 20260101 fun _ => inputOnly 1 }

def overfull : Entry := ⟨longName, [], 0, 0, false, some fullSeries, .empty⟩

theorem gives_up_detail_first_overfull :
    GivesUpDetailFirst shipped overfull (holdToShare shipped overfull).1
      (holdToShare shipped overfull).2 :=
  gives_up_detail_first shipped overfull (by decide)

theorem longName_over {e : Entry} (h : e.device = longName) : overShare shipped e = true := by
  have hsize := device_le_entrySize e
  rw [h, longName, length_replicate] at hsize
  have hshare : hostShare shipped < 240000 := by decide
  exact decide_eq_true ⟨by decide, by omega⟩

theorem overfull_trimmed :
    (holdToShare shipped overfull).1 = mapSeries halveDays overfull := by
  have hdays : trimRounds shipped (fun s => decide (0 < s.days.size)) halveDays 40 overfull =
      mapSeries halveDays overfull := by
    rw [trimRounds, if_pos ⟨longName_over rfl, by decide⟩, trimRounds, if_neg]
    exact fun h => absurd h.2 (by decide)
  rw [holdToShare_eq, enforceHostShare_eq, trimDetail, hdays, trimRounds, if_neg]
  · rfl
  · exact fun h => absurd h.2 (by decide)

/-- The day goes into `pre`, which is no safe integer any more and is read as zero. -/
theorem overfull_loses_total :
    overfull.host.map (seriesTotals · .input) = some (2 ^ 53) ∧
      (holdToShare shipped overfull).1.host.map (seriesTotals · .input) = some 0 := by
  rw [overfull_trimmed]
  decide +kernel

end Turma.Ledger
