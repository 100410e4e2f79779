import Turma.Usage.Coerce

/-! What every client can decode, and what a walk leaves as it was. One lemma for each walk says
that it ends, what it makes of the members it may edit, and how long the text gets. -/

namespace Turma.Usage

open Turma.Lib Turma.Lib.Json List Option

structure BucketOk (b : Json) : Prop where
  object : b.objectish = true
  figures : ∀ k ∈ tokenKeys, ∀ v, b.field k = some v → usableFigure v = true

def OkAt (v : Json) (k : JsString) : Prop := ∀ b, v.field k = some b → BucketOk b

/-- Every member of `b` but an unusable figure is in `b'`. -/
structure KeptBucket (b b' : Json) : Prop where
  object : b'.objectish = true
  figures : ∀ k v, b.field k = some v → (k ∈ tokenKeys → usableFigure v = true) →
    b'.field k = some v

/-- The bucket under `k` of `v` is kept in `v'`. -/
def KeptAt (v v' : Json) (k : JsString) : Prop :=
  ∀ b, v.field k = some b → b.objectish = true → ∃ b', v'.field k = some b' ∧ KeptBucket b b'

theorem usableFigure_zero : usableFigure zero = true := by decide

theorem chars_zero : zero.chars = 1 := by decide

theorem KeptBucket.refl {b : Json} (h : b.objectish = true) : KeptBucket b b :=
  ⟨h, fun _ _ hv _ => hv⟩

theorem KeptBucket.trans {a b c : Json} (h : KeptBucket a b) (h' : KeptBucket b c) :
    KeptBucket a c :=
  ⟨h'.object, fun k v hv hk => h'.figures k v (h.figures k v hv hk) hk⟩

/-- A bucket after the figures under `done` were looked at. -/
structure Figured (b : Json) (done : List JsString) (b' : Json) : Prop where
  kept : KeptBucket b b'
  figures : ∀ k ∈ done, ∀ v, b'.field k = some v → usableFigure v = true
  chars : b'.chars ≤ b.chars

variable {k : JsString} {b b' : Json}

theorem zeroUnusable_ends (key : JsString) {done : List JsString}
    (h : Figured b done b') (hk : k ∈ tokenKeys) :
    Ends (zeroUnusable key b' k) (Figured b (done ++ [k])) := by
  unfold zeroUnusable
  cases hv : b'.field k with
  | none =>
    refine ends_pure ⟨h.kept, fun k' hk' v hv' => ?_, h.chars⟩
    rcases mem_append.mp hk' with hk' | hk'
    · exact h.figures k' hk' v hv'
    · rw [mem_singleton.mp hk', hv] at hv'
      exact nomatch hv'
  | some v =>
    dsimp only
    split_ifs with hu
    · refine ends_pure ⟨h.kept, fun k' hk' v' hv' => ?_, h.chars⟩
      rcases mem_append.mp hk' with hk' | hk'
      · exact h.figures k' hk' v' hv'
      · rw [mem_singleton.mp hk', hv] at hv'
        exact some.inj hv' ▸ hu
    · refine (ends_modify (P := fun _ => True) _ trivial).bind fun _ _ => ends_pure ?_
      refine ⟨⟨by rw [objectish_put, h.kept.object], fun k' v' hv' hk' => ?_⟩, fun k' hk' v' hv' => ?_,
        (chars_put_le hv (by rw [chars_zero]; exact chars_pos v)).trans h.chars⟩
      · have hsame := h.kept.figures k' v' hv' hk'
        by_cases hkk : k' = k
        · -- a usable figure would not have been rewritten
          rw [hkk, hv] at hsame
          exact absurd (some.inj hsame ▸ hk' (hkk ▸ hk)) hu
        · rwa [field_put_ne hkk]
      · by_cases hkk : k' = k
        · rw [hkk, field_put_self h.kept.object] at hv'
          exact some.inj hv' ▸ usableFigure_zero
        · rw [field_put_ne hkk] at hv'
          rcases mem_append.mp hk' with hk' | hk'
          · exact h.figures k' hk' v' hv'
          · exact absurd (mem_singleton.mp hk') hkk

/-- A value after its buckets under `ks` were walked. -/
structure Walked (v : Json) (ks : List JsString) (v' : Json) : Prop where
  edits : Edits ks v v'
  ok : ∀ k ∈ ks, OkAt v' k
  kept : ∀ k, KeptAt v v' k
  chars : v'.chars ≤ v.chars

theorem Walked.refl (v : Json) : Walked v [] v :=
  ⟨Edits.refl _ v, fun _ hk => absurd hk not_mem_nil, fun _ b hb ho => ⟨b, hb, KeptBucket.refl ho⟩, le_refl _⟩

theorem Walked.trans {u v w : Json} {ks ls : List JsString} (h : Walked u ks v)
    (h' : Walked v ls w) : Walked u (ks ++ ls) w := by
  refine ⟨h.edits.trans h'.edits, fun k hk => ?_, fun k b hb ho => ?_, h'.chars.trans h.chars⟩
  · by_cases hl : k ∈ ls
    · exact h'.ok k hl
    · intro b hb
      rw [h'.edits.other k hl] at hb
      exact h.ok k ((mem_append.mp hk).resolve_right hl) b hb
  · obtain ⟨b', hb', hkept⟩ := h.kept k b hb ho
    obtain ⟨b'', hb'', hkept'⟩ := h'.kept k b' hb' hkept.object
    exact ⟨b'', hb'', hkept.trans hkept'⟩

variable {ks : List JsString}

theorem keptAt_of_edits {v v' : Json} (h : Edits ks v v')
    (hk : k ∉ ks) : KeptAt v v' k :=
  fun b hb ho => ⟨b, (h.other k hk).trans hb, KeptBucket.refl ho⟩

theorem normalizeTokenBucket_ends (owner : Json) (key : JsString) :
    Ends (normalizeTokenBucket owner key) (Walked owner [key]) := by
  unfold normalizeTokenBucket
  cases hb : owner.field key with
  | none =>
    refine ends_pure ⟨Edits.refl _ owner, fun k hk b hb' => ?_,
      fun k b hb' ho => ⟨b, hb', KeptBucket.refl ho⟩, le_refl _⟩
    rw [mem_singleton.mp hk, hb] at hb'
    exact nomatch hb'
  | some bucket =>
    have hother : ∀ v', Edits [key] owner v' →
        (∀ b, owner.field key = some b → b.objectish = true →
          ∃ b', v'.field key = some b' ∧ KeptBucket b b') → ∀ k, KeptAt owner v' k := by
      intro v' hedits hkey k
      by_cases hk : k = key
      · exact hk ▸ hkey
      · exact keptAt_of_edits hedits (by simpa using hk)
    dsimp only
    split_ifs with ho
    · have hloop : Ends (tokenKeys.foldlM (zeroUnusable key) bucket) (Figured bucket tokenKeys) :=
        ends_foldlM (P := Figured bucket) (fun _ hk _ _ h => zeroUnusable_ends key h hk)
          ⟨KeptBucket.refl ho, fun _ hk => absurd hk not_mem_nil, le_refl _⟩
      refine hloop.bind fun bucket' h => ends_pure ?_
      have hself : (owner.put key bucket').field key = some bucket' :=
        field_put_self (objectish_of_field hb)
      refine ⟨edits_put owner key bucket', fun k hk b hb' => ?_, hother _ (edits_put owner key bucket') ?_,
        chars_put_le hb h.chars⟩
      · rw [mem_singleton.mp hk, hself] at hb'
        rw [← some.inj hb']
        exact ⟨h.kept.object, h.figures⟩
      · intro b hb' _
        rw [hb] at hb'
        rw [← some.inj hb']
        exact ⟨bucket', hself, h.kept⟩
    · refine (ends_modify (P := fun _ => True) _ trivial).bind fun _ _ => ends_pure ?_
      refine ⟨edits_without owner key, fun k hk b hb' => ?_, hother _ (edits_without owner key) ?_,
        chars_without_le owner key⟩
      · rw [mem_singleton.mp hk, field_without_self] at hb'
        exact nomatch hb'
      · intro b hb' ho'
        rw [hb] at hb'
        exact absurd (some.inj hb' ▸ ho') ho

theorem walk_ends (owner : Json) (ks : List JsString) :
    Ends (ks.foldlM normalizeTokenBucket owner) (Walked owner ks) :=
  ends_foldlM (P := Walked owner) (fun k _ _ v h => (normalizeTokenBucket_ends v k).imp fun _ h' => h.trans h')
    (Walked.refl owner)

def namedModels (vs : JsonElements) : List Json := (vs.toList.map namedModel).filter hasName

def modelGrowth (usage : Json) : ℕ :=
  match usage.field (text "models") with
  | some (.arr vs) => (vs.toList.map fun m => match m with
    | .str s => if s = [] then 0 else 10
    | _ => 0).sum
  | _ => 0

theorem chars_namedModel (m : Json) : (namedModel m).chars ≤ m.chars + 10 := by
  cases m with
  | str s =>
    have hkey : jsLength (jsonString (text "model")) = 7 := by decide
    rw [namedModel, chars_obj]
    simp only [JsonMembers.toList, map_cons, map_nil, sum_cons, sum_nil,
      memberChars, hkey]
    omega
  | _ => exact Nat.le_add_right _ _

theorem chars_namedModels (vs : JsonElements) :
    (Json.arr (.ofList (namedModels vs))).chars ≤ (Json.arr vs).chars +
      (vs.toList.map fun m => match m with
        | .str s => if s = [] then 0 else 10
        | _ => 0).sum := by
  have hsum : ∀ xs : List Json, (((xs.map namedModel).filter hasName).map fun v => v.chars + 1).sum ≤
      (xs.map fun v => v.chars + 1).sum + (xs.map fun m => match m with
        | .str s => if s = [] then 0 else 10
        | _ => 0).sum := by
    intro xs
    induction xs with
    | nil => exact le_refl _
    | cons m xs ih =>
      rw [map_cons, map_cons, map_cons, sum_cons, sum_cons]
      cases hm : hasName (namedModel m) with
      | false =>
        rw [filter_cons_of_neg (by simp [hm])]
        omega
      | true =>
        rw [filter_cons_of_pos hm, map_cons, sum_cons]
        cases m with
        | str s =>
          have hs : s ≠ [] := by
            rintro rfl
            cases hm
          have hchars := chars_namedModel (.str s)
          simp only [if_neg hs]
          omega
        | _ =>
          simp only [namedModel]
          omega
  rw [chars_arr, chars_arr, JsonElements.toList_ofList]
  have hall := hsum vs.toList
  rw [namedModels]
  omega

structure Named (u u' : Json) : Prop where
  edits : Edits [text "models"] u u'
  models : ∀ m, u'.field (text "models") = some m →
    ∃ vs, m = .arr vs ∧ ∀ x ∈ vs.toList, hasName x = true
  kept : ∀ vs, u.field (text "models") = some (.arr vs) →
    u'.field (text "models") = some (.arr (.ofList (namedModels vs)))
  chars : u'.chars ≤ u.chars + modelGrowth u

theorem truthy_of_objectish {v : Json} (h : v.objectish = true) : v.truthy = true := by
  cases v <;> first | rfl | exact nomatch h

variable {u : Json}

theorem named_put {vs : JsonElements} (h : u.field (text "models") = some (.arr vs)) :
    Named u (u.put (text "models") (.arr (.ofList (namedModels vs)))) := by
  have hself := field_put_self (k := text "models") (x := .arr (.ofList (namedModels vs)))
    (objectish_of_field h)
  refine ⟨edits_put u _ _, fun m hm => ⟨.ofList (namedModels vs), ?_, fun x hx => ?_⟩,
    fun ws hws => ?_, ?_⟩
  · exact some.inj (hm.symm.trans hself)
  · rw [JsonElements.toList_ofList] at hx
    exact (mem_filter.mp hx).2
  · rw [h] at hws
    cases hws
    exact hself
  · have hput := chars_put (x := .arr (.ofList (namedModels vs))) h
    have hchars := chars_namedModels vs
    rw [modelGrowth, h]
    dsimp only
    omega

theorem named_without (h : ∀ vs, u.field (text "models") ≠ some (.arr vs)) :
    Named u (u.without (text "models")) := by
  refine ⟨edits_without u _, fun m hm => ?_, fun vs hvs => absurd hvs (h vs),
    (chars_without_le u _).trans (Nat.le_add_right _ _)⟩
  rw [field_without_self] at hm
  exact nomatch hm

theorem normalizeModelUsage_ends (hu : u.objectish = true) :
    Ends (normalizeModelUsage u) (Named u) := by
  unfold normalizeModelUsage
  rw [if_neg (by rw [truthy_of_objectish hu]; decide)]
  cases u with
  | obj ms =>
    split
    · next vs hvs => exact ends_pure (named_put hvs)
    · next hnot =>
      have hisIn : Ends (isIn (text "models") (.obj ms)) fun b =>
          b = (Json.obj ms).has (text "models") := ends_pure rfl
      refine hisIn.bind fun b hb => ?_
      split_ifs with hin hnull
      · exact (ends_modify (P := fun _ => True) _ trivial).bind fun _ _ =>
          ends_pure (named_without hnot)
      · exact ends_pure (named_without hnot)
      · refine ends_pure ⟨Edits.refl _ _, fun m hm => ?_, fun vs hvs => absurd hvs (hnot vs),
          Nat.le_add_right _ _⟩
        rw [hb, has, hm] at hin
        exact absurd rfl hin
  | _ => exact nomatch hu

/-- A block whose three windows are there, with nothing unusable among their figures. -/
def UsableBlock (s : Json) : Prop :=
  s.objectish = true ∧ ∀ w ∈ windows, ∃ b, s.field w = some b ∧ b.objectish = true ∧
    ∀ k ∈ tokenKeys, ∀ v, b.field k = some v → v = .null ∨ usableFigure v = true

/-- A block of its three windows and their four figures, and nothing else. -/
def Complete (s : Json) : Prop :=
  s.objectish = true ∧ s.memberKeys = windows ∧ ∀ w ∈ windows, ∃ b, s.field w = some b ∧
    b.objectish = true ∧ b.memberKeys = tokenKeys ∧
      ∀ k ∈ tokenKeys, ∃ v, b.field k = some v ∧ usableFigure v = true

/-- What the missing keys of a window grow it by. -/
def missingIn (b : Json) : ℕ :=
  (tokenKeys.map fun k => if b.has k = true then 0 else memberChars (k, zero)).sum

/-- What the missing keys of a usable block grow it by. -/
def subagentGrowth (usage : Json) : ℕ :=
  match usage.field (text "subagent") with
  | some s =>
    if (subagentBlock s).isSome = true then
      (windows.map fun w => missingIn ((s.field w).getD .null)).sum
    else 0
  | none => 0

variable {x : Json}

theorem subagentFigure_of_ne (h : x ≠ .null) :
    subagentFigure (some x) = if usableFigure x = true then some x else none := by
  cases x <;> first | rfl | exact absurd rfl h

theorem subagentFigure_of_usable (h : usableFigure x = true) :
    subagentFigure (some x) = some x := by
  have hne : x ≠ .null := by
    rintro rfl
    cases h
  rw [subagentFigure_of_ne hne, if_pos h]

theorem subagentFigure_isSome {v : Option Json} : (subagentFigure v).isSome = true ↔
    ∀ x, v = some x → x = .null ∨ usableFigure x = true := by
  cases v with
  | none => simp [subagentFigure]
  | some x =>
    by_cases hnull : x = .null
    · rw [hnull]
      simp [subagentFigure]
    · rw [subagentFigure_of_ne hnull]
      simp [hnull]

theorem subagentFigure_usable {v : Option Json} (h : subagentFigure v = some x) :
    usableFigure x = true := by
  cases v with
  | none =>
    cases h
    exact usableFigure_zero
  | some y =>
    by_cases hnull : y = .null
    · rw [hnull] at h
      cases h
      exact usableFigure_zero
    · rw [subagentFigure_of_ne hnull] at h
      split_ifs at h with hu
      exact some.inj h ▸ hu

theorem chars_subagentFigure {x v : Json} (h : subagentFigure (some x) = some v) :
    v.chars ≤ x.chars := by
  by_cases hnull : x = .null
  · rw [hnull] at h
    cases h
    rw [chars_zero]
    exact chars_pos x
  · rw [subagentFigure_of_ne hnull] at h
    split_ifs at h
    exact (congrArg chars (some.inj h)).ge

/-- What a window is rebuilt as: its four figures. -/
theorem subagentWindow_eq (h : subagentWindow b = some b') :
    b.objectish = true ∧ ∃ es, tokenKeys.mapM (fun k => (subagentFigure (b.field k)).map fun v =>
      (k, v)) = some es ∧ b' = .obj (.ofList es) := by
  unfold subagentWindow at h
  split_ifs at h with ho
  obtain ⟨es, hes, rfl⟩ := map_eq_some_iff.mp h
  exact ⟨ho, es, hes, rfl⟩

variable {es : List (JsString × Json)}

theorem memberKeys_keyed
    (h : es.map Prod.fst = ks) : (Json.obj (.ofList es)).memberKeys = ks := by
  rw [memberKeys, JsonMembers.toList_ofList, h]

theorem field_keyed {f : JsString → Option Json}
    (h : ks.mapM (fun k => (f k).map fun v => (k, v)) = some es) (hk : k ∈ ks) :
    (Json.obj (.ofList es)).field k = f k := by
  rw [Json.field, JsonMembers.toList_ofList]
  exact lookup_keyed h hk

theorem subagentWindow_spec (h : subagentWindow b = some b') :
    b'.objectish = true ∧ b'.memberKeys = tokenKeys ∧
      (∀ k ∈ tokenKeys, ∃ v, b'.field k = some v ∧ usableFigure v = true) ∧
      (∀ k ∈ tokenKeys, ∀ v, b.field k = some v → usableFigure v = true → b'.field k = some v) ∧
      subagentWindow b' = some b' ∧ b'.chars ≤ b.chars + missingIn b := by
  obtain ⟨ho, es, hes, rfl⟩ := subagentWindow_eq h
  have hfield := fun k hk => field_keyed (k := k) hes hk
  have hsome := mapM_keyed_isSome.mp (isSome_of_eq_some hes)
  have hvalue : ∀ k ∈ tokenKeys, ∃ v, subagentFigure (b.field k) = some v :=
    fun k hk => isSome_iff_exists.mp (hsome k hk)
  refine ⟨rfl, memberKeys_keyed (mapM_keyed hes).1, fun k hk => ?_, fun k hk v hv hu => ?_, ?_, ?_⟩
  · obtain ⟨v, hv⟩ := hvalue k hk
    exact ⟨v, (hfield k hk).trans hv, subagentFigure_usable hv⟩
  · rw [hfield k hk, hv, subagentFigure_of_usable hu]
  · -- the figures of the rebuilt window are those it is rebuilt from
    have hsame : ∀ k ∈ tokenKeys, (subagentFigure ((Json.obj (.ofList es)).field k)).map (fun v => (k, v)) =
        (subagentFigure (b.field k)).map fun v => (k, v) := by
      intro k hk
      obtain ⟨v, hv⟩ := hvalue k hk
      rw [hfield k hk, hv, subagentFigure_of_usable (subagentFigure_usable hv)]
    rw [subagentWindow, if_pos (show (Json.obj (.ofList es)).objectish = true from rfl),
      mapM_congr hsame, hes]
    rfl
  · refine chars_keyed hes (by decide) ho _ fun k hk v hv => ?_
    cases hb : b.field k with
    | none =>
      rw [hb] at hv
      cases hv
      simp [has, hb]
    | some x =>
      have hle : v.chars ≤ x.chars := chars_subagentFigure (hb ▸ hv)
      simp only [map_some, getD_some, memberChars]
      omega

theorem subagentBlock_eq {s out : Json} (h : subagentBlock s = some out) :
    s.objectish = true ∧ ∃ es, windows.mapM (fun w => ((s.field w).bind subagentWindow).map fun b =>
      (w, b)) = some es ∧ out = .obj (.ofList es) := by
  unfold subagentBlock at h
  split_ifs at h with ho
  obtain ⟨es, hes, rfl⟩ := map_eq_some_iff.mp h
  exact ⟨ho, es, hes, rfl⟩

structure Rebuilt (s out : Json) : Prop where
  complete : Complete out
  again : subagentBlock out = some out
  kept : ∀ w ∈ windows, ∀ b, s.field w = some b → ∃ b', out.field w = some b' ∧
    ∀ k ∈ tokenKeys, ∀ v, b.field k = some v → usableFigure v = true → b'.field k = some v
  chars : out.chars ≤ s.chars + (windows.map fun w => missingIn ((s.field w).getD .null)).sum

theorem subagentBlock_rebuilt {s out : Json} (h : subagentBlock s = some out) : Rebuilt s out := by
  obtain ⟨ho, es, hes, rfl⟩ := subagentBlock_eq h
  have hfield := fun w hw => field_keyed (k := w) hes hw
  have hsome := mapM_keyed_isSome.mp (isSome_of_eq_some hes)
  have hvalue : ∀ w ∈ windows, ∃ b b', s.field w = some b ∧ subagentWindow b = some b' ∧
      (Json.obj (.ofList es)).field w = some b' := by
    intro w hw
    obtain ⟨b', hb'⟩ := isSome_iff_exists.mp (hsome w hw)
    obtain ⟨b, hb, hbb'⟩ := bind_eq_some_iff.mp hb'
    exact ⟨b, b', hb, hbb', (hfield w hw).trans hb'⟩
  refine ⟨⟨rfl, memberKeys_keyed (mapM_keyed hes).1, fun w hw => ?_⟩, ?_, fun w hw b hb => ?_, ?_⟩
  · obtain ⟨b, b', -, hbb', hout⟩ := hvalue w hw
    obtain ⟨hobject, hkeys, hfigures, -⟩ := subagentWindow_spec hbb'
    exact ⟨b', hout, hobject, hkeys, hfigures⟩
  · have hsame : ∀ w ∈ windows, (((Json.obj (.ofList es)).field w).bind subagentWindow).map
        (fun b => (w, b)) = ((s.field w).bind subagentWindow).map fun b => (w, b) := by
      intro w hw
      obtain ⟨b, b', hb, hbb', hout⟩ := hvalue w hw
      obtain ⟨-, -, -, -, hagain, -⟩ := subagentWindow_spec hbb'
      rw [hout, hb, bind_some, bind_some, hagain, hbb']
    rw [subagentBlock, if_pos (show (Json.obj (.ofList es)).objectish = true from rfl),
      mapM_congr hsame, hes]
    rfl
  · obtain ⟨b₀, b', hb₀, hbb', hout⟩ := hvalue w hw
    obtain rfl := some.inj (hb₀.symm.trans hb)
    exact ⟨b', hout, (subagentWindow_spec hbb').2.2.2.1⟩
  · refine chars_keyed hes (by decide) ho _ fun w hw b' hb' => ?_
    obtain ⟨b, hb, hbb'⟩ := bind_eq_some_iff.mp hb'
    have hchars := (subagentWindow_spec hbb').2.2.2.2.2
    rw [hb]
    simp only [map_some, getD_some, memberChars]
    omega

/-- The code rebuilds exactly the usable blocks. -/
theorem subagentBlock_isSome {s : Json} : (subagentBlock s).isSome = true ↔ UsableBlock s := by
  have hwindow : ∀ b : Json, (subagentWindow b).isSome = true ↔ b.objectish = true ∧
      ∀ k ∈ tokenKeys, ∀ v, b.field k = some v → v = .null ∨ usableFigure v = true := by
    intro b
    unfold subagentWindow
    split_ifs with ho
    · rw [isSome_map, mapM_keyed_isSome]
      simp only [subagentFigure_isSome, ho, true_and]
    · simp [ho]
  unfold subagentBlock UsableBlock
  split_ifs with ho
  · rw [isSome_map, mapM_keyed_isSome]
    simp only [ho, true_and]
    refine forall₂_congr fun w _ => ?_
    cases hb : s.field w with
    | none => simp
    | some b => simpa using hwindow b
  · simp [ho]

structure Shared (u u' : Json) : Prop where
  edits : Edits [text "subagent"] u u'
  subagent : ∀ s, u'.field (text "subagent") = some s → Complete s ∧ subagentBlock s = some s
  kept : ∀ s, u.field (text "subagent") = some s → UsableBlock s →
    ∃ s', u'.field (text "subagent") = some s' ∧ Rebuilt s s'
  chars : u'.chars ≤ u.chars + subagentGrowth u

theorem normalizeSubagentUsage_ends (u : Json) : Ends (normalizeSubagentUsage u) (Shared u) := by
  unfold normalizeSubagentUsage
  cases hblock : (u.field (text "subagent")).bind subagentBlock with
  | none =>
    refine ends_pure ⟨edits_without u _, fun s hs => ?_, fun s hs husable => ?_,
      (chars_without_le u _).trans (Nat.le_add_right _ _)⟩
    · rw [field_without_self] at hs
      exact nomatch hs
    · rw [hs, bind_some] at hblock
      exact absurd (subagentBlock_isSome.mpr husable) (by simp [hblock])
  | some out =>
    obtain ⟨s, hs, hout⟩ := bind_eq_some_iff.mp hblock
    have hrebuilt := subagentBlock_rebuilt hout
    have hself : (u.put (text "subagent") out).field (text "subagent") = some out :=
      field_put_self (objectish_of_field hs)
    refine ends_pure ⟨edits_put u _ out, fun s' hs' => ?_, fun s' hs' _ => ?_, ?_⟩
    · rw [hself] at hs'
      rw [← some.inj hs']
      exact ⟨hrebuilt.complete, hrebuilt.again⟩
    · rw [hs] at hs'
      rw [← some.inj hs']
      exact ⟨out, hself, hrebuilt⟩
    · have hput := chars_put (x := out) hs
      have hchars := hrebuilt.chars
      rw [subagentGrowth, hs]
      dsimp only
      rw [if_pos (isSome_of_eq_some hout)]
      omega

end Turma.Usage
