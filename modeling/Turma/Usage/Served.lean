import Turma.Usage.Decodable

/-! The blocks and the places where they ride: after a walk everything can be decoded, another walk
changes nothing, and the text got no longer but by what the code adds on purpose. -/

namespace Turma.Usage

open Turma.Lib Turma.Lib.Json

structure UsageOk (u : Json) : Prop where
  object : u.objectish = true
  windows : ∀ w ∈ windows, OkAt u w
  days : ∀ d, u.field (text "days") = some d → d.objectish = true ∧ ∀ k, OkAt d k
  models : ∀ m, u.field (text "models") = some m → ∃ vs, m = .arr vs ∧
    ∀ x ∈ vs.toList, hasName x = true ∧ ∀ w ∈ Usage.windows, OkAt x w
  subagent : ∀ s, u.field (text "subagent") = some s → Complete s ∧ subagentBlock s = some s
  lastActivity : ∀ v, u.field (text "lastActivity") = some v → ∃ s, v = .str s

structure KeptModel (m m' : Json) : Prop where
  named : m'.field (text "model") = m.field (text "model")
  buckets : ∀ k, KeptAt m m' k

/-- The buckets of a block are kept: those of its days, of its named models and of a usable share
of the background agents too. -/
structure KeptUsage (u u' : Json) : Prop where
  windows : ∀ w ∈ windows, KeptAt u u' w
  days : ∀ d, u.field (text "days") = some d → d.objectish = true →
    ∃ d', u'.field (text "days") = some d' ∧ ∀ k, KeptAt d d' k
  models : ∀ vs, u.field (text "models") = some (.arr vs) → ∃ vs', u'.field (text "models") =
    some (.arr vs') ∧ List.Forall₂ KeptModel (namedModels vs) vs'.toList
  subagent : ∀ s, u.field (text "subagent") = some s → UsableBlock s →
    ∃ s', u'.field (text "subagent") = some s' ∧ ∀ w ∈ Usage.windows, ∀ b, s.field w = some b →
      ∃ b', s'.field w = some b' ∧ ∀ k ∈ tokenKeys, ∀ v, b.field k = some v →
        usableFigure v = true → b'.field k = some v

def blockGrowth (usage : Json) : ℕ := modelGrowth usage + subagentGrowth usage

theorem normalizeDays_ends (u : Json) : Ends (normalizeDays u) fun u' =>
    Edits [text "days"] u u' ∧
      (∀ d, u'.field (text "days") = some d → d.objectish = true ∧ ∀ k, OkAt d k) ∧
      (∀ d, u.field (text "days") = some d → d.objectish = true →
        ∃ d', u'.field (text "days") = some d' ∧ ∀ k, KeptAt d d' k) ∧ u'.chars ≤ u.chars := by
  unfold normalizeDays
  cases hdays : u.field (text "days") with
  | none =>
    refine ends_pure ⟨Edits.refl _ u, fun d hd => ?_, fun _ hd => absurd hd (by simp), le_refl _⟩
    rw [hdays] at hd
    exact nomatch hd
  | some days =>
    dsimp only
    split_ifs with ho
    · refine (walk_ends days days.memberKeys).bind fun days' h => ends_pure ?_
      have hself : (u.put (text "days") days').field (text "days") = some days' :=
        field_put_self (objectish_of_field hdays)
      refine ⟨edits_put u _ days', fun d hd => ?_, fun d hd _ => ?_, chars_put_le hdays h.chars⟩
      · rw [hself] at hd
        rw [← Option.some.inj hd]
        refine ⟨h.edits.object.trans ho, fun k => ?_⟩
        by_cases hk : k ∈ days.memberKeys
        · exact h.ok k hk
        · intro b hb
          rw [h.edits.other k hk] at hb
          exact absurd (mem_memberKeys hb) hk
      · rw [← Option.some.inj hd]
        exact ⟨days', hself, h.kept⟩
    · refine (ends_modify (P := fun _ => True) _ trivial).bind fun _ _ => ends_pure ?_
      refine ⟨edits_without u _, fun d hd => ?_, fun d hd ho' => ?_, chars_without_le u _⟩
      · rw [field_without_self] at hd
        exact nomatch hd
      · exact absurd (Option.some.inj hd ▸ ho') ho

variable {xs ys : List Json}

theorem sum_chars_le (h : List.Forall₂ (fun x y : Json => y.chars ≤ x.chars) xs ys) :
    (Json.arr (.ofList ys)).chars ≤ (Json.arr (.ofList xs)).chars := by
  have hsum : (ys.map fun v => v.chars + 1).sum ≤ (xs.map fun v => v.chars + 1).sum := by
    induction h with
    | nil => exact le_refl _
    | cons hxy _ ih =>
      rw [List.map_cons, List.map_cons, List.sum_cons, List.sum_cons]
      omega
  rw [chars_arr, chars_arr, JsonElements.toList_ofList, JsonElements.toList_ofList]
  omega

theorem forall_of_forall₂ {α β : Type} {R : α → β → Prop} {P : β → Prop} {xs : List α} {ys : List β}
    (h : List.Forall₂ R xs ys) (hP : ∀ x ∈ xs, ∀ y, R x y → P y) : ∀ y ∈ ys, P y := by
  induction h with
  | nil => exact fun y hy => nomatch hy
  | cons hxy _ ih =>
    intro y hy
    rcases List.mem_cons.mp hy with rfl | hy
    · exact hP _ (List.mem_cons_self ..) _ hxy
    · exact ih (fun x hx => hP x (.tail _ hx)) y hy

theorem normalizeModelWindows_ends (u : Json) : Ends (normalizeModelWindows u) fun u' =>
    Edits [text "models"] u u' ∧
      (∀ vs, u.field (text "models") = some (.arr vs) → ∃ vs', u'.field (text "models") =
        some (.arr vs') ∧ List.Forall₂ (fun m m' => Walked m Usage.windows m') vs.toList vs'.toList) ∧
      ((∀ vs, u.field (text "models") ≠ some (.arr vs)) → u' = u) ∧ u'.chars ≤ u.chars := by
  unfold normalizeModelWindows
  split
  · next vs hvs =>
    refine (ends_mapM fun m _ => walk_ends m Usage.windows).bind fun ws h => ends_pure ?_
    have hself : (u.put (text "models") (.arr (.ofList ws))).field (text "models") =
        some (.arr (.ofList ws)) := field_put_self (objectish_of_field hvs)
    have hchars : (Json.arr (.ofList ws)).chars ≤ (Json.arr vs).chars := by
      have hle := sum_chars_le (h.imp fun _ _ hw => hw.chars)
      rwa [JsonElements.ofList_toList] at hle
    refine ⟨edits_put u _ _, fun vs' hvs' => ⟨.ofList ws, hself, ?_⟩, fun hnot => absurd hvs (hnot vs),
      chars_put_le hvs hchars⟩
    rw [hvs] at hvs'
    cases hvs'
    rwa [JsonElements.toList_ofList]
  · next hnot =>
    exact ends_pure ⟨Edits.refl _ u, fun vs hvs => absurd hvs (hnot vs), fun _ => rfl, le_refl _⟩

/-- A member that is typed as a string is one, or is gone. -/
structure StringKept (k : JsString) (v v' : Json) : Prop where
  edits : Edits [k] v v'
  isString : ∀ x, v'.field k = some x → ∃ s, x = .str s
  chars : v'.chars ≤ v.chars

theorem keepString_ends (k place : JsString) (v : Json) :
    Ends (keepString k place v) (StringKept k v) := by
  unfold keepString
  split
  · next hnone =>
    refine ends_pure ⟨Edits.refl _ v, fun x hx => ?_, le_refl _⟩
    rw [hnone] at hx
    exact nomatch hx
  · next s hs =>
    refine ends_pure ⟨Edits.refl _ v, fun x hx => ⟨s, ?_⟩, le_refl _⟩
    exact Option.some.inj (hx.symm.trans hs)
  · refine (ends_modify (P := fun _ => True) _ trivial).bind fun _ _ => ends_pure ?_
    refine ⟨edits_without v k, fun x hx => ?_, chars_without_le v k⟩
    rw [field_without_self] at hx
    exact nomatch hx

theorem windows_apart : ∀ w ∈ windows, w ∉ [text "models"] ∧ w ∉ [text "subagent"] ∧
    w ∉ [text "days"] ∧ w ∉ [text "lastActivity"] := by decide

/-- A walk over a block: it may be decoded, keeps its buckets, and grows by its model names and by
the missing keys of its sub-agent windows at most. -/
structure Served (u u' : Json) : Prop where
  ok : UsageOk u'
  kept : KeptUsage u u'
  chars : u'.chars ≤ u.chars + blockGrowth u

theorem hasName_of_walked {m m' : Json} (h : Walked m windows m') :
    m'.field (text "model") = m.field (text "model") :=
  h.edits.other _ (by decide)

variable {u : Json}

theorem normalizeUsageBlock_ends (hu : u.objectish = true) :
    Ends (normalizeUsageBlock u) (Served u) := by
  refine (normalizeModelUsage_ends hu).bind fun u₁ h₁ => ?_
  refine (normalizeSubagentUsage_ends u₁).bind fun u₂ h₂ => ?_
  have hu₂ : u₂.objectish = true := by rw [h₂.edits.object, h₁.edits.object, hu]
  unfold normalizeUsageTokens
  rw [if_neg (by rw [hu₂]; decide)]
  refine (walk_ends u₂ windows).bind fun u₃ h₃ => ?_
  refine (normalizeDays_ends u₃).bind fun u₄ ⟨hedits₄, hok₄, hkept₄, hchars₄⟩ => ?_
  refine (normalizeModelWindows_ends u₄).bind fun u₅ ⟨hedits₅, hlist₅, hsame₅, hchars₅⟩ => ?_
  refine (keepString_ends _ _ u₅).imp fun u₆ h₆ => ?_
  -- who may have edited each member
  have hwindow : ∀ w ∈ windows, u₆.field w = u₃.field w := fun w hw => by
    obtain ⟨hmodels, -, hdays, hlast⟩ := windows_apart w hw
    rw [h₆.edits.other w hlast, hedits₅.other w hmodels, hedits₄.other w hdays]
  have hwindow' : ∀ w ∈ windows, u₂.field w = u.field w := fun w hw => by
    obtain ⟨hmodels, hsubagent, -, -⟩ := windows_apart w hw
    rw [h₂.edits.other w hsubagent, h₁.edits.other w hmodels]
  have hdays : u₆.field (text "days") = u₄.field (text "days") := by
    rw [h₆.edits.other _ (by decide), hedits₅.other _ (by decide)]
  have hdays' : u₃.field (text "days") = u.field (text "days") := by
    rw [h₃.edits.other _ (by decide), h₂.edits.other _ (by decide), h₁.edits.other _ (by decide)]
  have hmodels : u₆.field (text "models") = u₅.field (text "models") :=
    h₆.edits.other _ (by decide)
  have hmodels' : u₄.field (text "models") = u₁.field (text "models") := by
    rw [hedits₄.other _ (by decide), h₃.edits.other _ (by decide), h₂.edits.other _ (by decide)]
  have hsubagent : u₆.field (text "subagent") = u₂.field (text "subagent") := by
    rw [h₆.edits.other _ (by decide), hedits₅.other _ (by decide), hedits₄.other _ (by decide),
      h₃.edits.other _ (by decide)]
  have hsubagent' : u₁.field (text "subagent") = u.field (text "subagent") :=
    h₁.edits.other _ (by decide)
  refine ⟨⟨?_, fun w hw b hb => ?_, fun d hd => ?_, fun m hm => ?_, fun s hs => ?_, h₆.isString⟩,
    ⟨fun w hw b hb ho => ?_, fun d hd ho => ?_, fun vs hvs => ?_, fun s hs husable => ?_⟩, ?_⟩
  · rw [h₆.edits.object, hedits₅.object, hedits₄.object, h₃.edits.object, hu₂]
  · rw [hwindow w hw] at hb
    exact h₃.ok w hw b hb
  · rw [hdays] at hd
    exact hok₄ d hd
  · rw [hmodels] at hm
    -- what the first walk left under `models` is a list of named entries
    cases hlist : u₄.field (text "models") with
    | none =>
      rw [hsame₅ (fun vs hvs => by rw [hlist] at hvs; exact nomatch hvs), hlist] at hm
      exact nomatch hm
    | some m₁ =>
      obtain ⟨vs, rfl, hnames⟩ := h₁.models m₁ (hmodels'.symm.trans hlist)
      obtain ⟨vs', hvs', hall⟩ := hlist₅ vs hlist
      refine ⟨vs', Option.some.inj (hm.symm.trans hvs'), ?_⟩
      refine forall_of_forall₂ hall fun x hx y hxy => ⟨?_, hxy.ok⟩
      have hname := hnames x hx
      rwa [hasName, ← hasName_of_walked hxy] at hname
  · rw [hsubagent] at hs
    exact h₂.subagent s hs
  · obtain ⟨b', hb', hkept⟩ := h₃.kept w b ((hwindow' w hw).trans hb) ho
    exact ⟨b', (hwindow w hw).trans hb', hkept⟩
  · obtain ⟨d', hd', hkept⟩ := hkept₄ d (hdays'.trans hd) ho
    exact ⟨d', hdays.trans hd', hkept⟩
  · obtain ⟨vs', hvs', hall⟩ := hlist₅ _ (hmodels'.trans (h₁.kept vs hvs))
    refine ⟨vs', hmodels.trans hvs', ?_⟩
    rw [JsonElements.toList_ofList] at hall
    exact hall.imp fun _ _ h => ⟨hasName_of_walked h, h.kept⟩
  · obtain ⟨s', hs', hrebuilt⟩ := h₂.kept s (hsubagent'.trans hs) husable
    exact ⟨s', hsubagent.trans hs', hrebuilt.kept⟩
  · have hmodel := h₁.chars
    have hsub := h₂.chars
    have hgrowth : subagentGrowth u₁ = subagentGrowth u := by
      rw [subagentGrowth, hsubagent', ← subagentGrowth]
    have hwalk := h₃.chars
    have hlast := h₆.chars
    rw [blockGrowth]
    omega

def OwnerOk (v : Json) : Prop := ∀ u, v.field (text "usage") = some u → UsageOk u

/-- The block of `v`, where it is one, is kept in `v'`. -/
def KeptOwner (v v' : Json) : Prop := ∀ u, v.field (text "usage") = some u → u.objectish = true →
  ∃ u', v'.field (text "usage") = some u' ∧ KeptUsage u u'

def ownerGrowth (v : Json) : ℕ :=
  match v.field (text "usage") with
  | some u => blockGrowth u
  | none => 0

structure Owned (v v' : Json) : Prop where
  edits : Edits [text "usage"] v v'
  ok : OwnerOk v'
  kept : KeptOwner v v'
  chars : v'.chars ≤ v.chars + ownerGrowth v

theorem dropUnusableUsage_ends (v : Json) : Ends (dropUnusableUsage v) fun v' =>
    Edits [text "usage"] v v' ∧
      (∀ u, v'.field (text "usage") = some u → u.objectish = true) ∧
      (∀ u, v.field (text "usage") = some u → u.objectish = true → v' = v) ∧
      ownerGrowth v' ≤ ownerGrowth v ∧ v'.chars ≤ v.chars := by
  unfold dropUnusableUsage
  cases husage : v.field (text "usage") with
  | none =>
    refine ends_pure ⟨Edits.refl _ v, fun u hu => ?_, fun _ hu => absurd hu (by simp), le_refl _,
      le_refl _⟩
    rw [husage] at hu
    exact nomatch hu
  | some usage =>
    dsimp only
    have hdropped : ¬usage.objectish = true → Edits [text "usage"] v (v.without (text "usage")) ∧
        (∀ u, (v.without (text "usage")).field (text "usage") = some u → u.objectish = true) ∧
        (∀ u, some usage = some u → u.objectish = true → v.without (text "usage") = v) ∧
        ownerGrowth (v.without (text "usage")) ≤ ownerGrowth v ∧
        (v.without (text "usage")).chars ≤ v.chars := by
      intro ho
      refine ⟨edits_without v _, fun u hu => ?_, fun u hu ho' => ?_, ?_, chars_without_le v _⟩
      · rw [field_without_self] at hu
        exact nomatch hu
      · exact absurd (Option.some.inj hu ▸ ho') ho
      · rw [ownerGrowth, field_without_self]
        exact Nat.zero_le _
    split_ifs with ho hnull
    · refine ends_pure ⟨Edits.refl _ v, fun u hu => ?_, fun _ _ _ => rfl, le_refl _, le_refl _⟩
      rw [husage] at hu
      exact Option.some.inj hu ▸ ho
    · exact (ends_modify (P := fun _ => True) _ trivial).bind fun _ _ => ends_pure (hdropped ho)
    · exact ends_pure (hdropped ho)

variable {v : Json}

theorem normalizeUsageOf_ends
    (hv : ∀ u, v.field (text "usage") = some u → u.objectish = true) :
    Ends (normalizeUsageOf v) (Owned v) := by
  unfold normalizeUsageOf
  cases husage : v.field (text "usage") with
  | none =>
    refine ends_pure ⟨Edits.refl _ v, fun u hu => ?_, fun u hu => ?_, Nat.le_add_right _ _⟩
    · rw [husage] at hu
      exact nomatch hu
    · rw [husage] at hu
      exact nomatch hu
  | some usage =>
    refine (normalizeUsageBlock_ends (hv usage husage)).bind fun usage' h => ends_pure ?_
    have hself : (v.put (text "usage") usage').field (text "usage") = some usage' :=
      field_put_self (objectish_of_field husage)
    refine ⟨edits_put v _ usage', fun u hu => ?_, fun u hu _ => ⟨usage', hself, ?_⟩, ?_⟩
    · exact Option.some.inj (hself.symm.trans hu) ▸ h.ok
    · exact Option.some.inj (husage.symm.trans hu) ▸ h.kept
    · have hput := chars_put (x := usage') husage
      have hchars := h.chars
      rw [ownerGrowth, husage]
      dsimp only
      omega

theorem normalizeSession_ends (s : Json) : Ends (normalizeSession s) (Owned s) := by
  refine (dropUnusableUsage_ends s).bind fun s' ⟨hedits, hobjects, hsame, hgrowth, hchars⟩ => ?_
  refine (normalizeUsageOf_ends hobjects).imp fun s'' h => ?_
  refine ⟨⟨h.edits.object.trans hedits.object, fun k hk => ?_⟩, h.ok, fun u hu ho => ?_, ?_⟩
  · rw [h.edits.other k hk, hedits.other k hk]
  · rw [hsame u hu ho] at h
    exact h.kept u hu ho
  · have hchars' := h.chars
    omega

structure RepoOk (r : Json) : Prop where
  object : r.objectish = true
  names : ∀ k ∈ [text "repo", text "remoteKey"], ∀ v, r.field k = some v → ∃ s, v = .str s
  usage : OwnerOk r

theorem normalizeRepo_ends {r : Json} (hr : r.objectish = true) : Ends (normalizeRepo r) fun r' =>
    RepoOk r' ∧ KeptOwner r r' ∧ r'.chars ≤ r.chars + ownerGrowth r := by
  refine (keepString_ends _ _ r).bind fun r₁ h₁ => ?_
  refine (keepString_ends _ _ r₁).bind fun r₂ h₂ => ?_
  refine (normalizeSession_ends r₂).imp fun r₃ h₃ => ?_
  have husage : r₂.field (text "usage") = r.field (text "usage") := by
    rw [h₂.edits.other _ (by decide), h₁.edits.other _ (by decide)]
  refine ⟨⟨?_, fun k hk v hv => ?_, h₃.ok⟩, fun u hu ho => h₃.kept u (husage.trans hu) ho, ?_⟩
  · rw [h₃.edits.object, h₂.edits.object, h₁.edits.object, hr]
  · rcases List.mem_cons.mp hk with rfl | hk
    · rw [h₃.edits.other _ (by decide), h₂.edits.other _ (by decide)] at hv
      exact h₁.isString v hv
    · rw [List.mem_singleton.mp hk] at hv
      rw [h₃.edits.other _ (by decide)] at hv
      exact h₂.isString v hv
  · have hfirst := h₁.chars
    have hsecond := h₂.chars
    have hthird := h₃.chars
    have hgrowth : ownerGrowth r₂ = ownerGrowth r := by rw [ownerGrowth, husage, ← ownerGrowth]
    omega

structure Decodable (p : Json) : Prop where
  usage : OwnerOk p
  repoUsage : ∀ r, p.field (text "repoUsage") = some r →
    ∃ vs, r = .arr vs ∧ ∀ x ∈ vs.toList, RepoOk x
  sessions : ∀ vs, p.field (text "sessions") = some (.arr vs) → ∀ x ∈ vs.toList, OwnerOk x

/-- The buckets of a payload are kept, wherever their blocks ride. -/
structure Kept (p p' : Json) : Prop where
  usage : KeptOwner p p'
  repoUsage : ∀ vs, p.field (text "repoUsage") = some (.arr vs) →
    ∃ vs', p'.field (text "repoUsage") = some (.arr vs') ∧
      List.Forall₂ KeptOwner (vs.toList.filter Json.objectish) vs'.toList
  sessions : ∀ vs, p.field (text "sessions") = some (.arr vs) →
    ∃ vs', p'.field (text "sessions") = some (.arr vs') ∧
      List.Forall₂ KeptOwner vs.toList vs'.toList
  others : ∀ k, k ∉ [text "usage", text "repoUsage", text "sessions"] → p'.field k = p.field k

def repoGrowth (p : Json) : ℕ :=
  match p.field (text "repoUsage") with
  | none => 0
  | some (.arr vs) => ((vs.toList.filter Json.objectish).map ownerGrowth).sum
  -- `[]` takes the place of one character
  | some v => if v.chars = 1 then 1 else 0

def sessionGrowth (p : Json) : ℕ :=
  match p.field (text "sessions") with
  | some (.arr vs) => (vs.toList.map ownerGrowth).sum
  | _ => 0

/-- What bare model names, the missing keys of usable sub-agent blocks and a list of repositories
that is none grow by. -/
def growth (p : Json) : ℕ := ownerGrowth p + repoGrowth p + sessionGrowth p

theorem sum_chars_growth
    (h : List.Forall₂ (fun x y : Json => y.chars ≤ x.chars + ownerGrowth x) xs ys) :
    (Json.arr (.ofList ys)).chars ≤ (Json.arr (.ofList xs)).chars + (xs.map ownerGrowth).sum := by
  have hsum : (ys.map fun v => v.chars + 1).sum ≤
      (xs.map fun v => v.chars + 1).sum + (xs.map ownerGrowth).sum := by
    induction h with
    | nil => exact le_refl _
    | cons hxy _ ih =>
      simp only [List.map_cons, List.sum_cons]
      omega
  rw [chars_arr, chars_arr, JsonElements.toList_ofList, JsonElements.toList_ofList]
  omega

theorem chars_filter_le (vs : JsonElements) :
    (Json.arr (.ofList (vs.toList.filter Json.objectish))).chars ≤ (Json.arr vs).chars := by
  have hsum : ((vs.toList.filter Json.objectish).map fun v => v.chars + 1).sum ≤
      (vs.toList.map fun v => v.chars + 1).sum :=
    (List.filter_sublist.map fun v : Json => v.chars + 1).sum_le_sum fun _ _ => Nat.zero_le _
  rw [chars_arr, chars_arr, JsonElements.toList_ofList]
  omega

theorem normalizeRepos_ends (p : Json) : Ends (normalizeRepos p) fun p' =>
    Edits [text "repoUsage"] p p' ∧
      (∀ r, p'.field (text "repoUsage") = some r → ∃ vs, r = .arr vs ∧ ∀ x ∈ vs.toList, RepoOk x) ∧
      (∀ vs, p.field (text "repoUsage") = some (.arr vs) → ∃ vs', p'.field (text "repoUsage") =
        some (.arr vs') ∧ List.Forall₂ KeptOwner (vs.toList.filter Json.objectish) vs'.toList) ∧
      p'.chars ≤ p.chars + repoGrowth p := by
  unfold normalizeRepos
  split
  · next hnone =>
    refine ends_pure ⟨Edits.refl _ p, fun r hr => ?_, fun vs hvs => ?_, Nat.le_add_right _ _⟩
    · rw [hnone] at hr
      exact nomatch hr
    · rw [hnone] at hvs
      exact nomatch hvs
  · next vs hvs =>
    have hloop : Ends ((vs.toList.filter Json.objectish).mapM normalizeRepo)
        (List.Forall₂ (fun r r' => RepoOk r' ∧ KeptOwner r r' ∧ r'.chars ≤ r.chars + ownerGrowth r)
          (vs.toList.filter Json.objectish)) :=
      ends_mapM fun r hr => normalizeRepo_ends (List.mem_filter.mp hr).2
    have hput : ∀ rs, List.Forall₂ (fun r r' => RepoOk r' ∧ KeptOwner r r' ∧
        r'.chars ≤ r.chars + ownerGrowth r) (vs.toList.filter Json.objectish) rs →
        ∀ x, x = p.put (text "repoUsage") (.arr (.ofList rs)) →
        Edits [text "repoUsage"] p x ∧
        (∀ r, x.field (text "repoUsage") = some r → ∃ vs, r = .arr vs ∧ ∀ x ∈ vs.toList, RepoOk x) ∧
        (∀ vs, p.field (text "repoUsage") = some (.arr vs) → ∃ vs', x.field (text "repoUsage") =
          some (.arr vs') ∧ List.Forall₂ KeptOwner (vs.toList.filter Json.objectish) vs'.toList) ∧
        x.chars ≤ p.chars + repoGrowth p := by
      rintro rs h x rfl
      have hself : (p.put (text "repoUsage") (.arr (.ofList rs))).field (text "repoUsage") =
          some (.arr (.ofList rs)) := field_put_self (objectish_of_field hvs)
      refine ⟨edits_put p _ _, fun r hr => ⟨.ofList rs, ?_, ?_⟩, fun ws hws => ⟨.ofList rs, hself, ?_⟩, ?_⟩
      · exact Option.some.inj (hr.symm.trans hself)
      · rw [JsonElements.toList_ofList]
        exact forall_of_forall₂ h fun _ _ _ hxy => hxy.1
      · rw [hvs] at hws
        cases hws
        rw [JsonElements.toList_ofList]
        exact h.imp fun _ _ hxy => hxy.2.1
      · have hchars := sum_chars_growth (h.imp fun _ _ hxy => hxy.2.2)
        have hfilter := chars_filter_le vs
        have hputs := chars_put (x := .arr (.ofList rs)) hvs
        rw [repoGrowth, hvs]
        dsimp only
        omega
    split_ifs with hall
    · exact (ends_modify (P := fun _ => True) _ trivial).bind fun _ _ =>
        hloop.bind fun rs h => ends_pure (hput rs h _ rfl)
    · exact hloop.bind fun rs h => ends_pure (hput rs h _ rfl)
  · next v hv hnot =>
    have hself : (p.put (text "repoUsage") (.arr .nil)).field (text "repoUsage") = some (.arr .nil) :=
      field_put_self (objectish_of_field hnot)
    refine ends_pure ⟨edits_put p _ _, fun r hr => ⟨.nil, ?_, fun x hx => nomatch hx⟩, fun vs hvs => ?_, ?_⟩
    · exact Option.some.inj (hr.symm.trans hself)
    · rw [hnot] at hvs
      exact absurd (Option.some.inj hvs) (hv vs)
    · have hput := chars_put (x := .arr .nil) hnot
      have hempty : (Json.arr .nil).chars = 2 := rfl
      have hpos := chars_pos v
      have hgrowth : repoGrowth p = if v.chars = 1 then 1 else 0 := by
        rw [repoGrowth, hnot]
        cases v <;> first | rfl | exact absurd rfl (hv _)
      rw [hgrowth]
      split_ifs <;> omega

theorem normalizeSessions_ends (p : Json) : Ends (normalizeSessions p) fun p' =>
    Edits [text "sessions"] p p' ∧
      (∀ vs, p'.field (text "sessions") = some (.arr vs) → ∀ x ∈ vs.toList, OwnerOk x) ∧
      (∀ vs, p.field (text "sessions") = some (.arr vs) → ∃ vs', p'.field (text "sessions") =
        some (.arr vs') ∧ List.Forall₂ KeptOwner vs.toList vs'.toList) ∧
      p'.chars ≤ p.chars + sessionGrowth p := by
  unfold normalizeSessions
  split
  · next vs hvs =>
    refine (ends_mapM fun s _ => normalizeSession_ends s).bind fun ss h => ends_pure ?_
    have hself : (p.put (text "sessions") (.arr (.ofList ss))).field (text "sessions") =
        some (.arr (.ofList ss)) := field_put_self (objectish_of_field hvs)
    refine ⟨edits_put p _ _, fun ws hws => ?_, fun ws hws => ⟨.ofList ss, hself, ?_⟩, ?_⟩
    · rw [hself] at hws
      cases hws
      rw [JsonElements.toList_ofList]
      exact forall_of_forall₂ h fun _ _ _ hxy => hxy.ok
    · rw [hvs] at hws
      cases hws
      rw [JsonElements.toList_ofList]
      exact h.imp fun _ _ hxy => hxy.kept
    · have hchars := sum_chars_growth (h.imp fun _ _ hxy => hxy.chars)
      have hput := chars_put (x := .arr (.ofList ss)) hvs
      rw [JsonElements.ofList_toList] at hchars
      rw [sessionGrowth, hvs]
      dsimp only
      omega
  · next hnot =>
    exact ends_pure ⟨Edits.refl _ p, fun vs hvs => absurd hvs (hnot vs), fun vs hvs => absurd hvs (hnot vs),
      Nat.le_add_right _ _⟩

structure Coerced (p p' : Json) : Prop where
  ok : Decodable p'
  kept : Kept p p'
  chars : p'.chars ≤ p.chars + growth p

theorem normalizePlaces_ends (p : Json) : Ends (normalizePlaces p) (Coerced p) := by
  have hsession : ∀ m : Json → Coercing Json,
      (do let p ← dropUnusableUsage p
          let p ← normalizeUsageOf p
          m p) = normalizeSession p >>= m := fun m => by
    rw [normalizeSession, bind_assoc]
  unfold normalizePlaces
  rw [hsession]
  refine (normalizeSession_ends p).bind fun p₁ h₁ => ?_
  refine (normalizeRepos_ends p₁).bind fun p₂ ⟨hedits₂, hok₂, hkept₂, hchars₂⟩ => ?_
  refine (normalizeSessions_ends p₂).imp fun p₃ ⟨hedits₃, hok₃, hkept₃, hchars₃⟩ => ?_
  have husage : p₃.field (text "usage") = p₁.field (text "usage") := by
    rw [hedits₃.other _ (by decide), hedits₂.other _ (by decide)]
  have hrepos : p₃.field (text "repoUsage") = p₂.field (text "repoUsage") :=
    hedits₃.other _ (by decide)
  have hrepos' : p₁.field (text "repoUsage") = p.field (text "repoUsage") :=
    h₁.edits.other _ (by decide)
  have hsessions' : p₂.field (text "sessions") = p.field (text "sessions") := by
    rw [hedits₂.other _ (by decide), h₁.edits.other _ (by decide)]
  refine ⟨⟨fun u hu => h₁.ok u (husage.symm.trans hu), fun r hr => hok₂ r (hrepos.symm.trans hr), hok₃⟩,
    ⟨fun u hu ho => ?_, fun vs hvs => ?_, fun vs hvs => hkept₃ vs (hsessions'.trans hvs), ?_⟩, ?_⟩
  · obtain ⟨u', hu', hkept⟩ := h₁.kept u hu ho
    exact ⟨u', husage.trans hu', hkept⟩
  · obtain ⟨vs', hvs', hkept⟩ := hkept₂ vs (hrepos'.trans hvs)
    exact ⟨vs', hrepos.trans hvs', hkept⟩
  · intro k hk
    simp only [List.mem_cons, List.not_mem_nil, or_false, not_or] at hk
    rw [hedits₃.other k (by simpa using hk.2.2), hedits₂.other k (by simpa using hk.2.1),
      h₁.edits.other k (by simpa using hk.1)]
  · have hchars₁ := h₁.chars
    have hgrowth : repoGrowth p₁ = repoGrowth p := by rw [repoGrowth, hrepos', ← repoGrowth]
    have hgrowth' : sessionGrowth p₂ = sessionGrowth p := by
      rw [sessionGrowth, hsessions', ← sessionGrowth]
    rw [growth]
    omega

theorem normalizeTokenBucket_settles {k : JsString} (h : OkAt v k) :
    Settles (normalizeTokenBucket v k) v := by
  unfold normalizeTokenBucket
  cases hb : v.field k with
  | none => exact settles_pure v
  | some b =>
    have hok := h b hb
    have hloop : Settles (tokenKeys.foldlM (zeroUnusable k) b) b := by
      refine settles_foldlM fun l hl => ?_
      unfold zeroUnusable
      cases hx : b.field l with
      | none => exact settles_pure b
      | some x =>
        dsimp only
        rw [if_pos (hok.figures l hl x hx)]
        exact settles_pure b
    dsimp only
    rw [if_pos hok.object]
    refine hloop.bind ?_
    rw [put_same hb]
    exact settles_pure v

theorem walk_settles {ks : List JsString} (h : ∀ k ∈ ks, OkAt v k) :
    Settles (ks.foldlM normalizeTokenBucket v) v :=
  settles_foldlM fun k hk => normalizeTokenBucket_settles (h k hk)

theorem normalizeModelUsage_settles (h : UsageOk u) : Settles (normalizeModelUsage u) u := by
  unfold normalizeModelUsage
  rw [if_neg (by rw [truthy_of_objectish h.object]; decide)]
  cases hm : u.field (text "models") with
  | none =>
    cases u with
    | obj ms =>
      have hin : Settles (isIn (text "models") (.obj ms)) false := by
        intro t
        rw [isIn, has, hm]
        rfl
      exact hin.bind (settles_pure _)
    | _ => cases h.object
  | some m =>
    obtain ⟨vs, rfl, hall⟩ := h.models m hm
    have hnamed : ∀ x ∈ vs.toList, namedModel x = x := fun x hx => by
      have hname := (hall x hx).1
      cases x <;> first | rfl | exact absurd hname (by simp [hasName, Json.field])
    have hsame : (vs.toList.map namedModel).filter hasName = vs.toList := by
      rw [List.map_congr_left hnamed, List.map_id']
      exact List.filter_eq_self.mpr fun x hx => (hall x hx).1
    dsimp only
    rw [hsame, JsonElements.ofList_toList, put_same hm]
    exact settles_pure u

theorem normalizeSubagentUsage_settles (h : UsageOk u) :
    Settles (normalizeSubagentUsage u) u := by
  unfold normalizeSubagentUsage
  cases hs : u.field (text "subagent") with
  | none =>
    rw [Option.bind_none]
    rw [without_same hs]
    exact settles_pure u
  | some s =>
    rw [Option.bind_some, (h.subagent s hs).2]
    dsimp only
    rw [put_same hs]
    exact settles_pure u

theorem normalizeDays_settles (h : UsageOk u) : Settles (normalizeDays u) u := by
  unfold normalizeDays
  cases hd : u.field (text "days") with
  | none => exact settles_pure u
  | some d =>
    obtain ⟨hobject, hok⟩ := h.days d hd
    dsimp only
    rw [if_pos hobject]
    refine (walk_settles fun k _ => hok k).bind ?_
    rw [put_same hd]
    exact settles_pure u

theorem normalizeModelWindows_settles (h : UsageOk u) :
    Settles (normalizeModelWindows u) u := by
  unfold normalizeModelWindows
  split
  · next vs hvs =>
    obtain ⟨vs', heq, hall⟩ := h.models _ hvs
    cases heq
    refine (settles_mapM fun m hm => walk_settles (hall m hm).2).bind ?_
    rw [JsonElements.ofList_toList, put_same hvs]
    exact settles_pure u
  · exact settles_pure u

theorem keepString_settles {k place : JsString}
    (h : ∀ x, v.field k = some x → ∃ s, x = .str s) : Settles (keepString k place v) v := by
  unfold keepString
  cases hx : v.field k with
  | none => exact settles_pure v
  | some x =>
    obtain ⟨s, rfl⟩ := h x hx
    exact settles_pure v

theorem normalizeUsageBlock_settles (h : UsageOk u) : Settles (normalizeUsageBlock u) u := by
  refine (normalizeModelUsage_settles h).bind ((normalizeSubagentUsage_settles h).bind ?_)
  unfold normalizeUsageTokens
  rw [if_neg (by rw [h.object]; decide)]
  exact (walk_settles h.windows).bind ((normalizeDays_settles h).bind
    ((normalizeModelWindows_settles h).bind (keepString_settles h.lastActivity)))

theorem normalizeSession_settles {s : Json} (h : OwnerOk s) : Settles (normalizeSession s) s := by
  have hdrop : Settles (dropUnusableUsage s) s := by
    unfold dropUnusableUsage
    cases hu : s.field (text "usage") with
    | none => exact settles_pure s
    | some u =>
      dsimp only
      rw [if_pos (h u hu).object]
      exact settles_pure s
  refine hdrop.bind ?_
  unfold normalizeUsageOf
  cases hu : s.field (text "usage") with
  | none => exact settles_pure s
  | some u =>
    refine (normalizeUsageBlock_settles (h u hu)).bind ?_
    rw [put_same hu]
    exact settles_pure s

theorem normalizeRepo_settles {r : Json} (h : RepoOk r) : Settles (normalizeRepo r) r :=
  (keepString_settles (h.names _ (by simp))).bind
    ((keepString_settles (h.names _ (by simp))).bind (normalizeSession_settles h.usage))

variable {p : Json}

theorem normalizeRepos_settles (h : Decodable p) : Settles (normalizeRepos p) p := by
  unfold normalizeRepos
  cases hr : p.field (text "repoUsage") with
  | none => exact settles_pure p
  | some r =>
    obtain ⟨vs, rfl, hall⟩ := h.repoUsage r hr
    have hfilter : vs.toList.filter Json.objectish = vs.toList :=
      List.filter_eq_self.mpr fun x hx => (hall x hx).object
    have hevery : vs.toList.all Json.objectish = true :=
      List.all_eq_true.mpr fun x hx => (hall x hx).object
    dsimp only
    rw [if_neg (by rw [hevery]; decide), hfilter]
    refine (settles_mapM fun x hx => normalizeRepo_settles (hall x hx)).bind ?_
    rw [JsonElements.ofList_toList, put_same hr]
    exact settles_pure p

theorem normalizeSessions_settles (h : Decodable p) : Settles (normalizeSessions p) p := by
  unfold normalizeSessions
  split
  · next vs hvs =>
    refine (settles_mapM fun x hx => normalizeSession_settles (h.sessions vs hvs x hx)).bind ?_
    rw [JsonElements.ofList_toList, put_same hvs]
    exact settles_pure p
  · exact settles_pure p

theorem normalizePlaces_settles (h : Decodable p) : Settles (normalizePlaces p) p := by
  have hhost : Settles (normalizeSession p >>= fun p => normalizeRepos p >>= normalizeSessions) p :=
    (normalizeSession_settles h.usage).bind ((normalizeRepos_settles h).bind (normalizeSessions_settles h))
  rwa [normalizeSession, bind_assoc] at hhost

/-- The coercion throws nowhere but at a log line that is due and cannot print its host. What it
returns can be decoded, keeps every well-formed bucket, is no longer but by what is added on
purpose, and comes back unchanged from another pass, which logs nothing. -/
theorem normalizeUsage_coerces (now : ℤ) (log : CoercionLog) (payload : Json) :
    (unprintable (reporter payload) = false ∨
        now - log.usageCoercionLogAt < USAGE_COERCION_LOG_EVERY_MS →
      ∃ out log', normalizeUsage now log payload = some (out, log')) ∧
    ∀ out log', normalizeUsage now log payload = some (out, log') →
      Coerced payload out ∧ ∀ now' log'', normalizeUsage now' log'' out = some (out, log'') := by
  obtain ⟨out, tally, hrun, hcoerced⟩ := normalizePlaces_ends payload Tally.zero
  have hreporter : reporter out = reporter payload := by
    rw [reporter, hcoerced.kept.others _ (by decide), hcoerced.kept.others _ (by decide), ← reporter]
  have hlog : normalizeUsage now log payload =
      (logUsageCoercion now out tally log).map fun log => (out, log) := by
    rw [normalizeUsage, hrun]
  constructor
  · intro h
    rw [hlog, logUsageCoercion, hreporter]
    split_ifs with hcount hdue hname
    · exact ⟨out, log, rfl⟩
    · exact ⟨out, _, rfl⟩
    · rcases h with h | h
      · rw [h] at hname
        exact nomatch hname
      · exact absurd h hdue
    · exact ⟨out, _, rfl⟩
  · intro out' log' h
    rw [hlog] at h
    obtain ⟨log₁, -, heq⟩ := Option.map_eq_some_iff.mp h
    rw [← (Prod.mk.inj heq).1]
    refine ⟨hcoerced, fun now' log'' => ?_⟩
    rw [normalizeUsage, normalizePlaces_settles hcoerced.ok Tally.zero]
    rfl

/-- A host name that is an object with a `toString` of its own. -/
def unprintableHost : Json := .obj (.ofList [
  (text "device", .obj (.ofList [(text "toString", .str [])])), (text "usage", .bool true)])

def digitRepos : Json := .obj (.ofList [(text "repoUsage", zero)])

/-- A model without a name, and a sub-agent block without two of its windows. -/
def lostFigures : Json :=
  let figures := .obj (.ofList [(text "totals", .obj (.ofList [(text "input", .num (.ofInt 5))]))])
  .obj (.ofList [(text "usage", .obj (.ofList [(text "models", .arr (.ofList [figures])),
    (text "subagent", figures)]))])

/-- The line about the one throws, the other gets longer, and the figures of the third are gone. -/
theorem coercion_throws_and_grows :
    normalizeUsage 60000 { usageCoercionLogAt := 0, usageCoercionSuppressed := 0 } unprintableHost = none ∧
      (normalizeUsage 60000 { usageCoercionLogAt := 0, usageCoercionSuppressed := 0 } digitRepos).map
        (fun p => p.1.chars) = some (digitRepos.chars + 1) ∧
      (normalizeUsage 60000 { usageCoercionLogAt := 0, usageCoercionSuppressed := 0 } lostFigures).map
        (fun p => p.1.field (text "usage")) = some (some (.obj (.ofList [(text "models", .arr .nil)]))) := by
  decide

end Turma.Usage
