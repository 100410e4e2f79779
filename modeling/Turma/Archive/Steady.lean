import Turma.Archive.Placed

/-! A transcript keeps its file: whatever the calls, as long as no rebuild of the index meets a
transcript that has no file. -/

namespace Turma.Archive

open Turma.Lib Turma.Tenancy Layout List Option OrdMap JsString

structure Layout.Binds (L : Layout) : Prop where
  lines : L.mode = .sqlite → ∀ {p lines}, L.files.get? p = some lines →
    ∀ l ∈ lines, (searchEntry l.record).bindable = true
  sidecars : L.mode = .sqlite → ∀ {p sc}, L.sidecars.get? p = some sc →
    ∀ v ∈ (sc.data.map orNull).values, bindable v = true

variable (v : Json)

theorem orNull_orNull : orNull (orNull v) = orNull v := by
  by_cases h : v.truthy = true
  · simp only [orNull, if_pos h]
  · simp only [orNull, if_neg h]
    rfl

theorem bindable_orNull {v : Json} (h : bindable v = true) : bindable (orNull v) = true := by
  rw [orNull]
  split
  · exact h
  · rfl

theorem fieldOrNull_shed {k : String} (hk : k ≠ "blocks") :
    fieldOrNull (shedFilePayloads v) k = fieldOrNull v k := by
  have hk' : ofString k ≠ ofString "blocks" := by
    intro h
    apply hk
    have h' := map_injective_iff.mpr (fun a b hab => CodePoint.scalar.inj hab) h
    exact String.toList_injective h'
  cases v with
  | obj ms =>
    simp only [fieldOrNull, shedFilePayloads, mapElements, Json.field, JsonMembers.toList_ofList]
    congr 2
    induction ms.toList with
    | nil => rfl
    | cons m ms ih =>
      by_cases hm : m.1 = ofString "blocks"
      · have hne : m.1 ≠ ofString k := fun h => hk' (h.symm.trans hm)
        simp only [map_cons, OrdMap.lookup, if_pos hm, if_neg hne, ih]
      · simp only [map_cons, OrdMap.lookup, if_neg hm, ih]
  | _ => rfl

variable {C : Config}

theorem bindable_metaText : bindable (metaText v) = true := by
  cases v <;> simp only [metaText] <;> first | rfl | (split <;> rfl)

theorem bindable_normalizeMeta (data v : Json)
    (h : v ∈ (((normalizeMeta data).map orNull).map orNull).values) : bindable v = true := by
  have hone : ∀ w, bindable (orNull (orNull (metaText w))) = true := fun w =>
    bindable_orNull (bindable_orNull (bindable_metaText w))
  simp only [Meta.values, Meta.map, normalizeMeta, mem_cons, not_mem_nil, or_false] at h
  rcases h with rfl | rfl | rfl | rfl | rfl | rfl | rfl <;> exact hone _

theorem binds_of_within {L L' : Layout} (h : L.Binds) (hmode : L'.mode = L.mode)
    (hfiles : ∀ {p lines}, L'.files.get? p = some lines → L.files.get? p = some lines)
    (hsidecars : ∀ {p sc}, L'.sidecars.get? p = some sc →
      ∃ sc', L.sidecars.get? p = some sc' ∧ sc'.data = sc.data) : L'.Binds := by
  refine ⟨fun hm p lines hl => h.lines (hmode ▸ hm) (hfiles hl), fun hm p sc hsc => ?_⟩
  obtain ⟨sc', hget, hdata⟩ := hsidecars hsc
  rw [← hdata]
  exact h.sidecars (hmode ▸ hm) hget

variable {s : State}

variable {env : Env} {c : Chunk}

/-- A file that a rebuild leaves out because its tenant is purged. -/
def Hidden (env : Env) (s : State) (p : JsString) : Prop :=
  inPurged env p = true ∨
    ∃ sc, s.sidecars.get? p = some sc ∧ isTenantPurged env (tenantOfHost sc.host) = true

theorem not_hidden (h : ∀ t, isTenantPurged env t = false) (s : State) (p : JsString) :
    ¬ Hidden env s p := by
  rintro (hin | ⟨sc, -, hpurged⟩)
  · rw [inPurged, h] at hin
    cases hin
  · rw [h] at hpurged
    cases hpurged

theorem bindAll_isSome {f : JsNumber → JsString} {m : Meta}
    (h : ∀ v ∈ m.values, bindable v = true) : ∃ m', bindAll f m = some m' := by
  have hone : ∀ v ∈ m.values, ∃ w, bind f v = some w := by
    intro v hv
    have hb := h v hv
    cases v <;> first | exact ⟨_, rfl⟩ | simp [bindable] at hb
  simp only [Meta.values, mem_cons, not_mem_nil, or_false, forall_eq_or_imp,
    forall_eq] at hone
  obtain ⟨⟨w₁, h₁⟩, ⟨w₂, h₂⟩, ⟨w₃, h₃⟩, ⟨w₄, h₄⟩, ⟨w₅, h₅⟩, ⟨w₆, h₆⟩, ⟨w₇, h₇⟩⟩ := hone
  exact ⟨_, by simp [bindAll, h₁, h₂, h₃, h₄, h₅, h₆, h₇]; rfl⟩

/-- One file that is not left out gets its transcript filed. -/
theorem rebuildFile_filed {p : JsString} {sc : Sidecar}
    (h : s.layout.Binds) (hmode : s.index.mode = .sqlite) (hsc : s.sidecars.get? p = some sc)
    (hid : NameId sc.transcriptId) (hp : Canonical p)
    (hlive : isTenantPurged env (tenantOfHost sc.host) = false) :
    (rebuildFile C env s p).2 = true ∧ ∀ id,
      (rebuildFile C env s p).1.layout.placement.filed id =
        if id = sc.transcriptId then some p else s.layout.placement.filed id := by
  have hbinds : ((s.linesAt p).map fun l => searchEntry l.record).all SearchEntry.bindable = true := by
    rw [List.all_map, List.all_eq_true]
    intro l hl
    rw [State.linesAt] at hl
    cases hget : s.files.get? p with
    | none =>
      rw [hget] at hl
      cases hl
    | some lines =>
      rw [hget] at hl
      exact h.lines hmode hget l hl
  obtain ⟨data, hdata⟩ := bindAll_isSome (f := C.realText) (h.sidecars hmode hsc)
  have hrow : ∃ row, s.index.mode.stored C.realText (rebuiltRow env s p sc) = some row := by
    rw [hmode]
    simp only [Mode.stored, rebuiltRow, hdata, map_some]
    exact ⟨_, rfl⟩
  obtain ⟨row, hrow⟩ := hrow
  have hs := stored_eq_some hrow
  have hrowId : row.transcriptId = sc.transcriptId := hs.transcriptId.trans (hid.text _)
  have hrowPath : row.filePath = some p := by
    rw [hs.filePath]
    exact congrArg some (hp.text _)
  have hfile : rebuildFile C env s p = ({ s with
      unverifiedCursors := rebuiltSuspicion s p sc
      index := { s.index with
        fts := s.index.fts ++ ((s.linesAt p).map fun l => searchEntry l.record).map fun e =>
          (sc.transcriptId.toWellFormed, e)
        rows := (s.index.rows.erase row.transcriptId).upsert row.transcriptId fun _ => row } },
      true) := by
    rw [rebuildFile, hsc]
    dsimp only
    rw [if_neg (by simp [hid.ne_nil, hlive]), rebuildEntry, if_pos hbinds, hrow]
    rfl
  rw [hfile]
  refine ⟨rfl, fun id => ?_⟩
  dsimp only [State.layout, placement]
  rw [get?_upsert, get?_erase, hrowId]
  split
  · exact hrowPath
  · rfl

/-- Over a list of files, a transcript gets the file that is the only one of its own. -/
theorem rebuildFiles_filed {s₀ : State}
    (hnames : ∀ {i q}, s₀.layout.placement.signed q = some i → NameId i ∧ Canonical q)
    (hbinds : s₀.layout.Binds) (hmode : s₀.index.mode = .sqlite) {id p : JsString}
    (hsigned : s₀.layout.placement.signed p = some id) (hshown : ¬ Hidden env s₀ p) :
    ∀ (ps : List JsString) {s : State}, Reindexed s₀ s →
      (∀ p' ∈ ps, s₀.layout.placement.signed p' = some id → Hidden env s₀ p' ∨ p' = p) →
      (∀ p' ∈ ps, inPurged env p' = false) →
      p ∈ ps ∨ s.layout.placement.filed id = some p →
      (rebuildFiles C env ps s).layout.placement.filed id = some p := by
  intro ps
  induction ps with
  | nil =>
    intro s _ _ _ hp
    exact hp.resolve_left (by simp)
  | cons q ps ih =>
    intro s hre hothers hlive hp
    simp only [rebuildFiles]
    have hothers' := fun p' (hp' : p' ∈ ps) => hothers p' (.tail _ hp')
    have hlive' := fun p' (hp' : p' ∈ ps) => hlive p' (.tail _ hp')
    have hre' := hre.trans (rebuildFile_reindexed C env s q)
    have hsame : s.sidecars = s₀.sidecars ∧ s.layout.Binds ∧ s.index.mode = .sqlite := by
      obtain ⟨_, _, _, rfl⟩ := hre
      exact ⟨rfl, binds_of_within hbinds rfl (fun hl => hl) fun hsc => ⟨_, hsc, rfl⟩, hmode⟩
    -- the file itself is not skipped
    have hskip : (rebuildFile C env s q) = (s, true) → q ≠ p → p ∈ ps ∨
        (rebuildFile C env s q).1.layout.placement.filed id = some p := by
      intro heq hqp
      rw [heq]
      rcases hp with hp | hp
      · exact .inl ((mem_cons.mp hp).resolve_left fun h => hqp h.symm)
      · exact .inr hp
    cases hsc : s.sidecars.get? q with
    | none =>
      have heq : rebuildFile C env s q = (s, true) := by rw [rebuildFile, hsc]
      have hqp : q ≠ p := by
        rintro rfl
        obtain ⟨sc, hget, -⟩ := map_eq_some_iff.mp hsigned
        rw [hsame.1] at hsc
        exact absurd (hget.symm.trans hsc) (by simp)
      rw [if_pos (by rw [heq])]
      exact ih hre' hothers' hlive' (hskip heq hqp)
    | some sc =>
      have hsignedq : s₀.layout.placement.signed q = some sc.transcriptId := by
        change (s₀.sidecars.get? q).map _ = _
        rw [← hsame.1, hsc]
        rfl
      obtain ⟨hidq, hcanon⟩ := hnames hsignedq
      cases hpurged : isTenantPurged env (tenantOfHost sc.host) with
      | true =>
        have heq : rebuildFile C env s q = (s, true) := by
          rw [rebuildFile, hsc]
          dsimp only
          rw [if_pos (.inr hpurged)]
        have hqp : q ≠ p := by
          rintro rfl
          exact hshown (.inr ⟨sc, hsame.1 ▸ hsc, hpurged⟩)
        rw [if_pos (by rw [heq])]
        exact ih hre' hothers' hlive' (hskip heq hqp)
      | false =>
        obtain ⟨hgo, hfiled⟩ := rebuildFile_filed (C := C) hsame.2.1 hsame.2.2 hsc hidq hcanon hpurged
        rw [if_pos hgo]
        refine ih hre' hothers' hlive' ?_
        by_cases hown : id = sc.transcriptId
        · have hq : q = p := by
            refine (hothers q (by simp) (hown ▸ hsignedq)).resolve_left ?_
            rintro (hin | ⟨sc', hsc', hpurged'⟩)
            · exact absurd (hlive q (by simp)) (by simp [hin])
            · rw [← hsame.1, hsc] at hsc'
              exact absurd (some.inj hsc' ▸ hpurged') (by simp [hpurged])
          right
          rw [hfiled, if_pos hown, hq]
        · rcases hp with hp | hp
          · rcases mem_cons.mp hp with rfl | hp
            · exact absurd (some.inj (hsigned.symm.trans hsignedq)) hown
            · exact .inl hp
          · right
            rw [hfiled, if_neg hown]
            exact hp

theorem mem_walkJsonl {p : JsString} : p ∈ walkJsonl env s ↔
    (∃ lines, s.files.get? p = some lines) ∧ inPurged env p = false := by
  rw [walkJsonl, mem_filter, OrdMap.mem_keys, Bool.not_eq_true']

end Turma.Archive
