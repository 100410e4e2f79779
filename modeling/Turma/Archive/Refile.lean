import Turma.Archive.Order
import Turma.Archive.Steady

/-! One delta of a transcript, as its file, its row and its suspicion see it: what of the chunk is
appended, and whether the cursor is still suspect after it. -/

namespace Turma.Archive

open Turma.Lib Turma.Tenancy List OrdMap

variable {C : Config} {env : Env} {s s' : State} {id p : JsString}

theorem freshEntries_perm {held held' : List (List Json)} (h : held.Perm held') (es : List Json) :
    freshEntries held es = freshEntries held' es := by
  induction es generalizing held held' with
  | nil => rfl
  | cons e es ih =>
    rw [freshEntries, freshEntries, ih (h.erase (entryKey e)), ih h]
    by_cases hmem : entryKey e ∈ held
    · rw [if_pos hmem, if_pos (h.mem_iff.mp hmem)]
    · rw [if_neg hmem, if_neg fun hmem' => hmem (h.mem_iff.mpr hmem')]

/-- Each held entry accounts for its own re-send. -/
theorem freshEntries_append (es new : List Json) (held : List (List Json)) :
    freshEntries (es.map entryKey ++ held) (es ++ new) = freshEntries held new := by
  induction es with
  | nil => rfl
  | cons e es ih =>
    rw [map_cons, cons_append, cons_append, freshEntries,
      if_pos mem_cons_self, erase_cons_head, ih]

theorem freshEntries_sublist (held : List (List Json)) (es : List Json) :
    (freshEntries held es).Sublist es := by
  induction es generalizing held with
  | nil => exact .refl _
  | cons e es ih =>
    rw [freshEntries]
    split
    · exact (ih _).cons _
    · exact (ih _).cons_cons _

theorem freshEntries_eq_self {held : List (List Json)} {es : List Json} :
    freshEntries held es = es ↔ ∀ e ∈ es, entryKey e ∉ held := by
  induction es with
  | nil => simp [freshEntries]
  | cons e es ih =>
    rw [freshEntries]
    split
    · rename_i hmem
      constructor
      · intro h
        have hlen := (freshEntries_sublist (held.erase (entryKey e)) es).length_le
        rw [h, length_cons] at hlen
        exact absurd hlen (Nat.not_succ_le_self _)
      · exact fun h => absurd hmem (h e mem_cons_self)
    · rename_i hnew
      rw [List.cons.injEq, forall_mem_cons]
      exact ⟨fun h => ⟨hnew, ih.mp h.2⟩, fun h => ⟨rfl, ih.mpr h.2⟩⟩

/-- A line that is filed of an entry, with its payloads or without. -/
def FiledAs (l : Line) (e : Json) : Prop :=
  l.record = recordOf e ∨ l.record = shedFilePayloads (recordOf e)

theorem fieldOrNull_record (e : Json) {k : String} (hk : k = "uuid" ∨ k = "role" ∨ k = "ts") :
    fieldOrNull (recordOf e) k = fieldOrNull e k := by
  simp only [recordOf]
  split <;> rcases hk with rfl | rfl | rfl <;> exact orNull_orNull _

theorem entryText_record (e : Json) : entryText (recordOf e) = entryText e := by
  have hfield : (recordOf e).field (JsString.ofString "text") = some (.str (entryText e)) := by
    simp only [recordOf]
    split <;> rfl
  rw [entryText, fieldOrNull, hfield, Option.getD_some, orNull]
  by_cases hnil : entryText e = []
  · rw [hnil]
    rfl
  · rw [if_pos (by simpa [Json.truthy] using hnil)]
    rfl

theorem entryKey_congr {e e' : Json} (huuid : fieldOrNull e "uuid" = fieldOrNull e' "uuid")
    (hrole : fieldOrNull e "role" = fieldOrNull e' "role")
    (hts : fieldOrNull e "ts" = fieldOrNull e' "ts") (htext : entryText e = entryText e') :
    entryKey e = entryKey e' := by
  rw [entryKey, entryKey, huuid, hrole, hts, htext]

theorem entryKey_record (e : Json) : entryKey (recordOf e) = entryKey e :=
  entryKey_congr (fieldOrNull_record e (by simp)) (fieldOrNull_record e (by simp))
    (fieldOrNull_record e (by simp)) (entryText_record e)

theorem entryText_shed (v : Json) : entryText (shedFilePayloads v) = entryText v := by
  rw [entryText, entryText, fieldOrNull_shed v (by decide)]

theorem FiledAs.key {l : Line} {e : Json} (h : FiledAs l e) : entryKey l.record = entryKey e := by
  rcases h with h | h
  · rw [h, entryKey_record]
  · rw [h, ← entryKey_record e]
    exact entryKey_congr (fieldOrNull_shed _ (by decide)) (fieldOrNull_shed _ (by decide))
      (fieldOrNull_shed _ (by decide)) (entryText_shed _)

def Files (lines : List Line) (es : List Json) : Prop := List.Forall₂ FiledAs lines es

theorem Files.keys {lines : List Line} {es : List Json} (h : Files lines es) :
    lines.map (fun l => entryKey l.record) = es.map entryKey := by
  induction h with
  | nil => rfl
  | cons hl _ ih => rw [map_cons, map_cons, hl.key, ih]

/-- What is appended of a list of entries. -/
theorem files_shedList (C : Config) (es : List Json) (id : JsString) : ∀ (shed : Bool) (n : ℕ),
    Files ((shedList C shed n es).1.map fun r => (⟨r, id⟩ : Line)) es ∧
      (shedList C shed n es).2.1 = n + ((shedList C shed n es).1.map lineBytes).sum := by
  induction es with
  | nil => exact fun shed n => ⟨.nil, rfl⟩
  | cons e es ih =>
    intro shed n
    simp only [shedList, map_cons, sum_cons]
    obtain ⟨hfiles, hbytes⟩ := ih (shed || (0 < C.transcriptMax && C.transcriptMax ≤
      n + lineBytes (if shed = true then shedFilePayloads (recordOf e) else recordOf e)))
      (n + lineBytes (if shed = true then shedFilePayloads (recordOf e) else recordOf e))
    refine ⟨.cons ?_ hfiles, ?_⟩
    · cases shed with
      | false => exact .inl rfl
      | true => exact .inr rfl
    · rw [hbytes, add_assoc]

def flagged (s : State) (p : JsString) : Bool :=
  ((s.sidecars.get? p).map Sidecar.cursorUnverified).getD false

def known (s : State) (id : JsString) : ℕ := ((s.index.get id).map Row.archiveBytes).getD 0

def Suspicious (s : State) (id p : JsString) : Prop :=
  (id ∈ s.unverifiedCursors ∨ 0 < s.sizeAt p ∧ flagged s p = true) ∨ known s id < s.sizeAt p

instance (s : State) (id p : JsString) : Decidable (Suspicious s id p) :=
  inferInstanceAs (Decidable (_ ∨ _))

def Tabled (s : State) (id : JsString) : Prop :=
  s.index.mode = .sqlite → ∀ row, s.index.get id = some row →
    ∀ v ∈ row.data.values, bindable v = true

structure SameView (id p : JsString) (s s' : State) : Prop where
  lines : s'.linesAt p = s.linesAt p
  mode : s'.index.mode = s.index.mode
  row : s'.index.get id = s.index.get id
  suspect : id ∈ s'.unverifiedCursors ↔ id ∈ s.unverifiedCursors
  flag : flagged s' p = flagged s p

theorem SameView.size (h : SameView id p s s') : s'.sizeAt p = s.sizeAt p := by
  rw [State.sizeAt, State.sizeAt, h.lines]

theorem SameView.suspicious (h : SameView id p s s') :
    Suspicious s' id p ↔ Suspicious s id p := by
  rw [Suspicious, Suspicious, known, known, h.size, h.row, h.suspect, h.flag]

theorem SameView.tabled (h : SameView id p s s') (ht : Tabled s id) : Tabled s' id := by
  intro hmode row hrow
  exact ht (h.mode.symm.trans hmode) row (h.row.symm.trans hrow)

theorem Checked.rows (h : Checked s s') : s'.index.mode = s.index.mode ∧
    s'.index.rows = s.index.rows ∧ s'.files = s.files ∧ s'.sidecars = s.sidecars := by
  obtain ⟨_, _, _, rfl⟩ := h
  exact ⟨rfl, rfl, rfl, rfl⟩

theorem Checked.get (h : Checked s s') (id : JsString) : s'.index.get id = s.index.get id := by
  obtain ⟨hmode, hrows, -, -⟩ := h.rows
  rw [Index.get, Index.get, hmode, hrows]

def appended (s : State) (id p : JsString) (entries : List Json) : List Json :=
  if Suspicious s id p then
    freshEntries ((s.linesAt p).map fun l => entryKey l.record) entries
  else entries

theorem mem_recallSuspicion :
    id ∈ (recallSuspicion s id p).unverifiedCursors ↔
      id ∈ s.unverifiedCursors ∨ 0 < s.sizeAt p ∧ flagged s p = true := by
  rw [recallSuspicion]
  split
  · rename_i h
    exact ⟨fun _ => .inr h.2, fun _ => mem_cons_self⟩
  · rename_i h
    constructor
    · exact .inl
    · rintro (hmem | hflag)
      · exact hmem
      · by_contra hmem
        exact h ⟨hmem, hflag⟩

theorem checkCursor_spec {entries : List Json} {d : Delta}
    (h : checkCursor s (s.index.get id) id p entries = (s', some d)) :
    d.list = appended s id p entries ∧
      d.archiveBytes = (if Suspicious s id p then s.sizeAt p else known s id) ∧
      (id ∈ s'.unverifiedCursors ↔ Suspicious s id p ∧ appended s id p entries = []) := by
  obtain ⟨-, -, hfiles, -⟩ := (checked_recallSuspicion s id p).rows
  have hlines : (recallSuspicion s id p).linesAt p = s.linesAt p := by
    rw [State.linesAt, State.linesAt, hfiles]
  have hsize : (recallSuspicion s id p).sizeAt p = s.sizeAt p := by
    rw [State.sizeAt, State.sizeAt, hlines]
  have hwas := @mem_recallSuspicion s id p
  simp only [checkCursor, hlines, hsize, decide_eq_true_eq] at h
  have hsus : (id ∈ (recallSuspicion s id p).unverifiedCursors ∨ known s id < s.sizeAt p) ↔
      Suspicious s id p := by rw [hwas, Suspicious]
  change (if id ∈ (recallSuspicion s id p).unverifiedCursors ∨ known s id < s.sizeAt p then _
    else _) = _ at h
  rw [appended]
  by_cases hs : Suspicious s id p
  · rw [if_pos (hsus.mpr hs)] at h
    rw [if_pos hs, if_pos hs]
    split at h
    · cases (congrArg Prod.snd h)
    · rename_i mid hmid
      split at h
      · cases (congrArg Prod.snd h)
      obtain ⟨hstate, hdelta⟩ := Prod.mk.inj h
      cases hdelta
      refine ⟨rfl, rfl, ?_⟩
      rw [← hstate]
      split
      · rename_i hnil
        exact ⟨fun _ => ⟨hs, hnil⟩, fun _ => mem_cons_self⟩
      · rename_i hnil
        constructor
        · intro hmem
          simp at hmem
        · exact fun hno => absurd hno.2 hnil
  · rw [if_neg (fun hsus' => hs (hsus.mp hsus'))] at h
    rw [if_neg hs, if_neg hs]
    obtain ⟨hstate, hdelta⟩ := Prod.mk.inj h
    cases hdelta
    refine ⟨rfl, rfl, ?_⟩
    rw [← hstate]
    constructor
    · exact fun hmem => absurd (hsus.mp (.inl hmem)) hs
    · exact fun hno => absurd hno.1 hs

/-- The row of a chunk is taken by the index. -/
theorem stored_writtenRow {c : Chunk} {endOffset : ℚ} {d : Delta} {pushOrg : JsString}
    (ht : Tabled s c.transcriptId) :
    ∃ row, s.index.mode.stored C.realText
      (writtenRow C env s c ((normalizeMeta c.data).map orNull) pushOrg endOffset d) = some row := by
  cases hmode : s.index.mode with
  | pg => exact ⟨_, rfl⟩
  | sqlite =>
    have hdata : ∀ v ∈ (writtenRow C env s c ((normalizeMeta c.data).map orNull) pushOrg
        endOffset d).data.values, bindable v = true := by
      have hnew := bindable_normalizeMeta c.data
      have hagain : ((normalizeMeta c.data).map orNull).map orNull =
          (normalizeMeta c.data).map orNull := by
        simp only [Meta.map, orNull_orNull]
      rw [hagain] at hnew
      rw [writtenRow]
      unfold chunkRow
      rw [hmode]
      cases hrow : s.index.get c.transcriptId with
      | none => exact hnew
      | some row =>
        have hold := ht hmode row hrow
        intro v hv
        simp only [Meta.values, mem_cons, not_mem_nil, or_false] at hv
        rcases hv with rfl | rfl | rfl | rfl | rfl | rfl | rfl
        · exact hnew _ (by simp [Meta.values])
        · exact hnew _ (by simp [Meta.values])
        · exact hnew _ (by simp [Meta.values])
        · exact hnew _ (by simp [Meta.values])
        · rw [coalesce]
          split
          · exact hold _ (by simp [Meta.values])
          · exact hnew _ (by simp [Meta.values])
        · exact hnew _ (by simp [Meta.values])
        · rw [coalesce]
          split
          · exact hold _ (by simp [Meta.values])
          · exact hnew _ (by simp [Meta.values])
    obtain ⟨data, hdata⟩ := @bindAll_isSome C.realText _ hdata
    exact ⟨_, by rw [Mode.stored, hdata]; rfl⟩

/-- A chunk that is stored files what is new of it, and leaves the cursor suspect only where it was
and nothing was new. -/
theorem storeChunk_view {c : Chunk} {endOffset : ℚ} {reply : ChunkReply}
    (ht : Tabled s c.transcriptId)
    (h : storeChunk C env s (s.index.get c.transcriptId) c ((normalizeMeta c.data).map orNull)
      endOffset p = (s', .ok reply)) :
    (∃ new, s'.linesAt p = s.linesAt p ++ new ∧
      Files new (appended s c.transcriptId p c.entries)) ∧
    (Suspicious s' c.transcriptId p ↔
      Suspicious s c.transcriptId p ∧ appended s c.transcriptId p c.entries = []) ∧
    Tabled s' c.transcriptId := by
  rcases storeChunk_cases C env s (s.index.get c.transcriptId) c
    ((normalizeMeta c.data).map orNull) endOffset p with
    ⟨-, herr⟩ | ⟨s₁, d, ops, blobs, hchecked, hcheck, rfl, -, hok⟩
  · rw [h] at herr
    cases herr
  · obtain ⟨rfl, -⟩ := Prod.mk.inj (h.symm.trans hok)
    obtain ⟨hlist, hbytes, hsuspect⟩ := checkCursor_spec hcheck
    obtain ⟨hmode, hrows, hfiles, hsidecars⟩ := hchecked.rows
    have ht₁ : Tabled s₁ c.transcriptId := fun hm row hrow =>
      ht (hmode.symm.trans hm) row ((hchecked.get _).symm.trans hrow)
    obtain ⟨hfiled, hsum⟩ := files_shedList C d.list c.transcriptId
      (0 < C.transcriptMax && C.transcriptMax ≤ d.archiveBytes) d.archiveBytes
    have hlines : (written C env s₁ c ((normalizeMeta c.data).map orNull) endOffset d ops
        blobs).linesAt d.relPath = s.linesAt d.relPath ++
          (writtenRecords C d).map fun r => (⟨r, c.transcriptId⟩ : Line) := by
      dsimp only [State.linesAt, written, appendLines]
      split
      · rename_i hnil
        rw [hnil, map_nil, append_nil, hfiles]
      · rw [get?_upsert, if_pos rfl, hfiles]
        rfl
    obtain ⟨row, hrow⟩ := @stored_writtenRow C env s₁ c endOffset d
      (c.siteKey.slice metaTextMax) ht₁
    have hstored := stored_eq_some hrow
    have hget : (written C env s₁ c ((normalizeMeta c.data).map orNull) endOffset d ops
        blobs).index.get c.transcriptId = some row := by
      dsimp only [written, Index.get, Index.commitChunk]
      rw [hrow]
      rw [put_rows, put_mode, get?_upsert, if_pos]
      exact hstored.transcriptId.symm
    have hflag : flagged (written C env s₁ c ((normalizeMeta c.data).map orNull) endOffset d ops
        blobs) d.relPath = decide (c.transcriptId ∈ s₁.unverifiedCursors) := by
      dsimp only [flagged, written]
      rw [get?_upsert, if_pos rfl]
      rfl
    refine ⟨⟨_, hlines, hlist ▸ hfiled⟩, ?_, ?_⟩
    · have hknown : known (written C env s₁ c ((normalizeMeta c.data).map orNull) endOffset d ops
          blobs) c.transcriptId = d.archiveBytes + ((writtenRecords C d).map lineBytes).sum := by
        rw [known, hget]
        exact hstored.archiveBytes.trans hsum
      have hsize : (written C env s₁ c ((normalizeMeta c.data).map orNull) endOffset d ops
          blobs).sizeAt d.relPath =
            s.sizeAt d.relPath + ((writtenRecords C d).map lineBytes).sum := by
        rw [State.sizeAt, hlines, State.sizeAt, fileBytes, fileBytes, map_append,
          sum_append, map_map]
        rfl
      have hcaught : ¬known (written C env s₁ c ((normalizeMeta c.data).map orNull) endOffset d ops
          blobs) c.transcriptId < (written C env s₁ c ((normalizeMeta c.data).map orNull) endOffset
            d ops blobs).sizeAt d.relPath := by
        rw [hknown, hsize, hbytes]
        split
        · exact lt_irrefl _
        · rename_i hs
          rw [Suspicious, not_or] at hs
          omega
      rw [Suspicious, hflag, or_iff_left hcaught, decide_eq_true_eq]
      change (c.transcriptId ∈ s₁.unverifiedCursors ∨ _ ∧ c.transcriptId ∈ s₁.unverifiedCursors) ↔ _
      rw [or_iff_left_of_imp And.right, hsuspect]
    · intro hm row' hrow'
      obtain rfl := Option.some.inj (hget.symm.trans hrow')
      have hm₁ : s₁.index.mode = .sqlite := (commitChunk_rows _ _ _ _).1.symm.trans hm
      rw [hm₁] at hrow
      exact bindable_stored hrow

end Turma.Archive
