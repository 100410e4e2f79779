import Turma.Archive.Calls

/-! What each call comes to: what a push has to meet before anything of it is written, which rows
a manifest adds, and what a change of owner leaves. -/

namespace Turma.Archive

open Turma.Lib Turma.Tenancy Option

/-- The gates of `ingestChunk` before its ceilings. -/
structure Gated (env : Env) (s : State) (c : Chunk) : Prop where
  org : orgGate (s.index.get c.transcriptId) c.host (c.siteKey.slice metaTextMax) = true
  tenant : tenantGate (s.index.get c.transcriptId) c.host = true
  live : isTenantPurged env (tenantOfHostKey c.host) = false
  clear : renderedBlocked env s (s.index.get c.transcriptId) = false

instance (env : Env) (s : State) (c : Chunk) : Decidable (Gated env s c) :=
  decidable_of_iff (orgGate (s.index.get c.transcriptId) c.host (c.siteKey.slice metaTextMax) = true ∧
      tenantGate (s.index.get c.transcriptId) c.host = true ∧
      isTenantPurged env (tenantOfHostKey c.host) = false ∧
      renderedBlocked env s (s.index.get c.transcriptId) = false)
    ⟨fun h => ⟨h.1, h.2.1, h.2.2.1, h.2.2.2⟩, fun h => ⟨h.org, h.tenant, h.live, h.clear⟩⟩

abbrev measured (C : Config) (env : Env) (host : JsString) (s : State) : State :=
  totalForCeiling C env (tenantOfHostKey host) s

/-- A chunk that is written, to `relPath`, up to `endOffset`. -/
structure Admitted (C : Config) (env : Env) (s : State) (c : Chunk) (relPath : JsString)
    (endOffset : ℚ) : Prop extends Gated env s c where
  room : (ceilingRefuses C env (tenantOfHostKey c.host) s).2 = false
  start : c.startOffset = some (cursorOf (s.index.get c.transcriptId))
  stop : c.endOffset = some endOffset
  forward : cursorOf (s.index.get c.transcriptId) ≤ endOffset
  bounded : endOffset ≤ maxTranscriptBytes
  placed : placeOf C env (measured C env c.host s) (s.index.get c.transcriptId) c
    ((normalizeMeta c.data).map orNull) = some relPath

variable (C : Config) (env : Env)

@[simp] theorem ceilingRefuses_fst (tenant : JsString) (s : State) :
    (ceilingRefuses C env tenant s).1 = totalForCeiling C env tenant s := rfl

variable (s : State) (x : Index) (row : Row) (c : Chunk)

/-- Every way that a chunk goes. -/
theorem ingestChunk_cases :
    (¬ Gated env s c ∧ ingestChunk C env s c =
      (s, .ok ⟨cursorOf (s.index.get c.transcriptId), false, false⟩)) ∨
    (∃ full, Gated env s c ∧ ingestChunk C env s c =
      (measured C env c.host s, .ok ⟨cursorOf (s.index.get c.transcriptId), full, false⟩)) ∨
    ∃ relPath endOffset, Admitted C env s c relPath endOffset ∧
      ingestChunk C env s c = storeChunk C env (measured C env c.host s)
        (s.index.get c.transcriptId) c ((normalizeMeta c.data).map orNull) endOffset relPath := by
  generalize hr : ingestChunk C env s c = r
  rw [ingestChunk] at hr
  split at hr
  · rename_i h
    exact .inl ⟨fun hg => Bool.noConfusion (hg.org.symm.trans h), hr.symm⟩
  rename_i horg
  split at hr
  · rename_i h
    exact .inl ⟨fun hg => Bool.noConfusion (hg.tenant.symm.trans h), hr.symm⟩
  rename_i htenant
  split at hr
  · rename_i h
    exact .inl ⟨fun hg => Bool.noConfusion (hg.live.symm.trans h), hr.symm⟩
  rename_i hlive
  split at hr
  · rename_i h
    exact .inl ⟨fun hg => Bool.noConfusion (hg.clear.symm.trans h), hr.symm⟩
  rename_i hclear
  have hgated : Gated env s c := ⟨eq_true_of_ne_false horg, eq_true_of_ne_false htenant,
    eq_false_of_ne_true hlive, eq_false_of_ne_true hclear⟩
  right
  dsimp only at hr
  split at hr
  · exact .inl ⟨true, hgated, hr.symm⟩
  rename_i hroom
  split at hr
  · exact .inl ⟨false, hgated, hr.symm⟩
  rename_i hstart
  split at hr
  · exact .inl ⟨false, hgated, hr.symm⟩
  rename_i endOffset hstop
  split at hr
  · exact .inl ⟨false, hgated, hr.symm⟩
  rename_i hbounds
  rw [not_or, not_lt, not_lt] at hbounds
  split at hr
  · exact .inl ⟨false, hgated, hr.symm⟩
  rename_i relPath hplaced
  refine .inr ⟨relPath, endOffset, ⟨hgated, eq_false_of_ne_true hroom, not_not.mp hstart, hstop,
    hbounds.1, hbounds.2, hplaced⟩, hr.symm⟩

@[simp] theorem appendLines_index (p : JsString) (records : List Json) :
    (appendLines s c p records).index = s.index := by
  rw [appendLines]
  split <;> rfl

theorem mirrorSession_eq (id : JsString) :
    ∃ ops, s.mirrorSession id = { s with indexOps := ops } := by
  rw [State.mirrorSession]
  split <;> exact ⟨_, rfl⟩

theorem mirror_eq (entries : List SearchEntry) (op : IndexOp) :
    ∃ ops, s.mirror entries op = { s with indexOps := ops } := by
  rw [State.mirror]
  split <;> exact ⟨_, rfl⟩

theorem mirrorEntries_eq (id : JsString) (list : List Json) (n : ℕ) :
    ∃ ops, mirrorEntries s id list n = { s with indexOps := ops } := by
  rw [mirrorEntries]
  split
  · exact ⟨_, rfl⟩
  · exact mirror_eq ..

theorem appendLines_eq (p : JsString) (records : List Json) :
    ∃ blobs, appendLines s c p records = { s with
      files := (appendLines s c p records).files
      writtenSinceWalk := (appendLines s c p records).writtenSinceWalk
      tenantWritten := (appendLines s c p records).tenantWritten
      blobOps := blobs } := by
  rw [appendLines]
  split <;> exact ⟨_, rfl⟩

/-- What is filed of a delta, with the bytes of the file after it. -/
def shedRecords (C : Config) (d : Delta) : List Json × ℕ × Bool :=
  shedList C (0 < C.transcriptMax && C.transcriptMax ≤ d.archiveBytes) d.archiveBytes d.list

def writtenRecords (C : Config) (d : Delta) : List Json := (shedRecords C d).1

def writtenRow (C : Config) (env : Env) (s : State) (c : Chunk) (m : Meta) (pushOrg : JsString)
    (endOffset : ℚ) (d : Delta) : Row :=
  chunkRow s.index.mode (s.index.get c.transcriptId) c m pushOrg d.relPath
    (d.prevCount + d.list.length) endOffset (shedRecords C d).2.1 env.nowIso

def Throws (s : State) (d : Delta) : Prop :=
  Json.null ∈ d.list ∨ d.list.any (fun e => !stringable (fieldOrNull e "text")) = true ∨
    (s.index.mode = .sqlite ∧ d.list.any (fun e => !(searchEntry e).bindable) = true)

/-- A delta is written as a whole, or not at all. -/
theorem writeChunk_cases (m : Meta)
    (pushOrg : JsString) (endOffset : ℚ) (d : Delta) :
    (Throws s d ∧ writeChunk C env s c m pushOrg endOffset d = (s, .error ())) ∨
    (¬ Throws s d ∧ ∃ ops blobs, writeChunk C env s c m pushOrg endOffset d =
      ({ s with
        index := s.index.commitChunk C (writtenRow C env s c m pushOrg endOffset d) d.list
        files := (appendLines s c d.relPath (writtenRecords C d)).files
        sidecars := s.sidecars.upsert d.relPath fun _ =>
          chunkSidecar s (writtenRow C env s c m pushOrg endOffset d) m
        writtenSinceWalk := (appendLines s c d.relPath (writtenRecords C d)).writtenSinceWalk
        tenantWritten := (appendLines s c d.relPath (writtenRecords C d)).tenantWritten
        indexOps := ops
        blobOps := blobs }, .ok ⟨endOffset, false, (shedRecords C d).2.2⟩)) := by
  generalize hr : writeChunk C env s c m pushOrg endOffset d = r
  simp only [writeChunk] at hr
  split at hr
  · rename_i hthrows
    exact .inl ⟨hthrows, hr.symm⟩
  · rename_i hthrows
    refine .inr ⟨hthrows, ?_⟩
    obtain ⟨blobs, hlines⟩ := appendLines_eq s c d.relPath (writtenRecords C d)
    generalize hs₁ : State.writeSidecar
      { appendLines s c d.relPath (writtenRecords C d) with
        index := (appendLines s c d.relPath (writtenRecords C d)).index.commitChunk C
          (writtenRow C env s c m pushOrg endOffset d) d.list } d.relPath
      (chunkSidecar s (writtenRow C env s c m pushOrg endOffset d) m) false = s₁
    obtain ⟨ops, hops⟩ := mirrorSession_eq s₁ c.transcriptId
    obtain ⟨ops', hops'⟩ := mirrorEntries_eq (s₁.mirrorSession c.transcriptId) c.transcriptId
      d.list d.prevCount
    refine ⟨ops', s₁.blobOps, ?_⟩
    rw [← hr]
    refine Prod.ext ?_ rfl
    change mirrorEntries (State.mirrorSession (State.writeSidecar
      { appendLines s c d.relPath (writtenRecords C d) with
        index := (appendLines s c d.relPath (writtenRecords C d)).index.commitChunk C
          (writtenRow C env s c m pushOrg endOffset d) d.list } d.relPath
      (chunkSidecar s (writtenRow C env s c m pushOrg endOffset d) m) false)
      c.transcriptId) c.transcriptId d.list d.prevCount = _
    rw [hs₁, hops', hops, ← hs₁, hlines]
    rfl

/-- A state that differs in what the check of a cursor changes. -/
def Checked (s s' : State) : Prop :=
  ∃ fts suspects ops, s' = { s with
    index := { s.index with fts := fts }, unverifiedCursors := suspects, indexOps := ops }

theorem Checked.trans {s s' s'' : State} (h : Checked s s') (h' : Checked s' s'') :
    Checked s s'' := by
  obtain ⟨_, _, _, rfl⟩ := h
  obtain ⟨_, _, _, rfl⟩ := h'
  exact ⟨_, _, _, rfl⟩

theorem checked_recallSuspicion (id p : JsString) :
    Checked s (recallSuspicion s id p) := by
  rw [recallSuspicion]
  split <;> exact ⟨_, _, _, rfl⟩

theorem checked_reindexHeld {s s' : State} {id : JsString} {lines : List Line} {trim : Bool}
    (h : reindexHeld s id lines trim = some s') : Checked s s' := by
  simp only [reindexHeld] at h
  obtain ⟨ops, hops⟩ := mirror_eq s (lines.map fun l => searchEntry l.record)
    (.seat id ((lines.map fun l => searchEntry l.record).map mirrorEntry) trim)
  rw [hops] at h
  split at h
  · exact ⟨_, _, _, (some.inj h).symm⟩
  · split at h
    · exact ⟨_, _, _, (some.inj h).symm⟩
    · cases h

theorem checked_checkCursor (row : Option Row) (id p : JsString)
    (entries : List Json) : Checked s (checkCursor s row id p entries).1 := by
  have hrecall := checked_recallSuspicion s id p
  simp only [checkCursor]
  split
  · split
    · exact hrecall
    · rename_i s' hs'
      refine Checked.trans (show Checked s s' from ?_) (by split <;> exact ⟨_, _, _, rfl⟩)
      split at hs'
      · rw [← some.inj hs']
        exact hrecall
      · exact hrecall.trans (checked_reindexHeld hs')
  · exact hrecall

theorem checkCursor_relPath {s s' : State} {row : Option Row} {id p : JsString}
    {entries : List Json} {d : Delta} (h : checkCursor s row id p entries = (s', some d)) :
    d.relPath = p := by
  simp only [checkCursor] at h
  split at h
  · split at h
    · exact absurd (congrArg Prod.snd h) (by simp)
    · split at h
      · exact absurd (congrArg Prod.snd h) (by simp)
      · rw [← some.inj (congrArg Prod.snd h)]
  · rw [← some.inj (congrArg Prod.snd h)]

/-- The state that a delta leaves, but for what is queued. -/
def written (C : Config) (env : Env) (s : State) (c : Chunk) (m : Meta) (endOffset : ℚ) (d : Delta)
    (ops : List IndexOp) (blobs : List BlobOp) : State :=
  { s with
    index := s.index.commitChunk C
      (writtenRow C env s c m (c.siteKey.slice metaTextMax) endOffset d) d.list
    files := (appendLines s c d.relPath (writtenRecords C d)).files
    sidecars := s.sidecars.upsert d.relPath fun _ =>
      chunkSidecar s (writtenRow C env s c m (c.siteKey.slice metaTextMax) endOffset d) m
    writtenSinceWalk := (appendLines s c d.relPath (writtenRecords C d)).writtenSinceWalk
    tenantWritten := (appendLines s c d.relPath (writtenRecords C d)).tenantWritten
    indexOps := ops
    blobOps := blobs }

/-- A placed chunk is written as a whole, or throws before anything is written. -/
theorem storeChunk_cases (row : Option Row) (c : Chunk)
    (m : Meta) (endOffset : ℚ) (relPath : JsString) :
    (Checked s (storeChunk C env s row c m endOffset relPath).1 ∧
      (storeChunk C env s row c m endOffset relPath).2 = .error ()) ∨
    ∃ s' d ops blobs, Checked s s' ∧
      checkCursor s row c.transcriptId relPath c.entries = (s', some d) ∧ d.relPath = relPath ∧
      ¬ Throws s' d ∧ storeChunk C env s row c m endOffset relPath =
        (written C env s' c m endOffset d ops blobs, .ok ⟨endOffset, false, (shedRecords C d).2.2⟩) := by
  have hchecked := checked_checkCursor s row c.transcriptId relPath c.entries
  rw [storeChunk]
  split
  · rename_i s' hcheck
    rw [hcheck] at hchecked
    exact .inl ⟨hchecked, rfl⟩
  · rename_i s' d hcheck
    rw [hcheck] at hchecked
    rcases writeChunk_cases C env s' c m (c.siteKey.slice metaTextMax) endOffset d with
      ⟨-, heq⟩ | ⟨hthrows, ops, blobs, heq⟩
    · exact .inl (by rw [heq]; exact ⟨hchecked, rfl⟩)
    · exact .inr ⟨s', d, ops, blobs, hchecked, hcheck, checkCursor_relPath hcheck, hthrows, heq⟩

/-- A raw push by the host of its row, for a file that can be named and is not still in the
bucket. -/
structure RawOpen (env : Env) (s : State) (p : RawPush) (row : Row) (relPath path : JsString) :
    Prop where
  known : s.index.get p.transcriptId = some row
  filed : row.filePath = some relPath
  named : row.host ≠ some []
  owner : row.host = some p.host
  written : rawFilePath relPath p.transcriptId p.rel = some path
  clear : env.rawPending (relPath, p.transcriptId, p.rel) = false

/-- The checks of `ingestRaw` before its ceilings. -/
structure RawGated (env : Env) (s : State) (p : RawPush) (row : Row) (relPath path : JsString) :
    Prop extends RawOpen env s p row relPath path where
  start : p.start = some (s.rawSize (relPath, p.transcriptId, p.rel) : ℚ)
  some' : p.buf ≠ []
  bounded : s.rawSize (relPath, p.transcriptId, p.rel) + p.buf.length ≤ maxTranscriptBytes

structure RawAdmitted (C : Config) (env : Env) (s : State) (p : RawPush) (row : Row)
    (relPath path : JsString) : Prop extends RawGated env s p row relPath path where
  room : (ceilingRefuses C env (tenantOfHostKey p.host) s).2 = false
  budget : ¬ (0 < C.rawTranscriptMax ∧
    C.rawTranscriptMax ≤ (measured C env p.host s).rawLayerBytes env relPath)

theorem writeRaw_eq (k : RawKey) (path : JsString)
    (buf : List UInt8) (n : ℕ) :
    ∃ ops, writeRaw env s row k path buf n = { s.charge (tenantOfHost row.host) buf.length with
      index := s.index.countRaw row k.2.1 (n + buf.length) env.nowIso
      raw := s.raw.upsert k fun old => old.getD [] ++ buf
      blobOps := s.blobOps ++ [.write path]
      indexOps := ops } := by
  obtain ⟨ops, hops⟩ := mirrorSession_eq { s.charge (tenantOfHost row.host) buf.length with
    index := s.index.countRaw row k.2.1 (n + buf.length) env.nowIso
    raw := s.raw.upsert k fun old => old.getD [] ++ buf
    blobOps := s.blobOps ++ [.write path] } k.2.1
  exact ⟨ops, hops⟩

structure StoredAs (mode : Mode) (row row' : Row) : Prop where
  transcriptId : row'.transcriptId = mode.text row.transcriptId
  host : row'.host = row.host.map mode.text
  siteKey : row'.siteKey = row.siteKey.map mode.text
  filePath : row'.filePath = row.filePath.map mode.text
  msgCount : row'.msgCount = row.msgCount
  bytesStored : row'.bytesStored = row.bytesStored
  archiveBytes : row'.archiveBytes = row.archiveBytes
  rawBytes : row'.rawBytes = row.rawBytes

theorem stored_eq_some {mode : Mode} {f : JsNumber → JsString} {row row' : Row}
    (h : mode.stored f row = some row') : StoredAs mode row row' := by
  cases mode with
  | pg =>
    obtain rfl : row = row' := some.inj h
    have hid : ∀ o : Option JsString, o = o.map (Mode.text .pg) := fun o => by
      cases o <;> rfl
    exact ⟨rfl, hid _, hid _, hid _, rfl, rfl, rfl, rfl⟩
  | sqlite =>
    obtain ⟨data, -, rfl⟩ := map_eq_some_iff.mp h
    exact ⟨rfl, rfl, rfl, rfl, rfl, rfl, rfl, rfl⟩

@[simp] theorem put_mode : (x.put row).mode = x.mode := by
  rw [Index.put]
  split <;> rfl

@[simp] theorem put_rows :
    (x.put row).rows = x.rows.upsert row.transcriptId fun _ => row := by
  rw [Index.put]
  split <;> rfl

theorem put_filePathIndex (hmode : x.mode = .pg) (p : JsString) :
    (x.put row).filePathIndex.get? p =
      if row.filePath = some p then some row.transcriptId else x.filePathIndex.get? p := by
  rw [Index.put, hmode]
  cases hrow : row.filePath with
  | none => simp
  | some q =>
    rw [OrdMap.get?_upsert]
    by_cases hpq : p = q
    · simp [hpq]
    · have hqp : q ≠ p := fun h => hpq h.symm
      simp [hpq, hqp]

/-- A committed row stands under its transcript, as the index holds it. -/
theorem commitChunk_rows (list : List Json) :
    (x.commitChunk C row list).mode = x.mode ∧
    ((x.commitChunk C row list).rows = x.rows ∧
        (x.commitChunk C row list).filePathIndex = x.filePathIndex ∨
      ∃ row', StoredAs x.mode row row' ∧
        (x.commitChunk C row list).rows = x.rows.upsert row'.transcriptId (fun _ => row') ∧
        (x.commitChunk C row list).filePathIndex = (x.put row').filePathIndex) := by
  rw [Index.commitChunk]
  split
  · exact ⟨rfl, .inl ⟨rfl, rfl⟩⟩
  · rename_i row' hstored
    exact ⟨put_mode _ _, .inr ⟨row', stored_eq_some hstored, put_rows _ _, rfl⟩⟩

/-- An index with new placeholders: rows under keys that had none, without a file. -/
structure Adds (x x' : Index) : Prop where
  mode : x'.mode = x.mode
  filePathIndex : x'.filePathIndex = x.filePathIndex
  fts : x'.fts = x.fts
  kept : ∀ {k r}, x.rows.get? k = some r → x'.rows.get? k = some r
  added : ∀ {k r}, x'.rows.get? k = some r → x.rows.get? k = some r ∨
    x.rows.get? k = none ∧ r.transcriptId = k ∧ r.filePath = none ∧ r.bytesStored = 0 ∧
      r.archiveBytes = 0 ∧ r.rawBytes = 0

theorem Adds.refl : Adds x x := ⟨rfl, rfl, rfl, fun h => h, fun h => .inl h⟩

theorem Adds.trans {x x' x'' : Index} (h : Adds x x') (h' : Adds x' x'') : Adds x x'' where
  mode := h'.mode.trans h.mode
  filePathIndex := h'.filePathIndex.trans h.filePathIndex
  fts := h'.fts.trans h.fts
  kept hr := h'.kept (h.kept hr)
  added {k r} hr := by
    rcases h'.added hr with hr | ⟨hnone, hrest⟩
    · exact h.added hr
    · refine .inr ⟨?_, hrest⟩
      cases hx : x.rows.get? k with
      | none => rfl
      | some r' => exact absurd ((h.kept hx).symm.trans hnone) (by simp)

variable {k k' : Cursors}

structure Moved (mode : Mode) (row moved : Row) (host siteKey : Option JsString) : Prop where
  transcriptId : moved.transcriptId = mode.text row.transcriptId
  host : moved.host = host.map mode.text
  siteKey : moved.siteKey = siteKey.map mode.text
  filePath : moved.filePath = row.filePath.map mode.text
  msgCount : moved.msgCount = row.msgCount
  bytesStored : moved.bytesStored = row.bytesStored
  archiveBytes : moved.archiveBytes = row.archiveBytes
  rawBytes : moved.rawBytes = row.rawBytes

/-- What a change of owner leaves: the row moved, and its sidecar with it where there is one. -/
theorem moveOwner_cases (id : JsString)
    (host siteKey : Option JsString) :
    moveOwner C env s row id host siteKey = s ∨
    ∃ moved blobOps indexOps, Moved s.index.mode row moved host siteKey ∧
      moveOwner C env s row id host siteKey =
        { s with
          index := s.index.put moved
          sidecars := match row.filePath.bind fun p => (s.sidecars.get? p).map fun sc => (p, sc) with
            | some (p, sc) => s.sidecars.upsert p fun _ => { sc with siteKey := siteKey, host := host }
            | none => s.sidecars
          blobOps := blobOps
          indexOps := indexOps } := by
  rw [moveOwner]
  split
  · exact .inl rfl
  · rename_i moved hstored
    have hs := stored_eq_some hstored
    have hmoved : Moved s.index.mode row moved host siteKey := ⟨hs.transcriptId, hs.host, hs.siteKey,
      hs.filePath, hs.msgCount, hs.bytesStored, hs.archiveBytes, hs.rawBytes⟩
    refine .inr ⟨moved, ?_⟩
    cases hsc : row.filePath.bind fun p => (s.sidecars.get? p).map fun sc => (p, sc) with
    | none =>
      obtain ⟨ops, hops⟩ := mirrorSession_eq { s with index := s.index.put moved } id
      refine ⟨s.blobOps, ops, hmoved, ?_⟩
      simp only [hsc]
      exact hops
    | some e =>
      obtain ⟨ops, hops⟩ := mirrorSession_eq
        (State.writeSidecar { s with index := s.index.put moved } e.1
          { e.2 with siteKey := siteKey, host := host } false) id
      refine ⟨s.blobOps ++ [.write (metaPath e.1)], ops, hmoved, ?_⟩
      simp only [hsc]
      exact hops

end Turma.Archive
