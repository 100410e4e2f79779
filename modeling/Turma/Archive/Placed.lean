import Turma.Archive.Admit
import Turma.Archive.Paths
import Turma.Lib.Placement

/-! Where transcripts are: no two rows name one file, and a file holds only what was pushed for the
transcript that its sidecar names. -/

namespace Turma.Archive

open Turma.Lib Turma.Tenancy List Option OrdMap

structure Layout where
  mode : Mode
  rows : OrdMap JsString Row
  filePathIndex : OrdMap JsString JsString
  files : OrdMap JsString (List Line)
  sidecars : OrdMap JsString Sidecar

def State.layout (s : State) : Layout :=
  ⟨s.index.mode, s.index.rows, s.index.filePathIndex, s.files, s.sidecars⟩

structure NameId (id : JsString) : Prop where
  ne_nil : id ≠ []
  plain : PlainName id

namespace Layout

def placement (L : Layout) : Placement JsString JsString where
  filed id := (L.rows.get? id).bind Row.filePath
  signed p := (L.sidecars.get? p).map Sidecar.transcriptId
  holds p id := ∃ lines, L.files.get? p = some lines ∧ ∃ l ∈ lines, l.pushedFor = id

structure Placed (L : Layout) : Prop where
  sound : L.placement.Sound
  keyed : ∀ {id r}, L.rows.get? id = some r → r.transcriptId = id
  filed : ∀ {id p}, L.placement.filed id = some p → NameId id ∧ Canonical p
  signed : ∀ {id p}, L.placement.signed p = some id → NameId id ∧ Canonical p
  indexed : L.mode = .pg →
    ∀ p id, L.filePathIndex.get? p = some id ↔ L.placement.filed id = some p

end Layout

open Layout OrdMap

theorem NameId.toWellFormed {id : JsString} (h : NameId id) : id.toWellFormed = id :=
  toWellFormed_of_scalar (scalar_of_allIn h.plain)

theorem NameId.text {id : JsString} (h : NameId id) (mode : Mode) : mode.text id = id := by
  cases mode
  · exact h.toWellFormed
  · rfl

variable {p : JsString}

theorem Canonical.text (h : Canonical p) (mode : Mode) : mode.text p = p := by
  cases mode
  · exact h.toWellFormed
  · rfl

theorem placed_empty (mode : Mode) : (emptyStore mode).layout.Placed where
  sound := ⟨fun h => by simp [State.layout, emptyStore, placement] at h,
    fun h => by simp [State.layout, emptyStore, placement] at h,
    fun h => by simp [State.layout, emptyStore, placement] at h⟩
  keyed h := by simp [State.layout, emptyStore] at h
  filed h := by simp [State.layout, emptyStore, placement] at h
  signed h := by simp [State.layout, emptyStore, placement] at h
  indexed _ p id := by simp [State.layout, emptyStore, placement]

variable {s : State}

theorem get_eq {id : JsString} (h : NameId id) :
    s.index.get id = s.layout.rows.get? id := by
  rw [Index.get, h.text]
  rfl

theorem pathOwner_of_filed (h : s.layout.Placed) {id p : JsString}
    (hfiled : s.layout.placement.filed id = some p) : s.index.pathOwner p = some id := by
  rw [Index.pathOwner]
  cases hmode : s.index.mode with
  | pg => exact (h.indexed hmode p id).mpr hfiled
  | sqlite =>
    obtain ⟨hid, hp⟩ := h.filed hfiled
    obtain ⟨row, hrow, hpath⟩ := bind_eq_some_iff.mp hfiled
    rw [hp.toWellFormed]
    cases hfind : s.index.rows.values.find? fun r => decide (r.filePath = some p) with
    | none =>
      have hnone := find?_eq_none.mp hfind row
        (List.mem_map.mpr ⟨(id, row), get?_eq_some.mp hrow, rfl⟩)
      exact absurd hpath (by simpa using hnone)
    | some r =>
      obtain ⟨⟨k, r⟩, hmem, rfl⟩ := List.mem_map.mp (mem_of_find?_eq_some hfind)
      have hr : r.filePath = some p := by simpa using find?_some hfind
      have hk := get?_eq_some.mpr hmem
      have hfiled' : s.layout.placement.filed k = some p := bind_eq_some_iff.mpr ⟨r, hk, hr⟩
      rw [map_some, h.keyed hk, h.sound.apart hfiled' hfiled]

/-- A name that is not owned by another is free. -/
theorem free_of_unowned {env : Env} (h : s.layout.Placed) {id p : JsString}
    (hun : ownedByOther env s id p = false) : s.layout.placement.Free id p := by
  simp only [ownedByOther, Bool.or_eq_false_iff] at hun
  obtain ⟨⟨hrow, hsc⟩, -⟩ := hun
  constructor
  · intro j hj
    rw [pathOwner_of_filed h hj] at hrow
    simpa [(h.filed hj).1.ne_nil] using hrow
  · intro j hj
    obtain ⟨sc, hget, rfl⟩ := map_eq_some_iff.mp hj
    rw [show s.sidecars.get? p = some sc from hget] at hsc
    simpa [(h.signed hj).1.ne_nil] using hsc

variable {C : Config}

theorem free_of_resolve {env : Env} (h : s.layout.Placed) {id p : JsString}
    {m : NameParts} (hp : resolveNewRelPath C env s id m = some p) :
    s.layout.placement.Free id p := by
  have hun := find?_some hp
  exact free_of_unowned h (by simpa using hun)

theorem Checked.layout {s s' : State} (h : Checked s s') : s'.layout = s.layout := by
  obtain ⟨_, _, _, rfl⟩ := h
  rfl

variable {c : Chunk}

/-- The lines of a chunk go to the end of its file. -/
theorem appendLines_holds {p q id : JsString} (records : List Json)
    (h : (appendLines s c p records).layout.placement.holds q id) :
    s.layout.placement.holds q id ∨ q = p ∧ id = c.transcriptId := by
  rw [appendLines] at h
  split at h
  · exact .inl h
  · obtain ⟨lines, hlines, l, hl, hfor⟩ := h
    have hlines : (s.files.upsert p fun old =>
        old.getD [] ++ records.map fun r => ⟨r, c.transcriptId⟩).get? q = some lines := hlines
    rw [get?_upsert] at hlines
    split at hlines
    · rename_i hq
      subst hq
      cases hlines
      rcases mem_append.mp hl with hl | hl
      · cases hold : s.files.get? q with
        | none =>
          rw [hold] at hl
          cases hl
        | some old =>
          rw [hold] at hl
          exact .inl ⟨old, hold, l, hl, hfor⟩
      · obtain ⟨r, -, rfl⟩ := List.mem_map.mp hl
        exact .inr ⟨rfl, hfor.symm⟩
    · exact .inl ⟨lines, hlines, l, hl, hfor⟩

/-- A row that is put where no other transcript is leaves the index in step. -/
structure Seats (x x' : Index) (id p : JsString) : Prop where
  mode : x'.mode = x.mode
  rows : x'.rows = x.rows ∧ x'.filePathIndex = x.filePathIndex ∨
    ∃ row : Row, row.transcriptId = id ∧ row.filePath = some p ∧
      x'.rows = x.rows.upsert id (fun _ => row) ∧
      (x.mode = .pg → ∀ q, x'.filePathIndex.get? q =
        if q = p then some id else x.filePathIndex.get? q)

theorem commitChunk_seats (C : Config) (x : Index) (row : Row) (list : List Json)
    (hid : NameId row.transcriptId) (hp : Canonical p) (hrow : row.filePath = some p) :
    Seats x (x.commitChunk C row list) row.transcriptId p := by
  obtain ⟨hmode, hrows | ⟨row', hs, hrows, hindex⟩⟩ := commitChunk_rows C x row list
  · exact ⟨hmode, .inl hrows⟩
  · have hid' : row'.transcriptId = row.transcriptId := hs.transcriptId.trans (hid.text _)
    have hp' : row'.filePath = some p := by rw [hs.filePath, hrow, map_some, hp.text]
    refine ⟨hmode, .inr ⟨row', hid', hp', hid' ▸ hrows, fun hpg q => ?_⟩⟩
    rw [hindex, put_filePathIndex _ _ hpg, hp', hid']
    simp only [some.injEq, eq_comm]

variable {L L' : Layout}

/-- The step that files a transcript keeps all in place. -/
theorem Layout.Placed.gives (h : L.Placed) {id p : JsString} (hid : NameId id)
    (hp : Canonical p) (hfree : L.placement.Free id p)
    (hown : L.mode = .pg → ∀ q, L.placement.filed id = some q → q = p) {x x' : Index}
    (hx : L.mode = x.mode ∧ L.rows = x.rows ∧ L.filePathIndex = x.filePathIndex)
    (hx' : L'.mode = x'.mode ∧ L'.rows = x'.rows ∧ L'.filePathIndex = x'.filePathIndex)
    (hseats : Seats x x' id p) (sc : Sidecar) (hsc : sc.transcriptId = id)
    (hsidecars : L'.sidecars = L.sidecars.upsert p fun _ => sc)
    (hholds : ∀ {j q}, L'.placement.holds q j → L.placement.holds q j ∨ q = p ∧ j = id) :
    L'.Placed := by
  have hsigned : ∀ q, L'.placement.signed q = if q = p then some id else L.placement.signed q := by
    intro q
    change (L'.sidecars.get? q).map _ = _
    rw [hsidecars, get?_upsert]
    split
    · rw [map_some, hsc]
    · rfl
  have hmode : L'.mode = L.mode := by rw [hx'.1, hx.1, hseats.mode]
  have hfiled : (∀ j, L'.placement.filed j = L.placement.filed j) ∧
        L'.filePathIndex = L.filePathIndex ∨
      (∀ j, L'.placement.filed j = if j = id then some p else L.placement.filed j) ∧
        (L.mode = .pg → ∀ q, L'.filePathIndex.get? q =
          if q = p then some id else L.filePathIndex.get? q) := by
    rcases hseats.rows with ⟨hrows, hindex⟩ | ⟨row, -, hpath, hrows, hindex⟩
    · left
      refine ⟨fun j => ?_, by rw [hx'.2.2, hx.2.2, hindex]⟩
      change (L'.rows.get? j).bind _ = (L.rows.get? j).bind _
      rw [hx'.2.1, hx.2.1, hrows]
    · right
      refine ⟨fun j => ?_, fun hpg q => ?_⟩
      · change (L'.rows.get? j).bind _ = _
        rw [hx'.2.1, hrows, get?_upsert]
        split
        · exact hpath
        · change _ = (L.rows.get? j).bind _
          rw [hx.2.1]
      · rw [hx'.2.2, hx.2.2]
        exact hindex (hx.1.symm.trans hpg) q
  have hfiledOr : ∀ {j q}, L'.placement.filed j = some q →
      L.placement.filed j = some q ∨ j = id ∧ q = p := by
    intro j q hj
    rcases hfiled with ⟨hsame, -⟩ | ⟨hnew, -⟩
    · exact .inl ((hsame j).symm.trans hj)
    · rw [hnew] at hj
      split at hj
      · rename_i hji
        exact .inr ⟨hji, (some.inj hj).symm⟩
      · exact .inl hj
  have hgives : L.placement.Gives L'.placement id p := by
    refine ⟨hfiledOr, by rw [hsigned, if_pos rfl], fun hq => by rw [hsigned, if_neg hq], hholds⟩
  refine ⟨h.sound.gives hfree hgives, ?_, ?_, ?_, ?_⟩
  · intro j r hr
    rw [hx'.2.1] at hr
    rcases hseats.rows with ⟨hrows, -⟩ | ⟨row, hrowId, -, hrows, -⟩
    · rw [hrows, ← hx.2.1] at hr
      exact h.keyed hr
    · rw [hrows, get?_upsert] at hr
      split at hr
      · rename_i hj
        rw [← some.inj hr, hrowId, hj]
      · rw [← hx.2.1] at hr
        exact h.keyed hr
  · intro j q hj
    rcases hfiledOr hj with hj | ⟨rfl, rfl⟩
    · exact h.filed hj
    · exact ⟨hid, hp⟩
  · intro j q hj
    rw [hsigned] at hj
    split at hj
    · rename_i hq
      rw [← some.inj hj, hq]
      exact ⟨hid, hp⟩
    · exact h.signed hj
  · intro hpg q j
    have hpgL : L.mode = .pg := hmode.symm.trans hpg
    rcases hfiled with ⟨hsame, hindex⟩ | ⟨hnew, hindex⟩
    · rw [hsame, hindex]
      exact h.indexed hpgL q j
    · rw [hnew, hindex hpgL]
      by_cases hq : q = p <;> by_cases hj : j = id
      · simp [hq, hj]
      · simp only [if_pos hq, if_neg hj, some.injEq]
        exact ⟨fun hij => absurd hij.symm hj, fun hf => absurd (hfree.filed (hq ▸ hf)) hj⟩
      · simp only [if_neg hq, if_pos hj, some.injEq]
        rw [h.indexed hpgL]
        exact ⟨fun hf => absurd (hown hpgL q (hj ▸ hf)) hq, fun hpq => absurd hpq.symm hq⟩
      · simp only [if_neg hq, if_neg hj]
        exact h.indexed hpgL q j

/-- A transcript stored at a file: its row and its sidecar say so, and nothing else is added. -/
structure Stores (s s' : State) (id p : JsString) : Prop where
  seats : Seats s.index s'.index id p
  sidecar : ∃ sc : Sidecar, sc.transcriptId = id ∧ s'.sidecars = s.sidecars.upsert p fun _ => sc
  holds : ∀ {j q}, s'.layout.placement.holds q j → s.layout.placement.holds q j ∨ q = p ∧ j = id

variable {relPath : JsString}

theorem storeChunk_stores (C : Config) (env : Env) (s : State) (row : Option Row)
    (m : Meta) (endOffset : ℚ) (hid : NameId c.transcriptId)
    (hp : Canonical relPath) :
    (storeChunk C env s row c m endOffset relPath).1.layout = s.layout ∨
      Stores s (storeChunk C env s row c m endOffset relPath).1 c.transcriptId relPath := by
  rcases storeChunk_cases C env s row c m endOffset relPath with
    ⟨hchecked, -⟩ | ⟨s', d, ops, blobs, hchecked, -, rfl, -, heq⟩
  · exact .inl hchecked.layout
  · right
    rw [heq]
    generalize hrow : writtenRow C env s' c m (c.siteKey.slice metaTextMax) endOffset d = row'
    have hrowId : row'.transcriptId = c.transcriptId := by rw [← hrow]; rfl
    have hseats := commitChunk_seats C s'.index row' d.list (hrowId ▸ hid) hp (by rw [← hrow]; rfl)
    rw [hrowId] at hseats
    have hlayout := hchecked.layout
    refine ⟨?_, ⟨chunkSidecar s' row' m, hrowId, ?_⟩, fun {j q} hholds => ?_⟩
    · obtain ⟨_, _, _, rfl⟩ := hchecked
      rw [written, hrow]
      exact ⟨hseats.mode, hseats.rows⟩
    · rw [written, hrow]
      exact congrArg (fun L : Layout => L.sidecars.upsert d.relPath _) hlayout
    · exact hlayout ▸ appendLines_holds (s := s') (writtenRecords C d) hholds

theorem placed_storeChunk {env : Env} {row : Option Row}
    {m : Meta} {endOffset : ℚ} (h : s.layout.Placed)
    (hid : NameId c.transcriptId) (hp : Canonical relPath)
    (hfree : s.layout.placement.Free c.transcriptId relPath)
    (hown : s.index.mode = .pg →
      ∀ q, s.layout.placement.filed c.transcriptId = some q → q = relPath) :
    (storeChunk C env s row c m endOffset relPath).1.layout.Placed := by
  rcases storeChunk_stores C env s row m endOffset hid hp with hsame | hstores
  · rw [hsame]
    exact h
  · obtain ⟨sc, hsc, hsidecars⟩ := hstores.sidecar
    exact h.gives hid hp hfree hown ⟨rfl, rfl, rfl⟩ ⟨rfl, rfl, rfl⟩ hstores.seats sc hsc hsidecars
      hstores.holds

theorem Layout.Placed.within (h : L.Placed)
    (hkeyed : ∀ {id r}, L'.rows.get? id = some r → r.transcriptId = id)
    (hwithin : L'.placement.Within L.placement)
    (hindexed : L'.mode = .pg →
      ∀ p id, L'.filePathIndex.get? p = some id ↔ L'.placement.filed id = some p) : L'.Placed :=
  ⟨h.sound.within hwithin, hkeyed, fun hf => h.filed (hwithin.filed hf),
    fun hs => h.signed (hwithin.signed hs), hindexed⟩

/-- Files and sidecars go by their path. -/
theorem within_of_filter (keep : JsString → Bool)
    (hfiled : ∀ {id p}, L'.placement.filed id = some p → L.placement.filed id = some p)
    (hfiles : ∀ p, L'.files.get? p = if keep p = true then L.files.get? p else none)
    (hsidecars : ∀ p, L'.sidecars.get? p = if keep p = true then L.sidecars.get? p else none) :
    L'.placement.Within L.placement := by
  refine ⟨hfiled, ?_, ?_⟩
  · intro i p hi
    change (L'.sidecars.get? p).map _ = _ at hi
    rw [hsidecars] at hi
    split at hi
    · exact hi
    · cases hi
  · rintro i p ⟨lines, hlines, hl⟩
    rw [hfiles] at hlines
    split at hlines
    · rename_i hkeep
      refine ⟨⟨lines, hlines, hl⟩, ?_⟩
      change (L'.sidecars.get? p).map _ = _
      rw [hsidecars, if_pos hkeep]
      rfl
    · cases hlines

theorem reapPurged_within (env : Env) (s : State) :
    (reapPurged env s).layout.placement.Within s.layout.placement :=
  within_of_filter (fun p => !inPurged env p) (fun hf => hf)
    (fun p => get?_filterKeys _ _ p) (fun p => get?_filterKeys _ _ p)

theorem placed_reapPurged (env : Env) (h : s.layout.Placed) :
    (reapPurged env s).layout.Placed :=
  h.within h.keyed (reapPurged_within env s) h.indexed

def Reindexed (s s' : State) : Prop :=
  ∃ rows fts suspects, s' = { s with
    index := { s.index with rows := rows, fts := fts }, unverifiedCursors := suspects }

theorem Reindexed.trans {s s' s'' : State} (h : Reindexed s s') (h' : Reindexed s' s'') :
    Reindexed s s'' := by
  obtain ⟨rows, fts, suspects, rfl⟩ := h
  obtain ⟨rows', fts', suspects', rfl⟩ := h'
  exact ⟨rows', fts', suspects', rfl⟩

/-- The rows that name a file are of the transcripts that the sidecars name. -/
def FromSidecars (L : Layout) (rows : OrdMap JsString Row) : Prop :=
  ∀ id r, rows.get? id = some r →
    r.transcriptId = id ∧ ∀ p, r.filePath = some p → L.placement.signed p = some id

theorem rebuildFile_reindexed (C : Config) (env : Env) (s : State) (p : JsString) :
    Reindexed s (rebuildFile C env s p).1 := by
  rw [rebuildFile]
  split
  · exact ⟨_, _, _, rfl⟩
  · split
    · exact ⟨_, _, _, rfl⟩
    · split
      · rename_i index hentry
        simp only [rebuildEntry] at hentry
        split at hentry
        · obtain ⟨row, -, rfl⟩ := map_eq_some_iff.mp hentry
          exact ⟨_, _, _, rfl⟩
        · cases hentry
      · exact ⟨_, _, _, rfl⟩

theorem rebuildFile_rows (C : Config) (env : Env) (p : JsString) {L : Layout}
    (h : L.Placed) (hsc : s.sidecars = L.sidecars) (hrows : FromSidecars L s.index.rows) :
    FromSidecars L (rebuildFile C env s p).1.index.rows := by
  rw [rebuildFile]
  split
  · exact hrows
  rename_i sc hget
  split
  · exact hrows
  split
  · rename_i index hentry
    simp only [rebuildEntry] at hentry
    split at hentry
    · obtain ⟨row, hstored, rfl⟩ := map_eq_some_iff.mp hentry
      have hsigned : L.placement.signed p = some sc.transcriptId := by
        change (L.sidecars.get? p).map _ = _
        rw [← hsc, hget, map_some]
      obtain ⟨hid, hp⟩ := h.signed hsigned
      have hs := stored_eq_some hstored
      have hrowId : row.transcriptId = sc.transcriptId := hs.transcriptId.trans (hid.text _)
      have hrowPath : row.filePath = some p := by
        rw [hs.filePath]
        exact congrArg some (hp.text _)
      intro id r hr
      rw [get?_upsert] at hr
      split at hr
      · rename_i hidr
        cases hr
        refine ⟨hidr.symm, fun q hq => ?_⟩
        obtain rfl := some.inj (hrowPath.symm.trans hq)
        rw [hidr, hrowId]
        exact hsigned
      · rw [get?_erase] at hr
        split at hr
        · cases hr
        · exact hrows id r hr
    · cases hentry
  · exact hrows

theorem rebuildFiles_reindexed (C : Config) (env : Env) (ps : List JsString) (s : State) :
    Reindexed s (rebuildFiles C env ps s) := by
  induction ps generalizing s with
  | nil => exact ⟨_, _, _, rfl⟩
  | cons p ps ih =>
    simp only [rebuildFiles]
    split
    · exact (rebuildFile_reindexed C env s p).trans (ih _)
    · exact rebuildFile_reindexed C env s p

theorem rebuildIndex_reindexed (C : Config) (env : Env) (s : State) :
    Reindexed s (rebuildIndex C env s) := by
  rw [rebuildIndex]
  split
  · exact ⟨_, _, _, rfl⟩
  · exact Reindexed.trans ⟨_, _, _, rfl⟩ (rebuildFiles_reindexed C env _ _)

theorem rebuildFiles_rows {env : Env} {L : Layout} (h : L.Placed)
    (ps : List JsString) (hsc : s.sidecars = L.sidecars)
    (hrows : FromSidecars L s.index.rows) :
    FromSidecars L (rebuildFiles C env ps s).index.rows := by
  induction ps generalizing s with
  | nil => exact hrows
  | cons p ps ih =>
    have hrows' := rebuildFile_rows C env p h hsc hrows
    simp only [rebuildFiles]
    split
    · refine ih ?_ hrows'
      obtain ⟨_, _, _, heq⟩ := rebuildFile_reindexed C env s p
      rw [heq]
      exact hsc
    · exact hrows'

theorem rebuildIndex_rows (C : Config) (env : Env) {L : Layout} (h : L.Placed)
    (hsc : s.sidecars = L.sidecars) (hmode : s.index.mode = .sqlite) :
    FromSidecars L (rebuildIndex C env s).index.rows := by
  rw [rebuildIndex, hmode]
  exact rebuildFiles_rows h _ hsc fun _ _ hr => by simp at hr

/-- Rows that are made of the sidecars give every transcript a file that its sidecar names it
on. -/
theorem Layout.Placed.reindexed {L : Layout} (h : L.Placed) (hmode : L.mode = .sqlite)
    {rows : OrdMap JsString Row} (hrows : FromSidecars L rows) :
    ({ L with rows := rows } : Layout).Placed ∧
      ({ L with rows := rows } : Layout).placement.Refiled L.placement := by
  have hrefiled : ({ L with rows := rows } : Layout).placement.Refiled L.placement := by
    refine ⟨fun {i p} hf => ?_, fun _ => rfl, fun hh => hh⟩
    obtain ⟨r, hr, hp⟩ := bind_eq_some_iff.mp hf
    exact (hrows i r hr).2 p hp
  exact ⟨⟨h.sound.refiled hrefiled, fun hr => (hrows _ _ hr).1,
    fun hf => h.signed (hrefiled.filed hf), fun hs => h.signed ((hrefiled.signed _).symm.trans hs),
    fun hpg => absurd (hmode.symm.trans hpg) (by simp)⟩, hrefiled⟩

/-- A rebuild keeps all in place. -/
theorem placed_rebuild (C : Config) (env : Env) (h : s.layout.Placed)
    (hmode : s.index.mode = .sqlite) :
    (rebuildIndex C env s).layout.Placed ∧
      (rebuildIndex C env s).layout.placement.Refiled s.layout.placement := by
  have hrows := rebuildIndex_rows C env h rfl hmode
  obtain ⟨rows, fts, suspects, heq⟩ := rebuildIndex_reindexed C env s
  rw [heq] at hrows ⊢
  exact h.reindexed hmode hrows

/-- The walk keeps all in place, and what a transcript has stays free for it. -/
theorem placed_walkStore (C : Config) (env : Env) (h : s.layout.Placed) :
    (walkStore C env s).layout.Placed ∧ ∀ {id p}, s.layout.placement.filed id = some p →
      (walkStore C env s).layout.placement.Free id p := by
  have hreaped := placed_reapPurged env h
  simp only [walkStore, maybeReclaimIndex]
  split
  · rename_i hdue
    simp only [reclaimDue, Bool.and_eq_true, decide_eq_true_eq] at hdue
    obtain ⟨hplaced, hrefiled⟩ := placed_rebuild C env
      (s := { walked env s with lastReclaimAt := env.now }) hreaped hdue.1.1.1
    exact ⟨hplaced, fun hf => hreaped.sound.free_refiled hrefiled hf⟩
  · exact ⟨hreaped, fun hf => h.sound.free_within (reapPurged_within env s) hf⟩

theorem placed_measured (C : Config) (env : Env) (tenant : JsString)
    (h : s.layout.Placed) :
    (totalForCeiling C env tenant s).layout.Placed ∧
      ∀ {id p}, s.layout.placement.filed id = some p →
        (totalForCeiling C env tenant s).layout.placement.Free id p := by
  rw [totalForCeiling, totalArchiveBytes]
  split
  · exact ⟨h, fun hf => ⟨fun hj => h.sound.apart hj hf, fun hj => h.sound.named hf hj⟩⟩
  · exact placed_walkStore C env h

theorem measured_index_of_pg (C : Config) (env : Env) (tenant : JsString)
    (hmode : s.index.mode = .pg) : (totalForCeiling C env tenant s).index = s.index := by
  rw [totalForCeiling, totalArchiveBytes]
  split
  · rfl
  · simp only [walkStore, maybeReclaimIndex]
    split
    · rename_i hdue
      simp [reclaimDue, walked, reapPurged, hmode] at hdue
    · rfl

@[simp] theorem measured_mode (C : Config) (env : Env) (tenant : JsString) (s : State) :
    (totalForCeiling C env tenant s).index.mode = s.index.mode := by
  rw [totalForCeiling, totalArchiveBytes]
  split
  · rfl
  · simp only [walkStore, maybeReclaimIndex]
    split
    · obtain ⟨_, _, _, heq⟩ := rebuildIndex_reindexed C env
        { walked env s with lastReclaimAt := env.now }
      rw [heq]
      rfl
    · rfl

/-- Where a chunk goes: the file of its row, or one that is free. -/
theorem placeOf_free {env : Env} {s s' : State} {m : Meta}
    (h : s.layout.Placed) (h' : s'.layout.Placed) (hid : NameId c.transcriptId)
    (hkeeps : ∀ {i q}, s.layout.placement.filed i = some q → s'.layout.placement.Free i q)
    (hplace : placeOf C env s' (s.index.get c.transcriptId) c m = some p) :
    Canonical p ∧ s'.layout.placement.Free c.transcriptId p ∧
      ∀ q, s.layout.placement.filed c.transcriptId = some q → q = p := by
  rw [placeOf, get_eq hid] at hplace
  split at hplace
  · rename_i q hfiled
    cases hplace
    exact ⟨(h.filed hfiled).2, hkeeps hfiled, fun q' hq' => some.inj (hq'.symm.trans hfiled)⟩
  · rename_i hfiled
    exact ⟨canonical_of_resolve hplace, free_of_resolve h' hplace,
      fun q hq => absurd (hq.symm.trans hfiled) (by simp)⟩

/-- The session map is not rebuilt, so there a transcript has just the file of its row. -/
theorem measured_filed_of_pg {env : Env} {tenant : JsString}
    (hpg : (totalForCeiling C env tenant s).index.mode = .pg) {i q : JsString}
    (hq : (totalForCeiling C env tenant s).layout.placement.filed i = some q) :
    s.layout.placement.filed i = some q := by
  rw [measured_mode] at hpg
  obtain ⟨r, hr, hrq⟩ := bind_eq_some_iff.mp hq
  have hrows : (totalForCeiling C env tenant s).layout.rows = s.layout.rows :=
    congrArg Index.rows (measured_index_of_pg C env tenant hpg)
  exact bind_eq_some_iff.mpr ⟨r, hrows ▸ hr, hrq⟩

theorem placed_ingestChunk {env : Env}
    (h : s.layout.Placed) (hid : NameId c.transcriptId) :
    (ingestChunk C env s c).1.layout.Placed := by
  rcases ingestChunk_cases C env s c with ⟨-, heq⟩ | ⟨full, -, heq⟩ | ⟨relPath, endOffset, hadm, heq⟩
  · rw [heq]
    exact h
  · rw [heq]
    exact (placed_measured C env _ h).1
  · rw [heq]
    obtain ⟨hplaced, hkeeps⟩ := placed_measured C env (tenantOfHostKey c.host) h
    obtain ⟨hcanon, hfree, hown⟩ := placeOf_free h hplaced hid hkeeps hadm.placed
    exact placed_storeChunk hplaced hid hcanon hfree fun hpg q hq =>
      hown q (measured_filed_of_pg hpg hq)

/-- What keeps the files, their sidecars' transcripts and where each row is keeps all in place. -/
theorem Layout.Placed.refiled (h : L.Placed)
    (hkeyed : ∀ {id r}, L'.rows.get? id = some r → r.transcriptId = id)
    (hfiled : ∀ id, L'.placement.filed id = L.placement.filed id)
    (hsigned : ∀ p, L'.placement.signed p = L.placement.signed p) (hfiles : L'.files = L.files)
    (hindexed : L'.mode = .pg → L.mode = .pg ∧
      ∀ p, L'.filePathIndex.get? p = L.filePathIndex.get? p) : L'.Placed := by
  refine h.within hkeyed ⟨fun hf => (hfiled _).symm.trans hf, fun hs => (hsigned _).symm.trans hs,
    fun {i p} hh => ⟨?_, hsigned _⟩⟩ fun hpg p id => ?_
  · obtain ⟨lines, hlines, hl⟩ := hh
    exact ⟨lines, hfiles ▸ hlines, hl⟩
  · obtain ⟨hmode, hindex⟩ := hindexed hpg
    rw [hindex, hfiled]
    exact h.indexed hmode p id

theorem Adds.filed {x x' : Index} (h : Adds x x') (id : JsString) :
    (x'.rows.get? id).bind Row.filePath = (x.rows.get? id).bind Row.filePath := by
  cases hr : x.rows.get? id with
  | some r => rw [h.kept hr]
  | none =>
    cases hr' : x'.rows.get? id with
    | none => rfl
    | some r =>
      rcases h.added hr' with hold | ⟨-, -, hpath, -⟩
      · exact absurd (hr.symm.trans hold) (by simp)
      · exact hpath

variable {row : Row}

@[simp] theorem remove_mode (x : Index) (row : Row) : (x.remove row).mode = x.mode := rfl

def Call.Named : Call → Prop
  | .ingestChunk c => NameId c.transcriptId
  | _ => True

end Turma.Archive
