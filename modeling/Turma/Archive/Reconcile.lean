import Turma.Archive.Order
import Turma.Archive.Resend

/-! The cursors that a boot takes from what it finds: of each transcript's file, its sidecar and its
row, which may be of different times. -/

namespace Turma.Archive

open Turma.Lib Turma.Tenancy List Option OrdMap JsString

/-- The cursors that were written beside a file shorter than this one. -/
def coveredCursors (row : Row) (sc : Option Sidecar) (fileSize : ℕ) : List ℚ :=
  ((sc.filter fun sc => sc.archiveBytes < fileSize).map Sidecar.bytesStored).toList ++
    if 0 < row.archiveBytes ∧ row.archiveBytes < fileSize then [row.bytesStored] else []

/-- The cursor of a file of this size, and whether one was written beside it. -/
def reconciledCursor (row : Row) (sc : Option Sidecar) (fileSize : ℕ) : ℚ × Bool :=
  match sc.filter fun sc => sc.archiveBytes = fileSize with
  | some sc => (sc.bytesStored, true)
  | none =>
    if row.archiveBytes = fileSize then (row.bytesStored, true)
    else ((coveredCursors row sc fileSize).min?.getD 0, false)

def suspect (s : State) (id : JsString) : State :=
  if id ∈ s.unverifiedCursors then s
  else { s with unverifiedCursors := id :: s.unverifiedCursors }

/-- One row of `reconcileHydratedCursors`. -/
def reconcileCursor (env : Env) (s : State) (row : Row) : State :=
  match row.filePath.bind fun p => (s.files.get? p).map fun lines => (p, lines) with
  | none => s
  | some (p, lines) =>
    let sc := s.sidecars.get? p
    let fileSize := fileBytes lines
    let (bytesStored, proved) := reconciledCursor row sc fileSize
    let flagged := (sc.map Sidecar.cursorUnverified).getD false
    let s := if flagged = true ∨ proved = false then suspect s row.transcriptId else s
    let rawBytes := s.rawLayerBytes env p
    if bytesStored = row.bytesStored ∧ fileSize = row.archiveBytes ∧ rawBytes = row.rawBytes then s
    else
      { s with index := { s.index with
          rows := s.index.rows.adjust row.transcriptId fun live =>
            { live with
              bytesStored := bytesStored
              archiveBytes := fileSize
              rawBytes := rawBytes
              -- `countLines`, one line an entry
              msgCount := if s.index.mode = .pg ∧ fileSize ≠ row.archiveBytes then lines.length
                else live.msgCount } } }

def reconcileHydratedCursors (env : Env) (s : State) : State :=
  (s.index.rows.values.filter fun r => r.filePath.isSome).foldl (reconcileCursor env) s

/-- The row that `backfillPgIndexFromFiles` makes of a file. -/
def backfilledRow (env : Env) (s : State) (relPath : JsString) (sc : Sidecar) (msgCount : ℕ) : Row :=
  { rebuiltRow env s relPath sc with
    host := sc.host
    msgCount := msgCount }

def backfillFile (env : Env) (s : State) (relPath : JsString) : State :=
  match s.sidecars.get? relPath with
  | none => s
  | some sc =>
    if sc.transcriptId = [] ∨ isTenantPurged env (tenantOfHost sc.host) = true then s
    else if ((s.index.rows.get? sc.transcriptId).bind Row.filePath).isSome = true then s
    else
      let entries := (firstCopies [] (s.linesAt relPath)).map fun l => searchEntry l.record
      let s := { s with
        unverifiedCursors := rebuiltSuspicion s relPath sc
        index := s.index.put (backfilledRow env s relPath sc entries.length) }
      let s := s.mirrorSession sc.transcriptId
      s.mirror entries (.seat sc.transcriptId (entries.map mirrorEntry) false)

def backfillPgIndexFromFiles (env : Env) (s : State) : State :=
  match s.index.mode with
  | .sqlite => s
  | .pg => (walkJsonl env s).foldl (backfillFile env) s

theorem lineBytes_pos (l : Line) : 0 < lineBytes l.record := Nat.succ_pos _

theorem fileBytes_append (a b : List Line) : fileBytes (a ++ b) = fileBytes a + fileBytes b := by
  rw [fileBytes, fileBytes, fileBytes, map_append, sum_append]

theorem fileBytes_eq_zero {lines : List Line} (h : fileBytes lines = 0) : lines = [] := by
  cases lines with
  | nil => rfl
  | cons l ls =>
    rw [fileBytes, map_cons, sum_cons] at h
    exact absurd (lineBytes_pos l) (by omega)

/-- The entries of a source, each with the offset where it ends and the line that is filed of it;
and the cursor and the size of the file after each chunk of it. A file is in each of these states
what was filed up to its cursor. -/
structure History where
  source : List (ℚ × Line)
  bytesStored : ℕ → ℚ
  archiveBytes : ℕ → ℕ
  ordered : (source.map Prod.fst).Pairwise (· ≤ ·)
  positive : ∀ e ∈ source, 0 < e.1
  stored_mono : Monotone bytesStored
  archived_mono : Monotone archiveBytes
  size : ∀ i, archiveBytes i = fileBytes ((source.filter fun e => e.1 ≤ bytesStored i).map Prod.snd)

namespace History

variable (H : History)

def upTo (offset : ℚ) : List Line := (H.source.filter fun e => e.1 ≤ offset).map Prod.snd

def Wrote (bytesStored : ℚ) (archiveBytes : ℕ) : Prop :=
  ∃ j, bytesStored = H.bytesStored j ∧ archiveBytes = H.archiveBytes j

variable {H}

theorem upTo_prefix {a b : ℚ} (h : a ≤ b) : H.upTo a <+: H.upTo b := by
  have hordered := H.ordered
  rw [upTo, upTo]
  refine IsPrefix.map _ ?_
  generalize H.source = source at hordered ⊢
  induction source with
  | nil => exact prefix_refl _
  | cons e es ih =>
    rw [map_cons, pairwise_cons] at hordered
    rw [filter_cons, filter_cons]
    by_cases hea : e.1 ≤ a
    · rw [if_pos (by simpa using hea), if_pos (by simpa using hea.trans h)]
      exact (prefix_append_right_inj [e]).mpr (ih hordered.2)
    · have hrest : es.filter (fun e => decide (e.1 ≤ a)) = [] := by
        rw [filter_eq_nil_iff]
        intro e' he' hle
        have hfirst := hordered.1 e'.1 (List.mem_map_of_mem he')
        exact hea (hfirst.trans (by simpa using hle))
      rw [if_neg (by simpa using hea), hrest]
      exact List.nil_prefix

/-- Of two files of one source, one of them is the start of the other. -/
theorem upTo_total (a b : ℚ) : H.upTo a <+: H.upTo b ∨ H.upTo b <+: H.upTo a :=
  (le_total a b).imp upTo_prefix upTo_prefix

/-- The size of a file says what is in it. -/
theorem upTo_of_size {a b : ℚ} (h : fileBytes (H.upTo a) = fileBytes (H.upTo b)) :
    H.upTo a = H.upTo b := by
  rcases upTo_total a b with ⟨t, ht⟩ | ⟨t, ht⟩
  · rw [← ht, fileBytes_append] at h
    rw [← ht, @fileBytes_eq_zero t (by omega), append_nil]
  · rw [← ht, fileBytes_append] at h
    rw [← ht, @fileBytes_eq_zero t (by omega), append_nil]

/-- A shorter file is of an earlier offset. -/
theorem lt_of_size {a b : ℚ} (h : fileBytes (H.upTo a) < fileBytes (H.upTo b)) : a < b := by
  by_contra hle
  obtain ⟨t, ht⟩ := H.upTo_prefix (not_lt.mp hle)
  rw [← ht, fileBytes_append] at h
  omega

theorem upTo_nonpos {a : ℚ} (h : a ≤ 0) : H.upTo a = [] := by
  rw [upTo, map_eq_nil_iff, filter_eq_nil_iff]
  intro e he hle
  exact absurd ((by simpa using hle : e.1 ≤ a).trans h) (not_le.mpr (H.positive e he))

theorem Wrote.size {offset : ℚ} {n : ℕ} (h : H.Wrote offset n) : n = fileBytes (H.upTo offset) := by
  obtain ⟨j, rfl, rfl⟩ := h
  exact H.size j

/-- An entry between two offsets is filed up to the one and not up to the other. -/
theorem upTo_ne {a b : ℚ} {e : ℚ × Line} (he : e ∈ H.source) (ha : a < e.1) (hb : e.1 ≤ b) :
    H.upTo a ≠ H.upTo b := by
  intro heq
  have hsub : (H.source.filter fun e => e.1 ≤ a).Sublist (H.source.filter fun e => e.1 ≤ b) := by
    refine monotone_filter_right _ fun e' he' => ?_
    simp only [decide_eq_true_eq] at he' ⊢
    exact he'.trans (ha.le.trans hb)
  have hlen : (H.source.filter fun e => e.1 ≤ a).length =
      (H.source.filter fun e => e.1 ≤ b).length := by
    simpa [upTo] using congrArg List.length heq
  have hmem : e ∈ H.source.filter fun e => e.1 ≤ a := by
    rw [hsub.eq_of_length hlen, mem_filter]
    exact ⟨he, by simpa using hb⟩
  rw [mem_filter] at hmem
  exact absurd (by simpa using hmem.2) (not_le.mpr ha)

end History

/-- A cursor that skips no entry of the source, beside the file of the state `i`; the next chunk is
checked against the file where it can bring an entry again. -/
structure SafeCursor (H : History) (i : ℕ) (id p : JsString) (s : State) (row : Row) : Prop where
  size : row.archiveBytes = fileBytes (s.linesAt p)
  covered : H.upTo row.bytesStored <+: s.linesAt p
  checked : (∃ e ∈ H.source, row.bytesStored < e.1 ∧ e.1 ≤ H.bytesStored i) →
    id ∈ s.unverifiedCursors ∧ ∀ entries, appended s id p entries =
      freshEntries ((s.linesAt p).map fun l => entryKey l.record) entries

variable {H : History} {i : ℕ} {id p : JsString} {env : Env} {s s' : State}

theorem SafeCursor.of_cursor {row : Row} (hlines : s.linesAt p = H.upTo (H.bytesStored i))
    (hsize : row.archiveBytes = fileBytes (s.linesAt p))
    (hcovered : H.upTo row.bytesStored <+: H.upTo (H.bytesStored i))
    (hsus : H.upTo row.bytesStored ≠ H.upTo (H.bytesStored i) → id ∈ s.unverifiedCursors) :
    SafeCursor H i id p s row := by
  refine ⟨hsize, hlines ▸ hcovered, ?_⟩
  rintro ⟨e, he, hafter, hheld⟩
  have hmem := hsus (History.upTo_ne he hafter hheld)
  exact ⟨hmem, fun entries => if_pos (.inl (.inl hmem))⟩

/-- The cursor of a reconciled row: of a time when the file was as it is, or of an earlier one. -/
theorem reconciledCursor_fits {row : Row} {sc : Option Sidecar}
    (hsc : ∀ sc' ∈ sc, H.Wrote sc'.bytesStored sc'.archiveBytes)
    (hrow : H.Wrote row.bytesStored row.archiveBytes ∨ row.bytesStored = 0 ∧ row.archiveBytes = 0)
    {b : ℚ} {r : ℚ × Bool} (hr : reconciledCursor row sc (fileBytes (H.upTo b)) = r) :
    H.upTo r.1 <+: H.upTo b ∧ (H.upTo r.1 ≠ H.upTo b → r.2 = false) := by
  rw [reconciledCursor] at hr
  split at hr
  · rename_i sc' hfound
    obtain ⟨hmem, hsame⟩ := filter_eq_some_iff.mp hfound
    have heq : H.upTo sc'.bytesStored = H.upTo b := by
      refine History.upTo_of_size ?_
      rw [← (hsc sc' hmem).size]
      exact of_decide_eq_true hsame
    rw [← hr]
    exact ⟨heq ▸ prefix_refl _, fun hne => absurd heq hne⟩
  · split at hr
    · rename_i hsame
      have heq : H.upTo row.bytesStored = H.upTo b := by
        rcases hrow with hrow | ⟨hzero, hnone⟩
        · exact History.upTo_of_size (hrow.size ▸ hsame)
        · rw [fileBytes_eq_zero (hsame.symm.trans hnone), hzero]
          exact History.upTo_nonpos le_rfl
      rw [← hr]
      exact ⟨heq ▸ prefix_refl _, fun hne => absurd heq hne⟩
    · rw [← hr]
      refine ⟨?_, fun _ => rfl⟩
      cases hmin : (coveredCursors row sc (fileBytes (H.upTo b))).min? with
      | none => exact (History.upTo_nonpos le_rfl).symm ▸ List.nil_prefix
      | some c =>
        refine History.upTo_prefix (le_of_lt (History.lt_of_size (H := H) ?_))
        rw [getD_some]
        have hc := min?_mem hmin
        rw [coveredCursors, mem_append] at hc
        rcases hc with hc | hc
        · obtain ⟨sc', hfound, rfl⟩ := map_eq_some_iff.mp (mem_toList.mp hc)
          obtain ⟨hmem, hless⟩ := filter_eq_some_iff.mp hfound
          rw [← (hsc sc' hmem).size]
          exact of_decide_eq_true hless
        · split at hc
          · rename_i hless
            obtain rfl := mem_singleton.mp hc
            rcases hrow with hrow | ⟨-, hnone⟩
            · exact hrow.size ▸ hless.2
            · exact absurd hless.1 (by omega)
          · cases hc

/-- The same disk, and the transcript's row and suspicion as they were. -/
structure Elsewhere (id : JsString) (s s' : State) : Prop where
  files : s'.files = s.files
  sidecars : s'.sidecars = s.sidecars
  mode : s'.index.mode = s.index.mode
  row : s'.index.rows.get? id = s.index.rows.get? id
  suspect : id ∈ s'.unverifiedCursors ↔ id ∈ s.unverifiedCursors

theorem Elsewhere.refl (id : JsString) (s : State) : Elsewhere id s s :=
  ⟨rfl, rfl, rfl, rfl, Iff.rfl⟩

theorem Elsewhere.trans {s'' : State} (h : Elsewhere id s s') (h' : Elsewhere id s' s'') :
    Elsewhere id s s'' :=
  ⟨h'.files.trans h.files, h'.sidecars.trans h.sidecars, h'.mode.trans h.mode, h'.row.trans h.row,
    h'.suspect.trans h.suspect⟩

theorem Elsewhere.foldl {α : Type*} {f : State → α → State} {xs : List α}
    (h : ∀ x ∈ xs, ∀ s, Elsewhere id s (f s x)) (s : State) : Elsewhere id s (xs.foldl f s) := by
  induction xs generalizing s with
  | nil => exact .refl id s
  | cons x xs ih =>
    exact (h x mem_cons_self s).trans (ih (fun y hy => h y (mem_cons_of_mem x hy)) _)

theorem Elsewhere.safe {row : Row} (h : Elsewhere id s s') (hsafe : SafeCursor H i id p s row) :
    SafeCursor H i id p s' row := by
  have hlines : s'.linesAt p = s.linesAt p := by rw [State.linesAt, State.linesAt, h.files]
  refine ⟨hlines ▸ hsafe.size, hlines ▸ hsafe.covered, fun hagain => ?_⟩
  have hmem := h.suspect.mpr (hsafe.checked hagain).1
  exact ⟨hmem, fun entries => if_pos (.inl (.inl hmem))⟩

theorem mem_suspect {id' : JsString} :
    id ∈ (suspect s id').unverifiedCursors ↔ id = id' ∨ id ∈ s.unverifiedCursors := by
  rw [suspect]
  split
  · rename_i hmem
    exact ⟨.inr, fun h => h.elim (fun heq => heq ▸ hmem) fun h => h⟩
  · exact mem_cons

theorem elsewhere_suspect {id' : JsString} (h : id' ≠ id) : Elsewhere id s (suspect s id') := by
  have hmem := @mem_suspect id s id'
  rw [or_iff_right h.symm] at hmem
  refine ⟨?_, ?_, ?_, ?_, hmem⟩ <;> rw [suspect] <;> split <;> rfl

/-- What a row's reconcile leaves of its own transcript. -/
theorem reconcileCursor_own {row : Row} {lines : List Line} (hrow : s.index.rows.get? id = some row)
    (hid : row.transcriptId = id) (hfiled : row.filePath = some p)
    (hfile : s.files.get? p = some lines) :
    (reconcileCursor env s row).files = s.files ∧
    (∃ row', (reconcileCursor env s row).index.rows.get? id = some row' ∧
      row'.bytesStored = (reconciledCursor row (s.sidecars.get? p) (fileBytes lines)).1 ∧
      row'.archiveBytes = fileBytes lines) ∧
    ((reconciledCursor row (s.sidecars.get? p) (fileBytes lines)).2 = false →
      id ∈ (reconcileCursor env s row).unverifiedCursors) := by
  have hfound : row.filePath.bind (fun p => (s.files.get? p).map fun lines => (p, lines)) =
      some (p, lines) := by
    rw [hfiled, bind_some, hfile, map_some]
  subst hid
  rw [reconcileCursor, hfound]
  dsimp only
  generalize hmarked : (if ((s.sidecars.get? p).map Sidecar.cursorUnverified).getD false = true ∨
    (reconciledCursor row (s.sidecars.get? p) (fileBytes lines)).2 = false then
      suspect s row.transcriptId else s) = marked
  have hframe : marked.files = s.files ∧ marked.index = s.index := by
    rw [← hmarked]
    split
    · rw [suspect]
      split <;> exact ⟨rfl, rfl⟩
    · exact ⟨rfl, rfl⟩
  have hsus : (reconciledCursor row (s.sidecars.get? p) (fileBytes lines)).2 = false →
      row.transcriptId ∈ marked.unverifiedCursors := by
    intro hno
    rw [← hmarked, if_pos (.inr hno)]
    exact mem_suspect.mpr (.inl rfl)
  split
  · rename_i hsame
    rw [hframe.2]
    exact ⟨hframe.1, ⟨row, hrow, hsame.1.symm, hsame.2.1.symm⟩, hsus⟩
  · refine ⟨hframe.1, ?_, hsus⟩
    rw [get?_adjust, if_pos rfl, hframe.2, hrow]
    exact ⟨_, rfl, rfl, rfl⟩

theorem reconcileCursor_other {row : Row} (h : row.transcriptId ≠ id) :
    Elsewhere id s (reconcileCursor env s row) := by
  rw [reconcileCursor]
  split
  · exact .refl id s
  · rename_i p lines _
    dsimp only
    generalize hmarked : (if ((s.sidecars.get? p).map Sidecar.cursorUnverified).getD false = true ∨
      (reconciledCursor row (s.sidecars.get? p) (fileBytes lines)).2 = false then
        suspect s row.transcriptId else s) = marked
    have hframe : Elsewhere id s marked := by
      rw [← hmarked]
      split
      · exact elsewhere_suspect h
      · exact .refl id s
    split
    · exact hframe
    · refine hframe.trans ⟨rfl, rfl, rfl, ?_, Iff.rfl⟩
      rw [get?_adjust, if_neg h.symm]

/-- Every filed row whose file is there is left with a safe cursor. -/
theorem reconcile_safe (hkeyed : ∀ {k r}, s.index.rows.get? k = some r → r.transcriptId = k)
    {row : Row} (hrow : s.index.rows.get? id = some row) (hfiled : row.filePath = some p)
    (hfile : s.files.get? p = some (H.upTo (H.bytesStored i)))
    (hsc : ∀ sc ∈ s.sidecars.get? p, H.Wrote sc.bytesStored sc.archiveBytes)
    (hwrote : H.Wrote row.bytesStored row.archiveBytes ∨
      row.bytesStored = 0 ∧ row.archiveBytes = 0) :
    ∃ row', (reconcileHydratedCursors env s).index.rows.get? id = some row' ∧
      SafeCursor H i id p (reconcileHydratedCursors env s) row' := by
  have hmem := get?_eq_some.mp hrow
  obtain ⟨pre, post, hentries⟩ := append_of_mem hmem
  -- the rows before and after it are of other transcripts
  have hnodup := s.index.rows.nodup
  rw [hentries, map_append, map_cons, nodup_append] at hnodup
  obtain ⟨-, hpost, hapart⟩ := hnodup
  rw [nodup_cons] at hpost
  have hother : ∀ e ∈ pre ++ post, e.2.transcriptId ≠ id := by
    intro e he
    have hin : e ∈ s.index.rows.entries := by
      rw [hentries]
      rcases mem_append.mp he with he | he <;> simp [he]
    rw [hkeyed (get?_eq_some.mpr hin)]
    rintro rfl
    rcases mem_append.mp he with he | he
    · exact hapart e.1 (List.mem_map_of_mem he) e.1 mem_cons_self rfl
    · exact hpost.1 (List.mem_map.mpr ⟨e, he, rfl⟩)
  have hlist : s.index.rows.values.filter (fun r => r.filePath.isSome) =
      (pre.map Prod.snd).filter (fun r => r.filePath.isSome) ++
        row :: (post.map Prod.snd).filter (fun r => r.filePath.isSome) := by
    rw [OrdMap.values, hentries, map_append, map_cons, filter_append,
      filter_cons, if_pos (by rw [hfiled]; rfl)]
  have haside : ∀ es : List (JsString × Row), (∀ e ∈ es, e ∈ pre ++ post) → ∀ s,
      Elsewhere id s (((es.map Prod.snd).filter fun r => r.filePath.isSome).foldl
        (reconcileCursor env) s) := by
    intro es hes s
    refine Elsewhere.foldl (fun r hr s => reconcileCursor_other ?_) s
    obtain ⟨e, he, rfl⟩ := List.mem_map.mp (mem_of_mem_filter hr)
    exact hother e (hes e he)
  rw [reconcileHydratedCursors, hlist, foldl_append, foldl_cons]
  have hpre := haside pre (fun e he => mem_append_left _ he) s
  generalize ((pre.map Prod.snd).filter fun r => r.filePath.isSome).foldl
    (reconcileCursor env) s = before at hpre ⊢
  obtain ⟨hfiles, ⟨row', hrow', hstored, hsize⟩, hsus⟩ := @reconcileCursor_own id p env before row _
    (hpre.row.trans hrow) (hkeyed hrow) hfiled ((congrArg (·.get? p) hpre.files).trans hfile)
  rw [hpre.sidecars] at hstored hsus
  obtain ⟨hcovered, hproved⟩ := reconciledCursor_fits (b := H.bytesStored i) hsc hwrote rfl
  have hlines : (reconcileCursor env before row).linesAt p = H.upTo (H.bytesStored i) := by
    rw [State.linesAt, hfiles, hpre.files, hfile, getD_some]
  have hafter := haside post (fun e he => mem_append_right _ he)
    (reconcileCursor env before row)
  refine ⟨row', hafter.row.trans hrow', hafter.safe (.of_cursor hlines ?_ ?_ ?_)⟩
  · rw [hsize, hlines]
  · rw [hstored]
    exact hcovered
  · rw [hstored]
    exact fun hne => hsus (hproved hne)

/-- A row with the cursor of a sidecar, suspect where the file has another size. -/
structure OfSidecar (sc : Sidecar) (n : ℕ) (s : State) (row : Row) : Prop where
  stored : row.bytesStored = sidecarCursor sc n
  archived : row.archiveBytes = n
  suspect : sc.archiveBytes ≠ n → sc.transcriptId ∈ s.unverifiedCursors

theorem OfSidecar.elsewhere {sc : Sidecar} {n : ℕ} {row : Row} (h : OfSidecar sc n s row)
    (he : Elsewhere sc.transcriptId s s') : OfSidecar sc n s' row :=
  ⟨h.stored, h.archived, fun hne => he.suspect.mpr (h.suspect hne)⟩

theorem OfSidecar.safe {sc : Sidecar} {row : Row} (hwrote : H.Wrote sc.bytesStored sc.archiveBytes)
    (hlines : s.linesAt p = H.upTo (H.bytesStored i))
    (h : OfSidecar sc (fileBytes (s.linesAt p)) s row) : SafeCursor H i sc.transcriptId p s row := by
  have hfits : H.upTo (sidecarCursor sc (fileBytes (s.linesAt p))) <+: H.upTo (H.bytesStored i) ∧
      (sc.archiveBytes = fileBytes (s.linesAt p) →
        H.upTo (sidecarCursor sc (fileBytes (s.linesAt p))) = H.upTo (H.bytesStored i)) := by
    rw [sidecarCursor, hlines]
    split
    · rename_i hlonger
      rw [History.upTo_nonpos le_rfl]
      exact ⟨List.nil_prefix, fun heq => absurd hlonger (by omega)⟩
    · rename_i hfits
      have hsame : sc.archiveBytes = fileBytes (H.upTo (H.bytesStored i)) →
          H.upTo sc.bytesStored = H.upTo (H.bytesStored i) := fun heq =>
        History.upTo_of_size (hwrote.size ▸ heq)
      refine ⟨?_, hsame⟩
      rcases lt_or_ge sc.archiveBytes (fileBytes (H.upTo (H.bytesStored i))) with hlt | hge
      · exact History.upTo_prefix (le_of_lt (History.lt_of_size (hwrote.size ▸ hlt)))
      · exact hsame (by omega) ▸ prefix_refl _
  refine .of_cursor hlines h.archived (h.stored ▸ hfits.1) fun hne => h.suspect fun heq => ?_
  exact hne (h.stored ▸ hfits.2 heq)

theorem mem_rebuiltSuspicion {sc : Sidecar} :
    id ∈ rebuiltSuspicion s p sc ↔ id = sc.transcriptId ∧
        (sc.cursorUnverified = true ∨ sc.archiveBytes ≠ s.sizeAt p) ∨
      id ≠ sc.transcriptId ∧ id ∈ s.unverifiedCursors := by
  rw [rebuiltSuspicion]
  split
  · rename_i hsus
    rw [mem_cons, mem_filter, decide_eq_true_eq]
    tauto
  · rename_i hsus
    rw [mem_filter, decide_eq_true_eq]
    tauto

/-- One file of a rebuild, as a transcript with another file sees it. -/
theorem rebuildFile_other {C : Config} {q : JsString}
    (hnamed : ∀ sc, s.sidecars.get? q = some sc → NameId sc.transcriptId ∧ sc.transcriptId ≠ id) :
    Elsewhere id s (rebuildFile C env s q).1 := by
  rw [rebuildFile]
  split
  · exact .refl id s
  rename_i sc hsc
  obtain ⟨hname, hid⟩ := hnamed sc hsc
  split
  · exact .refl id s
  have hsus : id ∈ rebuiltSuspicion s q sc ↔ id ∈ s.unverifiedCursors := by
    rw [mem_rebuiltSuspicion, or_iff_right fun h => hid h.1.symm, and_iff_right hid.symm]
  split
  · rename_i index hentry
    simp only [rebuildEntry] at hentry
    split at hentry
    · obtain ⟨row, hstored, rfl⟩ := map_eq_some_iff.mp hentry
      refine ⟨rfl, rfl, rfl, ?_, hsus⟩
      have hrow : row.transcriptId = sc.transcriptId :=
        (stored_eq_some hstored).transcriptId.trans (hname.text _)
      rw [get?_upsert, get?_erase, hrow, if_neg hid.symm, if_neg hid.symm]
    · cases hentry
  · exact ⟨rfl, rfl, rfl, rfl, hsus⟩

/-- The file of the transcript itself. -/
theorem rebuildFile_own {C : Config} {sc : Sidecar} (hsc : s.sidecars.get? p = some sc)
    (hname : NameId sc.transcriptId)
    (h : ∀ r, s.index.rows.get? sc.transcriptId = some r → OfSidecar sc (s.sizeAt p) s r) :
    ∀ r, (rebuildFile C env s p).1.index.rows.get? sc.transcriptId = some r →
      OfSidecar sc (s.sizeAt p) (rebuildFile C env s p).1 r := by
  rw [rebuildFile, hsc]
  dsimp only
  split
  · exact h
  have hsus : sc.archiveBytes ≠ s.sizeAt p → sc.transcriptId ∈ rebuiltSuspicion s p sc :=
    fun hne => mem_rebuiltSuspicion.mpr (.inl ⟨rfl, .inr hne⟩)
  split
  · rename_i index hentry
    simp only [rebuildEntry] at hentry
    split at hentry
    · obtain ⟨row, hstored, rfl⟩ := map_eq_some_iff.mp hentry
      have hs := stored_eq_some hstored
      have hrow : row.transcriptId = sc.transcriptId := hs.transcriptId.trans (hname.text _)
      intro r hr
      rw [get?_upsert, hrow, if_pos rfl] at hr
      cases hr
      exact ⟨hs.bytesStored, hs.archiveBytes, hsus⟩
    · cases hentry
  · intro r hr
    exact ⟨(h r hr).stored, (h r hr).archived, hsus⟩

theorem rebuildFile_disk (C : Config) (env : Env) (s : State) (q : JsString) :
    (rebuildFile C env s q).1.files = s.files ∧
      (rebuildFile C env s q).1.sidecars = s.sidecars := by
  obtain ⟨_, _, _, heq⟩ := rebuildFile_reindexed C env s q
  rw [heq]
  exact ⟨rfl, rfl⟩

theorem rebuildFiles_safe {C : Config} {sc : Sidecar} {n : ℕ} (ps : List JsString)
    (hsc : s.sidecars.get? p = some sc) (hn : s.sizeAt p = n)
    (hnamed : ∀ q sc', s.sidecars.get? q = some sc' → NameId sc'.transcriptId ∧
      (sc'.transcriptId = sc.transcriptId → q = p))
    (h : ∀ r, s.index.rows.get? sc.transcriptId = some r → OfSidecar sc n s r) :
    ∀ r, (rebuildFiles C env ps s).index.rows.get? sc.transcriptId = some r →
      OfSidecar sc n (rebuildFiles C env ps s) r := by
  induction ps generalizing s with
  | nil => exact h
  | cons q ps ih =>
    have hone : ∀ r, (rebuildFile C env s q).1.index.rows.get? sc.transcriptId = some r →
        OfSidecar sc n (rebuildFile C env s q).1 r := by
      by_cases hq : q = p
      · rw [hq, ← hn]
        exact rebuildFile_own hsc (hnamed p sc hsc).1 (hn ▸ h)
      · have helse : Elsewhere sc.transcriptId s (rebuildFile C env s q).1 :=
          rebuildFile_other fun sc' hsc' =>
            ⟨(hnamed q sc' hsc').1, fun hid => hq ((hnamed q sc' hsc').2 hid)⟩
        intro r hr
        exact (h r (helse.row.symm.trans hr)).elsewhere helse
    obtain ⟨hfiles, hsidecars⟩ := rebuildFile_disk C env s q
    simp only [rebuildFiles]
    split
    · refine ih (hsidecars ▸ hsc) ?_ (hsidecars ▸ hnamed) hone
      rw [State.sizeAt, State.linesAt, hfiles]
      exact hn
    · exact hone

/-- A file that a rebuild takes in has its row, with a safe cursor, where its sidecar is the only one
of its transcript. -/
theorem rebuild_safe (C : Config) {sc : Sidecar} (hplaced : s.bare.layout.Placed)
    (hmode : s.index.mode = .sqlite) (hbinds : s.layout.Binds) (hsc : s.sidecars.get? p = some sc)
    (hfile : s.files.get? p = some (H.upTo (H.bytesStored i)))
    (honly : ∀ q sc', s.sidecars.get? q = some sc' → sc'.transcriptId = sc.transcriptId → q = p)
    (hshown : ¬ Hidden env s p) (hwrote : H.Wrote sc.bytesStored sc.archiveBytes) :
    ∃ row, (rebuildIndex C env s).index.rows.get? sc.transcriptId = some row ∧
      row.filePath = some p ∧ SafeCursor H i sc.transcriptId p (rebuildIndex C env s) row := by
  obtain ⟨_, _, _, hdisk⟩ := rebuildIndex_reindexed C env s
  have hlines : (rebuildIndex C env s).linesAt p = H.upTo (H.bytesStored i) := by
    rw [hdisk, State.linesAt, hfile, getD_some]
  have hsize : s.sizeAt p = fileBytes ((rebuildIndex C env s).linesAt p) := by
    rw [hlines, State.sizeAt, State.linesAt, hfile, getD_some]
  have hrows : ∀ r, (rebuildIndex C env s).index.rows.get? sc.transcriptId = some r →
      OfSidecar sc (s.sizeAt p) (rebuildIndex C env s) r := by
    rw [rebuildIndex, hmode]
    refine rebuildFiles_safe (walkJsonl env s) hsc rfl (fun q sc' hsc' => ⟨?_, honly q sc' hsc'⟩) ?_
    · exact (hplaced.signed (map_eq_some_iff.mpr ⟨sc', hsc', rfl⟩)).1
    · intro r hr
      cases hr
  have hfiled : (rebuildIndex C env s).layout.placement.filed sc.transcriptId = some p := by
    rw [rebuildIndex, hmode]
    have hnames : ∀ {i q}, s.layout.placement.signed q = some i → NameId i ∧ Canonical q := hplaced.signed
    refine rebuildFiles_filed hnames hbinds hmode (map_eq_some_iff.mpr ⟨sc, hsc, rfl⟩) hshown
      _ ⟨_, _, _, rfl⟩ (fun q _ hq => .inr ?_) (fun q hq => (mem_walkJsonl.mp hq).2)
      (.inl (mem_walkJsonl.mpr ⟨⟨_, hfile⟩, eq_false_of_ne_true fun hin => hshown (.inl hin)⟩))
    obtain ⟨sc', hsc', hid⟩ := map_eq_some_iff.mp hq
    exact honly q sc' hsc' hid
  obtain ⟨row, hrow, hpath⟩ := Option.bind_eq_some_iff.mp hfiled
  exact ⟨row, hrow, hpath, OfSidecar.safe hwrote hlines (hsize ▸ hrows row hrow)⟩

theorem backfillFile_eq {q : JsString} {sc : Sidecar} (hsc : s.sidecars.get? q = some sc) :
    (sc.transcriptId = [] ∨ isTenantPurged env (tenantOfHost sc.host) = true ∨
        (s.index.rows.get? sc.transcriptId).bind Row.filePath ≠ none) ∧ backfillFile env s q = s ∨
      (s.index.rows.get? sc.transcriptId).bind Row.filePath = none ∧
        ∃ n ops, backfillFile env s q = { s with
          unverifiedCursors := rebuiltSuspicion s q sc
          index := s.index.put (backfilledRow env s q sc n)
          indexOps := ops } := by
  rw [backfillFile, hsc]
  dsimp only
  split
  · rename_i hskip
    exact .inl ⟨hskip.imp_right .inl, rfl⟩
  split
  · rename_i hfiled
    exact .inl ⟨.inr (.inr (isSome_iff_ne_none.mp hfiled)), rfl⟩
  · rename_i hunfiled
    obtain ⟨ops, hops⟩ := mirrorSession_eq { s with
      unverifiedCursors := rebuiltSuspicion s q sc
      index := s.index.put (backfilledRow env s q sc _) } sc.transcriptId
    rw [hops]
    obtain ⟨ops', hops'⟩ := mirror_eq { s with
        unverifiedCursors := rebuiltSuspicion s q sc
        index := s.index.put (backfilledRow env s q sc _)
        indexOps := ops } ((firstCopies [] (s.linesAt q)).map fun l => searchEntry l.record) _
    exact .inr ⟨by simpa using hunfiled, _, ops', hops'⟩

theorem backfillFile_other {q : JsString}
    (hnamed : ∀ sc, s.sidecars.get? q = some sc → sc.transcriptId ≠ id) :
    Elsewhere id s (backfillFile env s q) := by
  cases hsc : s.sidecars.get? q with
  | none =>
    rw [backfillFile, hsc]
    exact .refl id s
  | some sc =>
    have hid := hnamed sc hsc
    rcases (backfillFile_eq hsc : _ ∧ backfillFile env s _ = s ∨ _) with ⟨-, heq⟩ | ⟨-, n, ops, heq⟩
    · rw [heq]
      exact .refl id s
    · rw [heq]
      refine ⟨rfl, rfl, put_mode _ _, ?_, ?_⟩
      · rw [put_rows, get?_upsert]
        exact if_neg fun h => hid h.symm
      · rw [mem_rebuiltSuspicion, or_iff_right fun h => hid h.1.symm, and_iff_right (Ne.symm hid)]

/-- The row that a backfill makes of a file. -/
theorem backfill_files {sc : Sidecar} {n : ℕ} (hid : sc.transcriptId ≠ [])
    (hlive : isTenantPurged env (tenantOfHost sc.host) = false) (ps : List JsString)
    (hsc : s.sidecars.get? p = some sc) (hn : s.sizeAt p = n)
    (honly : ∀ q sc', s.sidecars.get? q = some sc' → sc'.transcriptId = sc.transcriptId → q = p)
    (h : p ∈ ps ∧ (s.index.rows.get? sc.transcriptId).bind Row.filePath = none ∨
      ∃ r, s.index.rows.get? sc.transcriptId = some r ∧ r.filePath = some p ∧ OfSidecar sc n s r) :
    (ps.foldl (backfillFile env) s).files = s.files ∧
      ∃ r, (ps.foldl (backfillFile env) s).index.rows.get? sc.transcriptId = some r ∧
        r.filePath = some p ∧ OfSidecar sc n (ps.foldl (backfillFile env) s) r := by
  induction ps generalizing s with
  | nil => exact ⟨rfl, h.resolve_left fun h => not_mem_nil h.1⟩
  | cons q ps ih =>
    have hone : (backfillFile env s q).files = s.files ∧
        (backfillFile env s q).sidecars = s.sidecars ∧
        (p ∈ ps ∧ ((backfillFile env s q).index.rows.get? sc.transcriptId).bind Row.filePath = none ∨
          ∃ r, (backfillFile env s q).index.rows.get? sc.transcriptId = some r ∧
            r.filePath = some p ∧ OfSidecar sc n (backfillFile env s q) r) := by
      by_cases hq : q = p
      · subst hq
        rcases (backfillFile_eq hsc : _ ∧ backfillFile env s _ = s ∨ _) with
          ⟨hskip, heq⟩ | ⟨-, m, ops, heq⟩
        · -- it is left out only where its row has a file
          rw [heq]
          refine ⟨rfl, rfl, .inr (h.resolve_left fun h => ?_)⟩
          rcases hskip with hnil | hpurged | hfiled
          · exact hid hnil
          · exact absurd (hlive.symm.trans hpurged) Bool.false_ne_true
          · exact hfiled h.2
        · rw [heq]
          refine ⟨rfl, rfl, .inr ⟨backfilledRow env s q sc m, ?_, rfl, hn ▸ rfl, hn, fun hne => ?_⟩⟩
          · rw [put_rows, get?_upsert]
            exact if_pos rfl
          · exact mem_rebuiltSuspicion.mpr (.inl ⟨rfl, .inr (hn.symm ▸ hne)⟩)
      · have helse : Elsewhere sc.transcriptId s (backfillFile env s q) :=
          backfillFile_other fun sc' hsc' hid => hq (honly q sc' hsc' hid)
        refine ⟨helse.files, helse.sidecars, ?_⟩
        rw [helse.row]
        refine h.imp (fun h => ⟨(mem_cons.mp h.1).resolve_left (Ne.symm hq), h.2⟩) ?_
        exact fun ⟨r, hr, hpath, hrow⟩ => ⟨r, hr, hpath, hrow.elsewhere helse⟩
    obtain ⟨hfiles, hsidecars, hrows⟩ := hone
    have hrest := ih (hsidecars ▸ hsc) (by rwa [State.sizeAt, State.linesAt, hfiles])
      (hsidecars ▸ honly) hrows
    exact ⟨hrest.1.trans hfiles, hrest.2⟩

theorem backfill_safe {sc : Sidecar} (hplaced : s.bare.layout.Placed)
    (hsc : s.sidecars.get? p = some sc) (hfile : s.files.get? p = some (H.upTo (H.bytesStored i)))
    (honly : ∀ q sc', s.sidecars.get? q = some sc' → sc'.transcriptId = sc.transcriptId → q = p)
    (hshown : ¬ Hidden env s p) (hwrote : H.Wrote sc.bytesStored sc.archiveBytes)
    (hmode : s.index.mode = .pg)
    (hunfiled : (s.index.rows.get? sc.transcriptId).bind Row.filePath = none) :
    ∃ row, (backfillPgIndexFromFiles env s).index.rows.get? sc.transcriptId = some row ∧
      row.filePath = some p ∧ SafeCursor H i sc.transcriptId p (backfillPgIndexFromFiles env s) row := by
  have hid := (hplaced.signed (map_eq_some_iff.mpr ⟨sc, hsc, rfl⟩)).1.ne_nil
  have hlive := eq_false_of_ne_true fun hpurged => hshown (.inr ⟨sc, hsc, hpurged⟩)
  have hwalked : p ∈ walkJsonl env s :=
    mem_walkJsonl.mpr ⟨⟨_, hfile⟩, eq_false_of_ne_true fun hin => hshown (.inl hin)⟩
  obtain ⟨hfiles, row, hrow, hpath, hmade⟩ : (backfillPgIndexFromFiles env s).files = s.files ∧
      ∃ r, (backfillPgIndexFromFiles env s).index.rows.get? sc.transcriptId = some r ∧
        r.filePath = some p ∧ OfSidecar sc (s.sizeAt p) (backfillPgIndexFromFiles env s) r := by
    rw [backfillPgIndexFromFiles, hmode]
    exact backfill_files hid hlive (walkJsonl env s) hsc rfl honly (.inl ⟨hwalked, hunfiled⟩)
  have hlines : (backfillPgIndexFromFiles env s).linesAt p = H.upTo (H.bytesStored i) := by
    rw [State.linesAt, hfiles, hfile, getD_some]
  rw [show s.sizeAt p = fileBytes ((backfillPgIndexFromFiles env s).linesAt p) by
    rw [hlines, State.sizeAt, State.linesAt, hfile, getD_some]] at hmade
  exact ⟨row, hrow, hpath, OfSidecar.safe hwrote hlines hmade⟩

/-- Whatever times the sidecar and the row are of, the cursor that a boot takes skips nothing, and
what it can bring again is checked against the file. A file that no purge hides gets its row from
either rebuild, with such a cursor. -/
theorem cursors_safe (C : Config) (env : Env) {s : State} {H : History} {i : ℕ} {p : JsString}
    (hplaced : s.bare.layout.Placed)
    (hfile : s.files.get? p = some (H.upTo (H.bytesStored i)))
    (hsidecar : ∀ sc ∈ s.sidecars.get? p, H.Wrote sc.bytesStored sc.archiveBytes) :
    (∀ id row, s.index.rows.get? id = some row → row.filePath = some p →
      (H.Wrote row.bytesStored row.archiveBytes ∨ row.bytesStored = 0 ∧ row.archiveBytes = 0) →
      ∃ row', (reconcileHydratedCursors env s).index.rows.get? id = some row' ∧
        SafeCursor H i id p (reconcileHydratedCursors env s) row') ∧
    ∀ sc, s.sidecars.get? p = some sc →
      (∀ q sc', s.sidecars.get? q = some sc' → sc'.transcriptId = sc.transcriptId → q = p) →
      ¬ Hidden env s p →
      (s.index.mode = .sqlite → s.layout.Binds → ∃ row,
        (rebuildIndex C env s).index.rows.get? sc.transcriptId = some row ∧ row.filePath = some p ∧
          SafeCursor H i sc.transcriptId p (rebuildIndex C env s) row) ∧
      (s.index.mode = .pg → (s.index.rows.get? sc.transcriptId).bind Row.filePath = none → ∃ row,
        (backfillPgIndexFromFiles env s).index.rows.get? sc.transcriptId = some row ∧
          row.filePath = some p ∧
            SafeCursor H i sc.transcriptId p (backfillPgIndexFromFiles env s) row) := by
  refine ⟨fun id row hrow hfiled hwrote => ?_, fun sc hsc honly hshown => ⟨?_, ?_⟩⟩
  · exact reconcile_safe hplaced.keyed hrow hfiled hfile hsidecar hwrote
  · exact fun hmode hbinds =>
      rebuild_safe C hplaced hmode hbinds hsc hfile honly hshown (hsidecar sc hsc)
  · exact fun hmode hunfiled =>
      backfill_safe hplaced hsc hfile honly hshown (hsidecar sc hsc) hmode hunfiled

theorem placed_bare {s : State} (h : s.layout.Placed) : s.bare.layout.Placed where
  sound := ⟨fun hi hj => h.sound.apart hi hj, fun hi hj => h.sound.named hi hj, fun hh => by
    obtain ⟨lines, hl, -⟩ := hh
    exact absurd hl (by simp [State.bare, State.layout])⟩
  keyed hr := h.keyed hr
  filed hf := h.filed hf
  signed hs := h.signed hs
  indexed hm := h.indexed hm

def behindHistory : History where
  source := [(5, ⟨recordOf (sentEntry "u" "x"), ofString "t1"⟩),
    (10, ⟨recordOf (sentEntry "v" "y"), ofString "t1"⟩)]
  bytesStored i := if i = 0 then 5 else 10
  archiveBytes i := if i = 0 then lineBytes (recordOf (sentEntry "u" "x"))
    else lineBytes (recordOf (sentEntry "u" "x")) + lineBytes (recordOf (sentEntry "v" "y"))
  ordered := by decide
  positive := by decide
  stored_mono := monotone_nat_of_le_succ fun n => by
    rw [if_neg (Nat.succ_ne_zero n)]
    split <;> decide
  archived_mono := monotone_nat_of_le_succ fun n => by
    rw [if_neg (Nat.succ_ne_zero n)]
    split
    · exact Nat.le_add_right _ _
    · exact le_refl _
  size i := by
    split <;> decide

theorem binds_behind : behindStore.layout.Binds := by
  have hlines : behindStore.files.entries.all (fun e =>
      e.2.all fun l => (searchEntry l.record).bindable) = true := by decide
  have hdata : behindStore.sidecars.entries.all (fun e =>
      (e.2.data.map orNull).values.all bindable) = true := by decide
  rw [List.all_eq_true] at hlines hdata
  exact ⟨fun _ _ _ hl l hmem => List.all_eq_true.mp (hlines _ (get?_eq_some.mp hl)) l hmem,
    fun _ _ _ hsc v hv => List.all_eq_true.mp (hdata _ (get?_eq_some.mp hsc)) v hv⟩

theorem placed_unfiled {s : State} (h : s.bare.layout.Placed) (mode : Mode) :
    (State.bare { s with index := (emptyStore mode).index }).layout.Placed where
  sound := ⟨fun hi => absurd hi (Option.some_ne_none _).symm,
    fun hi => absurd hi (Option.some_ne_none _).symm, h.sound.own⟩
  keyed hr := absurd hr (Option.some_ne_none _).symm
  filed hf := absurd hf (Option.some_ne_none _).symm
  signed := h.signed
  indexed _ _ _ := ⟨fun hi => absurd hi (Option.some_ne_none _).symm,
    fun hf => absurd hf (Option.some_ne_none _).symm⟩

/-- The same disk beside a table that was lost. -/
def unfiledStore : State := { behindStore with index := (emptyStore .pg).index }

/-- The file has an entry more than its sidecar and its row know: reconciled, rebuilt, and filed
again. -/
theorem cursors_safe_behind :
    (∃ row', (reconcileHydratedCursors quietEnv behindStore).index.rows.get?
        (ofString "t1") = some row' ∧
      SafeCursor behindHistory 1 (ofString "t1") sentPath
        (reconcileHydratedCursors quietEnv behindStore) row') ∧
    (∃ row, (rebuildIndex openConfig quietEnv behindStore).index.rows.get?
        (ofString "t1") = some row ∧ row.filePath = some sentPath ∧
      SafeCursor behindHistory 1 (ofString "t1") sentPath
        (rebuildIndex openConfig quietEnv behindStore) row) ∧
    ∃ row, (backfillPgIndexFromFiles quietEnv unfiledStore).index.rows.get?
        (ofString "t1") = some row ∧ row.filePath = some sentPath ∧
      SafeCursor behindHistory 1 (ofString "t1") sentPath
        (backfillPgIndexFromFiles quietEnv unfiledStore) row := by
  have hplaced : behindStore.bare.layout.Placed := by
    have hchunk : (ingestChunk openConfig quietEnv (emptyStore .sqlite)
        (sentChunk 0 5 [sentEntry "u" "x"])).1.layout.Placed :=
      placed_ingestChunk (placed_empty .sqlite) (named_blankChunk "one")
    have hbare := placed_bare hchunk
    exact hbare
  have hfile : behindStore.files.get? sentPath =
      some (behindHistory.upTo (behindHistory.bytesStored 1)) := by decide
  have hwrote : behindHistory.Wrote 5 (lineBytes (recordOf (sentEntry "u" "x"))) := ⟨0, rfl, rfl⟩
  have hsc : behindStore.sidecars.entries.all (fun e => e.1 = sentPath ∧
      e.2.transcriptId = ofString "t1" ∧ e.2.bytesStored = 5 ∧
        e.2.archiveBytes = lineBytes (recordOf (sentEntry "u" "x"))) = true := by decide
  have hsigned : (behindStore.sidecars.get? sentPath).isSome = true := by decide
  have hrow : (behindStore.index.rows.get? (ofString "t1")).any (fun row =>
      row.filePath = some sentPath ∧ row.bytesStored = 5 ∧
        row.archiveBytes = lineBytes (recordOf (sentEntry "u" "x"))) = true := by decide
  rw [List.all_eq_true] at hsc
  rw [Option.any_eq_true] at hrow
  obtain ⟨row, hget, hfields⟩ := hrow
  obtain ⟨hfiled, hstored, harchived⟩ := of_decide_eq_true hfields
  obtain ⟨sc, hsome⟩ := Option.isSome_iff_exists.mp hsigned
  have hone : ∀ q sc, behindStore.sidecars.get? q = some sc → q = sentPath ∧
      sc.transcriptId = ofString "t1" ∧ behindHistory.Wrote sc.bytesStored sc.archiveBytes := by
    intro q sc hget
    obtain ⟨hq, hid, hstored, harchived⟩ := of_decide_eq_true (hsc _ (get?_eq_some.mp hget))
    exact ⟨hq, hid, hstored.symm ▸ harchived.symm ▸ hwrote⟩
  have honly : ∀ q sc', behindStore.sidecars.get? q = some sc' →
      sc'.transcriptId = sc.transcriptId → q = sentPath := fun q sc' h _ => (hone q sc' h).1
  have hsafe := cursors_safe openConfig quietEnv hplaced hfile fun sc hget => (hone _ sc hget).2.2
  have hunfiled := (cursors_safe openConfig quietEnv (placed_unfiled hplaced .pg) hfile
    fun sc hget => (hone _ sc hget).2.2).2 sc hsome honly (not_hidden purged_quiet _ _)
  have hrebuilt := (hsafe.2 sc hsome honly (not_hidden purged_quiet _ _)).1 rfl binds_behind
  have hfiledAgain := hunfiled.2 rfl rfl
  rw [(hone _ sc hsome).2.1] at hrebuilt hfiledAgain
  exact ⟨hsafe.1 _ row hget hfiled (.inl (hstored.symm ▸ harchived.symm ▸ hwrote)), hrebuilt,
    hfiledAgain⟩

end Turma.Archive
