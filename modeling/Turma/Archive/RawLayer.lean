import Turma.Archive.Order
import Turma.Archive.Owner

/-! The raw layer on a disk that fails: what a push leaves of its file when the size cannot be read,
when the write stops half way and when the file appears underneath it. -/

namespace Turma.Archive

open Turma.Lib Turma.Tenancy List Option OrdMap JsString

inductive RawWrite
  | whole
  | stops (n : ℕ)
  | refused
  | taken (bytes : List UInt8)

/-- What the disk does during a push. `unreadable` is a stat that fails with anything but
`ENOENT`. -/
structure RawDisk where
  unreadable : Bool
  write : RawWrite

inductive RawOutcome
  | done
  | failed
  | exists'

/-- `rawCursor`: the size of the file, `none` where that cannot be told. -/
def rawCursor (env : Env) (disk : RawDisk) (s : State) (k : RawKey) : Option ℕ :=
  if env.rawPending k = true ∨ disk.unreadable = true then none else some (s.rawSize k)

def rawWrite (raw : OrdMap RawKey (List UInt8)) (k : RawKey) (size : ℕ) (buf : List UInt8)
    (w : RawWrite) : OrdMap RawKey (List UInt8) × RawOutcome :=
  if size = 0 then
    match raw.get? k, w with
    | some _, _ => (raw, .exists')
    | none, .taken bytes => (raw.upsert k fun _ => bytes, .exists')
    | none, .refused => (raw, .failed)
    | none, .stops n => (raw.upsert k fun old => old.getD [] ++ buf.take n, .failed)
    | none, .whole => (raw.upsert k fun old => old.getD [] ++ buf, .done)
  else
    match w with
    | .refused => (raw, .failed)
    | .stops n => (raw.upsert k fun old => old.getD [] ++ buf.take n, .failed)
    | .whole | .taken _ => (raw.upsert k fun old => old.getD [] ++ buf, .done)

/-- `ingestRaw` on a disk that may fail. -/
def ingestRawOn (C : Config) (env : Env) (disk : RawDisk) (s : State) (p : RawPush) :
    State × RawReply :=
  match s.index.get p.transcriptId with
  | none => (s, ⟨0, false, true⟩)
  | some row =>
    match row.filePath with
    | none => (s, ⟨0, false, true⟩)
    | some relPath =>
      if row.host = none ∨ row.host = some [] ∨ row.host ≠ some p.host then (s, ⟨0, false, true⟩)
      else match rawFilePath relPath p.transcriptId p.rel with
        | none => (s, ⟨0, false, true⟩)
        | some path =>
          let k : RawKey := (relPath, p.transcriptId, p.rel)
          match rawCursor env disk s k with
          | none => (s, ⟨0, false, true⟩)
          | some stored =>
            if p.start ≠ some (stored : ℚ) then (s, ⟨stored, false, false⟩)
            else if p.buf = [] then (s, ⟨stored, false, false⟩)
            else if maxTranscriptBytes < stored + p.buf.length then (s, ⟨stored, false, true⟩)
            else
              let (s, full) := ceilingRefuses C env (tenantOfHostKey p.host) s
              if full = true then (s, ⟨stored, true, false⟩)
              else
                let rawBytes := s.rawLayerBytes env relPath
                if 0 < C.rawTranscriptMax ∧ C.rawTranscriptMax ≤ rawBytes then
                  (s, ⟨stored, false, true⟩)
                else
                  let w := rawWrite s.raw k stored p.buf disk.write
                  match w.2 with
                  | .done =>
                    (writeRaw env s row k path p.buf rawBytes, ⟨stored + p.buf.length, false, false⟩)
                  | .failed => ({ s with raw := w.1 }, ⟨stored, false, true⟩)
                  | .exists' =>
                    let s := { s with raw := w.1 }
                    (s, ⟨s.rawSize k, false, false⟩)

def pushKey (s : State) (p : RawPush) : Option RawKey :=
  ((s.index.get p.transcriptId).bind Row.filePath).map fun relPath =>
    (relPath, p.transcriptId, p.rel)

def State.rawHeld (s : State) (k : RawKey) : List UInt8 := (s.raw.get? k).getD []

theorem rawSize_eq (s : State) (k : RawKey) : s.rawSize k = (s.rawHeld k).length := by
  rw [State.rawSize, State.rawHeld]
  cases s.raw.get? k <;> rfl

theorem rawWrite_other {raw : OrdMap RawKey (List UInt8)} {k k' : RawKey} {size : ℕ}
    {buf : List UInt8} {w : RawWrite} (h : k' ≠ k) :
    (rawWrite raw k size buf w).1.get? k' = raw.get? k' := by
  unfold rawWrite
  split <;> split <;> first | rfl | exact (get?_upsert _ _ _ _).trans (if_neg h)

/-- What a write leaves of its file: as it was, with the start of the bytes after it, or as another
writer made it. -/
theorem rawWrite_own {raw : OrdMap RawKey (List UInt8)} {k : RawKey} {size : ℕ} {buf : List UInt8}
    {w : RawWrite} :
    (rawWrite raw k size buf w).1.get? k = raw.get? k ∨
      (∃ n, (rawWrite raw k size buf w).1.get? k = some ((raw.get? k).getD [] ++ buf.take n)) ∨
      ∃ bytes, w = .taken bytes ∧ size = 0 ∧ (rawWrite raw k size buf w).1.get? k = some bytes := by
  have hwhole : ∀ m : OrdMap RawKey (List UInt8),
      (m.upsert k fun old => old.getD [] ++ buf).get? k =
        some ((m.get? k).getD [] ++ buf.take buf.length) := by
    intro m
    rw [get?_upsert, if_pos rfl, take_length]
  unfold rawWrite
  split
  · rename_i hzero
    split
    · exact .inl rfl
    · exact .inr (.inr ⟨_, rfl, hzero, (get?_upsert _ _ _ _).trans (if_pos rfl)⟩)
    · exact .inl rfl
    · exact .inr (.inl ⟨_, (get?_upsert _ _ _ _).trans (if_pos rfl)⟩)
    · exact .inr (.inl ⟨_, hwhole raw⟩)
  · split
    · exact .inl rfl
    · exact .inr (.inl ⟨_, (get?_upsert _ _ _ _).trans (if_pos rfl)⟩)
    · exact .inr (.inl ⟨_, hwhole raw⟩)
    · exact .inr (.inl ⟨_, hwhole raw⟩)

theorem rawWrite_done {raw : OrdMap RawKey (List UInt8)} {k : RawKey} {size : ℕ} {buf : List UInt8}
    {w : RawWrite} (h : (rawWrite raw k size buf w).2 = .done) :
    (rawWrite raw k size buf w).1 = raw.upsert k fun old => old.getD [] ++ buf := by
  unfold rawWrite at h ⊢
  split at h
  · rename_i hzero
    rw [if_pos hzero]
    split at h <;> first | rfl | cases h
  · rename_i hpos
    rw [if_neg hpos]
    split at h <;> first | rfl | cases h

/-- A write that goes wrong takes nothing away. -/
theorem rawWrite_grows {raw : OrdMap RawKey (List UInt8)} {k : RawKey} {size : ℕ} {buf : List UInt8}
    {w : RawWrite} (h : (rawWrite raw k size buf w).2 = .failed) :
    ((raw.get? k).getD []).length ≤ (((rawWrite raw k size buf w).1.get? k).getD []).length := by
  rcases @rawWrite_own raw k size buf w with heq | ⟨n, heq⟩ | ⟨bytes, rfl, rfl, -⟩
  · rw [heq]
  · rw [heq, getD_some, length_append]
    exact Nat.le_add_right _ _
  · unfold rawWrite at h
    rw [if_pos rfl] at h
    cases hget : raw.get? k <;> simp [hget] at h

/-- A walk of the store leaves the raw files that are in no purged partition. -/
theorem measured_raw {C : Config} {env : Env} {host : JsString} {s : State} {k : RawKey}
    (h : inPurged env k.1 = false) : (measured C env host s).raw.get? k = s.raw.get? k := by
  have hwalk : (walked env s).raw.get? k = s.raw.get? k := by
    change (s.raw.filterKeys fun k => !inPurged env k.1).get? k = _
    rw [get?_filterKeys, if_pos (by rw [h]; rfl)]
  rw [measured, totalForCeiling, totalArchiveBytes]
  split
  · rfl
  · rw [walkStore, maybeReclaimIndex]
    split
    · obtain ⟨_, _, _, heq⟩ := rebuildIndex_reindexed C env
        { walked env s with lastReclaimAt := env.now }
      rw [heq]
      exact hwalk
    · exact hwalk

theorem measured_blobOps (C : Config) (env : Env) (host : JsString) (s : State) :
    (measured C env host s).blobOps = s.blobOps := by
  rw [measured, totalForCeiling, totalArchiveBytes]
  split
  · rfl
  · rw [walkStore, maybeReclaimIndex]
    split
    · obtain ⟨_, _, _, heq⟩ := rebuildIndex_reindexed C env
        { walked env s with lastReclaimAt := env.now }
      rw [heq]
      rfl
    · rfl

/-- A push that stores nothing: it is told 0, or the size of its file. -/
structure RawIdle (C : Config) (env : Env) (s : State) (p : RawPush) (r : State × RawReply) :
    Prop where
  state : r.1 = s ∨ r.1 = measured C env p.host s
  reply : r.2.stored = 0 ∨ ∃ k, pushKey s p = some k ∧ r.2.stored = s.rawSize k

structure RawTried (C : Config) (env : Env) (disk : RawDisk) (s : State) (p : RawPush) (k : RawKey)
    (r : State × RawReply) : Prop where
  key : pushKey s p = some k
  clear : env.rawPending k = false
  readable : disk.unreadable = false
  start : p.start = some (s.rawSize k : ℚ)
  raw : r.1.raw = (rawWrite (measured C env p.host s).raw k (s.rawSize k) p.buf disk.write).1
  reply : match (rawWrite (measured C env p.host s).raw k (s.rawSize k) p.buf disk.write).2 with
    | .done => r.2.stored = s.rawSize k + p.buf.length
    | .failed => r.2.stored = s.rawSize k
    | .exists' => r.2.stored = r.1.rawSize k

theorem ingestRawOn_cases (C : Config) (env : Env) (disk : RawDisk) (s : State) (p : RawPush) :
    RawIdle C env s p (ingestRawOn C env disk s p) ∨
      ∃ k, RawTried C env disk s p k (ingestRawOn C env disk s p) := by
  generalize hr : ingestRawOn C env disk s p = r
  simp only [ingestRawOn] at hr
  split at hr
  · exact .inl ⟨.inl (by rw [← hr]), .inl (by rw [← hr])⟩
  rename_i row hrow
  split at hr
  · exact .inl ⟨.inl (by rw [← hr]), .inl (by rw [← hr])⟩
  rename_i relPath hfiled
  have hkey : pushKey s p = some (relPath, p.transcriptId, p.rel) := by
    rw [pushKey, hrow, bind_some, hfiled, map_some]
  split at hr
  · exact .inl ⟨.inl (by rw [← hr]), .inl (by rw [← hr])⟩
  split at hr
  · exact .inl ⟨.inl (by rw [← hr]), .inl (by rw [← hr])⟩
  rename_i path _
  split at hr
  · exact .inl ⟨.inl (by rw [← hr]), .inl (by rw [← hr])⟩
  rename_i stored hcursor
  rw [rawCursor] at hcursor
  split at hcursor
  · cases hcursor
  rename_i hcan
  rw [not_or] at hcan
  cases hcursor
  have hheld : ∀ {full skip}, r.2 = ⟨s.rawSize (relPath, p.transcriptId, p.rel), full, skip⟩ →
      r.2.stored = 0 ∨ ∃ k, pushKey s p = some k ∧ r.2.stored = s.rawSize k := fun h =>
    .inr ⟨_, hkey, by rw [h]⟩
  split at hr
  · exact .inl ⟨.inl (by rw [← hr]), hheld (by rw [← hr])⟩
  rename_i hstart
  split at hr
  · exact .inl ⟨.inl (by rw [← hr]), hheld (by rw [← hr])⟩
  split at hr
  · exact .inl ⟨.inl (by rw [← hr]), hheld (by rw [← hr])⟩
  split at hr
  · exact .inl ⟨.inr (by rw [← hr]; rfl), hheld (by rw [← hr])⟩
  split at hr
  · exact .inl ⟨.inr (by rw [← hr]; rfl), hheld (by rw [← hr])⟩
  have htried : ∀ {raw}, r.1.raw = raw → raw = (rawWrite (measured C env p.host s).raw
      (relPath, p.transcriptId, p.rel) (s.rawSize (relPath, p.transcriptId, p.rel)) p.buf
        disk.write).1 → _ → RawTried C env disk s p (relPath, p.transcriptId, p.rel) r :=
    fun hraw hwritten hreply => ⟨hkey, eq_false_of_ne_true hcan.1, eq_false_of_ne_true hcan.2,
      not_not.mp hstart, hraw.trans hwritten, hreply⟩
  refine .inr ⟨(relPath, p.transcriptId, p.rel), ?_⟩
  simp only [ceilingRefuses_fst] at hr
  split at hr
  · rename_i houtcome
    obtain ⟨ops, hwrite⟩ := writeRaw_eq env (measured C env p.host s) row
      (relPath, p.transcriptId, p.rel) path p.buf
      ((measured C env p.host s).rawLayerBytes env relPath)
    refine htried rfl ?_ ?_
    · rw [← hr, rawWrite_done houtcome]
      exact congrArg State.raw hwrite
    · rw [show (rawWrite _ _ _ _ _).2 = _ from houtcome, ← hr]
  · rename_i houtcome
    refine htried rfl ?_ ?_
    · rw [← hr]
    · rw [show (rawWrite _ _ _ _ _).2 = _ from houtcome, ← hr]
  · rename_i houtcome
    refine htried rfl ?_ ?_
    · rw [← hr]
    · rw [show (rawWrite _ _ _ _ _).2 = _ from houtcome, ← hr]

/-- On a disk that works, and without a file of no bytes, a push goes as `ingestRaw` has it. -/
theorem ingestRawOn_whole (C : Config) (env : Env) {s : State} {p : RawPush}
    (hsome : ∀ k, (measured C env p.host s).raw.get? k = s.raw.get? k ∧ s.raw.get? k ≠ some []) :
    ingestRawOn C env ⟨false, .whole⟩ s p = ingestRaw C env s p := by
  have hdone : ∀ k, (rawWrite (measured C env p.host s).raw k (s.rawSize k) p.buf .whole).2 =
      .done := by
    intro k
    obtain ⟨hsame, hnot⟩ := hsome k
    unfold rawWrite
    split
    · rename_i hzero
      rw [rawSize_eq, State.rawHeld, length_eq_zero_iff] at hzero
      rw [hsame]
      cases hget : s.raw.get? k with
      | none => rfl
      | some bytes =>
        rw [hget, getD_some] at hzero
        exact absurd (hget.trans (congrArg some hzero)) hnot
    · rfl
  simp only [ingestRawOn, ingestRaw, rawCursor, Bool.false_eq_true, or_false]
  cases s.index.get p.transcriptId with
  | none => rfl
  | some row =>
    dsimp only
    cases row.filePath with
    | none => rfl
    | some relPath =>
      refine if_congr Iff.rfl rfl ?_
      cases rawFilePath relPath p.transcriptId p.rel with
      | none => rfl
      | some path =>
        by_cases hpending : env.rawPending (relPath, p.transcriptId, p.rel) = true
        · simp only [if_pos hpending]
        · simp only [if_neg hpending, ceilingRefuses_fst, hdone]
          rfl

/-- What a push keeps to: it stores only at the end of its file, is never told more than the file
has, and leaves a file that is still in the bucket alone, with nothing for the bucket. -/
structure PushSound (C : Config) (env : Env) (disk : RawDisk) (s : State) (p : RawPush)
    (k : RawKey) : Prop where
  stored : (ingestRawOn C env disk s p).1.raw.get? k ≠ s.raw.get? k →
    p.start = some (s.rawSize k : ℚ)
  reply : (ingestRawOn C env disk s p).2.stored ≤ (ingestRawOn C env disk s p).1.rawSize k
  pending : env.rawPending k = true → (ingestRawOn C env disk s p).1.raw.get? k = s.raw.get? k ∧
    (ingestRawOn C env disk s p).1.blobOps = s.blobOps

theorem push_sound {C : Config} {env : Env} {disk : RawDisk} {s : State} {p : RawPush} {k : RawKey}
    (hkey : pushKey s p = some k) (hlive : inPurged env k.1 = false) :
    PushSound C env disk s p k := by
  have hmeasured : (measured C env p.host s).raw.get? k = s.raw.get? k := measured_raw hlive
  rcases ingestRawOn_cases C env disk s p with hidle | ⟨k', htried⟩
  · have hraw : (ingestRawOn C env disk s p).1.raw.get? k = s.raw.get? k := by
      rcases hidle.state with h | h <;> rw [h]
      exact hmeasured
    refine ⟨fun hne => absurd hraw hne, ?_, fun _ => ⟨hraw, ?_⟩⟩
    · rcases hidle.reply with hzero | ⟨k', hk', hsize⟩
      · rw [hzero]
        exact Nat.zero_le _
      · obtain rfl := some.inj (hk'.symm.trans hkey)
        rw [hsize, State.rawSize, State.rawSize, hraw]
    · rcases hidle.state with h | h <;> rw [h]
      exact measured_blobOps C env p.host s
  · obtain rfl := some.inj (htried.key.symm.trans hkey)
    refine ⟨fun _ => htried.start, ?_, fun hpending => ?_⟩
    · have hreply := htried.reply
      split at hreply
      · rename_i hdone
        rw [hreply, rawSize_eq (ingestRawOn C env disk s p).1, State.rawHeld, htried.raw,
          rawWrite_done hdone, get?_upsert, if_pos rfl, hmeasured, getD_some,
          length_append, rawSize_eq, State.rawHeld]
      · rename_i hfailed
        have hgrows := rawWrite_grows hfailed
        rw [hmeasured] at hgrows
        rw [hreply, rawSize_eq, rawSize_eq, State.rawHeld, State.rawHeld, htried.raw]
        exact hgrows
      · exact hreply.le
    · exact absurd (hpending.symm.trans htried.clear) (by simp)

def Slice (source : List UInt8) (p : RawPush) : Prop :=
  ∀ n : ℕ, p.start = some (n : ℚ) → p.buf <+: source.drop n

/-- A run as one raw file sees it: pushes, the copy of the bucket that lands, and calls and deletions
that leave the file as it is or take it away. No tenant is purged in it. -/
inductive RawRun (C : Config) (source : List UInt8) (k : RawKey) : State → State → Prop
  | done (s : State) : RawRun C source k s s
  | push {env : Env} {disk : RawDisk} {s s' : State} {p : RawPush} : inPurged env k.1 = false →
    (pushKey s p = some k → Slice source p ∧
      ∀ bytes, disk.write = .taken bytes → bytes <+: source) →
    RawRun C source k (ingestRawOn C env disk s p).1 s' → RawRun C source k s s'
  | fetched {s t s' : State} {bytes : List UInt8} : t.raw.get? k = some bytes → bytes <+: source →
    RawRun C source k t s' → RawRun C source k s s'
  | aside {s t s' : State} : t.raw.get? k = s.raw.get? k ∨ t.raw.get? k = none →
    RawRun C source k t s' → RawRun C source k s s'

/-! What a migration and an operator do is aside of the file, or takes it away. -/

theorem moveOwner_raw (C : Config) (env : Env) (s : State) (row : Row) (id : JsString)
    (host siteKey : Option JsString) : (moveOwner C env s row id host siteKey).raw = s.raw := by
  rcases moveOwner_cases C env s row id host siteKey with heq | ⟨_, _, _, -, heq⟩ <;> rw [heq]

theorem restampOrg_raw (C : Config) (env : Env) (s : State) (id siteKey : JsString)
    (host : Option JsString) : (restampOrg C env s id siteKey host).1.raw = s.raw := by
  rw [restampOrg]
  split
  · rfl
  · exact moveOwner_raw C env s _ id _ _

theorem rekeyOwner_raw (C : Config) (env : Env) (s : State) (id host : JsString)
    (siteKey : Option JsString) : (rekeyOwner C env s id host siteKey).1.raw = s.raw := by
  rw [rekeyOwner]
  split
  · rfl
  · dsimp only
    split
    · rfl
    · exact moveOwner_raw C env s _ id _ _

theorem deleteFiles_raw (s : State) (files sidecars : List JsString) (raw : List RawKey)
    (k : RawKey) : (deleteFiles s files sidecars raw).raw.get? k = s.raw.get? k ∨
      (deleteFiles s files sidecars raw).raw.get? k = none := by
  rw [deleteFiles, get?_filterKeys]
  split
  · exact .inl rfl
  · exact .inr rfl

/-- One push keeps the file a prefix of the source. -/
theorem push_cut {C : Config} {env : Env} {disk : RawDisk} {s : State} {p : RawPush} {k : RawKey}
    {source : List UInt8} (hlive : inPurged env k.1 = false)
    (hpush : pushKey s p = some k → Slice source p ∧
      ∀ bytes, disk.write = .taken bytes → bytes <+: source) (h : s.rawHeld k <+: source) :
    (ingestRawOn C env disk s p).1.rawHeld k <+: source := by
  have hmeasured : (measured C env p.host s).raw.get? k = s.raw.get? k := measured_raw hlive
  rcases ingestRawOn_cases C env disk s p with hidle | ⟨k', htried⟩
  · rcases hidle.state with heq | heq
    · rwa [heq]
    · rwa [heq, State.rawHeld, hmeasured]
  · rw [State.rawHeld, htried.raw]
    by_cases hk : k = k'
    · subst hk
      obtain ⟨hslice, htaken⟩ := hpush htried.key
      rcases @rawWrite_own (measured C env p.host s).raw k (s.rawSize k) p.buf disk.write with
        heq | ⟨n, heq⟩ | ⟨bytes, hdisk, -, heq⟩
      · rwa [heq, hmeasured]
      · rw [heq, hmeasured, getD_some]
        obtain ⟨rest, hrest⟩ := h
        have hbuf := (List.take_prefix n p.buf).trans (hslice _ htried.start)
        rw [rawSize_eq, ← hrest, drop_left] at hbuf
        rw [← hrest]
        exact (prefix_append_right_inj _).mpr hbuf
      · rw [heq]
        exact htaken bytes hdisk
    · rwa [rawWrite_other hk, hmeasured]

theorem RawRun.cut {C : Config} {source : List UInt8} {k : RawKey} {s s' : State}
    (hrun : RawRun C source k s s') (h : s.rawHeld k <+: source) : s'.rawHeld k <+: source := by
  induction hrun with
  | done => exact h
  | push hlive hpush _ ih => exact ih (push_cut hlive hpush h)
  | fetched hget hbytes _ ih =>
    refine ih ?_
    rw [State.rawHeld, hget]
    exact hbytes
  | aside hsame _ ih =>
    refine ih ?_
    rcases hsame with hsame | hgone
    · rwa [State.rawHeld, hsame]
    · rw [State.rawHeld, hgone]
      exact List.nil_prefix

/-- The raw file is a prefix of its source in every state of a run, and every push keeps to it. -/
theorem raw_prefix {C : Config} {source : List UInt8} {k : RawKey} {s s' : State}
    (hrun : RawRun C source k s s') (h : s.rawHeld k <+: source) :
    s'.rawHeld k <+: source ∧ ∀ env disk p, pushKey s' p = some k → inPurged env k.1 = false →
      PushSound C env disk s' p k :=
  ⟨hrun.cut h, fun _ _ _ hkey hlive => push_sound hkey hlive⟩

def rawPart (host : String) (start : ℚ) (buf : List UInt8) : RawPush :=
  { rawByte host start with buf := buf }

def rawMain : RawKey :=
  (ofString "r/undated__one__h__t1.jsonl", ofString "t1",
    ofString "main.jsonl")

def unfetchedStore : State :=
  (ingestChunk openConfig quietEnv (emptyStore .sqlite) (blankChunk "one")).1

/-- The store after a push whose write stopped after a byte, with the session moved to the host
`k`. -/
def tornStore : State :=
  (restampOrg openConfig quietEnv (ingestRawOn openConfig quietEnv ⟨false, .stops 1⟩ unfetchedStore
    (rawPart "h" 0 [65, 66])).1 (ofString "t1") [] (some (ofString "k"))).1

theorem slice_rawPart {source : List UInt8} {host : String} {n : ℕ} {buf : List UInt8}
    (h : buf <+: source.drop n) : Slice source (rawPart host n buf) := by
  intro m hm
  have hn : (n : ℚ) = m := some.inj hm
  obtain rfl : n = m := by exact_mod_cast hn
  exact h

theorem raw_prefix_torn :
    ((ingestRawOn openConfig quietEnv ⟨false, .whole⟩ tornStore
        (rawPart "k" (1 : ℕ) [66, 67])).1.rawHeld rawMain <+: [65, 66, 67] ∧
      PushSound openConfig quietEnv ⟨false, .whole⟩ (ingestRawOn openConfig quietEnv ⟨false, .whole⟩
        tornStore (rawPart "k" (1 : ℕ) [66, 67])).1 (rawPart "k" 0 [65]) rawMain) := by
  have hrun : RawRun openConfig [65, 66, 67] rawMain unfetchedStore
      (ingestRawOn openConfig quietEnv ⟨false, .whole⟩ tornStore
        (rawPart "k" (1 : ℕ) [66, 67])).1 := by
    refine @RawRun.push _ _ _ quietEnv ⟨false, .stops 1⟩ _ _ (rawPart "h" (0 : ℕ) [65, 66]) rfl
      (fun _ => ⟨slice_rawPart (by decide), fun _ h => nomatch h⟩) ?_
    refine .aside (t := tornStore) (.inl ?_) (@RawRun.push _ _ _ quietEnv ⟨false, .whole⟩ _ _
      (rawPart "k" (1 : ℕ) [66, 67]) rfl
      (fun _ => ⟨slice_rawPart (by decide), fun _ h => nomatch h⟩) (.done _))
    rw [tornStore, restampOrg_raw]
    rfl
  have hpush := raw_prefix hrun (by decide)
  exact ⟨hpush.1, hpush.2 _ _ _ (by decide) rfl⟩

end Turma.Archive
