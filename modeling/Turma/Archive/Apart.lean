import Turma.Archive.Steady

/-! No two transcripts share a canonical file, and each keeps the one it has. -/

namespace Turma.Archive

open Turma.Lib Turma.Tenancy Layout List JsString

abbrev State.fileOf (s : State) (id : JsString) : Option JsString := s.layout.placement.filed id

/-- At most one row names a file, and a file holds only what was pushed for the transcript that its
sidecar names. -/
structure Apart (s : State) : Prop where
  unique : ∀ r ∈ s.index.rows.values, ∀ r' ∈ s.index.rows.values, ∀ p,
    r.filePath = some p → r'.filePath = some p → r = r'
  own : ∀ p lines, s.files.get? p = some lines → ∀ l ∈ lines,
    ∃ sc, s.sidecars.get? p = some sc ∧ l.pushedFor = sc.transcriptId

def Names (s : State) (p : JsString) : Prop := ∃ r ∈ s.index.rows.values, r.filePath = some p

theorem fileOf_of_mem {s : State} (h : s.layout.Placed) {r : Row} (hr : r ∈ s.index.rows.values)
    {p : JsString} (hp : r.filePath = some p) :
    s.index.rows.get? r.transcriptId = some r ∧ s.fileOf r.transcriptId = some p := by
  obtain ⟨⟨k, r⟩, hmem, rfl⟩ := mem_map.mp hr
  have hget : s.layout.rows.get? k = some r := OrdMap.get?_eq_some.mpr hmem
  rw [h.keyed hget]
  exact ⟨hget, Option.bind_eq_some_iff.mpr ⟨r, hget, hp⟩⟩

theorem Layout.Placed.apart {s : State} (h : s.layout.Placed) : Apart s := by
  refine ⟨fun r hr r' hr' p hp hp' => ?_, fun p lines hlines l hl => ?_⟩
  · obtain ⟨hget, hfile⟩ := fileOf_of_mem h hr hp
    obtain ⟨hget', hfile'⟩ := fileOf_of_mem h hr' hp'
    rw [h.sound.apart hfile hfile', hget'] at hget
    exact (Option.some.inj hget).symm
  · obtain ⟨sc, hsc, hid⟩ := Option.map_eq_some_iff.mp (h.sound.own (i := l.pushedFor) (p := p)
      ⟨lines, hlines, l, hl, rfl⟩)
    exact ⟨sc, hsc, hid.symm⟩

def openConfig : Config where
  lower := id
  realText n := n.text.map .scalar
  transcriptMax := 0
  totalMax := 0
  tenantMax := 0
  rawTranscriptMax := 0
  manifestMax := 10
  reclaimMinGap := 500

def quietEnv : Env where
  now := 0
  nowIso := []
  purged _ := false
  renderedGate := none
  rawPending _ := false
  rawPendingBytes _ := 0

/-- A chunk from the start of its transcript whose bytes have no entries. -/
def blankChunk (summary : String) : Chunk where
  host := ofString "h"
  transcriptId := ofString "t1"
  data := .obj (JsonMembers.ofList [(ofString "repo", .str (ofString "r")),
    (ofString "summary", .str (ofString summary))])
  startOffset := some 0
  endOffset := some 5
  entries := []
  siteKey := []

theorem named_blankChunk (summary : String) :
    (Call.ingestChunk (blankChunk summary)).Named :=
  ⟨show ofString "t1" ≠ [] by decide, show PlainName (ofString "t1") by decide⟩

theorem purged_quiet (t : JsString) : isTenantPurged quietEnv t = false := by
  simp [isTenantPurged, quietEnv]

end Turma.Archive
