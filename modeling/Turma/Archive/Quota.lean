import Turma.Archive.Order

/-! The byte ceilings over a run of pushes, deletions and walks: the figures cover what is stored,
and what is stored goes over a ceiling by one write at most. -/

namespace Turma.Archive

open Turma.Lib Turma.Tenancy Layout List Option OrdMap JsString

inductive DiskCall
  | ingestChunk (c : Chunk)
  | ingestRaw (p : RawPush)
  | delete (files sidecars : List JsString) (raw : List RawKey)
  | walk (maxAge : ℕ)

abbrev DiskEvent := Env × DiskCall

def asked (C : Config) (s : State) (e : DiskEvent) : State :=
  match e.2 with
  | .ingestChunk c => measured C e.1 c.host s
  | .ingestRaw p => measured C e.1 p.host s
  | _ => s

/-- A write of so many bytes is accepted from a host of the tenant. -/
inductive Accepts (C : Config) (s : State) : DiskEvent → JsString → ℕ → Prop
  | chunk {env : Env} {c : Chunk} {relPath : JsString} {endOffset : ℚ} {s' : State} {d : Delta} :
    Admitted C env s c relPath endOffset →
    checkCursor (measured C env c.host s) (s.index.get c.transcriptId) c.transcriptId relPath
      c.entries = (s', some d) →
    ¬ Throws s' d →
    Accepts C s (env, .ingestChunk c) (tenantOfHostKey c.host)
      ((writtenRecords C d).map lineBytes).sum
  | raw {env : Env} {p : RawPush} {row : Row} {relPath path : JsString} :
    RawAdmitted C env s p row relPath path →
    Accepts C s (env, .ingestRaw p) (tenantOfHostKey p.host) p.buf.length

theorem storedBytes_eq (s : State) : s.storedBytes =
    s.files.sumWhere (fun _ => true) fileBytes + s.raw.sumWhere (fun _ => true) List.length := by
  rw [sumWhere_true, sumWhere_true]
  rfl

structure Fewer (s s' : State) : Prop where
  files : ∀ p, s'.files.sumWhere p fileBytes ≤ s.files.sumWhere p fileBytes
  raw : ∀ p, s'.raw.sumWhere p List.length ≤ s.raw.sumWhere p List.length

theorem Fewer.stored {s s' : State} (h : Fewer s s') : s'.storedBytes ≤ s.storedBytes := by
  rw [storedBytes_eq, storedBytes_eq]
  exact add_le_add (h.files _) (h.raw _)

theorem Fewer.found {s s' : State} (h : Fewer s s') (x : Index) (t : JsString) :
    found x s' t ≤ found x s t := add_le_add (h.files _) (h.raw _)

/-- What the ceilings are asked on: what a walk leaves, or what there was. -/
structure Measures (env : Env) (s m : State) : Prop where
  fewer : Fewer s m
  total : s.storedBytes ≤ s.total → m.storedBytes ≤ m.total
  order : InOrder env s → InOrder env m ∧ RowsWithin m.index s.index
  tenants : ∀ t, t ≠ [] → found s.index s t ≤ s.tenantBytes t → found s.index m t ≤ m.tenantBytes t
  sidecars : ∀ {p sc}, m.sidecars.get? p = some sc → s.sidecars.get? p = some sc
  rawSize : ∀ k, m.rawSize k ≤ s.rawSize k

variable {env : Env} {s : State}

/-- What a transcript has stays free for it. -/
theorem Measures.free {s m : State} (h : Measures env s m) (ho : InOrder env s)
    {i p : JsString} (hi : s.bare.layout.placement.filed i = some p) :
    m.bare.layout.placement.Free i p := by
  obtain ⟨-, hwithin⟩ := h.order ho
  constructor
  · intro j hj
    obtain ⟨r', hr', hp'⟩ := bind_eq_some_iff.mp hj
    obtain ⟨r, hr, hp, -⟩ := hwithin j r' p hr' hp'
    exact ho.placed.sound.apart (bind_eq_some_iff.mpr ⟨r, hr, hp⟩) hi
  · intro j hj
    obtain ⟨sc, hsc, hid⟩ := map_eq_some_iff.mp hj
    exact ho.placed.sound.named hi (map_eq_some_iff.mpr ⟨sc, h.sidecars hsc, hid⟩)

structure Charged (s s' : State) (tenant : JsString) (n : ℕ) : Prop where
  total : s'.total = s.total + n
  tenants : ∀ t, t ≠ [] → s'.tenantBytes t = s.tenantBytes t + if tenant = t then n else 0

variable {n : ℕ}

structure Writes (s s' : State) (c : Chunk) (p : JsString) (n : ℕ) : Prop where
  rows : ∃ row : Row, row.transcriptId = c.transcriptId ∧ row.filePath = some p ∧
    tenantOfHost row.host = tenantOfHostKey c.host ∧
    (s.index.mode = .sqlite → ∀ v ∈ row.data.values, bindable v = true) ∧
    s'.index.rows = s.index.rows.upsert c.transcriptId fun _ => row
  sidecars : ∃ sc : Sidecar, sc.transcriptId = c.transcriptId ∧ sc.host = some c.host ∧
    s'.sidecars = s.sidecars.upsert p fun _ => sc
  mode : s'.index.mode = s.index.mode
  files : ∀ test, s'.files.sumWhere test fileBytes =
    s.files.sumWhere test fileBytes + if test p = true then n else 0
  others : ∀ q, q ≠ p → s'.files.get? q = s.files.get? q
  raw : s'.raw = s.raw
  charged : Charged s s' (tenantOfHostKey c.host) n

variable {c : Chunk} {endOffset : ℚ}

variable {C : Config}

theorem LegacyWithin.trans {x x' x'' : Index} (h : LegacyWithin x' x) (h' : LegacyWithin x'' x') :
    LegacyWithin x'' x := by
  intro r'' hr'' p t hl''
  obtain ⟨r', hr', hid', hl'⟩ := h' r'' hr'' p t hl''
  obtain ⟨r, hr, hid, hl⟩ := h r' hr' p t hl'
  exact ⟨r, hr, hid.trans hid', hl⟩

variable {p : JsString}

/-- A step that raises nothing: its files are some of those before, and its rows too. -/
structure Quiet (env : Env) (s s' : State) : Prop where
  fewer : Fewer s s'
  total : s.storedBytes ≤ s.total → s'.storedBytes ≤ s'.total
  order : InOrder env s → InOrder env s' ∧ LegacyWithin s'.index s.index
  tenants : ∀ t, t ≠ [] → found s.index s t ≤ s.tenantBytes t → found s.index s' t ≤ s'.tenantBytes t

theorem Measures.quiet {s m : State} (h : Measures env s m) : Quiet env s m where
  fewer := h.fewer
  total := h.total
  order ho := ⟨(h.order ho).1, (h.order ho).2.legacy ho.apart (h.order ho).1.apart⟩
  tenants := h.tenants

theorem Quiet.refl (env : Env) (s : State) : Quiet env s s :=
  ⟨⟨fun _ => le_refl _, fun _ => le_refl _⟩, fun h => h,
    fun h => ⟨h, (RowsWithin.refl _).legacy h.apart h.apart⟩, fun _ _ h => h⟩

theorem Quiet.checked {s m m' : State} (h : Quiet env s m) (hc : Checked m m') :
    Quiet env s m' := by
  obtain ⟨_, _, _, rfl⟩ := hc
  refine ⟨⟨h.fewer.files, h.fewer.raw⟩, h.total, fun ho => ?_, h.tenants⟩
  obtain ⟨hom, hlegacy⟩ := h.order ho
  exact ⟨⟨hom.placed, hom.binds, hom.columns, hom.homed, hom.signed, hom.rowed⟩, hlegacy⟩

/-- A write of a tenant that is accepted on `m`. -/
structure Raises (C : Config) (env : Env) (s m s' : State) (tenant : JsString) (n : ℕ) : Prop where
  measures : Measures env s m
  room : totalFull C m = false ∧ tenantFull C m tenant = false
  stored : s'.storedBytes = m.storedBytes + n
  total : s'.total = m.total + n
  charged : ∀ t, t ≠ [] → s'.tenantBytes t = m.tenantBytes t + if tenant = t then n else 0

variable {t : JsString}

/-- The order is one of the index, the files and the sidecars. -/
theorem InOrder.congr {s s' : State} (h : InOrder env s) (hindex : s'.index = s.index)
    (hfiles : s'.files = s.files) (hsidecars : s'.sidecars = s.sidecars) : InOrder env s' := by
  cases s
  cases s'
  subst hindex hfiles hsidecars
  exact ⟨h.placed, h.binds, h.columns, h.homed, h.signed, h.rowed⟩

variable {relPath path : JsString}

def DiskCall.Named : DiskCall → Prop
  | .ingestChunk c => NameId c.transcriptId
  | _ => True

variable {es : List DiskEvent}

end Turma.Archive
