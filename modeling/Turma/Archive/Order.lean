import Turma.Archive.Found

/-! The order of the store that its figures rest on: which tenant each row and each sidecar is of,
and that a rebuild of the index finds the rows that it has. -/

namespace Turma.Archive

open Turma.Lib Turma.Tenancy Layout List Option OrdMap

def State.bare (s : State) : State := { s with files := .empty }

/-- The tombstones of `env` are in `env'` too. -/
def Env.Within (env env' : Env) : Prop := ∀ t, env.purged t = true → env'.purged t = true

/-- Rows and sidecars of a partition are of its tenant, and in `sqlite` mode each file that has a
sidecar has its row, with a host of that tenant, unless the tenant is purged. -/
structure InOrder (env : Env) (s : State) : Prop where
  placed : s.bare.layout.Placed
  binds : s.layout.Binds
  columns : s.index.mode = .sqlite → ∀ r ∈ s.index.rows.values, ∀ v ∈ r.data.values,
    bindable v = true
  homed : Homed s.index
  signed : ∀ p sc, s.sidecars.get? p = some sc → tenantOfRel p ≠ [] →
    tenantOfHost sc.host = tenantOfRel p
  rowed : s.index.mode = .sqlite → ∀ p lines sc, s.files.get? p = some lines →
    s.sidecars.get? p = some sc → ¬ Hidden env s p → ∃ r,
      s.index.rows.get? sc.transcriptId = some r ∧ r.filePath = some p ∧
        tenantOfHost r.host = tenantOfHost sc.host

variable {env : Env} {s : State}

theorem InOrder.apart (h : InOrder env s) : RowsApart s.index.rows :=
  h.placed.rowsApart

theorem isTenantPurged_mono {env env' : Env} (h : env.Within env') {t : JsString}
    (ht : isTenantPurged env t = true) : isTenantPurged env' t = true := by
  rw [isTenantPurged, Bool.and_eq_true] at ht ⊢
  exact ⟨ht.1, h t ht.2⟩

theorem InOrder.mono {env env' : Env} (h : InOrder env s) (hle : env.Within env') :
    InOrder env' s where
  placed := h.placed
  binds := h.binds
  columns := h.columns
  homed := h.homed
  signed := h.signed
  rowed hm p lines sc hl hsc hshown := h.rowed hm p lines sc hl hsc fun hh => hshown (by
    rcases hh with hin | ⟨sc', hsc', hpurged⟩
    · exact .inl (isTenantPurged_mono hle hin)
    · exact .inr ⟨sc', hsc', isTenantPurged_mono hle hpurged⟩)

def RowsWithin (x' x : Index) : Prop :=
  ∀ i r' p, x'.rows.get? i = some r' → r'.filePath = some p → ∃ r, x.rows.get? i = some r ∧
    r.filePath = some p ∧ tenantOfHost r.host = tenantOfHost r'.host

theorem RowsWithin.refl (x : Index) : RowsWithin x x := fun _ r' _ hr hp => ⟨r', hr, hp, rfl⟩

theorem RowsWithin.legacy {x' x : Index} (h : RowsWithin x' x) (hapart : RowsApart x.rows)
    (hapart' : RowsApart x'.rows) : LegacyWithin x' x := by
  intro r' hr' p t hl
  obtain ⟨r, hr, hp, htenant⟩ := h _ r' p (hapart'.mem.mp hr') hl.filed
  have hid := hapart.keyed hr
  refine ⟨r, hapart.mem.mpr (hid ▸ hr), hid, hp, htenant.trans hl.tenant, hl.ne_nil, hl.outside⟩

def deleteFiles (s : State) (files sidecars : List JsString) (raw : List RawKey) : State :=
  { s with
    files := s.files.filterKeys fun p => p ∉ files
    sidecars := s.sidecars.filterKeys fun p => p ∉ sidecars
    raw := s.raw.filterKeys fun k => k ∉ raw }

variable {f : JsNumber → JsString}

theorem bindable_bind {v w : Json} (h : bind f v = some w) :
    bindable w = true := by
  cases v <;> simp only [bind, some.injEq, reduceCtorEq] at h <;> rw [← h] <;> rfl

theorem bindable_stored {row row' : Row}
    (h : Mode.sqlite.stored f row = some row') : ∀ v ∈ row'.data.values, bindable v = true := by
  obtain ⟨data, hdata, rfl⟩ := map_eq_some_iff.mp h
  simp only [bindAll, bind_eq_bind, bind_eq_some_iff, Option.pure_def,
    some.injEq] at hdata
  obtain ⟨w₁, h₁, w₂, h₂, w₃, h₃, w₄, h₄, w₅, h₅, w₆, h₆, w₇, h₇, rfl⟩ := hdata
  intro v hv
  simp only [Meta.values, mem_cons, not_mem_nil, or_false] at hv
  rcases hv with rfl | rfl | rfl | rfl | rfl | rfl | rfl <;> exact bindable_bind ‹_›

structure MadeOf (env : Env) (s : State) (p i : JsString) (r : Row) : Prop where
  sidecar : ∃ sc, s.sidecars.get? p = some sc ∧ sc.transcriptId = i ∧
    isTenantPurged env (tenantOfHost sc.host) = false ∧ tenantOfHost r.host = tenantOfHost sc.host
  filed : r.filePath = some p
  columns : ∀ v ∈ r.data.values, bindable v = true

variable {C : Config} {r : Row}

theorem MadeOf.shown {p i : JsString}
    (h : MadeOf env s p i r) (hlive : inPurged env p = false) : ¬ Hidden env s p := by
  obtain ⟨sc, hsc, -, hpurged, -⟩ := h.sidecar
  rintro (hin | ⟨sc', hsc', hp⟩)
  · exact absurd (hin.symm.trans hlive) (by simp)
  · rw [hsc] at hsc'
    exact absurd (some.inj hsc' ▸ hp) (by simp [hpurged])

end Turma.Archive
