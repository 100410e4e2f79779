import Turma.Archive.Owner
import Turma.Lib.Tally

/-! What the walk of the store finds for each tenant, and the files of the tenant's rows within
it. -/

namespace Turma.Archive

open Turma.Lib Turma.Tenancy Layout List Option OrdMap

def State.rowBytes (s : State) (r : Row) : ℕ :=
  match r.filePath with
  | none => 0
  | some p => s.sizeAt p +
      ((s.raw.entries.filter fun e => e.1.1 = p && e.1.2.1 = r.transcriptId).map fun e =>
        e.2.length).sum

def found (x : Index) (s : State) (tenant : JsString) : ℕ :=
  s.files.sumWhere (fun p => (legacyTenantFiles x).ofFile p = tenant) fileBytes +
    s.raw.sumWhere (fun k => (legacyTenantFiles x).ofRaw k = tenant) List.length

variable {t : JsString}

/-- A row of the tenant whose file is outside its partition. -/
structure LegacyRow (r : Row) (p t : JsString) : Prop where
  filed : r.filePath = some p
  tenant : tenantOfHost r.host = t
  ne_nil : t ≠ []
  outside : tenantOfRel p = []

variable {r : Row}

/-- Rows under the transcripts that they are of, no two of them with one file. -/
structure RowsApart (rows : OrdMap JsString Row) : Prop where
  keyed : ∀ {i r}, rows.get? i = some r → r.transcriptId = i
  apart : ∀ {i i' r r' p}, rows.get? i = some r → rows.get? i' = some r' → r.filePath = some p →
    r'.filePath = some p → i = i'

theorem RowsApart.mem {rows : OrdMap JsString Row} (h : RowsApart rows) :
    r ∈ rows.values ↔ rows.get? r.transcriptId = some r := by
  constructor
  · intro hr
    obtain ⟨⟨k, r⟩, hmem, rfl⟩ := List.mem_map.mp hr
    have hget := get?_eq_some.mpr hmem
    rw [h.keyed hget]
    exact hget
  · intro hr
    exact List.mem_map.mpr ⟨_, get?_eq_some.mp hr, rfl⟩

theorem Layout.Placed.rowsApart {L : Layout} (h : L.Placed) : RowsApart L.rows :=
  ⟨h.keyed, fun hr hr' hp hp' => h.sound.apart (bind_eq_some_iff.mpr ⟨_, hr, hp⟩)
    (bind_eq_some_iff.mpr ⟨_, hr', hp'⟩)⟩

variable {x : Index}

def LegacyWithin (x' x : Index) : Prop :=
  ∀ r' ∈ x'.rows.values, ∀ p t, LegacyRow r' p t →
    ∃ r ∈ x.rows.values, r.transcriptId = r'.transcriptId ∧ LegacyRow r p t

def Homed (x : Index) : Prop :=
  ∀ r ∈ x.rows.values, ∀ p, r.filePath = some p → tenantOfRel p ≠ [] →
    tenantOfHost r.host = tenantOfRel p

theorem RowsApart.nodup {rows : OrdMap JsString Row} (h : RowsApart rows) : rows.values.Nodup := by
  refine List.Nodup.of_map Row.transcriptId ?_
  have hids : rows.values.map Row.transcriptId = rows.entries.map Prod.fst := by
    rw [OrdMap.values, List.map_map]
    refine map_congr_left fun e he => ?_
    exact h.keyed (get?_eq_some.mpr he)
  rw [hids]
  exact rows.nodup

end Turma.Archive
