import Turma.TenantMigration.Runner

/-! What holds of the marker, its copies and the disk in every state of a run in which no late step
puts an outdated copy in place. -/

namespace Turma.TenantMigration

open Turma.Lib Turma.Tenancy Turma.Registry List

structure Extends (a b : Marker) : Prop where
  tenantId : b.tenantId = a.tenantId
  hosts : b.hosts = a.hosts
  sites : b.sites = a.sites
  steps : a.steps.keys ⊆ b.steps.keys
  arrived : a.arrived.keys ⊆ b.arrived.keys
  completed : a.Completed → b.Completed

theorem Extends.refl (m : Marker) : Extends m m :=
  ⟨rfl, rfl, rfl, List.Subset.refl _, List.Subset.refl _, id⟩

theorem Extends.trans {a b c : Marker} (h : Extends a b) (h' : Extends b c) : Extends a c :=
  ⟨h'.tenantId.trans h.tenantId, h'.hosts.trans h.hosts, h'.sites.trans h.sites,
    List.Subset.trans h.steps h'.steps, List.Subset.trans h.arrived h'.arrived,
    h'.completed ∘ h.completed⟩

def Upto : Option Marker → Option Marker → Prop
  | none, _ => True
  | some a, b => ∃ b', b = some b' ∧ Extends a b'

theorem Upto.refl (x : Option Marker) : Upto x x := by
  cases x with
  | none => trivial
  | some m => exact ⟨m, rfl, .refl m⟩

theorem upto_some {a b : Marker} : Upto (some a) (some b) ↔ Extends a b := by
  simp [Upto]

theorem Upto.trans {x y z : Option Marker} (h : Upto x y) (h' : Upto y z) : Upto x z := by
  cases x with
  | none => trivial
  | some a =>
    obtain ⟨b, rfl, hb⟩ := h
    obtain ⟨c, rfl, hc⟩ := h'
    exact ⟨c, rfl, hb.trans hc⟩

theorem extends_withStep (m : Marker) (name : JsString) (moved now : ℤ) :
    Extends m (m.withStep name moved now) where
  tenantId := rfl
  hosts := m.withStep_hosts name moved now
  sites := m.withStep_sites name moved now
  steps := fun _ => Marker.mem_withStep_of_mem
  arrived := by rw [m.withStep_arrived name moved now]; exact List.Subset.refl _
  completed := by rw [Marker.Completed, Marker.Completed, m.withStep_completedAt]; exact id

theorem extends_complete {m : Marker} (h : ¬ m.Completed) (now : ℤ) :
    Extends m (m.complete now) where
  tenantId := rfl
  hosts := m.complete_hosts now
  sites := m.complete_sites now
  steps := by rw [m.complete_steps now]; exact List.Subset.refl _
  arrived := by rw [m.complete_arrived now]; exact List.Subset.refl _
  completed := fun hm => absurd hm h

/-- Only hosts of the marker arrive, and none before it is completed. -/
structure Sound (m : Marker) : Prop where
  arrived : m.arrived.keys ⊆ m.hosts.keys
  early : ¬ m.Completed → m.arrived.keys = []

/-- The marker in memory, those on their way to the disk, and the one on disk: each extends those
that are behind it. -/
structure Layers (cur : Option Marker) (stored : List Marker) (saved : Option Marker)
    (applied : List JsString) : Prop where
  saved_cur : Upto saved cur
  saved_stored : ∀ m ∈ stored, Upto saved (some m)
  stored_cur : ∀ m ∈ stored, Upto (some m) cur
  sorted : stored.Pairwise Extends
  sound_cur : ∀ m, cur = some m → Sound m
  sound_stored : ∀ m ∈ stored, Sound m
  sound_saved : ∀ m, saved = some m → Sound m
  applied : ∀ m, cur = some m → m.steps.keys ⊆ applied
  backed : ∀ m, cur = some m → m.Completed → saved.isSome = true

/-- The steps that are not to come have been applied. -/
def State.Done (s : State) (todo : List Step) : Prop :=
  ∀ st ∈ s.steps, st ∈ todo ∨ st.name ∈ s.applied

def MainOk (s : State) (r : Run (Option (List Step))) : Prop :=
  r.marker.tenantId = r.tenantId ∧
    match r.phase with
    | .flushing todo => ¬ s.Migrated ∧ Upto s.cur (some r.marker) ∧ r.marker.arrived.keys = [] ∧
        r.marker.steps.keys ⊆ s.applied ∧
        match todo with
        | some l => ¬ r.marker.Completed ∧ s.Done l
        | none => s.saved.isSome = true ∧ s.Done []
    | .persisting (some l) => s.cur = some r.marker ∧ ¬ r.marker.Completed ∧ s.Done l
    | .persisting none => s.cur.isSome = true
    | .applying st rest => s.cur = some r.marker ∧ ¬ r.marker.Completed ∧
        s.saved.isSome = true ∧ st.name ∉ r.marker.steps.keys ∧ s.Done (st :: rest)

/-- A run of the late steps: its copy may lack arrivals, and nothing else. -/
def LateOk (s : State) (r : Run (List Step)) : Prop :=
  ∃ m, s.cur = some m ∧ m.Completed ∧ r.marker.Completed ∧ r.marker.tenantId = m.tenantId ∧
    r.marker.hosts = m.hosts ∧ r.marker.sites = m.sites ∧ r.marker.arrived.keys ⊆ m.arrived.keys ∧
    match r.phase with
    | .flushing _ => m.steps.keys ⊆ r.marker.steps.keys ∧ r.marker.steps.keys ⊆ s.applied
    | .persisting _ => r.marker.steps = m.steps
    | .applying st _ => r.marker.steps = m.steps ∧ st.name ∉ m.steps.keys

structure Inv (s : State) : Prop where
  layers : Layers s.cur s.stored s.saved s.applied
  main : ∀ r, s.main = some r → MainOk s r
  late : ∀ r, s.late = some r → LateOk s r

theorem inv_boot (steps : List Step) : Inv (boot steps) where
  layers := by constructor <;> simp [boot, Upto]
  main := by simp [boot]
  late := by simp [boot]

namespace Layers

variable {cur saved : Option Marker} {stored : List Marker} {applied : List JsString}

/-- A marker that extends the one in memory is set. -/
theorem install (h : Layers cur stored saved applied) {m : Marker} (hm : Upto cur (some m))
    (hsound : Sound m) (happlied : m.steps.keys ⊆ applied)
    (hbacked : m.Completed → saved.isSome = true) :
    Layers (some m) (stored ++ [m]) saved applied where
  saved_cur := h.saved_cur.trans hm
  saved_stored := by
    intro m' hm'
    rcases mem_append.mp hm' with h' | h'
    · exact h.saved_stored m' h'
    · rw [mem_singleton.mp h']
      exact h.saved_cur.trans hm
  stored_cur := by
    intro m' hm'
    rcases mem_append.mp hm' with h' | h'
    · exact (h.stored_cur m' h').trans hm
    · rw [mem_singleton.mp h']
      exact .refl _
  sorted := by
    rw [pairwise_append]
    refine ⟨h.sorted, pairwise_singleton _ _, fun a ha b hb => ?_⟩
    rw [mem_singleton.mp hb]
    exact upto_some.mp ((h.stored_cur a ha).trans hm)
  sound_cur := by
    rintro m' ⟨⟩
    exact hsound
  sound_stored := by
    intro m' hm'
    rcases mem_append.mp hm' with h' | h'
    · exact h.sound_stored m' h'
    · rw [mem_singleton.mp h']
      exact hsound
  sound_saved := h.sound_saved
  applied := by
    rintro m' ⟨⟩
    exact happlied
  backed := by
    rintro m' ⟨⟩
    exact hbacked

/-- The store is flushed. -/
theorem flush (h : Layers cur stored saved applied) : Layers cur [] cur applied where
  saved_cur := .refl _
  saved_stored := by simp
  stored_cur := by simp
  sorted := .nil
  sound_cur := h.sound_cur
  sound_stored := by simp
  sound_saved := h.sound_cur
  applied := h.applied
  backed := by
    rintro m rfl -
    rfl

/-- One of the markers that wait is written. -/
theorem land (h : Layers cur stored saved applied) {n : ℕ} {m : Marker} (hn : stored[n]? = some m) :
    Layers cur (stored.drop (n + 1)) (some m) applied := by
  have hmem : m ∈ stored := mem_of_getElem? hn
  have hdrop : ∀ m' ∈ stored.drop (n + 1), m' ∈ stored := fun m' => mem_of_mem_drop
  have hsplit : stored.drop n = m :: stored.drop (n + 1) := by
    obtain ⟨hlt, hget⟩ := List.getElem?_eq_some_iff.mp hn
    rw [← hget]
    exact drop_eq_getElem_cons hlt
  have hafter : ∀ m' ∈ stored.drop (n + 1), Extends m m' := by
    have hpair := h.sorted.drop (i := n)
    rw [hsplit, pairwise_cons] at hpair
    exact hpair.1
  exact {
    saved_cur := h.stored_cur m hmem
    saved_stored := fun m' hm' => upto_some.mpr (hafter m' hm')
    stored_cur := fun m' hm' => h.stored_cur m' (hdrop m' hm')
    sorted := h.sorted.drop
    sound_cur := h.sound_cur
    sound_stored := fun m' hm' => h.sound_stored m' (hdrop m' hm')
    sound_saved := by
      rintro m' ⟨⟩
      exact h.sound_stored m hmem
    applied := h.applied
    backed := fun _ _ _ => rfl }

/-- The next process has what is on disk. -/
theorem reload (h : Layers cur stored saved applied) : Layers saved [] saved applied where
  saved_cur := .refl _
  saved_stored := by simp
  stored_cur := by simp
  sorted := .nil
  sound_cur := h.sound_saved
  sound_stored := by simp
  sound_saved := h.sound_saved
  applied := by
    rintro m rfl
    obtain ⟨m', hm', hext⟩ := h.saved_cur
    exact List.Subset.trans hext.steps (h.applied m' hm')
  backed := by
    rintro m rfl -
    rfl

theorem grow (h : Layers cur stored saved applied) {applied' : List JsString}
    (ha : applied ⊆ applied') : Layers cur stored saved applied' :=
  { h with applied := fun m hm => List.Subset.trans (h.applied m hm) ha }

end Layers

theorem migrateNext_cases (t : TenantId) (m : Marker) (now : ℤ) (l : List Step) :
    (migrateNext t m now l = ⟨t, m.complete now, .flushing none⟩ ∧
        ∀ st ∈ l, st.name ∈ m.steps.keys) ∨
      ∃ pre st rest, l = pre ++ st :: rest ∧ (∀ st ∈ pre, st.name ∈ m.steps.keys) ∧
        st.name ∉ m.steps.keys ∧ migrateNext t m now l = ⟨t, m, .applying st rest⟩ := by
  induction l with
  | nil => exact .inl ⟨rfl, by simp⟩
  | cons st l ih =>
    rw [migrateNext]
    split_ifs with hst
    · rcases ih with ⟨hnext, hall⟩ | ⟨pre, st', rest, rfl, hpre, hst', hnext⟩
      · exact .inl ⟨hnext, forall_mem_cons.mpr ⟨hst, hall⟩⟩
      · exact .inr ⟨st :: pre, st', rest, rfl, forall_mem_cons.mpr ⟨hst, hpre⟩, hst', hnext⟩
    · exact .inr ⟨[], st, l, rfl, by simp, hst, rfl⟩

theorem lateNext_cases (m : Marker) (l : List Step) : lateNext m l = none ∨
    ∃ st rest, st.name ∉ m.steps.keys ∧ lateNext m l = some ⟨m.tenantId, m, .applying st rest⟩ := by
  induction l with
  | nil => exact .inl rfl
  | cons st l ih =>
    rw [lateNext]
    split_ifs with hst
    · exact ih
    · exact .inr ⟨st, l, fun h => hst (.inl h), rfl⟩

end Turma.TenantMigration
