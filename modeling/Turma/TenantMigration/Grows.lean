import Turma.TenantMigration.Invariant

/-! The marker over whole runs: nothing leaves it, it is completed once every step has been applied,
and no step that is recorded on disk runs again, exactly while no late step puts a copy of the marker
in place that a bind beat has outdated. -/

namespace Turma.TenantMigration

open Turma.Lib Turma.Tenancy Turma.Registry List Option JsString

def State.Applies (s : State) (st : Step) : Prop :=
  (∃ r rest, s.main = some r ∧ r.phase = .applying st rest) ∨
    ∃ r rest, s.late = some r ∧ r.phase = .applying st rest

structure StepOk (s : State) (e : Event) : Prop where
  /-- No step name, host, site or arrival leaves the marker in memory. -/
  current : (∀ steps, e ≠ .crash steps) → Upto s.cur (step s e).cur
  /-- A process that starts has the marker that is on disk. -/
  restarted : ∀ steps, e = .crash steps → (step s e).cur = s.saved
  /-- Nor the marker on disk. -/
  saved : Upto s.saved (step s e).saved
  /-- The marker is completed once each step has been applied since a marker was saved. -/
  completed : ¬ s.Migrated → (step s e).Migrated →
    ∀ st ∈ s.steps, st.name ∈ (step s e).applied
  /-- A step whose record is on disk does not run. -/
  once : ∀ st, (step s e).Applies st → ∀ m, (step s e).saved = some m → st.name ∉ m.steps.keys
  /-- The hosts and sites are those first saved. -/
  snapshot : ∀ m, s.saved = some m → ∀ m', (step s e).cur = some m' →
    m'.hosts = m.hosts ∧ m'.sites = m.sites
  /-- A run applies steps for the tenant of the marker only. -/
  tenant : ∀ r st rest, (step s e).main = some r → r.phase = .applying st rest →
    ∀ m, (step s e).cur = some m ∨ (step s e).saved = some m → m.tenantId = r.tenantId

/-- A late step that puts its copy of the marker in place has all arrivals on it. -/
def UpToDate (s : State) (e : Event) : Prop :=
  e = .lateFlushed → ∀ t m todo m', s.late = some ⟨t, m, .flushing todo⟩ → s.cur = some m' →
    m'.arrived.keys ⊆ m.arrived.keys

structure Moves (s s' : State) : Prop where
  inv : Inv s'
  current : Upto s.cur s'.cur
  saved : Upto s.saved s'.saved
  completed : ¬ s.Migrated → s'.Migrated → ∀ st ∈ s.steps, st.name ∈ s'.applied

theorem Moves.refl {s : State} (h : Inv s) : Moves s s :=
  ⟨h, .refl _, .refl _, fun hn hm => absurd hm hn⟩

/-- An event that leaves the marker and the disk alone. -/
theorem Moves.of_same {s s' : State} (hinv : Inv s') (hcur : s'.cur = s.cur)
    (hsaved : s'.saved = s.saved) : Moves s s' where
  inv := hinv
  current := hcur ▸ .refl _
  saved := hsaved ▸ .refl _
  completed := by
    intro hn hm
    rw [State.Migrated, hcur] at hm
    exact absurd hm hn

variable {r : Run (Option (List Step))} {e : Event}

section

variable {s : State}

theorem moves_setMain (h : Inv s) {x : Option (Run (Option (List Step)))}
    (hx : ∀ r, x = some r → MainOk s r) : Moves s { s with main := x } :=
  .of_same ⟨h.layers, hx, h.late⟩ rfl rfl

theorem moves_setLate (h : Inv s) {x : Option (Run (List Step))}
    (hx : ∀ r, x = some r → LateOk s r) : Moves s { s with late := x } :=
  .of_same ⟨h.layers, h.main, hx⟩ rfl rfl

/-- While the late steps run the marker is completed, and the migration has nothing left to do. -/
theorem migrated_of_late (h : Inv s) {r : Run (List Step)} (hr : s.late = some r) : s.Migrated := by
  obtain ⟨m, hm, hc, -⟩ := h.late r hr
  exact ⟨m, hm, hc⟩

theorem persisting_of_migrated (h : Inv s) (hm : s.Migrated)
    (hr : s.main = some r) : r.phase = .persisting none := by
  obtain ⟨m, hcur, hc⟩ := hm
  have hmain := (h.main r hr).2
  split at hmain
  · exact absurd ⟨m, hcur, hc⟩ hmain.1
  · obtain ⟨hr', hn, -⟩ := hmain
    rw [hcur, some.injEq] at hr'
    exact absurd (hr' ▸ hc) hn
  · assumption
  · obtain ⟨hr', hn, -⟩ := hmain
    rw [hcur, some.injEq] at hr'
    exact absurd (hr' ▸ hc) hn

theorem moves_tick (h : Inv s) (tenantId owner : JsString) (dryRun : Bool) (now : ℤ)
    (hosts sites : List JsString) :
    Moves s (runMigration s tenantId owner dryRun now hosts sites) := by
  unfold runMigration
  by_cases hbusy : s.Migrated ∨ s.main.isSome = true
  · rw [if_pos hbusy]
    exact .refl h
  have hnot : ¬ s.Migrated := fun hm => hbusy (.inl hm)
  have hdone : s.Done s.steps := fun st hst => .inl hst
  rw [if_neg hbusy]
  by_cases ht : isTenantId tenantId = true
  · rw [dif_pos ht]
    split
    · rename_i m hm
      have hopen : ¬ m.Completed := fun hc => hnot ⟨m, hm, hc⟩
      by_cases hne : m.tenantId.1 = tenantId
      · rw [if_neg (not_not.mpr hne)]
        cases dryRun with
        | true => exact .refl h
        | false =>
          apply moves_setMain h
          rintro r ⟨⟩
          refine ⟨Subtype.ext hne, hnot, ?_, (h.layers.sound_cur m hm).early hopen,
            h.layers.applied m hm, hopen, hdone⟩
          rw [hm]
          exact .refl _
      · rw [if_pos hne]
        exact .refl h
    · rename_i hm
      cases dryRun with
      | true => exact .refl h
      | false =>
        apply moves_setMain h
        rintro r ⟨⟩
        refine ⟨rfl, hnot, ?_, rfl, ?_, ?_, hdone⟩
        · rw [hm]
          trivial
        · exact nil_subset _
        · exact fun hc => hc rfl
  · rw [dif_neg ht]
    exact .refl h

theorem moves_flushed (h : Inv s) : Moves s (step s .flushed) := by
  rw [step]
  split
  · rename_i t m todo hmain
    obtain ⟨htenant, hnot, hext, hempty, happlied, htodo⟩ := h.main _ hmain
    have hlate : s.late = none := by
      cases hl : s.late with
      | none => rfl
      | some r => exact absurd (migrated_of_late h hl) hnot
    have hsound : Sound m := by
      refine ⟨?_, fun _ => hempty⟩
      rw [show m.arrived.keys = [] from hempty]
      exact nil_subset _
    have hbacked : m.Completed → s.saved.isSome = true := by
      intro hc
      cases todo with
      | some l => exact absurd hc htodo.1
      | none => exact htodo.1
    refine ⟨⟨h.layers.install hext hsound happlied hbacked, ?_, ?_⟩, hext, .refl _, ?_⟩
    · rintro r ⟨⟩
      cases todo with
      | some l => exact ⟨htenant, rfl, htodo.1, htodo.2⟩
      | none => exact ⟨htenant, rfl⟩
    · intro r hr
      rw [show (s.install m).late = s.late from rfl] at hr
      exact absurd (hlate.symm.trans hr) (by simp)
    · rintro - ⟨m', ⟨⟩, hc⟩ st hst
      cases todo with
      | some l => exact absurd hc htodo.1
      | none => exact (htodo.2 st hst).resolve_left not_mem_nil
  · exact .refl h

theorem moves_persisted (h : Inv s) (now : ℤ) : Moves s (step s (.persisted now)) := by
  have hcompleted : ¬ s.Migrated → s.Migrated → ∀ st ∈ s.steps, st.name ∈ s.applied :=
    fun hn hm => absurd hm hn
  rw [step]
  split
  · rename_i t m todo hmain
    obtain ⟨htenant, hcur, hopen, hdone⟩ := h.main _ hmain
    have hcur' : s.cur = some m := hcur
    have hnot : ¬ s.Migrated := by
      rintro ⟨m', hm', hc⟩
      rw [hcur', some.injEq] at hm'
      exact hopen (hm' ▸ hc)
    have hsome : s.cur.isSome = true := by
      rw [hcur']
      rfl
    have hrec : m.steps.keys ⊆ s.applied := h.layers.applied m hcur'
    refine ⟨⟨h.layers.flush, ?_, h.late⟩, .refl _, h.layers.saved_cur, hcompleted⟩
    rintro r ⟨⟩
    rcases migrateNext_cases t m now todo with ⟨hnext, hall⟩ | ⟨pre, st, rest, rfl, hpre, hst, hnext⟩
    · -- Every step is recorded: the marker is completed next.
      rw [hnext]
      refine ⟨htenant, hnot, ?_, ?_, ?_, hsome, ?_⟩
      · rw [show ({ s with saved := s.cur, stored := [], main := _ } : State).cur = some m from hcur',
          upto_some]
        exact extends_complete hopen now
      · rw [m.complete_arrived now]
        exact (h.layers.sound_cur m hcur').early hopen
      · rw [m.complete_steps now]
        exact hrec
      · intro st hst
        rcases hdone st hst with hin | hin
        · exact .inr (hrec (hall st hin))
        · exact .inr hin
    · rw [hnext]
      refine ⟨htenant, hcur, hopen, hsome, hst, ?_⟩
      intro st' hst'
      rcases hdone st' hst' with hin | hin
      · rcases mem_append.mp hin with hin | hin
        · exact .inr (hrec (hpre st' hin))
        · exact .inl hin
      · exact .inr hin
  · refine ⟨⟨h.layers.flush, ?_, h.late⟩, .refl _, h.layers.saved_cur, hcompleted⟩
    rintro r ⟨⟩
  · exact .refl h

/-- A step's function returns: only the record of what has been applied grows. -/
theorem grow_applied (st : Step) : s.applied ⊆ s.noteApplied st := by
  unfold State.noteApplied
  split_ifs
  · exact subset_cons_self _ _
  · exact List.Subset.refl _

theorem moves_applied (h : Inv s) (moved now : ℤ) : Moves s (step s (.applied moved now)) := by
  rw [step]
  split
  · rename_i t m st rest hmain
    obtain ⟨htenant, hcur, hopen, hsaved, hst, hdone⟩ := h.main _ hmain
    have hcur' : s.cur = some m := hcur
    have hnot : ¬ s.Migrated := by
      rintro ⟨m', hm', hc⟩
      rw [hcur', some.injEq] at hm'
      exact hopen (hm' ▸ hc)
    have hnote : s.noteApplied st = st.name :: s.applied := if_pos hsaved
    refine .of_same ⟨h.layers.grow (grow_applied st), ?_, ?_⟩ rfl rfl
    · rintro r ⟨⟩
      refine ⟨htenant, hnot, ?_, ?_, ?_, ?_, ?_⟩
      · rw [show ({ s with applied := _, main := _ } : State).cur = some m from hcur', upto_some]
        exact extends_withStep m st.name moved now
      · rw [m.withStep_arrived]
        exact (h.layers.sound_cur m hcur').early hopen
      · intro n hn
        rw [hnote]
        rcases Marker.mem_withStep.mp hn with hn | ⟨rfl, -⟩
        · exact .tail _ (h.layers.applied m hcur' hn)
        · exact mem_cons_self
      · rw [Marker.Completed, m.withStep_completedAt]
        exact hopen
      · intro st' hst'
        rw [hnote]
        rcases hdone st' hst' with hin | hin
        · rcases mem_cons.mp hin with rfl | hin
          · exact .inr mem_cons_self
          · exact .inl hin
        · exact .inr (.tail _ hin)
    · intro r hr
      exact absurd (migrated_of_late h hr) hnot
  · exact .refl h

theorem moves_failed (h : Inv s) : Moves s (step s .failed) := by
  rw [step]
  split
  · exact moves_setMain h (by simp)
  · exact .refl h

/-- The loop of the late steps goes on with its copy. -/
theorem lateNext_ok (h : Inv s) {m m' : Marker} (hcur : s.cur = some m') (hc : m'.Completed)
    (hmc : m.Completed) (htenant : m.tenantId = m'.tenantId) (hhosts : m.hosts = m'.hosts)
    (hsites : m.sites = m'.sites) (harrived : m.arrived.keys ⊆ m'.arrived.keys)
    (hsteps : m.steps = m'.steps) (todo : List Step) :
    Moves s { s with late := lateNext m todo } := by
  apply moves_setLate h
  intro r hr
  rcases lateNext_cases m todo with hnext | ⟨st, rest, hst, hnext⟩
  · rw [hnext] at hr
    exact nomatch hr
  · rw [hnext, some.injEq] at hr
    subst hr
    exact ⟨m', hcur, hc, hmc, htenant, hhosts, hsites, harrived, hsteps, hsteps ▸ hst⟩

theorem moves_lateTick (h : Inv s) : Moves s (runLateSteps s) := by
  unfold runLateSteps
  split
  · rename_i m hcur
    split_ifs with hgo
    · exact lateNext_ok h hcur hgo.1 hgo.1 rfl rfl rfl (List.Subset.refl _) rfl s.steps
    · exact .refl h
  · exact .refl h

theorem moves_lateFlushed (h : Inv s) (hok : UpToDate s .lateFlushed) :
    Moves s (step s .lateFlushed) := by
  rw [step]
  split
  · rename_i t m todo hlate
    obtain ⟨m', hcur, hc, hmc, htenant, hhosts, hsites, harrived, hsteps, happlied⟩ := h.late _ hlate
    have hall : m'.arrived.keys ⊆ m.arrived.keys := hok rfl t m todo m' hlate hcur
    have hext : Upto s.cur (some m) := by
      rw [hcur, upto_some]
      exact ⟨htenant, hhosts, hsites, hsteps, hall, fun _ => hmc⟩
    have hsound : Sound m := by
      refine ⟨?_, fun hn => absurd hmc hn⟩
      rw [show m.hosts = m'.hosts from hhosts]
      exact List.Subset.trans harrived (h.layers.sound_cur m' hcur).arrived
    have hbacked : m.Completed → s.saved.isSome = true := fun _ => h.layers.backed m' hcur hc
    refine ⟨⟨h.layers.install hext hsound happlied hbacked, ?_, ?_⟩, hext, .refl _, ?_⟩
    · intro r hr
      obtain ⟨t', m'', phase⟩ := r
      obtain rfl : phase = .persisting none := persisting_of_migrated h ⟨m', hcur, hc⟩ hr
      exact ⟨(h.main _ hr).1, rfl⟩
    · rintro r ⟨⟩
      exact ⟨m, rfl, hmc, hmc, rfl, rfl, rfl, List.Subset.refl _, rfl⟩
    · intro hn
      exact absurd ⟨m', hcur, hc⟩ hn
  · exact .refl h

theorem moves_latePersisted (h : Inv s) : Moves s (step s .latePersisted) := by
  rw [step]
  split
  · rename_i t m todo hlate
    obtain ⟨m', hcur, hc, hmc, htenant, hhosts, hsites, harrived, hsteps⟩ := h.late _ hlate
    exact lateNext_ok h hcur hc hmc htenant hhosts hsites harrived hsteps todo
  · exact .refl h

theorem moves_lateApplied (h : Inv s) (moved now : ℤ) :
    Moves s (step s (.lateApplied moved now)) := by
  rw [step]
  split
  · rename_i t m st rest hlate
    obtain ⟨m', hcur, hc, hmc, htenant, hhosts, hsites, harrived, hsteps, hst⟩ := h.late _ hlate
    have hsteps' : m.steps = m'.steps := hsteps
    have hnote : s.noteApplied st = st.name :: s.applied := if_pos (h.layers.backed m' hcur hc)
    refine .of_same ⟨h.layers.grow (grow_applied st), ?_, ?_⟩ rfl rfl
    · intro r hr
      obtain ⟨t', m'', phase⟩ := r
      obtain rfl : phase = .persisting none := persisting_of_migrated h ⟨m', hcur, hc⟩ hr
      exact h.main _ hr
    · rintro r ⟨⟩
      refine ⟨m', hcur, hc, ?_, htenant, ?_, ?_, ?_, ?_, ?_⟩
      · rw [Marker.Completed, m.withStep_completedAt]
        exact hmc
      · rw [m.withStep_hosts]
        exact hhosts
      · rw [m.withStep_sites]
        exact hsites
      · rw [m.withStep_arrived]
        exact harrived
      · rw [← hsteps']
        exact fun n hn => Marker.mem_withStep_of_mem hn
      · intro n hn
        rw [hnote]
        rcases Marker.mem_withStep.mp hn with hn | ⟨rfl, -⟩
        · exact .tail _ (h.layers.applied m' hcur (hsteps' ▸ hn))
        · exact mem_cons_self
  · exact .refl h

theorem moves_lateFailed (h : Inv s) : Moves s (step s .lateFailed) := by
  rw [step]
  split
  · rename_i t m st rest hlate
    obtain ⟨m', hcur, hc, hmc, htenant, hhosts, hsites, harrived, hsteps, -⟩ := h.late _ hlate
    exact lateNext_ok h hcur hc hmc htenant hhosts hsites harrived hsteps rest
  · exact .refl h

/-- A write leaves a marker on disk, whichever it was. -/
theorem MainOk.of_saved (h : MainOk s r) {saved : Option Marker}
    {stored : List Marker} (hsaved : saved.isSome = true) :
    MainOk { s with saved := saved, stored := stored } r := by
  obtain ⟨t, m, phase⟩ := r
  obtain ⟨htenant, h⟩ := h
  refine ⟨htenant, ?_⟩
  cases phase with
  | flushing todo =>
    obtain ⟨hnot, hext, hempty, happlied, htodo⟩ := h
    refine ⟨hnot, hext, hempty, happlied, ?_⟩
    cases todo with
    | some l => exact htodo
    | none => exact ⟨hsaved, htodo.2⟩
  | persisting todo => cases todo <;> exact h
  | applying st rest =>
    obtain ⟨hcur, hopen, -, hst, hdone⟩ := h
    exact ⟨hcur, hopen, hsaved, hst, hdone⟩

theorem moves_bind (h : Inv s) (fromKey toKey : JsString) :
    Moves s (tenantMigrationOnBind s fromKey toKey) := by
  unfold tenantMigrationOnBind
  cases hcur : s.cur with
  | none => exact .refl h
  | some m =>
    dsimp only
    split_ifs with hgo
    · obtain ⟨hc, -, hhost, hnew⟩ := hgo
      have hsound := h.layers.sound_cur m hcur
      have harrived := Marker.withArrived_arrived hsound.arrived hhost hnew
      have hc' : (m.withArrived fromKey).Completed := by
        rw [Marker.Completed, m.withArrived_completedAt]
        exact hc
      have hsub : m.arrived.keys ⊆ (m.withArrived fromKey).arrived.keys := by
        rw [harrived]
        exact subset_append_left _ _
      have hext : Upto s.cur (some (m.withArrived fromKey)) := by
        rw [hcur, upto_some]
        exact ⟨rfl, m.withArrived_hosts _, m.withArrived_sites _,
          by rw [m.withArrived_steps]; exact List.Subset.refl _, hsub, fun _ => hc'⟩
      have hsound' : Sound (m.withArrived fromKey) := by
        refine ⟨?_, fun hn => absurd hc' hn⟩
        rw [harrived, m.withArrived_hosts]
        exact append_subset.mpr
          ⟨hsound.arrived, cons_subset.mpr ⟨hhost, nil_subset _⟩⟩
      have happlied : (m.withArrived fromKey).steps.keys ⊆ s.applied := by
        rw [m.withArrived_steps]
        exact h.layers.applied m hcur
      refine ⟨⟨h.layers.install hext hsound' happlied fun _ => h.layers.backed m hcur hc, ?_, ?_⟩,
        hext, .refl _, fun hn => absurd ⟨m, hcur, hc⟩ hn⟩
      · intro r hr
        obtain ⟨t', m'', phase⟩ := r
        obtain rfl : phase = .persisting none := persisting_of_migrated h ⟨m, hcur, hc⟩ hr
        exact ⟨(h.main _ hr).1, rfl⟩
      · intro r hr
        obtain ⟨m', hcur', -, hmc, htenant, hhosts, hsites, hin, hphase⟩ := h.late r hr
        obtain rfl : m = m' := some.inj (hcur.symm.trans hcur')
        refine ⟨_, rfl, hc', hmc, htenant, hhosts.trans (m.withArrived_hosts _).symm,
          hsites.trans (m.withArrived_sites _).symm, List.Subset.trans hin hsub, ?_⟩
        rw [m.withArrived_steps]
        exact hphase
    · exact .refl h

theorem moves_land (h : Inv s) (n : ℕ) : Moves s (step s (.land n)) := by
  rw [step]
  split
  · rename_i m hn
    refine ⟨⟨h.layers.land hn, ?_, h.late⟩, .refl _, ?_, fun hn hm => absurd hm hn⟩
    · exact fun r hr => (h.main r hr).of_saved rfl
    · exact h.layers.saved_stored m (mem_of_getElem? hn)
  · exact .refl h

theorem moves_step (h : Inv s) (hok : UpToDate s e) (hrun : ∀ steps, e ≠ .crash steps) :
    Moves s (step s e) := by
  cases e with
  | tick tenantId owner dryRun now hosts sites =>
    exact moves_tick h tenantId owner dryRun now hosts sites
  | flushed => exact moves_flushed h
  | persisted now => exact moves_persisted h now
  | applied moved now => exact moves_applied h moved now
  | failed => exact moves_failed h
  | lateTick => exact moves_lateTick h
  | lateFlushed => exact moves_lateFlushed h hok
  | latePersisted => exact moves_latePersisted h
  | lateApplied moved now => exact moves_lateApplied h moved now
  | lateFailed => exact moves_lateFailed h
  | bind fromKey toKey => exact moves_bind h fromKey toKey
  | land n => exact moves_land h n
  | crash steps => exact absurd rfl (hrun steps)

theorem crash_cur (s : State) (steps : List Step) : (step s (.crash steps)).cur = s.saved := by
  rw [step]
  cases s.saved with
  | none => rfl
  | some m => exact coerceMarker_spread m

theorem inv_crash (h : Inv s) (steps : List Step) : Inv (step s (.crash steps)) where
  layers := by
    rw [crash_cur]
    exact h.layers.reload
  main := fun r hr => nomatch hr
  late := fun r hr => nomatch hr

theorem inv_step (h : Inv s) (hok : UpToDate s e) : Inv (step s e) := by
  by_cases hrun : ∀ steps, e ≠ .crash steps
  · exact (moves_step h hok hrun).inv
  · obtain ⟨steps, rfl⟩ := not_forall_not.mp hrun
    exact inv_crash h steps

theorem Inv.once (h : Inv s) {st : Step} (hst : s.Applies st) {m : Marker} (hm : s.saved = some m) :
    st.name ∉ m.steps.keys := by
  obtain ⟨m', hcur, hext⟩ := hm ▸ h.layers.saved_cur
  intro hin
  rcases hst with ⟨⟨t, c, phase⟩, rest, hr, rfl⟩ | ⟨⟨t, c, phase⟩, rest, hr, rfl⟩
  · obtain ⟨-, hcur', -, -, hnew, -⟩ := h.main _ hr
    obtain rfl : m' = c := some.inj (hcur.symm.trans hcur')
    exact hnew (hext.steps hin)
  · obtain ⟨m'', hcur', -, -, -, -, -, -, -, hnew⟩ := h.late _ hr
    obtain rfl : m' = m'' := some.inj (hcur.symm.trans hcur')
    exact hnew (hext.steps hin)

theorem Inv.tenant (h : Inv s) {st : Step} {rest : List Step}
    (hr : s.main = some r) (hphase : r.phase = .applying st rest) {m : Marker}
    (hm : s.cur = some m ∨ s.saved = some m) : m.tenantId = r.tenantId := by
  obtain ⟨t, c, phase⟩ := r
  obtain rfl : phase = .applying st rest := hphase
  obtain ⟨htenant, hcur, -⟩ := h.main _ hr
  have hcur' : s.cur = some c := hcur
  rcases hm with hm | hm
  · obtain rfl : m = c := some.inj (hm.symm.trans hcur')
    exact htenant
  · obtain ⟨m', hm', hext⟩ := hm ▸ h.layers.saved_cur
    obtain rfl : m' = c := some.inj (hm'.symm.trans hcur')
    exact hext.tenantId.symm.trans htenant

theorem Inv.snapshot (h : Inv s) {x : Option Marker} (hx : Upto x s.saved) {m m' : Marker}
    (hm : x = some m) (hm' : s.cur = some m') : m'.hosts = m.hosts ∧ m'.sites = m.sites := by
  obtain ⟨m'', hcur, hext⟩ := hm ▸ hx.trans h.layers.saved_cur
  obtain rfl : m' = m'' := some.inj (hm'.symm.trans hcur)
  exact ⟨hext.hosts, hext.sites⟩

theorem stepOk_of_upToDate (h : Inv s) (hok : UpToDate s e) : StepOk s e := by
  have hinv : Inv (step s e) := inv_step h hok
  have hsaved : Upto s.saved (step s e).saved := by
    by_cases hrun : ∀ steps, e ≠ .crash steps
    · exact (moves_step h hok hrun).saved
    · obtain ⟨steps, rfl⟩ := not_forall_not.mp hrun
      exact .refl _
  exact {
    current := fun hrun => (moves_step h hok hrun).current
    restarted := by
      rintro steps rfl
      exact crash_cur s steps
    saved := hsaved
    completed := by
      intro hn hm
      by_cases hrun : ∀ steps, e ≠ .crash steps
      · exact (moves_step h hok hrun).completed hn hm
      · -- What is on disk is not ahead of the marker in memory.
        obtain ⟨steps, rfl⟩ := not_forall_not.mp hrun
        obtain ⟨m, hcur, hc⟩ := hm
        rw [crash_cur] at hcur
        obtain ⟨m', hcur', hext⟩ := hcur ▸ h.layers.saved_cur
        exact absurd ⟨m', hcur', hext.completed hc⟩ hn
    once := fun st hst m hm => hinv.once hst hm
    snapshot := fun m hm m' hm' => hinv.snapshot hsaved hm hm'
    tenant := fun r st rest hr hphase m hm => hinv.tenant hr hphase hm }

/-- An outdated copy takes an arrival off the marker. -/
theorem upToDate_of_stepOk (h : StepOk s e) : UpToDate s e := by
  rintro rfl t m todo m' hlate hcur
  have hstep : (step s .lateFlushed).cur = some m := by
    rw [step, hlate]
    rfl
  have hup := h.current (fun _ => Event.noConfusion)
  rw [hcur, hstep, upto_some] at hup
  exact hup.arrived

end

/-- In every run of the hub from an empty disk, whatever fails and wherever it is killed: the marker
keeps all it has, is completed only after every step, and no recorded step runs again, exactly when
no late step puts a copy of the marker in place that lacks a host which has arrived. -/
theorem marker_grows_iff (steps : List Step) (evs : List Event) :
    Along step StepOk (boot steps) evs ↔ Along step UpToDate (boot steps) evs :=
  along_congr step (I := Inv) (fun _ _ hs => ⟨upToDate_of_stepOk, stepOk_of_upToDate hs⟩)
    (fun _ _ hs hok => inv_step hs hok) (inv_boot steps)

/-! A hub that is upgraded after the migration: a host arrives while the new step runs. -/

def ownerTenant : JsString := List.replicate 32 (.scalar 'c')

def devices : Step := ⟨ofString "devices", false⟩

def repoTiers : Step := ⟨ofString "repoTiers", true⟩

def laptop : JsString := ofString "laptop"

def arrivalRun : List Event :=
  [.tick ownerTenant ownerTenant false 1 [laptop] [], .flushed, .persisted 2, .applied 3 4, .flushed,
    .persisted 5, .flushed, .persisted 6, .crash [devices, repoTiers], .lateTick,
    .bind laptop (tenantHostKey laptop ownerTenant), .lateApplied 1 7]

/-- The copy that a late step is about to put in place lacks the host, which has arrived. -/
def lacks (s : State) (host : JsString) : Bool :=
  match s.late, s.cur with
  | some ⟨_, m, .flushing _⟩, some m' => host ∈ m'.arrived.keys && host ∉ m.arrived.keys
  | _, _ => false

theorem lacks_not_upToDate {s : State} {host : JsString} (h : lacks s host = true) :
    ¬ UpToDate s .lateFlushed := by
  intro hok
  unfold lacks at h
  split at h
  · rename_i t m todo m' hlate hcur
    simp only [Bool.and_eq_true, decide_eq_true_eq] at h
    exact h.2 (hok rfl t m todo m' hlate hcur h.1)
  · exact Bool.false_ne_true h

/-- The step's marker takes the arrival away. -/
theorem late_step_drops_arrival :
    ¬ Along step StepOk (boot [devices]) (arrivalRun ++ [.lateFlushed]) := by
  intro h
  have hup := (along_append step).mp (h.mono step fun _ _ => upToDate_of_stepOk)
  have hlacks : lacks (run step (boot [devices]) arrivalRun) laptop = true := by decide
  exact lacks_not_upToDate hlacks hup.2.1

end Turma.TenantMigration
