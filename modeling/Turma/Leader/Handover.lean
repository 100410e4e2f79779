import Turma.Leader.Exclusion

/-! `release()`. `_leader` is dropped in its `finally`, after the backdating PUT, so between
the two the replica may report leadership over a lease another one may take. -/

namespace Turma.Leader

open Turma.Lib List Option

variable {ι : Type*} {c : Config ι} {w : World ι}

def Released (w : World ι) (i : ι) : Prop :=
  ∃ t ∈ w.tasks, ∃ r ∈ t.request, t.owner = i ∧ r.purpose = .release

instance [DecidableEq ι] (w : World ι) (i : ι) : Decidable (Released w i) := by
  unfold Released; infer_instance

def HandsOver (c : Config ι) (w : World ι) : Prop := ∀ i, Released w i → w.leads c i = false

/-- A released elector is closed and no longer reports leadership. -/
structure Handed (c : Config ι) (w : World ι) : Prop where
  closing : ∀ t ∈ w.tasks, t.call = .release → (w.node t.owner).closed = true
  down : ∀ i, Released w i → (w.node i).closed = true ∧
    ((w.node i).leader = false ∨ lapsed c i w.clock (w.node i).lastRenew)

variable {i : ι}

theorem leads_eq_false : w.leads c i = false ↔
    (w.node i).leader = false ∨ lapsed c i w.clock (w.node i).lastRenew := by
  simp [World.leads, isLeader, imp_iff_not_or]

theorem Handed.handsOver (h : Handed c w) : HandsOver c w :=
  fun i hr => leads_eq_false.mpr (h.down i hr).2

variable {e : Event ι}

/-- A closed elector stays closed and renews nothing. -/
theorem closed_step [DecidableEq ι] (hc : (w.node i).closed = true) :
    ((step c w e).node i).closed = true ∧ (((step c w e).node i).leader = true →
      (w.node i).leader = true ∧ ((step c w e).node i).lastRenew = (w.node i).lastRenew) := by
  rcases node_step (c := c) (w := w) e i with ⟨hq, -⟩ | ⟨canLead, -, hn⟩ |
    ⟨k, t, r, canLead, -, -, -, -, hn⟩
  · exact ⟨hq.closed hc, fun hl => ⟨hq.leader hl, hq.lastRenew⟩⟩
  · rw [hn]
    have hq := stepDown_quiet (w.node i)
    exact ⟨hq.closed hc, fun hl => ⟨hq.leader hl, hq.lastRenew⟩⟩
  · rw [hn, setLeader_refused c i (Or.inr (Or.inl hc))]
    have hq := setTo_false_quiet (w.node i)
    exact ⟨hq.closed hc, fun hl => ⟨hq.leader hl, hq.lastRenew⟩⟩

variable {observed : Option Lease}

theorem tick_not_release {n : Node} {now : ℕ} {canLead : Bool}
    {r : Request} (h : (tickObserved c i n now observed canLead).2 = some r) :
    r.purpose ≠ .release := by
  rcases tickObserved_cases c i n now observed canLead with
    ⟨r', -, hb, he⟩ | ⟨-, he⟩ | ⟨l, purpose, -, hp, -, he⟩ | ⟨m, -, -, he⟩
  · obtain ⟨l, -, -, rfl⟩ := backdate_eq_some c i hb
    rw [he, some.injEq] at h
    rw [← h]
    exact Purpose.noConfusion
  · rw [he, some.injEq] at h
    rw [← h]
    exact Purpose.noConfusion
  · rw [he, some.injEq] at h
    rw [← h]
    rcases hp with rfl | rfl <;> exact Purpose.noConfusion
  · rw [he] at h
    exact absurd h.symm (Option.some_ne_none r)

variable [DecidableEq ι]

theorem clock_step (e : Event ι) : w.clock ≤ (step c w e).clock := by
  have hE := step_effect c w e
  generalize step c w e = w' at hE ⊢
  cases hE with
  | elapse d => exact Nat.le_add_right _ _
  | gotLease canLead hk hpc =>
    unfold Leader.gotLease World.await
    dsimp only
    split <;> exact le_rfl
  | serveWrite hk hr hp =>
    unfold Leader.serveWrite
    split_ifs <;> exact le_rfl
  | _ => exact le_rfl

theorem gotLease_release {k : ℕ} {t : Task ι} {canLead : Bool}
    {r : Request} (hcall : t.call = .release)
    (hb : backdate c t.owner (w.node t.owner) .release observed w.clock = some r) :
    gotLease c w k t observed canLead = w.await k t (w.node t.owner) (some r) := by
  unfold Leader.gotLease
  rw [hcall]
  rw [releaseObserved, hb]

/-- The sending step of `release()`: its GET is answered and the lease is its own. -/
structure Sends (c : Config ι) (w : World ι) (i : ι) (k : ℕ) (t : Task ι)
    (observed : Option Lease) : Prop where
  task : w.tasks[k]? = some t
  owner : t.owner = i
  call : t.call = .release
  pc : t.pc = .got observed
  own : (backdate c i (w.node i) .release observed w.clock).isSome = true

/-- A PUT of `release()` is on its way because it was before, or because this step sent it. -/
theorem released_step (h : Released (step c w e) i) :
    Released w i ∨ ∃ k canLead t observed, e = .gotLease k canLead ∧ Sends c w i k t observed := by
  have moved : ∀ {k : ℕ} {t₁ t₂ t : Task ι}, w.tasks[k]? = some t₁ → t ∈ w.tasks.set k t₂ →
      t₂.owner = t₁.owner → (∀ r₂, t₂.request = some r₂ → r₂.purpose = .release →
        ∃ r₁, t₁.request = some r₁ ∧ r₁.purpose = .release) →
      ∀ r ∈ t.request, t.owner = i → r.purpose = .release → Released w i := by
    intro k t₁ t₂ t hk hm ho hkeep r hr hi hp
    rcases mem_or_eq_of_mem_set hm with hm | rfl
    · exact ⟨t, hm, r, hr, hi, hp⟩
    · obtain ⟨r₁, hr₁, hp₁⟩ := hkeep r hr hp
      exact ⟨t₁, mem_of_getElem? hk, r₁, hr₁, ho.symm.trans hi, hp₁⟩
  obtain ⟨t, ht, r, hr, hi, hp⟩ := h
  have hE := step_effect c w e
  generalize step c w e = w' at hE ht
  cases hE with
  | idle => exact Or.inl ⟨t, ht, r, hr, hi, hp⟩
  | elapse d => exact Or.inl ⟨t, ht, r, hr, hi, hp⟩
  | stop j => exact Or.inl ⟨t, ht, r, hr, hi, hp⟩
  | tick j | release j =>
    rcases mem_append.mp ht with hm | hm
    · exact Or.inl ⟨t, hm, r, hr, hi, hp⟩
    · rw [mem_singleton.mp hm] at hr
      cases hr
  | serveGet hk => exact Or.inl (moved hk ht rfl (fun r₂ h2 hp2 => ⟨r₂, h2, hp2⟩) r hr hi hp)
  | getFailed hk => exact Or.inl (moved hk ht rfl (fun r₂ h2 hp2 => ⟨r₂, h2, hp2⟩) r hr hi hp)
  | answered canLead hk hpc hr' hok =>
    exact Or.inl (moved hk ht rfl (fun r₂ h2 hp2 => ⟨r₂, h2, hp2⟩) r hr hi hp)
  | serveWrite hk hr' hpend =>
    unfold Leader.serveWrite at ht
    split_ifs at ht
    all_goals
      refine Or.inl (moved hk ht rfl (fun r₂ h2 hp2 => ⟨_, hr', ?_⟩) r hr hi hp)
      rw [← some.inj h2] at hp2
      exact hp2
  | @gotLease k t₁ observed canLead hk hpc =>
    unfold Leader.gotLease at ht
    cases hcall : t₁.call with
    | tick =>
      rw [hcall] at ht
      dsimp only at ht
      cases hb : (tickObserved c t₁.owner (w.node t₁.owner) w.clock observed canLead).2 with
      | none =>
        rw [hb] at ht
        exact Or.inl (moved hk ht rfl (fun r₂ h2 hp2 => ⟨r₂, h2, hp2⟩) r hr hi hp)
      | some r' =>
        rw [hb] at ht
        refine Or.inl (moved hk ht rfl (fun r₂ h2 hp2 => absurd hp2 ?_) r hr hi hp)
        rw [← some.inj h2]
        exact tick_not_release hb
    | release =>
      rw [hcall] at ht
      rw [releaseObserved] at ht
      cases hb : backdate c t₁.owner (w.node t₁.owner) .release observed w.clock with
      | none =>
        rw [hb] at ht
        exact Or.inl (moved hk ht rfl (fun r₂ h2 hp2 => ⟨r₂, h2, hp2⟩) r hr hi hp)
      | some r' =>
        rw [hb] at ht
        rcases mem_or_eq_of_mem_set ht with hm | rfl
        · exact Or.inl ⟨t, hm, r, hr, hi, hp⟩
        · obtain rfl : t₁.owner = i := hi
          exact Or.inr ⟨k, canLead, t₁, observed, rfl, hk, rfl, hcall, hpc, by rw [hb]; rfl⟩

theorem step_sends {k : ℕ} {t : Task ι} (canLead : Bool)
    (h : Sends c w i k t observed) :
    let w' := step c w (.gotLease k canLead)
    Released w' i ∧ w'.node i = w.node i ∧ w'.clock = w.clock := by
  obtain ⟨hk, rfl, hcall, hpc, hown⟩ := h
  obtain ⟨r, hb⟩ := Option.isSome_iff_exists.mp hown
  have hstep : step c w (.gotLease k canLead) = w.await k t (w.node t.owner) (some r) := by
    simp only [step, hk, hpc]
    exact gotLease_release hcall hb
  obtain ⟨l, -, -, hr⟩ := backdate_eq_some c _ hb
  intro w'
  have hw' : w' = w.await k t (w.node t.owner) (some r) := hstep
  rw [hw']
  refine ⟨⟨{ t with pc := .writing, request := some r }, ?_, r, rfl, rfl, by rw [hr]⟩,
    ran_node_self k { t with pc := .writing, request := some r } _, rfl⟩
  exact mem_set (List.getElem?_eq_some_iff.mp hk).1 _

theorem release_closed (i : ι) : ((step c w (.release i)).node i).closed = true := by
  simp only [step]
  split_ifs <;> simp [World.stop, World.start]

theorem Handed.step (h : Handed c w) (hl : Lowered c w e) :
    Handed c (step c w e) where
  closing := by
    intro t ht hcall
    rcases task_step e ht with ⟨t₀, ht₀, ho, hc, -⟩ | ⟨i, -, -, hc⟩ | ⟨i, rfl, rfl, -⟩
    · rw [← ho]
      exact (closed_step (h.closing t₀ ht₀ (hc.trans hcall))).1
    · exact Call.noConfusion (hc.symm.trans hcall)
    · exact release_closed t.owner
  down := by
    intro i hr
    rcases released_step hr with hold | ⟨k, canLead, t, observed, rfl, hs⟩
    · obtain ⟨hc, hdown⟩ := h.down i hold
      obtain ⟨hc', hkeep⟩ := closed_step (c := c) (e := e) hc
      refine ⟨hc', ?_⟩
      rcases Bool.eq_false_or_eq_true ((Leader.step c w e).node i).leader with hlead | hlead
      · obtain ⟨hlead, hlast⟩ := hkeep hlead
        rcases hdown with hf | hlap
        · exact absurd (hf.symm.trans hlead) Bool.false_ne_true
        · rw [hlast]
          exact Or.inr (lapsed_mono c (clock_step e) hlap)
      · exact Or.inl hlead
    · obtain ⟨-, hnode, hclock⟩ := step_sends canLead hs
      rw [hnode, hclock]
      obtain ⟨hk, rfl, hcall, hpc, hown⟩ := hs
      exact ⟨h.closing t (mem_of_getElem? hk) hcall, hl t observed hk hcall hpc hown⟩

/-- The PUT of `release()` is sent either lowered or into an overlap. -/
theorem lowered_of_handsOver (h : HandsOver c (step c w e)) : Lowered c w e := by
  cases e with
  | gotLease k canLead =>
    intro t observed hk hcall hpc hown
    obtain ⟨hrel, hnode, hclock⟩ := step_sends canLead
      (⟨hk, rfl, hcall, hpc, hown⟩ : Sends c w t.owner k t observed)
    have hdown := leads_eq_false.mp (h t.owner hrel)
    rwa [hnode, hclock] at hdown
  | _ => trivial

/-- A released replica is down from the moment its PUT may be applied, throughout a run,
exactly when every PUT of `release()` is sent by an elector that reports leadership no
more. -/
theorem handsOver_iff (clock : ℕ) (lease : Option Lease) (evs : List (Event ι)) :
    Throughout (step c) (HandsOver c) (World.init clock lease) evs ↔
      Along (step c) (Lowered c) (World.init clock lease) evs := by
  apply throughout_iff_along (step c) (I := Handed c)
  · exact fun w h => h.handsOver
  · exact fun w e h hl => h.step hl
  · exact fun w e _ hp => lowered_of_handsOver hp
  · exact ⟨fun t ht => absurd ht not_mem_nil, fun i ⟨t, ht, _⟩ => absurd ht not_mem_nil⟩

/-- The first pod leads and releases; its PUT is applied, the 200 still on its way, when
the second pod takes the backdated lease. -/
def releaseOverlap : List (Event Bool) :=
  tickOf false 0 ++ [.elapse 5000, .release false, .serveGet 1, .gotLease 1 true,
    .serveWrite 1] ++ tickOf true 2

theorem releaseOverlap_both_lead :
    let w := run (step twoPods) (World.init 0 none) releaseOverlap
    Released w false ∧ ¬ HandsOver twoPods w ∧
      w.leads twoPods false = true ∧ w.leads twoPods true = true := by
  have hr : Released (run (step twoPods) (World.init 0 none) releaseOverlap) false := by
    decide +kernel
  have hl : (run (step twoPods) (World.init 0 none) releaseOverlap).leads twoPods false = true := by
    decide +kernel
  refine ⟨hr, fun h => ?_, hl, by decide +kernel⟩
  exact Bool.false_ne_true ((h false hr).symm.trans hl)

end Turma.Leader
