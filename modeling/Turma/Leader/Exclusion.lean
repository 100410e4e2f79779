import Turma.Leader.Safety

/-! What a step does to one elector, and leader mutual exclusion for electors that have no
`canLead` hook and are never released. -/

namespace Turma.Leader

open Turma.Lib List

/-- The three things a step can do to one elector: nothing that gains leadership, a
step-down because it cannot lead, or a 200 to one of its lease writes. -/
inductive NodeStep {ι : Type*} (c : Config ι) (w : World ι) (e : Event ι) (i : ι) (n' : Node) : Prop
  | quiet (h : Quiet (w.node i) n') (ha : n'.abstentions = (w.node i).abstentions)
  | abstained (canLead : Bool) (hc : cannotLead c i canLead = true)
      (hn : n' = stepDown (w.node i))
  | confirmed (k : ℕ) (t : Task ι) (r : Request) (canLead : Bool) (he : e = .answered k .ok canLead)
      (hk : w.tasks[k]? = some t) (ho : t.owner = i) (ha : Awaited t r)
      (hn : n' = { setLeader c i (w.node i) w.clock canLead true r.now with
        confirmed := t.issued :: (w.node i).confirmed })

variable {ι : Type*} {c : Config ι} {w : World ι}

theorem NodeStep.same (e : Event ι) (i : ι) : NodeStep c w e i (w.node i) :=
  .quiet (Quiet.refl _) rfl

theorem getThrew_step (e : Event ι) (i : ι) (call : Call) (clock : ℕ) :
    NodeStep c w e i (getThrew c i call (w.node i) clock) := by
  refine .quiet (getThrew_quiet c i call _ _) ?_
  cases call with
  | tick => exact maybeExpire_abstentions c i _ _
  | release => rfl

theorem tickObserved_step (e : Event ι) (i : ι) (observed : Option Lease) (canLead : Bool) :
    NodeStep c w e i (tickObserved c i (w.node i) w.clock observed canLead).1 := by
  rcases tickObserved_cases c i (w.node i) w.clock observed canLead with
    ⟨r, hc, -, he⟩ | ⟨-, he⟩ | ⟨l, purpose, -, -, -, he⟩ | ⟨m, hm, ha, he⟩
  · rw [he]; exact .abstained canLead hc rfl
  · rw [he]; exact .same e i
  · rw [he]; exact .same e i
  · rw [he]; exact .quiet hm ha

theorem releaseObserved_step (e : Event ι) (i : ι) (observed : Option Lease) :
    NodeStep c w e i (releaseObserved c i (w.node i) w.clock observed).1 := by
  unfold releaseObserved
  cases backdate c i (w.node i) .release observed w.clock with
  | none => exact .quiet (finally_quiet _) rfl
  | some r => exact .same e i

theorem writeAnswered_step {k : ℕ} {t : Task ι} {r : Request} {out : Outcome} (canLead : Bool)
    (hk : w.tasks[k]? = some t) (hpc : t.pc = .writing) (hr : t.request = some r)
    (hok : out = .ok → r.status = .applied) :
    NodeStep c w (.answered k out canLead) t.owner
      (writeAnswered c t.owner (w.node t.owner) w.clock r t.issued out canLead) := by
  rcases writeAnswered_cases c t.owner (w.node t.owner) w.clock t.issued r out canLead with
    ⟨hq, ha⟩ | ⟨rfl, hp, he⟩
  · exact .quiet hq ha
  · exact .confirmed k t r canLead rfl hk rfl ⟨hpc, hr, hok rfl, hp⟩ he

/-! The conditions of the invariant's step rule, from what the electors are given. -/

def Unreleased (w : World ι) : Prop := ∀ t ∈ w.tasks, t.call = .tick

theorem Unreleased.lowered (h : Unreleased w) (e : Event ι) : Lowered c w e := by
  cases e with
  | gotLease k canLead =>
    intro t observed hk hcall
    rw [h t (mem_of_getElem? hk)] at hcall
    exact Call.noConfusion hcall
  | _ => trivial

def NeverAbstained (w : World ι) : Prop := ∀ i, (w.node i).abstentions = 0

theorem NeverAbstained.inOrder (h : NeverAbstained w) (hi : Inv c w) (e : Event ι) :
    InOrder c w e := by
  cases e with
  | answered k out canLead =>
    cases out with
    | ok =>
      intro t hk _ _ _
      have hle := hi.issued t (mem_of_getElem? hk)
      rw [h t.owner] at hle ⊢
      exact Or.inl (Nat.le_zero.mp hle)
    | _ => trivial
  | _ => trivial

variable [DecidableEq ι]

theorem ran_step {e : Event ι} {k : ℕ} {t : Task ι} {n : Node} (h : NodeStep c w e t.owner n)
    (i : ι) : NodeStep c w e i ((w.ran k t n).node i) := by
  by_cases hi : i = t.owner
  · subst hi; rw [ran_node_self]; exact h
  · rw [ran_node_ne hi]; exact .same e i

theorem await_step {e : Event ι} {k : ℕ} {t : Task ι} {n : Node} {r : Option Request}
    (h : NodeStep c w e t.owner n) (i : ι) : NodeStep c w e i ((w.await k t n r).node i) := by
  cases r with
  | none => exact ran_step (t := { t with pc := .done }) h i
  | some r => exact ran_step (t := { t with pc := .writing, request := some r }) h i

theorem node_step (e : Event ι) (i : ι) : NodeStep c w e i ((step c w e).node i) := by
  have hE := step_effect c w e
  generalize step c w e = w' at hE ⊢
  have stop : ∀ j, NodeStep c w (.release j) i ((w.stop j).node i) := by
    intro j
    refine .quiet (stop_quiet w j i) ?_
    unfold World.stop
    by_cases hij : i = j
    · subst hij; simp
    · simp [Function.update_of_ne hij]
  cases hE with
  | idle => exact .same e i
  | elapse d => exact .same _ i
  | tick j => exact .same _ i
  | stop j => exact stop j
  | release j => exact stop j
  | serveGet hk => exact .same _ i
  | @getFailed k t hk =>
    exact ran_step (t := { t with pc := .done }) (getThrew_step _ t.owner t.call w.clock) i
  | @gotLease k t observed canLead hk hpc =>
    unfold Leader.gotLease
    cases t.call with
    | tick => exact await_step (tickObserved_step _ t.owner observed canLead) i
    | release => exact await_step (releaseObserved_step _ t.owner observed) i
  | serveWrite hk hr hp =>
    unfold Leader.serveWrite
    split_ifs <;> exact .same _ i
  | @answered k t r out canLead hk hpc hr hok =>
    have h := writeAnswered_step (c := c) canLead hk hpc hr hok
    exact ran_step (t := { t with pc := .done }) h i

/-- The calls of the next state are the old ones up to their progress, and the one that a
`tick` or a `release` event starts. -/
theorem task_step (e : Event ι) {t : Task ι} (ht : t ∈ (step c w e).tasks) :
    (∃ t₀ ∈ w.tasks, t₀.owner = t.owner ∧ t₀.call = t.call ∧ t₀.issued = t.issued) ∨
      (∃ i, e = .tick i ∧ t.owner = i ∧ t.call = .tick) ∨
      ∃ i, e = .release i ∧ t.owner = i ∧ t.call = .release := by
  have moved : ∀ {k : ℕ} {t₁ t₂ : Task ι}, w.tasks[k]? = some t₁ → t ∈ w.tasks.set k t₂ →
      t₁.owner = t₂.owner → t₁.call = t₂.call → t₁.issued = t₂.issued →
      ∃ t₀ ∈ w.tasks, t₀.owner = t.owner ∧ t₀.call = t.call ∧ t₀.issued = t.issued := by
    intro k t₁ t₂ hk hm ho hc hi
    rcases mem_or_eq_of_mem_set hm with hm | rfl
    · exact ⟨t, hm, rfl, rfl, rfl⟩
    · exact ⟨t₁, mem_of_getElem? hk, ho, hc, hi⟩
  have hE := step_effect c w e
  generalize step c w e = w' at hE ht
  cases hE with
  | idle => exact Or.inl ⟨t, ht, rfl, rfl, rfl⟩
  | elapse d => exact Or.inl ⟨t, ht, rfl, rfl, rfl⟩
  | tick j =>
    rcases mem_append.mp ht with hm | hm
    · exact Or.inl ⟨t, hm, rfl, rfl, rfl⟩
    · rw [mem_singleton.mp hm]; exact Or.inr (Or.inl ⟨j, rfl, rfl, rfl⟩)
  | stop j => exact Or.inl ⟨t, ht, rfl, rfl, rfl⟩
  | release j =>
    rcases mem_append.mp ht with hm | hm
    · exact Or.inl ⟨t, hm, rfl, rfl, rfl⟩
    · rw [mem_singleton.mp hm]; exact Or.inr (Or.inr ⟨j, rfl, rfl, rfl⟩)
  | serveGet hk => exact Or.inl (moved hk ht rfl rfl rfl)
  | getFailed hk => exact Or.inl (moved hk ht rfl rfl rfl)
  | gotLease canLead hk hpc =>
    unfold Leader.gotLease World.await at ht
    dsimp only at ht
    split at ht <;> exact Or.inl (moved hk ht rfl rfl rfl)
  | serveWrite hk hr hp =>
    unfold Leader.serveWrite at ht
    split_ifs at ht <;> exact Or.inl (moved hk ht rfl rfl rfl)
  | answered canLead hk hpc hr hok => exact Or.inl (moved hk ht rfl rfl rfl)

theorem Unreleased.step (h : Unreleased w) {e : Event ι} (he : ∀ i, e ≠ .release i) :
    Unreleased (step c w e) := by
  intro t ht
  rcases task_step e ht with ⟨t₀, ht₀, -, hc, -⟩ | ⟨i, -, -, hc⟩ | ⟨i, hi, -⟩
  · rw [← hc]; exact h t₀ ht₀
  · exact hc
  · exact absurd hi (he i)

theorem NeverAbstained.step (h : NeverAbstained w) (hook : ∀ i, c.canLead i = false)
    (e : Event ι) : NeverAbstained (step c w e) := by
  intro i
  rcases node_step (c := c) (w := w) e i with ⟨-, ha⟩ | ⟨canLead, hc, -⟩ |
    ⟨k, t, r, canLead, -, -, -, -, hn⟩
  · rw [ha]; exact h i
  · rw [cannotLead, hook i] at hc
    exact absurd hc Bool.false_ne_true
  · rw [hn]
    rw [setLeader_abstentions]
    exact h i

theorem along_unreleased {s : World ι} {evs : List (Event ι)}
    (hrel : ∀ i, Event.release i ∉ evs) :
    Along (step c) (fun _ e => ∀ i, e ≠ .release i) s evs := by
  apply along_of_forall
  intro e he i hi
  exact hrel i (hi ▸ he)

/-- Electors without a hook, none of them released, never lead two at a time. -/
theorem leader_exclusive (hook : ∀ i, c.canLead i = false) (clock : ℕ) (lease : Option Lease)
    {evs : List (Event ι)} (hrel : ∀ i, Event.release i ∉ evs) {i j : ι} (hij : i ≠ j) :
    ¬ ((run (step c) (World.init clock lease) evs).leads c i = true ∧
      (run (step c) (World.init clock lease) evs).leads c j = true) := by
  have hinv := run_inv (step c) (P := fun w => Inv c w ∧ Unreleased w ∧ NeverAbstained w)
    (fun w e ⟨hi, hu, ha⟩ he =>
      ⟨inv_step e hi (ha.inOrder hi e) (hu.lowered e), hu.step he, ha.step hook e⟩)
    ⟨inv_init clock lease, fun _ ht => absurd ht not_mem_nil, fun _ => rfl⟩
    (along_unreleased hrel)
  rintro ⟨hli, hlj⟩
  exact hij (hinv.1.exclusive hli hlj)

def twoPods : Config Bool where
  identity b := if b then "turma-1" else "turma-0"
  identity_injective := by unfold Function.Injective; decide
  leaseDurationMs _ := 15000
  renewDeadlineMs _ := 10000
  canLead _ := false

def tickOf (i : Bool) (k : ℕ) : List (Event Bool) :=
  [.tick i, .serveGet k, .gotLease k true, .serveWrite k, .answered k .ok true]

/-- The first pod leads, and 16 s later the second one does. -/
theorem leader_exclusive_twoPods :
    (run (step twoPods) (World.init 0 none) (tickOf false 0)).leads twoPods false = true ∧
    (run (step twoPods) (World.init 0 none)
      (tickOf false 0 ++ [.elapse 16001] ++ tickOf true 1)).leads twoPods true = true ∧
    ¬ ((run (step twoPods) (World.init 0 none)
        (tickOf false 0 ++ [.elapse 16001] ++ tickOf true 1)).leads twoPods true = true ∧
      (run (step twoPods) (World.init 0 none)
        (tickOf false 0 ++ [.elapse 16001] ++ tickOf true 1)).leads twoPods false = true) :=
  ⟨by decide +kernel, by decide +kernel,
    leader_exclusive (fun _ => rfl) 0 none (by simp [tickOf]) (by decide)⟩

end Turma.Leader

/-! Leadership after an abstention. `_setLeader` refuses a late 200 only while `canLead()`
is still false, so a renew older than the abstention re-arms the elector once the store is
back; a run without such an answer keeps every abstained elector down. -/

namespace Turma.Leader

open Turma.Lib

variable {ι : Type*} {c : Config ι} {w : World ι}

/-- The backdating write of the `n`-th abstention of replica `i` was applied. -/
def Backdated (w : World ι) (i : ι) (n : ℕ) : Prop :=
  ∃ t ∈ w.tasks, ∃ r ∈ t.request, t.owner = i ∧ r.purpose = .abstain ∧ r.status = .applied ∧
    r.sent = n

instance [DecidableEq ι] (w : World ι) (i : ι) (n : ℕ) : Decidable (Backdated w i n) := by
  unfold Backdated; infer_instance

/-- An elector whose lease was backdated does not lead until it confirms a lease write whose
GET was issued after that abstention. -/
def StaysDown (c : Config ι) (w : World ι) : Prop :=
  ∀ i n, Backdated w i n → ¬ Reconfirmed (w.node i) n → w.leads c i = false

/-- A set `_leader` rests on a write issued after the last abstention. -/
def Earned (w : World ι) : Prop :=
  ∀ i, (w.node i).leader = true → Reconfirmed (w.node i) (w.node i).abstentions

theorem Reconfirmed.mono {n : Node} {a b : ℕ} (hab : a ≤ b) (h : Reconfirmed n b) :
    Reconfirmed n a := by
  obtain ⟨e, he, hle⟩ := h
  exact ⟨e, he, hab.trans hle⟩

theorem Backdated.le (h : Inv c w) {i : ι} {n : ℕ} (hb : Backdated w i n) :
    n ≤ (w.node i).abstentions := by
  obtain ⟨t, ht, r, hr, rfl, -, -, rfl⟩ := hb
  exact h.sent t ht r hr

theorem leader_of_leads {i : ι} (h : w.leads c i = true) : (w.node i).leader = true := by
  simp only [World.leads, isLeader, Bool.and_eq_true] at h
  exact h.1

theorem Earned.staysDown (he : Earned w) (h : Inv c w) : StaysDown c w := by
  intro i n hb hn
  by_contra hl
  apply hn
  have hlead := leader_of_leads (Bool.eq_true_of_not_eq_false hl)
  exact (he i hlead).mono (hb.le h)

theorem leads_of_held {i : ι} (hl : (w.node i).leader = true)
    (hn : ¬ lapsed c i w.clock (w.node i).lastRenew) : w.leads c i = true := by
  simp [World.leads, isLeader, hl, hn]

variable [DecidableEq ι]

theorem Earned.step (he : Earned w) {e : Event ι} (ho : InOrder c w e) :
    Earned (step c w e) := by
  intro i hl
  rcases node_step (c := c) (w := w) e i with ⟨hq, ha⟩ | ⟨canLead, -, hn⟩ |
    ⟨k, t, r, canLead, rfl, hk, rfl, ha, hn⟩
  · rw [ha, Reconfirmed, hq.confirmed]
    exact he i (hq.leader hl)
  · rw [hn] at hl
    exact absurd ((setTo_leader _ _).symm.trans hl) Bool.false_ne_true
  · rw [hn] at hl ⊢
    by_cases href : refuses c t.owner (w.node t.owner) w.clock canLead r.now
    · rw [setLeader_refused c t.owner href] at hl
      exact absurd ((setTo_leader _ _).symm.trans hl) Bool.false_ne_true
    · rw [setLeader_abstentions]
      rcases ho t hk r ha.request ha with hi | ⟨e, hmem, hle⟩ | hr
      · exact ⟨t.issued, List.mem_cons_self, hi.ge⟩
      · exact ⟨e, .tail _ hmem, hle⟩
      · exact absurd hr href

theorem step_awaited {k : ℕ} {t : Task ι} {r : Request} (canLead : Bool)
    (hk : w.tasks[k]? = some t) (ha : Awaited t r) :
    step c w (.answered k .ok canLead) = answered c w k t r .ok canLead := by
  simp [step, hk, ha.pc, ha.request, ha.applied]

/-- The condition leaves out only the defect: an answer out of order puts an elector that
backdated its lease, and confirmed nothing issued since, back in the lead. -/
theorem rearmed_of_not_inOrder (h : Inv c w) {e : Event ι} (ho : ¬ InOrder c w e) :
    ∃ i, 0 < (w.node i).abstentions ∧ (step c w e).leads c i = true ∧
      ¬ Reconfirmed ((step c w e).node i) ((step c w e).node i).abstentions := by
  cases e with
  | answered k out canLead =>
    cases out with
    | ok =>
      simp only [InOrder, not_forall, not_or, exists_prop] at ho
      obtain ⟨t, hk, r, -, ha, hne, hnr, href⟩ := ho
      have hi := h.issued t (List.mem_of_getElem? hk)
      obtain ⟨hl, hlast, -, hab, -⟩ := setLeader_held c t.owner href
      rw [step_awaited canLead hk ha]
      have hnode : (answered c w k t r .ok canLead).node t.owner =
          { setLeader c t.owner (w.node t.owner) w.clock canLead true r.now with
            confirmed := t.issued :: (w.node t.owner).confirmed } :=
        (ran_node_self k { t with pc := .done } _).trans (writeAnswered_ok c t.owner ha.claims)
      refine ⟨t.owner, by omega, leads_of_held (by rw [hnode]; exact hl) ?_, ?_⟩
      · rw [hnode, hlast]
        exact fun hlap => href (Or.inl hlap)
      · rw [hnode]
        rintro ⟨e, hmem, hle⟩
        rw [hab] at hle
        rcases List.mem_cons.mp hmem with rfl | hmem
        · omega
        · exact hnr ⟨e, hmem, hle⟩
    | _ => exact absurd trivial ho
  | _ => exact absurd trivial ho

/-- In a run without `release()` whose answers are all in order, an elector that abstained
stays down until it confirms a later write, and no two electors lead at once. -/
theorem abstention_holds {clock : ℕ} {lease : Option Lease} {evs : List (Event ι)}
    (hrel : ∀ i, Event.release i ∉ evs)
    (hord : Along (step c) (InOrder c) (World.init clock lease) evs) :
    StaysDown c (run (step c) (World.init clock lease) evs) ∧
      ∀ i j, (run (step c) (World.init clock lease) evs).leads c i = true →
        (run (step c) (World.init clock lease) evs).leads c j = true → i = j := by
  have hinv := run_inv (step c) (P := fun w => Inv c w ∧ Unreleased w ∧ Earned w)
    (fun w e ⟨hi, hu, he⟩ hok =>
      ⟨inv_step e hi hok.2 (hu.lowered e), hu.step hok.1, he.step hok.2⟩)
    ⟨inv_init clock lease, fun _ ht => absurd ht List.not_mem_nil,
      fun _ hl => absurd hl Bool.false_ne_true⟩
    ((along_unreleased hrel).and (step c) hord)
  obtain ⟨hi, -, he⟩ := hinv
  exact ⟨he.staysDown hi, fun i j hli hlj => hi.exclusive hli hlj⟩

def hookedPods : Config Bool := { twoPods with canLead := fun _ => true }

/-- The first pod leads, loses the store and backdates its lease; the second acquires it. -/
def abstained : List (Event Bool) :=
  tickOf false 0 ++ [.elapse 5000, .tick false, .serveGet 1, .gotLease 1 false, .serveWrite 1,
    .answered 1 .ok false] ++ tickOf true 2

theorem abstention_holds_hookedPods :
    Backdated (run (step hookedPods) (World.init 0 none) abstained) false 1 ∧
      (run (step hookedPods) (World.init 0 none) abstained).leads hookedPods true = true ∧
      StaysDown hookedPods (run (step hookedPods) (World.init 0 none) abstained) :=
  ⟨by decide +kernel, by decide +kernel,
    (abstention_holds (by simp [abstained, tickOf]) (by decide +kernel)).1⟩

/-- A renew is applied and its 200 delayed; the next tick abstains and backdates, the store
comes back, and the late 200 reaches an elector that may lead again. -/
def lateRenew : List (Event Bool) :=
  tickOf false 0 ++ [.elapse 5000, .tick false, .serveGet 1, .gotLease 1 true, .serveWrite 1,
    .elapse 5000, .tick false, .serveGet 2, .gotLease 2 false, .serveWrite 2,
    .answered 1 .ok true] ++ tickOf true 3

theorem lateRenew_resurrects :
    let w := run (step hookedPods) (World.init 0 none) lateRenew
    (∀ i, Event.release i ∉ lateRenew) ∧ Backdated w false 1 ∧
      ¬ Reconfirmed (w.node false) 1 ∧ ¬ StaysDown hookedPods w ∧
      w.leads hookedPods false = true ∧ w.leads hookedPods true = true := by
  have hb : Backdated (run (step hookedPods) (World.init 0 none) lateRenew) false 1 := by
    decide +kernel
  have hn : ¬ Reconfirmed ((run (step hookedPods) (World.init 0 none) lateRenew).node false) 1 := by
    decide +kernel
  have hl : (run (step hookedPods) (World.init 0 none) lateRenew).leads hookedPods false = true := by
    decide +kernel
  refine ⟨by simp [lateRenew, tickOf], hb, hn, fun h => ?_, hl, by decide +kernel⟩
  exact Bool.false_ne_true ((h false 1 hb hn).symm.trans hl)

end Turma.Leader
