import Turma.Leader.Steps

/-! The API server applies a write, a 200 reaches `_setLeader`, and every run: the
invariant holds along each run whose steps are in order and lowered. -/

namespace Turma.Leader

open Turma.Lib List Option

variable {ι : Type*} {c : Config ι} {w : World ι}

variable {r : Request} {k : ℕ}

theorem mem_applied {t t₁ : Task ι} (h : t₁ ∈ (w.applied k t r).tasks) :
    t₁ ∈ w.tasks ∨ t₁ = { t with request := some { r with status := .applied } } :=
  mem_or_eq_of_mem_set h

/-- The 200 of the applied write is the only one that comes to be awaited. -/
theorem awaited_applied {t t₁ : Task ι} {r r₁ : Request}
    (h : t₁ ∈ (w.applied k t r).tasks) (ha : Awaited t₁ r₁) :
    t₁ ∈ w.tasks ∨ t₁.owner = t.owner ∧ r₁.now = r.now ∧ r.purpose.claims = true := by
  rcases mem_applied h with h | rfl
  · exact Or.inl h
  · have hr := some.inj ha.request
    have hc := ha.claims
    rw [← hr] at hc
    exact Or.inr ⟨rfl, by rw [← hr], hc⟩

variable {t : Task ι}

theorem live_applied {i : ι}
    (h : Live (w.applied k t r) i) : Live w i ∨ i = t.owner ∧ r.purpose.claims = true := by
  rcases h with hl | ⟨hc, hr | ⟨t₁, ht₁, r₁, ho, ha, hi⟩⟩
  · exact Or.inl (Or.inl hl)
  · exact Or.inl (Or.inr ⟨hc, Or.inl hr⟩)
  · rcases awaited_applied ht₁ ha with hold | ⟨hown, -, hp⟩
    · exact Or.inl (Or.inr ⟨hc, Or.inr ⟨t₁, hold, r₁, ho, ha, hi⟩⟩)
    · exact Or.inr ⟨ho.symm.trans hown, hp⟩

variable {s : ℕ}

/-- A write adds stamps to its own elector alone. -/
theorem stamp_applied {i : ι}
    (hs : Stamp (w.applied k t r) i s) :
    Stamp w i s ∨ i = t.owner ∧ r.purpose.claims = true := by
  cases hs with
  | latest hl =>
    rcases live_applied hl with hl | hown
    · exact Or.inl (.latest hl)
    · exact Or.inr hown
  | awaited hl ho ht ha =>
    rcases awaited_applied ht ha with hold | ⟨hown, -, hp⟩
    · rcases live_applied hl with hl | hown
      · exact Or.inl (.awaited hl ho hold ha)
      · exact Or.inr hown
    · exact Or.inr ⟨hown, hp⟩

/-- The write carries the newest stamp of its elector. -/
theorem stamp_applied_le
    (hlast : (w.node t.owner).lastRenew ≤ r.now)
    (hown : ∀ t' ∈ w.tasks, ∀ r', t'.owner = t.owner → Awaited t' r' → r'.now ≤ r.now)
    (hs : Stamp (w.applied k t r) t.owner s) : s ≤ r.now := by
  generalize ho : t.owner = i at hs
  cases hs with
  | latest _ => rw [← ho]; exact hlast
  | awaited _ _ ht ha =>
    rcases awaited_applied ht ha with hold | ⟨-, hn, -⟩
    · exact hown _ hold _ ho.symm ha
    · exact hn.le

theorem accepts_cases {lease : Option Lease} {version : Option ℕ}
    (h : accepts lease version = true) :
    (lease = none ∧ version = none) ∨ ∃ l, lease = some l ∧ version = some l.resourceVersion := by
  cases lease with
  | none => cases version with
    | none => exact Or.inl ⟨rfl, rfl⟩
    | some v => exact absurd h Bool.false_ne_true
  | some l => cases version with
    | none => exact absurd h Bool.false_ne_true
    | some v =>
      simp only [accepts, beq_iff_eq] at h
      exact Or.inr ⟨l, rfl, by rw [h]⟩

/-- The new lease covers every stamp there is: the others' have lapsed, and it carries its
writer's own `now`. -/
theorem Inv.covers_applied (h : Inv c w)
    (hs : Sound c w t.owner r) (ha : accepts w.lease r.version = true) {i : ι}
    (hst : Stamp (w.applied k t r) i s) : Covers c (w.applied k t r) i s := by
  have named : r.purpose.claims = true → i = t.owner → s ≤ r.now →
      Covers c (w.applied k t r) i s := by
    intro hc hi hle
    obtain ⟨h1, h2, h3⟩ := hs.body hc
    subst hi
    exact Or.inr ⟨⟨w.nextVersion, r.spec⟩, rfl, h1, h2, r.now, h3, by omega⟩
  rcases accepts_cases ha with ⟨hnone, hv⟩ | ⟨l, hl, hv⟩
  · -- the POST finds no lease, so no elector had a stamp before
    obtain ⟨h0, -, hna⟩ := h.fresh hnone t.owner
    rcases stamp_applied hst with hold | ⟨rfl, hc⟩
    · exact absurd hold (h.no_stamp hnone)
    · refine named hc rfl (stamp_applied_le ?_ (fun t' ht' r' _ ha' => absurd ha' (hna t' ht' r')) hst)
      rw [h0]
      exact Nat.zero_le _
  · by_cases hother : i ≠ t.owner ∨ r.purpose.claims = false
    · rcases stamp_applied hst with hold | ⟨hi, hc⟩
      · exact Or.inl (hs.others l hl hv i s hold hother)
      · rcases hother with hne | hnc
        · exact absurd hi hne
        · exact absurd (hnc.symm.trans hc) Bool.false_ne_true
    · simp only [not_or, ne_eq, not_not, Bool.not_eq_false] at hother
      obtain ⟨rfl, hc⟩ := hother
      obtain ⟨hlast, hown⟩ := hs.own l hl hv hc
      exact named hc rfl (stamp_applied_le hlast hown hst)

theorem Inv.applied (h : Inv c w)
    (hk : w.tasks[k]? = some t) (hr : t.request = some r) (hp : r.status = .pending)
    (ha : accepts w.lease r.version = true) : Inv c (w.applied k t r) := by
  have htw : t ∈ w.tasks := mem_of_getElem? hk
  have hsound := h.sound t htw r hr hp
  refine ⟨h.renewed, ?_, ?_, fun i s hst => h.covers_applied hsound ha hst, h.confirmed,
    ?_, ?_, ?_, ?_, ?_, ?_⟩
  · intro l hl
    cases hl
    exact Nat.lt_succ_self _
  · intro hn
    exact absurd hn (Option.some_ne_none _)
  · intro t₁ ht₁
    rcases mem_applied ht₁ with ht₁ | rfl
    · exact h.issued t₁ ht₁
    · exact h.issued t htw
  · intro t₁ ht₁
    rcases mem_applied ht₁ with ht₁ | rfl
    · exact h.closing t₁ ht₁
    · exact h.closing t htw
  · -- a lease read before is now an old version
    intro t₁ ht₁ l hl
    have hseen : Seen w l := by
      rcases mem_applied ht₁ with ht₁ | rfl
      · exact h.seen t₁ ht₁ l hl
      · exact h.seen t htw l hl
    refine ⟨Nat.lt_succ_of_lt hseen.1, fun m hm hv => ?_⟩
    cases hm
    exact absurd hv.symm (Nat.ne_of_lt hseen.1)
  · intro t₁ ht₁ r₁ hr₁
    rcases mem_applied ht₁ with ht₁ | rfl
    · exact h.stamped t₁ ht₁ r₁ hr₁
    · rw [← some.inj hr₁]
      exact h.stamped t htw r hr
  · intro t₁ ht₁ r₁ hr₁
    rcases mem_applied ht₁ with ht₁ | rfl
    · exact h.sent t₁ ht₁ r₁ hr₁
    · rw [← some.inj hr₁]
      exact h.sent t htw r hr
  · intro t₁ ht₁ r₁ hr₁ hp₁
    have hold : ∀ v, r₁.version = some v → v < w.nextVersion := by
      rcases mem_applied ht₁ with ht₁ | rfl
      · exact (h.sound t₁ ht₁ r₁ hr₁ hp₁).old
      · rw [← some.inj hr₁] at hp₁
        exact Status.noConfusion hp₁
    -- the write still pending carries a version that is no longer current
    have gone : ∀ l, (w.applied k t r).lease = some l →
        r₁.version ≠ some l.resourceVersion := by
      intro l hl hv
      cases hl
      exact lt_irrefl _ (hold _ hv)
    rcases mem_applied ht₁ with ht₁ | rfl
    · have hs₁ := h.sound t₁ ht₁ r₁ hr₁ hp₁
      exact ⟨hs₁.body, hs₁.post, fun v hv => Nat.lt_succ_of_lt (hold v hv),
        fun l hl hv => absurd hv (gone l hl), fun l hl hv => absurd hv (gone l hl)⟩
    · rw [← some.inj hr₁] at hp₁
      exact Status.noConfusion hp₁

theorem inv_init (clock : ℕ) (lease : Option Lease) :
    Inv c (World.init clock lease : World ι) := by
  have dead : ∀ i, ¬ Live (World.init clock lease : World ι) i := by
    rintro i (hl | ⟨-, ⟨e, he, -⟩ | ⟨t, ht, -⟩⟩)
    · exact Bool.false_ne_true hl
    · exact not_mem_nil he
    · exact not_mem_nil ht
  have nostamp : ∀ i s, ¬ Stamp (World.init clock lease : World ι) i s := by
    intro i s hs
    cases hs with
    | latest hl => exact dead _ hl
    | awaited hl => exact dead _ hl
  refine ⟨fun _ => Nat.zero_le _, fun l hl => ?_,
    fun _ i => ⟨rfl, dead i, fun t ht => absurd ht not_mem_nil⟩,
    fun i s hs => absurd hs (nostamp i s), fun _ e he => absurd he not_mem_nil,
    fun t ht => ?_, fun t ht => ?_, fun t ht => ?_, fun t ht => ?_, fun t ht => ?_,
    fun t ht => ?_⟩
  · have hl' : lease = some l := hl
    subst hl'
    exact Nat.lt_succ_self _
  all_goals exact absurd ht not_mem_nil

/-- A 200 that `_setLeader` holds is one the elector was awaiting, so the stamp it comes to
rest on is one it already had. -/
theorem Inv.held (h : Inv c w) {canLead : Bool}
    (hk : w.tasks[k]? = some t) (ha : Awaited t r)
    (href : ¬ refuses c t.owner (w.node t.owner) w.clock canLead r.now)
    (ho : InOrder c w (.answered k .ok canLead)) :
    Settled w t.owner
      { setLeader c t.owner (w.node t.owner) w.clock canLead true r.now with
        confirmed := t.issued :: (w.node t.owner).confirmed } := by
  have htw : t ∈ w.tasks := mem_of_getElem? hk
  have hopen : (w.node t.owner).closed = false := by
    by_contra hc
    exact href (Or.inr (Or.inl (Bool.eq_true_of_not_eq_false hc)))
  have hlive : Live w t.owner := by
    refine Or.inr ⟨hopen, ?_⟩
    rcases ho t hk r ha.request ha with hi | hr | hr
    · exact Or.inr ⟨t, htw, r, rfl, ha, hi⟩
    · exact Or.inl hr
    · exact absurd hr href
  have hstamp : Stamp w t.owner (max (w.node t.owner).lastRenew r.now) := by
    rcases max_choice (w.node t.owner).lastRenew r.now with he | he
    · rw [he]; exact .latest hlive
    · rw [he]; exact .awaited hlive hopen htw ha
  obtain ⟨-, hlast, hcl, hab, hcf⟩ := setLeader_held c t.owner href
  refine ⟨fun _ => hlive, Or.inr (hlast ▸ hstamp), fun hc => hcl.trans hc, hab.ge, fun e he => ?_⟩
  rw [hab]
  rcases mem_cons.mp he with rfl | he
  · exact h.issued t htw
  · exact h.confirmed t.owner e he

/-- A 200 that `_setLeader` refuses is confirmed all the same, but lends no leadership
that its being awaited did not. -/
theorem Inv.refused (h : Inv c w)
    (hk : w.tasks[k]? = some t) (ha : Awaited t r) :
    Settled w t.owner { setTo (w.node t.owner) false with
      confirmed := t.issued :: (w.node t.owner).confirmed } := by
  have htw : t ∈ w.tasks := mem_of_getElem? hk
  have hi := h.issued t htw
  obtain ⟨-, hcl, hab, -⟩ := setTo_kept (w.node t.owner) false
  have hq := h.settled (setTo_false_quiet (w.node t.owner))
  refine ⟨?_, hq.renew, hq.closed, hq.abstentions, fun e he => ?_⟩
  · rintro (hl | ⟨hc, e, he, hle⟩)
    · exact absurd ((setTo_leader _ _).symm.trans hl) Bool.false_ne_true
    · have hopen : (w.node t.owner).closed = false := hcl.symm.trans hc
      rw [hab] at hle
      rcases mem_cons.mp he with rfl | he
      · exact Or.inr ⟨hopen, Or.inr ⟨t, htw, r, rfl, ha, le_antisymm hi hle⟩⟩
      · exact Or.inr ⟨hopen, Or.inl ⟨e, he, hle⟩⟩
  · rw [hab]
    rcases mem_cons.mp he with rfl | he
    · exact hi
    · exact h.confirmed t.owner e he

variable [DecidableEq ι]

theorem Inv.serveWrite (h : Inv c w)
    (hk : w.tasks[k]? = some t) (hr : t.request = some r) (hp : r.status = .pending) :
    Inv c (serveWrite w k t r) := by
  unfold Leader.serveWrite
  split_ifs with ha
  · exact h.applied hk hr hp ha
  · have htw : t ∈ w.tasks := mem_of_getElem? hk
    rw [← ran_same k { t with request := some { r with status := .rejected } }]
    refine h.ran hk rfl rfl rfl (h.settled (Quiet.refl _)) (fun r' ha' => ?_)
      (h.seen t htw) (fun r' hr' => Or.inr ?_)
    · have happ := ha'.applied
      rw [← some.inj ha'.request] at happ
      exact Status.noConfusion happ
    · obtain rfl := some.inj hr'
      exact ⟨h.stamped t htw r hr, h.sent t htw r hr, fun hp' => Status.noConfusion hp'⟩

theorem Inv.answered (h : Inv c w) {out : Outcome}
    {canLead : Bool} (hk : w.tasks[k]? = some t) (hpc : t.pc = .writing)
    (hr : t.request = some r) (hok : out = .ok → r.status = .applied)
    (ho : InOrder c w (.answered k out canLead)) : Inv c (answered c w k t r out canLead) := by
  refine h.over hk ?_
  rcases writeAnswered_cases c t.owner (w.node t.owner) w.clock t.issued r out canLead with
    ⟨hq, -⟩ | ⟨rfl, hclaims, he⟩
  · exact h.settled hq
  have ha : Awaited t r := ⟨hpc, hr, hok rfl, hclaims⟩
  rw [he]
  by_cases href : refuses c t.owner (w.node t.owner) w.clock canLead r.now
  · rw [setLeader_refused c t.owner href]
    exact h.refused hk ha
  · exact h.held hk ha href ho

theorem stop_quiet (w : World ι) (i j : ι) : Quiet (w.node j) ((w.stop i).node j) := by
  unfold World.stop
  by_cases hj : j = i
  · subst hj
    dsimp only
    rw [Function.update_self]
    exact ⟨id, rfl, fun _ => rfl, le_rfl, rfl⟩
  · dsimp only
    rw [Function.update_of_ne hj]
    exact Quiet.refl _

theorem inv_step (e : Event ι) (h : Inv c w) (ho : InOrder c w e) (hl : Lowered c w e) :
    Inv c (step c w e) := by
  have hE := step_effect c w e
  generalize step c w e = w' at hE ⊢
  cases hE with
  | idle => exact h
  | elapse d => exact h.elapse d
  | tick i => exact h.start i .tick fun hc => Call.noConfusion hc
  | stop i => exact h.quiet (stop_quiet w i)
  | release i => exact (h.quiet (stop_quiet w i)).start i .release fun _ => by simp [World.stop]
  | serveGet hk => exact h.serveGet hk
  | getFailed hk => exact h.getFailed hk
  | gotLease canLead hk hpc => exact h.gotLease hk hpc hl
  | serveWrite hk hr hp => exact h.serveWrite hk hr hp
  | answered canLead hk hpc hr hok => exact h.answered hk hpc hr hok ho

end Turma.Leader
