import Turma.Leader.Election

/-! Every event that applies no write preserves the invariant, under two conditions on the
step. `InOrder`: a 200 that `_setLeader` does not refuse belongs to a tick whose GET came
after the elector's last abstention, or one such was confirmed before. `Lowered`: when
`release()` sends its PUT, the elector no longer reports leadership. -/

namespace Turma.Leader

open Turma.Lib List Option

section

variable {ι : Type*} (c : Config ι)

def InOrder (w : World ι) : Event ι → Prop
  | .answered k .ok canLead => ∀ t ∈ w.tasks[k]?, ∀ r ∈ t.request, Awaited t r →
      t.issued = (w.node t.owner).abstentions ∨
        Reconfirmed (w.node t.owner) (w.node t.owner).abstentions ∨
        refuses c t.owner (w.node t.owner) w.clock canLead r.now
  | _ => True

instance [DecidableEq ι] (w : World ι) : DecidablePred (InOrder c w)
  | .answered _ .ok _ => by unfold InOrder; infer_instance
  | .answered _ .refused _ | .answered _ .threw _ | .elapse _ | .tick _ | .release _ | .serveGet _
  | .getFailed _ | .gotLease _ _ | .serveWrite _ => isTrue trivial

def Lowered (w : World ι) : Event ι → Prop
  | .gotLease k _ => ∀ t observed, w.tasks[k]? = some t → t.call = .release →
      t.pc = .got observed →
      (backdate c t.owner (w.node t.owner) .release observed w.clock).isSome = true →
      (w.node t.owner).leader = false ∨
        lapsed c t.owner w.clock (w.node t.owner).lastRenew
  | _ => True

end

variable {ι : Type*} {c : Config ι} {w : World ι}

theorem sound_create (i : ι) :
    Sound c w i (create c i (w.node i) w.clock) where
  body _ := ⟨rfl, rfl, rfl⟩
  post _ := rfl
  old v hv := by simp [create] at hv
  others l _ hv := by simp [create] at hv
  own l _ hv := by simp [create] at hv

variable {purpose : Purpose}

/-- A renew or an acquisition: whoever else has a stamp held the expired lease, or is not
the holder of the one being renewed. -/
theorem Inv.sound_put (h : Inv c w) {i : ι} {l : Lease}
    (hp : purpose = .renew ∨ purpose = .acquire) (hseen : Seen w l)
    (hl : l.spec.holderIdentity = some (c.identity i) ∨ expired c i l.spec w.clock = true) :
    Sound c w i (put c i (w.node i) purpose l w.clock) where
  body _ := ⟨rfl, rfl, rfl⟩
  post hv := by simp [put] at hv
  old v hv := by
    simp only [put, some.injEq] at hv
    exact hv ▸ hseen.1
  others m hm hv j s hs hj := by
    have hclaims : (put c i (w.node i) purpose l w.clock).purpose.claims = true := by
      rcases hp with rfl | rfl <;> rfl
    have hji : j ≠ i := hj.resolve_right (by rw [hclaims]; decide)
    simp only [put, some.injEq] at hv
    obtain rfl := hseen.2 m hm hv.symm
    rcases h.covered j s hs with hlap | ⟨m', hm', hname, hdur, r, hr, hsr⟩
    · exact hlap
    rw [hm, some.injEq] at hm'
    subst m'
    rcases hl with hown | hexp
    · rw [hname, some.injEq] at hown
      exact absurd (c.identity_injective hown) hji
    · have hpos : leaseSeconds c j ≠ 0 := by
        have : 1 ≤ leaseSeconds c j := le_max_left _ _
        omega
      simp only [expired, hr, durMs, hdur, if_neg hpos, decide_eq_true_eq] at hexp
      unfold lapsed leaseMs
      omega
  own _ _ _ _ := ⟨h.renewed i, fun t ht r ho ha => h.stamped t ht r ha.request⟩

variable {observed : Option Lease} {n : Node} {r : Request}

/-- A backdating write is sound once its sender has no live stamp left. -/
theorem Inv.sound_backdate {w' : World ι} (h : Inv c w) (hw : Calm w w') {i : ι}
    (hp : purpose.claims = false) (hseen : ∀ l, observed = some l → Seen w l)
    (hr : backdate c i n purpose observed w.clock = some r)
    (hown : ∀ s, Stamp w' i s → lapsed c i w'.clock s) :
    Sound c w' i r := by
  obtain ⟨l, hl, hname, rfl⟩ := backdate_eq_some c i hr
  refine ⟨fun hc => ?_, fun hv => ?_, fun v hv => ?_, fun m hm hv j s hs _ => ?_,
    fun m hm hv hc => ?_⟩
  · rw [hp] at hc; exact absurd hc Bool.false_ne_true
  · exact absurd hv (Option.some_ne_none _)
  · rw [hw.next]
    exact (some.inj hv) ▸ (hseen l hl).1
  · by_cases hji : j = i
    · subst hji; exact hown s hs
    rw [hw.lease] at hm
    obtain rfl := (hseen l hl).2 m hm (some.inj hv).symm
    rcases h.covered j s (h.stamps hw hs) with hlap | ⟨m', hm', hname', _⟩
    · exact lapsed_mono c hw.clock hlap
    rw [hm, some.injEq] at hm'
    subst m'
    rw [hname, some.injEq] at hname'
    exact absurd (c.identity_injective hname').symm hji
  · rw [hp] at hc; exact absurd hc Bool.false_ne_true

theorem Inv.elapse (h : Inv c w) (d : ℕ) : Inv c { w with clock := w.clock + d } := by
  have hw : Calm w { w with clock := w.clock + d } :=
    ⟨rfl, rfl, Nat.le_add_right _ _, fun i => h.settled (Quiet.refl _), fun t ht => Or.inl ht⟩
  exact h.calm hw fun t ht => h.carried hw ht

theorem Inv.quiet (h : Inv c w) {f : ι → Node} (hf : ∀ i, Quiet (w.node i) (f i)) :
    Inv c { w with node := f } := by
  have hw : Calm w { w with node := f } :=
    ⟨rfl, rfl, le_rfl, fun j => h.settled (hf j), fun t ht => Or.inl ht⟩
  exact h.calm hw fun t ht => h.carried hw ht

theorem Inv.start (h : Inv c w) (i : ι) (call : Call)
    (hc : call = .release → (w.node i).closed = true) : Inv c (w.start i call) := by
  have hw : Calm w (w.start i call) := by
    refine ⟨rfl, rfl, le_rfl, fun j => h.settled (Quiet.refl _), fun t ht => ?_⟩
    rcases mem_append.mp ht with ht | ht
    · exact Or.inl ht
    · rw [mem_singleton.mp ht]
      exact Or.inr fun r ha => Pc.noConfusion ha.pc
  refine h.calm hw fun t ht => ?_
  rcases mem_append.mp ht with ht | ht
  · exact h.carried hw ht
  · rw [mem_singleton.mp ht]
    exact ⟨le_rfl, hc, fun l hl => Pc.noConfusion hl, fun r hr => absurd hr.symm (by simp)⟩

variable [DecidableEq ι]

theorem ran_node_self (k : ℕ) (t : Task ι) (n : Node) : (w.ran k t n).node t.owner = n :=
  Function.update_self _ _ _

variable {t : Task ι} {k : ℕ}

theorem ran_node_ne {i : ι} (h : i ≠ t.owner) :
    (w.ran k t n).node i = w.node i :=
  Function.update_of_ne h _ _

theorem ran_same (k : ℕ) (t : Task ι) :
    w.ran k t (w.node t.owner) = { w with tasks := w.tasks.set k t } := by
  unfold World.ran
  rw [Function.update_eq_self]

theorem mem_ran {t t₁ : Task ι} (h : t₁ ∈ (w.ran k t n).tasks) :
    t₁ ∈ w.tasks ∨ t₁ = t :=
  mem_or_eq_of_mem_set h

theorem Inv.calm_ran (h : Inv c w) (hn : Settled w t.owner n)
    (ha : ∀ r, ¬ Awaited t r) : Calm w (w.ran k t n) where
  lease := rfl
  next := rfl
  clock := le_rfl
  node i := by
    by_cases hi : i = t.owner
    · subst hi; rw [ran_node_self]; exact hn
    · rw [ran_node_ne hi]; exact h.settled (Quiet.refl _)
  tasks t₁ ht₁ := by
    rcases mem_ran ht₁ with h | rfl
    · exact Or.inl h
    · exact Or.inr ha

theorem Inv.ran (h : Inv c w) {t t' : Task ι} (hk : w.tasks[k]? = some t)
    (ho : t'.owner = t.owner) (hi : t'.issued = t.issued) (hc : t'.call = t.call)
    (hn : Settled w t'.owner n) (ha : ∀ r, ¬ Awaited t' r)
    (hs : ∀ l, t'.pc = .got (some l) → Seen w l)
    (hr : ∀ r, t'.request = some r → t.request = some r ∨ r.now ≤ w.clock ∧
      r.sent ≤ n.abstentions ∧ (r.status = .pending → Sound c (w.ran k t' n) t'.owner r)) :
    Inv c (w.ran k t' n) := by
  have hw := h.calm_ran (k := k) hn ha
  have htw : t ∈ w.tasks := mem_of_getElem? hk
  refine h.calm hw fun t₁ ht₁ => ?_
  rcases mem_ran ht₁ with ht₁ | rfl
  · exact h.carried hw ht₁
  refine ⟨?_, ?_, hs, fun r hr' => ?_⟩
  · rw [hi, ran_node_self]
    have := h.issued t htw
    have hab := hn.abstentions
    rw [ho] at hab
    omega
  · intro hrel
    rw [ran_node_self]
    exact hn.closed (ho ▸ h.closing t htw (hc ▸ hrel))
  · rcases hr r hr' with hold | hnew
    · exact Or.inl ⟨t, htw, ho.symm, hold⟩
    · refine Or.inr ⟨hnew.1, ?_, hnew.2.2⟩
      rw [ran_node_self]
      exact hnew.2.1

theorem Inv.serveGet (h : Inv c w) (hk : w.tasks[k]? = some t) :
    Inv c { w with tasks := w.tasks.set k { t with pc := .got w.lease } } := by
  rw [← ran_same k { t with pc := .got w.lease }]
  refine h.ran hk rfl rfl rfl (h.settled (Quiet.refl _)) (fun r ha => Pc.noConfusion ha.pc)
    (fun l hl => ?_) (fun r hr => Or.inl hr)
  have hl' : w.lease = some l := Pc.got.inj hl
  exact ⟨h.version l hl', fun m hm _ => by rw [hl'] at hm; exact (some.inj hm).symm⟩

/-- A call that is over leaves its elector quiet or with a stamp it had. -/
theorem Inv.over (h : Inv c w) (hk : w.tasks[k]? = some t)
    (hn : Settled w t.owner n) : Inv c (w.ran k { t with pc := .done } n) :=
  h.ran hk rfl rfl rfl hn (fun _ ha => Pc.noConfusion ha.pc) (fun _ hl => Pc.noConfusion hl)
    (fun _ hr => Or.inl hr)

theorem Inv.getFailed (h : Inv c w) (hk : w.tasks[k]? = some t) :
    Inv c (getFailed c w k t) :=
  h.over hk (h.settled (getThrew_quiet c t.owner t.call _ _))

/-- The call of task `t` goes on to await `r`, which the API server has not seen. -/
theorem Inv.send (h : Inv c w) (hk : w.tasks[k]? = some t)
    (hn : Quiet (w.node t.owner) n) (hp : r.status = .pending)
    (hnow : r.now = w.clock) (hsent : r.sent = n.abstentions)
    (hs : Calm w (w.await k t n (some r)) →
      Sound c (w.await k t n (some r)) t.owner r) :
    Inv c (w.await k t n (some r)) := by
  have ha : ∀ r', ¬ Awaited { t with pc := .writing, request := some r } r' := by
    intro r' ha
    have happ := ha.applied
    rw [← some.inj ha.request, hp] at happ
    exact Status.noConfusion happ
  refine h.ran hk rfl rfl rfl (h.settled hn) ha (fun l hl => Pc.noConfusion hl) fun r' hr' => ?_
  obtain rfl := some.inj hr'
  exact Or.inr ⟨hnow.le, hsent.le, fun _ => hs (h.calm_ran (h.settled hn) ha)⟩

/-- The step-down leaves no stamp for the backdated lease to miss: `_leader` is down, and
every write confirmed or awaited was issued before it. -/
theorem Inv.no_stamp_stepDown (h : Inv c w) (hk : w.tasks[k]? = some t)
    {s : ℕ} :
    ¬ Stamp (w.await k t (stepDown (w.node t.owner)) (some r)) t.owner s := by
  have hnode : (w.await k t (stepDown (w.node t.owner)) (some r)).node t.owner =
      stepDown (w.node t.owner) :=
    ran_node_self k { t with pc := .writing, request := some r } _
  have hold : ∀ t₁ ∈ (w.await k t (stepDown (w.node t.owner)) (some r)).tasks,
      t₁.owner = t.owner → t₁.issued ≤ (w.node t.owner).abstentions := by
    intro t₁ ht₁ ho
    rcases mem_ran ht₁ with ht₁ | rfl
    · exact ho ▸ h.issued t₁ ht₁
    · exact h.issued t (mem_of_getElem? hk)
  have dead : ¬ Live (w.await k t (stepDown (w.node t.owner)) (some r)) t.owner := by
    unfold Live
    rw [hnode]
    rintro (hl | ⟨-, ⟨e, he, hle⟩ | ⟨t₁, ht₁, r₁, ho, -, hi⟩⟩)
    · exact Bool.false_ne_true ((setTo_leader _ _).symm.trans hl)
    · rw [(stepDown_quiet _).confirmed] at he
      have hce := h.confirmed _ e he
      change (w.node t.owner).abstentions + 1 ≤ e at hle
      omega
    · have hle := hold t₁ ht₁ ho
      change t₁.issued = (w.node t.owner).abstentions + 1 at hi
      omega
  generalize t.owner = i at dead
  intro hs
  cases hs with
  | latest hl => exact dead hl
  | awaited hl => exact dead hl

theorem Inv.tickObserved (h : Inv c w) (hk : w.tasks[k]? = some t)
    (hpc : t.pc = .got observed) (canLead : Bool) :
    Inv c (w.await k t (tickObserved c t.owner (w.node t.owner) w.clock observed canLead).1
      (tickObserved c t.owner (w.node t.owner) w.clock observed canLead).2) := by
  have htw : t ∈ w.tasks := mem_of_getElem? hk
  have hseen : ∀ l, observed = some l → Seen w l := fun l ho => h.seen t htw l (by rw [hpc, ho])
  rcases tickObserved_cases c t.owner (w.node t.owner) w.clock observed canLead with
    ⟨r, -, hb, he⟩ | ⟨-, he⟩ | ⟨l, purpose, ho, hp, hown, he⟩ | ⟨m, hm, -, he⟩
  · rw [he]
    obtain ⟨l, -, -, hr⟩ := backdate_eq_some c _ hb
    exact h.send hk (stepDown_quiet _) (by rw [hr]) (by rw [hr]) (by rw [hr]) fun hw =>
      h.sound_backdate hw rfl hseen hb fun s hs => absurd hs (h.no_stamp_stepDown hk)
  · rw [he]
    exact h.send hk (Quiet.refl _) rfl rfl rfl fun hw =>
      h.sound_calm hw (sound_create t.owner)
  · rw [he]
    exact h.send hk (Quiet.refl _) rfl rfl rfl fun hw =>
      h.sound_calm hw (h.sound_put hp (hseen l ho) hown)
  · rw [he]
    exact h.over hk (h.settled hm)

/-- `release()` sends its PUT: the elector is closed, so what stamp it has left is the one
it holds, and that has lapsed. -/
theorem Inv.releaseObserved (h : Inv c w) (hk : w.tasks[k]? = some t)
    (hcall : t.call = .release) (hpc : t.pc = .got observed)
    {canLead : Bool} (hl : Lowered c w (.gotLease k canLead)) :
    Inv c (w.await k t (releaseObserved c t.owner (w.node t.owner) w.clock observed).1
      (releaseObserved c t.owner (w.node t.owner) w.clock observed).2) := by
  have htw : t ∈ w.tasks := mem_of_getElem? hk
  have hseen : ∀ l, observed = some l → Seen w l := fun l ho => h.seen t htw l (by rw [hpc, ho])
  unfold Leader.releaseObserved
  cases hb : backdate c t.owner (w.node t.owner) .release observed w.clock with
  | none => exact h.over hk (h.settled (finally_quiet _))
  | some r =>
    obtain ⟨l, -, -, hr⟩ := backdate_eq_some c _ hb
    refine h.send hk (Quiet.refl _) (by rw [hr]) (by rw [hr]) (by rw [hr]) fun hw =>
      h.sound_backdate hw rfl hseen hb fun s hs => ?_
    have hclosed := h.closing t htw hcall
    have hlow := hl t observed hk hcall hpc (by rw [hb]; rfl)
    have hs := h.stamps hw hs
    generalize t.owner = i at hs hclosed hlow
    cases hs with
    | latest hlive =>
      rcases hlow with hf | hlap
      · rcases hlive with hlead | ⟨hopen, -⟩
        · exact absurd (hf.symm.trans hlead) Bool.false_ne_true
        · exact absurd (hopen.symm.trans hclosed) Bool.false_ne_true
      · exact hlap
    | awaited _ hopen => exact absurd (hopen.symm.trans hclosed) Bool.false_ne_true

theorem Inv.gotLease (h : Inv c w) (hk : w.tasks[k]? = some t)
    (hpc : t.pc = .got observed) {canLead : Bool}
    (hl : Lowered c w (.gotLease k canLead)) : Inv c (gotLease c w k t observed canLead) := by
  unfold Leader.gotLease
  cases hcall : t.call with
  | tick => exact h.tickObserved hk hpc canLead
  | release => exact h.releaseObserved hk hcall hpc hl

end Turma.Leader
