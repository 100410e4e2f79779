import Turma.PgPool.Standing

/-! The pool over every run: the bound on its connections, one caller for each of them, one
settlement for each acquire, and a queue that something will pump. -/

namespace Turma.PgPool

open Turma.Lib List Option

section

variable {max : ℕ} {p : Pool} {c call : ℕ} {encodable : Bool}

/-- The statement is not sent: the caller hears of it, and then it gives the connection back. -/
theorem refused_spec (h : Sound max (p.push (.lent call c encodable)))
    (hw : Woken (p.push (.lent call c encodable))) :
    Sound max (p.push (.queryDone call c)) ∧ Woken (p.push (.queryDone call c)) := by
  have hc := (pop_changed p (.lent call c encodable)).trans (push_changed p (.queryDone call c))
  refine ⟨h.changed hc (h.at_push.retask ?_ (fun hb => ?_) fun hf => ?_),
    hw.changed hc (fun _ t ht _ => Or.inr ⟨_, Multiset.mem_cons_self _ _, trivial⟩)
      fun hmem hstand => Or.inl ⟨hmem, hstand⟩⟩
  · exact (callers_cons (p.at c) (.queryDone call c)).trans
      (callers_cons (p.at c) (.lent call c encodable)).symm
  · exact absurd h.born_of_task (of_decide_eq_false hb)
  · have hf : .connectFailed c ∈ (p.at c).tasks := by simpa using hf
    exact Multiset.mem_cons_of_mem hf

theorem setConn_setConn (p : Pool) (c : ℕ) (conn conn' : Conn) :
    (p.setConn c conn).setConn c conn' = p.setConn c conn' := by
  unfold Pool.setConn
  congr 1
  funext c'
  dsimp only
  split_ifs <;> rfl

/-- A write to a socket that is gone ends the query at once. -/
theorem fail_unsent (hq : (p.conn c).q = none) (hh : (p.conn c).handshake = false) :
    fail (p.setConn c { p.conn c with q := some call }) c =
      teardown (settleQuery (p.push (.queryDone call c)) c) c := by
  have hconn : (p.setConn c { p.conn c with q := some call }).conn c =
      { p.conn c with q := some call } := by simp [Pool.setConn]
  have hself : ({ p.conn c with q := none } : Conn) = p.conn c := by rw [← hq]
  have hleft : settleQuery (p.setConn c { p.conn c with q := some call }) c =
      p.push (.queryDone call c) := by
    simp only [settleQuery, hconn]
    rw [setConn_setConn, hself, setConn_self]
  have hright : settleQuery (p.push (.queryDone call c)) c = p.push (.queryDone call c) :=
    settleQuery_none hq
  rw [fail, hconn, if_neg (by simp [hh]), hleft, hright]

theorem query_spec (h : Sound max (p.push (.lent call c encodable)))
    (hw : Woken (p.push (.lent call c encodable))) :
    Sound max (query p call c encodable) ∧ Woken (query p call c encodable) := by
  have hx := h.at_push
  have hborn := h.born_of_task
  have hrefused := refused_spec h hw
  have hh : (p.conn c).handshake = false := hx.handed (by
    rw [callers_cons, ← Multiset.card_pos]
    simp [Task.caller])
  unfold query
  dsimp only
  split_ifs with hrefuse htorn
  · exact hrefused
  · simp only [Bool.or_eq_true, not_or, Bool.not_eq_true', Bool.not_eq_false,
      Bool.not_eq_true, isSome_eq_false_iff, isNone_iff_eq_none] at hrefuse
    rw [fail_unsent hrefuse.1.2 hh]
    have ht := settled_torn hrefused.1 (c := c) (by simp [connecting, Pool.push, hh])
    exact ⟨ht.sound hrefused.1 hborn, ht.woken hrefused.1 hrefused.2⟩
  · simp only [Bool.or_eq_true, not_or, Bool.not_eq_true', Bool.not_eq_false,
      Bool.not_eq_true, isSome_eq_false_iff, isNone_iff_eq_none] at hrefuse
    have hcallers : ∀ x : Standing, x.conn.q = none →
        ({ x with conn := { x.conn with q := some call } } : Standing).callers =
          ({ x with tasks := .lent call c encodable ::ₘ x.tasks } : Standing).callers := by
      intro x hq
      rw [callers_cons, Standing.callers, Standing.callers, hq]
      simp [Task.caller, Multiset.add_comm]
    have hc := (pop_changed p (.lent call c encodable)).trans
      (setConn_changed p c { p.conn c with q := some call })
    have hcallers := hcallers (p.at c) hrefuse.1.2
    refine ⟨h.changed hc ⟨hx.standing, hx.gone, fun hb => ?_, ?_, ?_, fun _ => hh, fun _ => ?_,
      hx.ready, fun hf => hx.failed (Multiset.mem_cons_of_mem hf)⟩, hw.changed hc ?_ ?_⟩
    · exact absurd hborn (of_decide_eq_false hb)
    · rw [show ({ p.at c with conn := { p.conn c with q := some call } } : Standing).callers = _
        from hcallers]
      exact hx.single
    · intro hp hb
      rw [show ({ p.at c with conn := { p.conn c with q := some call } } : Standing).callers = _
        from hcallers]
      exact hx.lent hp hb
    · exact Bool.eq_false_iff.mpr htorn
    · intro hopen t ht hpumps
      rcases Multiset.mem_cons.mp ht with rfl | ht
      · -- in an open pool a connection that lives is pooled
        exact absurd (hx.gone hopen (decide_eq_true hborn) hpumps) htorn
      · exact Or.inl ht
    · intro hmem hstand
      have hstand : connecting (p.conn c) = true ∨ (p.conn c).busy = true := hstand
      refine Or.inl ⟨hmem, ?_⟩
      simpa [Pool.setConn, connecting] using hstand

theorem idle_some (hc : idle p = some c) :
    c ∈ p.conns ∧ (p.conn c).alive = true ∧ (p.conn c).busy = false := by
  have h := find?_some hc
  rw [Bool.and_eq_true, Bool.not_eq_true'] at h
  exact ⟨mem_of_find?_eq_some hc, h⟩

/-- The first waiter leaves the queue with its outcome. -/
theorem Sound.settle {w : Waiter} {ws : List Waiter} (h : Sound max p) (hws : p.waiters = w :: ws)
    (o : Outcome) :
    Sound max { p with waiters := ws, settled := p.settled ++ [(w.call, o)] } where
  nodup := h.nodup
  bounded := h.bounded
  each := h.each
  shut hclosed := by
    exact absurd (h.shut hclosed).2 (by simp [hws])
  accounted := by
    have hacc := h.accounted
    rw [hws] at hacc
    simpa using hacc

theorem lend_changed (p : Pool) (c : ℕ) (t : Task) (ht : t.conn = c) (conn : Conn) :
    Changed p ((p.setConn c conn).push t) c ⟨c ∈ p.conns, conn, t ::ₘ (p.at c).tasks⟩ := by
  subst ht
  have h := (setConn_changed p t.conn conn).trans (push_changed _ t)
  rw [(setConn_changed p t.conn conn).here] at h
  exact h

theorem lend_sound {w : Waiter} {ws : List Waiter} (h : Sound max p) (hws : p.waiters = w :: ws)
    (hidle : idle p = some c) : Sound max { lend p w c with waiters := ws } := by
  obtain ⟨hmem, halive, hbusy⟩ := idle_some hidle
  have hx := h.each c
  have hnone : (p.at c).callers = 0 := by
    have hsingle := hx.single
    rw [show (p.at c).conn.busy = false from hbusy] at hsingle
    exact Multiset.card_eq_zero.mp (Nat.le_zero.mp hsingle)
  have hcallers : (⟨c ∈ p.conns, { p.conn c with busy := true },
      .lent w.call c w.encodable ::ₘ (p.at c).tasks⟩ : Standing).callers = {w.call} := by
    have := callers_cons (p.at c) (.lent w.call c w.encodable)
    rw [hnone] at this
    exact this
  have hstanding := hx.standing hmem
  have hc := lend_changed p c (.lent w.call c w.encodable) rfl { p.conn c with busy := true }
  refine (h.changed hc ⟨fun hp => ⟨hstanding.1, hstanding.2.1, Or.inr halive⟩,
    fun _ _ hp => absurd hmem hp, fun hb => ?_, ?_, fun _ _ => ?_, fun _ => hx.ready halive,
    hx.inFlight, hx.ready, fun hf => ?_⟩).settle hws (.conn c)
  · rw [hstanding.1] at hb
    cases hb
  · rw [hcallers]
    simp
  · rw [hcallers]
    simp
  · exact hx.failed (by simpa using hf)

theorem not_mem_dialCount (h : Sound max p) : p.dialCount ∉ p.conns := by
  intro hmem
  have := ((h.each p.dialCount).standing hmem).1
  simp at this

theorem spawnConn_at (hc : c ≠ p.dialCount) : (spawnConn p).at c = p.at c := by
  unfold spawnConn Pool.at Pool.setConn
  simp [hc]

theorem spawnConn_sound (h : Sound max p) (hopen : p.closed = false)
    (hroom : p.conns.length < bound max) : Sound max (spawnConn p) where
  nodup := by
    simp only [spawnConn, nodup_append, h.nodup, nodup_singleton, mem_singleton,
      true_and]
    rintro c hmem _ rfl rfl
    exact not_mem_dialCount h hmem
  bounded := by
    simp only [spawnConn, length_append, length_singleton]
    omega
  each c := by
    by_cases hc : c = p.dialCount
    · subst hc
      have hunborn := (h.each p.dialCount).unborn (by simp)
      have htasks : ((spawnConn p).at p.dialCount).tasks = 0 := hunborn.1
      have hconn : (spawnConn p).conn p.dialCount =
          ⟨false, false, true, false, none, false, p.waiterSeq⟩ := by simp [spawnConn, Pool.setConn]
      have hborn : decide (p.dialCount < (spawnConn p).dialCount) = true := by
        simp [spawnConn]
      have hcallers : ((spawnConn p).at p.dialCount).callers = 0 := by
        rw [Standing.callers, htasks, show ((spawnConn p).at p.dialCount).conn = _ from hconn]
        rfl
      have hconn : ((spawnConn p).at p.dialCount).conn = _ := hconn
      refine ⟨fun _ => ?_, fun _ _ hp => ?_, fun hb => ?_, ?_, fun _ hb => ?_, fun hne => ?_,
        fun hq => ?_, fun ha => ?_, fun hf => ?_⟩
      · rw [hconn]
        exact ⟨hborn, rfl, Or.inl rfl⟩
      · exact absurd (by simp [Pool.at, spawnConn]) hp
      · rw [hborn] at hb
        cases hb
      · rw [hcallers]
        exact Nat.zero_le _
      · rw [hconn] at hb
        cases hb
      · exact absurd hcallers hne
      · rw [hconn] at hq
        cases hq
      · rw [hconn] at ha
        cases ha
      · rw [htasks] at hf
        exact absurd hf (Multiset.notMem_zero _)
    · rw [spawnConn_at hc]
      have hborn : decide (c < (spawnConn p).dialCount) = decide (c < p.dialCount) := by
        rw [decide_eq_decide]
        show c < p.dialCount + 1 ↔ _
        omega
      rw [hborn]
      exact h.each c
  shut hclosed := by
    rw [show (spawnConn p).closed = false from hopen] at hclosed
    cases hclosed
  accounted := h.accounted

theorem spawnConn_woken (p : Pool) : Woken (spawnConn p) :=
  fun _ _ => Or.inl ⟨p.dialCount, by simp [spawnConn], by simp [spawnConn, Pool.setConn, connecting]⟩

/-- With no connection idle and no room for another, one is connecting or lent out. -/
theorem woken_of_full (h : Sound max p) (hidle : idle p = none)
    (hfull : ¬ p.conns.length < bound max) : Woken p := by
  intro _ _
  cases hconns : p.conns with
  | nil =>
    rw [hconns] at hfull
    exact absurd (Nat.lt_of_lt_of_le Nat.zero_lt_one (Nat.le_max_left 1 max)) hfull
  | cons c cs =>
    have hmem : c ∈ p.conns := by simp [hconns]
    have hbusy := find?_eq_none.mp hidle c hmem
    refine Or.inl ⟨c, by simp, ?_⟩
    rcases ((h.each c).standing hmem).2.2 with hcon | halive
    · exact Or.inl hcon
    · rw [show (p.conn c).alive = true from halive] at hbusy
      exact Or.inr (by simpa using hbusy)

theorem serve_spec (ws : List Waiter) (hopen : p.closed = false)
    (h : Sound max { p with waiters := ws }) :
    Sound max (serve max p ws) ∧ Woken (serve max p ws) := by
  induction ws generalizing p with
  | nil => exact ⟨h, fun _ hne => absurd rfl hne⟩
  | cons w ws ih =>
    unfold serve
    cases hidle : idle p with
    | some c => exact ih hopen (lend_sound (p := { p with waiters := w :: ws }) h rfl hidle)
    | none =>
      dsimp only
      split_ifs with hroom
      · exact ⟨spawnConn_sound h hopen hroom, spawnConn_woken _⟩
      · exact ⟨h, woken_of_full h hidle hroom⟩

theorem pump_spec (h : Sound max p) : Sound max (pump max p) ∧ Woken (pump max p) := by
  unfold pump
  split_ifs with hclosed
  · exact ⟨h, fun hopen => absurd hclosed (by simp [hopen])⟩
  · exact serve_spec p.waiters (by simpa using hclosed) h

theorem removeConn_of_not_mem (hc : c ∉ p.conns) : removeConn p c = p := by
  rw [removeConn, erase_of_not_mem hc]

/-- Whoever gives the connection back was the only one to hold it. -/
theorem callers_of_queryDone (h : Sound max (p.push (.queryDone call c))) :
    (p.at c).callers = 0 := by
  have hsingle := h.at_push.single
  rw [callers_cons, Multiset.card_add] at hsingle
  refine Multiset.card_eq_zero.mp ?_
  have : ((Task.queryDone call c).caller.toList : Multiset ℕ).card = 1 := rfl
  rw [this] at hsingle
  split_ifs at hsingle
  · simp only [conn_queryDone] at hsingle
    omega
  · omega

theorem afterQuery_spec (h : Sound max (p.push (.queryDone call c))) :
    Sound max (afterQuery max p c) ∧ Woken (afterQuery max p c) := by
  have hx := h.at_push
  have hborn := h.born_of_task
  have hnone := callers_of_queryDone h
  have hh : (p.conn c).handshake = false := hx.handed (by
    rw [callers_cons, ← Multiset.card_pos]
    simp [Task.caller])
  unfold afterQuery
  split_ifs with ha
  · have hc := (pop_changed p (.queryDone call c)).trans
      (setConn_changed p c { p.conn c with busy := false })
    have hcallers : ({ p.at c with conn := { p.conn c with busy := false } } : Standing).callers
        = 0 := hnone
    refine pump_spec (h.changed hc ⟨hx.standing, hx.gone, fun hb => ?_, ?_, fun _ hb => ?_,
      fun _ => hh, hx.inFlight, hx.ready, fun hf => hx.failed (Multiset.mem_cons_of_mem hf)⟩)
    · exact absurd hborn (of_decide_eq_false hb)
    · exact (congrArg Multiset.card hcallers).le
    · cases hb
  · -- it is dead, and its end has taken it from the pool already
    have hgone : c ∉ p.conns := by
      intro hmem
      rcases (hx.standing hmem).2.2 with hcon | halive
      · simp [connecting, Pool.at, hh] at hcon
      · exact ha halive
    rw [removeConn_of_not_mem hgone]
    refine pump_spec (h.changed (pop_changed p (.queryDone call c)) ⟨hx.standing, hx.gone,
      fun hb => ?_, ?_, fun hp => absurd hp hgone, fun _ => hh, hx.inFlight, hx.ready,
      fun hf => hx.failed (Multiset.mem_cons_of_mem hf)⟩)
    · exact absurd hborn (of_decide_eq_false hb)
    · exact (congrArg Multiset.card hnone).le.trans (Nat.zero_le _)

theorem connectFailed_spec (h : Sound max (p.push (.connectFailed c))) :
    Sound max (connectFailed max p c) ∧ Woken (connectFailed max p c) := by
  have hgone : c ∉ p.conns := h.at_push.failed (Multiset.mem_cons_self _ _)
  have h := h.pop rfl
  unfold connectFailed
  rw [removeConn_of_not_mem hgone]
  dsimp only
  split_ifs with hclosed
  · exact ⟨h, fun hopen => absurd hclosed (by simp [hopen])⟩
  · cases hws : p.waiters with
    | nil => exact pump_spec h
    | cons w ws =>
      dsimp only
      split_ifs
      · exact pump_spec (h.settle hws .error)
      · exact pump_spec h

theorem resume_spec (t : Task) (h : Sound max (p.push t)) (hw : Woken (p.push t)) :
    Sound max (resume max p t) ∧ Woken (resume max p t) := by
  cases t with
  | connected c => exact pump_spec (h.pop rfl)
  | connectFailed c => exact connectFailed_spec h
  | lent call c encodable => exact query_spec h hw
  | queryDone call c => exact afterQuery_spec h

theorem acquire_spec (h : Sound max p) (encodable : Bool) :
    Sound max (acquire max p encodable) ∧ Woken (acquire max p encodable) := by
  have hacc := h.accounted
  unfold acquire
  split_ifs with hclosed
  · refine ⟨⟨h.nodup, h.bounded, h.each, h.shut, ?_⟩, fun hopen => Bool.noConfusion (hclosed.symm.trans hopen)⟩
    rw [(h.shut hclosed).2, map_nil, append_nil] at hacc
    rw [(h.shut hclosed).2, map_append, range_succ]
    simpa using hacc.append_right [p.calls]
  · refine pump_spec ⟨h.nodup, h.bounded, h.each, fun hc => absurd hc hclosed, ?_⟩
    rw [map_append, range_succ, ← append_assoc]
    exact hacc.append_right [p.calls]

theorem acquireTimeout_spec (h : Sound max p) (hw : Woken p) :
    Sound max (acquireTimeout p call) ∧ Woken (acquireTimeout p call) := by
  unfold acquireTimeout
  split_ifs with hmem
  · have hnodup : (p.waiters.map Waiter.call).Nodup :=
      (h.accounted.nodup_iff.mpr nodup_range).of_append_right
    have hcalls : (p.waiters.filter fun w => w.call ≠ call).map Waiter.call =
        (p.waiters.map Waiter.call).erase call := by
      rw [hnodup.erase_eq_filter, List.filter_map]
      congr 2
      funext w
      rw [decide_not]
      rfl
    refine ⟨⟨h.nodup, h.bounded, h.each, fun hc => ⟨(h.shut hc).1, ?_⟩, ?_⟩,
      fun hopen hne => hw hopen fun hnil => hne ?_⟩
    · simp [(h.shut hc).2]
    · rw [hcalls, map_append, append_assoc]
      exact ((perm_cons_erase hmem).symm.append_left _).trans h.accounted
    · simp [hnil]
  · exact ⟨h, hw⟩

theorem warm_spec (h : Sound max p) (hw : Woken p) : Sound max (warm p) ∧ Woken (warm p) := by
  unfold warm
  split_ifs with hempty
  · refine ⟨spawnConn_sound h hempty.1 ?_, spawnConn_woken p⟩
    rw [hempty.2]
    exact Nat.lt_of_lt_of_le Nat.zero_lt_one (Nat.le_max_left 1 max)
  · exact ⟨h, hw⟩

/-- Every connection of the list is closed. -/
theorem fail_all (cs : List ℕ) (h : Sound max p) (hcs : ∀ c ∈ cs, c < p.dialCount) :
    Sound max (cs.foldl fail p) ∧ (cs.foldl fail p).closed = p.closed := by
  induction cs generalizing p with
  | nil => exact ⟨h, rfl⟩
  | cons c cs ih =>
    have ht := fail_torn h (c := c)
    have hrest := ih (ht.sound h (hcs c (by simp))) fun c' hmem => by
      rw [ht.changed.dialCount]
      exact hcs c' (by simp [hmem])
    exact ⟨hrest.1, hrest.2.trans ht.changed.closed⟩

theorem close_spec (h : Sound max p) : Sound max (close p) ∧ Woken (close p) := by
  have hclosing : Sound max { p with
      closed := true
      conns := []
      waiters := []
      settled := p.settled ++ p.waiters.map fun w => (w.call, .error) } := by
    refine ⟨nodup_nil, Nat.zero_le _, fun c => ?_, fun _ => ⟨rfl, rfl⟩, ?_⟩
    · have hx := h.each c
      exact ⟨fun hp => absurd hp not_mem_nil, fun ho => Bool.noConfusion ho, hx.unborn, hx.single,
        fun hp => absurd hp not_mem_nil, hx.handed, hx.inFlight, hx.ready,
        fun _ => not_mem_nil⟩
    · simpa [Function.comp_def] using h.accounted
  have hall := fail_all p.conns hclosing fun c hmem =>
    of_decide_eq_true ((h.each c).standing hmem).1
  exact ⟨hall.1, fun hopen => Bool.noConfusion (hall.2.symm.trans hopen)⟩

theorem init_sound (max : ℕ) : Sound max Pool.init where
  nodup := nodup_nil
  bounded := Nat.zero_le _
  each c := by
    have hcallers : (Pool.init.at c).callers = 0 := rfl
    exact ⟨fun hp => absurd hp not_mem_nil, fun _ hb => by simp [Pool.init] at hb,
      fun _ => ⟨rfl, rfl⟩, Nat.zero_le _, fun hp => absurd hp not_mem_nil,
      fun hne => absurd hcallers hne, fun hq => Bool.noConfusion hq, fun ha => Bool.noConfusion ha,
      fun _ => not_mem_nil⟩
  shut _ := ⟨rfl, rfl⟩
  accounted := Perm.refl _

theorem step_spec (h : Sound max p) (hw : Woken p) (e : Event) :
    Sound max (step max p e) ∧ Woken (step max p e) := by
  cases e with
  | acquire encodable => exact acquire_spec h encodable
  | acquireTimeout call => exact acquireTimeout_spec h hw
  | readyForQuery c =>
    dsimp only [step]
    split_ifs with hborn
    · exact readyForQuery_spec h hw hborn
    · exact ⟨h, hw⟩
  | fail c =>
    dsimp only [step]
    split_ifs with hborn
    · exact ⟨(fail_torn h).sound h hborn, (fail_torn h).woken h hw⟩
    · exact ⟨h, hw⟩
  | connectTimeout c =>
    dsimp only [step]
    split_ifs with hborn
    · exact connectTimeout_spec h hw hborn
    · exact ⟨h, hw⟩
  | queryTimeout c => exact queryTimeout_spec h hw
  | resume t =>
    dsimp only [step]
    split_ifs with hmem
    · have hpush : ({ p with tasks := p.tasks.erase t } : Pool).push t = p := by
        rw [Pool.push, Multiset.cons_erase hmem]
      exact resume_spec t (by rwa [hpush]) (by rwa [hpush])
    · exact ⟨h, hw⟩
  | warm => exact warm_spec h hw
  | close => exact close_spec h

theorem run_spec (es : List Event) (h : Sound max p) (hw : Woken p) :
    Sound max (run (step max) p es) ∧ Woken (run (step max) p es) := by
  induction es generalizing p with
  | nil => exact ⟨h, hw⟩
  | cons e es ih => exact ih (step_spec h hw e).1 (step_spec h hw e).2

theorem settleQuery_settled (p : Pool) (c : ℕ) : (settleQuery p c).settled = p.settled :=
  (settleQuery_changed p c).settled

theorem rejectConnect_settled (p : Pool) (c : ℕ) : (rejectConnect p c).settled = p.settled :=
  (rejectConnect_changed p c).settled

theorem fail_settled (p : Pool) (c : ℕ) : (fail p c).settled = p.settled := by
  unfold fail
  split_ifs
  · rw [rejectConnect_settled]
    rfl
  · exact settleQuery_settled p c

theorem serve_settled (ws : List Waiter) : p.settled <+: (serve max p ws).settled := by
  induction ws generalizing p with
  | nil => exact prefix_rfl
  | cons w ws ih =>
    unfold serve
    cases idle p with
    | some c => exact IsPrefix.trans (prefix_append _ _) (ih (p := lend p w c))
    | none =>
      dsimp only
      split_ifs <;> exact prefix_rfl

theorem pump_settled : p.settled <+: (pump max p).settled := by
  unfold pump
  split_ifs
  · exact prefix_rfl
  · exact serve_settled p.waiters

theorem resume_settled (t : Task) : p.settled <+: (resume max p t).settled := by
  cases t with
  | connected c => exact pump_settled
  | connectFailed c =>
    dsimp only [resume, connectFailed]
    split_ifs
    · exact prefix_rfl
    · cases (removeConn p c).waiters with
      | nil => exact pump_settled (p := removeConn p c)
      | cons w ws =>
        dsimp only
        split_ifs
        · exact IsPrefix.trans (prefix_append _ [(w.call, .error)]) (pump_settled (p := {
            removeConn p c with
            waiters := ws
            settled := p.settled ++ [(w.call, .error)] }))
        · exact pump_settled (p := removeConn p c)
  | lent call c encodable =>
    dsimp only [resume, query]
    split_ifs
    · exact prefix_rfl
    · rw [fail_settled]
      exact prefix_rfl
    · exact prefix_rfl
  | queryDone call c =>
    dsimp only [resume, afterQuery]
    split_ifs
    · exact pump_settled (p := p.setConn c { p.conn c with busy := false })
    · exact pump_settled (p := removeConn p c)

theorem close_settled (p : Pool) : p.settled <+: (close p).settled := by
  have hall : ∀ (cs : List ℕ) (p : Pool), (cs.foldl fail p).settled = p.settled := by
    intro cs
    induction cs with
    | nil => exact fun _ => rfl
    | cons c cs ih => exact fun p => (ih (fail p c)).trans (fail_settled p c)
  rw [close, hall]
  exact prefix_append _ _

theorem step_settled (e : Event) : p.settled <+: (step max p e).settled := by
  cases e with
  | acquire encodable =>
    dsimp only [step, acquire]
    split_ifs
    · exact prefix_append _ _
    · exact pump_settled (p := { p with
        calls := p.calls + 1
        waiterSeq := p.waiterSeq + 1
        waiters := p.waiters ++ [⟨p.calls, p.waiterSeq + 1, encodable⟩] })
  | acquireTimeout call =>
    dsimp only [step, acquireTimeout]
    split_ifs
    · exact prefix_append _ _
    · exact prefix_rfl
  | readyForQuery c =>
    dsimp only [step, readyForQuery]
    split_ifs
    · exact (settleQuery_settled p c).symm ▸ prefix_rfl
    all_goals exact prefix_rfl
  | fail c =>
    dsimp only [step]
    split_ifs
    · exact (fail_settled p c).symm ▸ prefix_rfl
    · exact prefix_rfl
  | connectTimeout c =>
    dsimp only [step, connectTimeout]
    split_ifs
    · rw [rejectConnect_settled]
      exact prefix_rfl
    all_goals exact prefix_rfl
  | queryTimeout c =>
    dsimp only [step, queryTimeout]
    cases (p.conn c).q with
    | none => exact prefix_rfl
    | some call =>
      exact (settleQuery_settled p c).symm ▸ (prefix_rfl : p.settled <+: p.settled)
  | resume t =>
    dsimp only [step]
    split_ifs
    · exact resume_settled (p := { p with tasks := p.tasks.erase t }) t
    · exact prefix_rfl
  | warm =>
    dsimp only [step, warm]
    split_ifs <;> exact prefix_rfl
  | close => exact close_settled p

end

section

variable (max : ℕ) (p : Pool) (c call : ℕ) (encodable : Bool)

@[simp] theorem push_calls (t : Task) : (p.push t).calls = p.calls := rfl

@[simp] theorem setConn_calls (conn : Conn) : (p.setConn c conn).calls = p.calls := rfl

@[simp] theorem teardown_calls : (teardown p c).calls = p.calls := rfl

@[simp] theorem rejectConnect_calls : (rejectConnect p c).calls = p.calls := by
  unfold rejectConnect
  split_ifs <;> rfl

@[simp] theorem settleQuery_calls : (settleQuery p c).calls = p.calls := by
  unfold settleQuery
  split <;> rfl

@[simp] theorem fail_calls : (fail p c).calls = p.calls := by
  unfold fail
  split_ifs <;> simp

@[simp] theorem query_calls : (query p call c encodable).calls = p.calls := by
  unfold query
  dsimp only
  split_ifs <;> simp

theorem serve_calls (ws : List Waiter) : (serve max p ws).calls = p.calls := by
  induction ws generalizing p with
  | nil => rfl
  | cons w ws ih =>
    unfold serve
    split
    · exact ih _
    · dsimp only
      split_ifs <;> rfl

@[simp] theorem pump_calls : (pump max p).calls = p.calls := by
  unfold pump
  split_ifs
  · rfl
  · exact serve_calls max p p.waiters

@[simp] theorem connectFailed_calls : (connectFailed max p c).calls = p.calls := by
  unfold connectFailed
  split_ifs
  · rfl
  · dsimp only
    split
    · simp [removeConn]
    · split_ifs <;> simp [removeConn]

@[simp] theorem resume_calls (t : Task) : (resume max p t).calls = p.calls := by
  cases t with
  | connected c => exact pump_calls max p
  | connectFailed c => exact connectFailed_calls max p c
  | lent call c encodable => exact query_calls p c call encodable
  | queryDone call c =>
    dsimp only [resume, afterQuery]
    split_ifs <;> simp [removeConn]

theorem close_calls : (close p).calls = p.calls := by
  have hall : ∀ (cs : List ℕ) (p : Pool), (cs.foldl fail p).calls = p.calls := by
    intro cs
    induction cs with
    | nil => exact fun _ => rfl
    | cons c cs ih => exact fun p => (ih (fail p c)).trans (fail_calls p c)
  rw [close, hall]

def Event.acquires : Event → Bool
  | .acquire _ => true
  | _ => false

theorem step_calls (e : Event) : (step max p e).calls = p.calls + e.acquires.toNat := by
  cases e with
  | acquire encodable =>
    dsimp only [step, acquire]
    split_ifs <;> simp [Event.acquires]
  | acquireTimeout call =>
    dsimp only [step, acquireTimeout]
    split_ifs <;> rfl
  | readyForQuery c =>
    dsimp only [step, readyForQuery]
    split_ifs <;> simp [Event.acquires]
  | fail c =>
    dsimp only [step]
    split_ifs <;> simp [Event.acquires]
  | connectTimeout c =>
    dsimp only [step, connectTimeout]
    split_ifs <;> simp [Event.acquires]
  | queryTimeout c =>
    dsimp only [step, queryTimeout]
    split <;> simp [Event.acquires]
  | resume t =>
    dsimp only [step]
    split_ifs <;> simp [Event.acquires]
  | warm =>
    dsimp only [step, warm]
    split_ifs <;> rfl
  | close => exact close_calls p

/-- The calls that every run accounts for are its acquires. -/
theorem run_calls (es : List Event) :
    (run (step max) p es).calls = p.calls + es.countP Event.acquires := by
  induction es generalizing p with
  | nil => rfl
  | cons e es ih =>
    rw [run_cons, ih, step_calls, countP_cons]
    cases e.acquires <;> simp only [Bool.toNat_true, Bool.toNat_false, if_true] <;> grind

end

/-- What a caller of the pool can rely on at every moment. Whoever is queued is settled by its
deadline at the latest. When the step is over, its continuations too, the queue waits for a
connection that is connecting or lent out. -/
structure Served (max : ℕ) (p : Pool) : Prop where
  bounded : p.conns.Nodup ∧ p.conns.length ≤ bound max
  single : ∀ c, (p.at c).callers.card ≤ 1
  once : (p.settled.map Prod.fst ++ p.waiters.map Waiter.call).Perm (List.range p.calls)
  kept : ∀ e, p.settled <+: (step max p e).settled
  deadline : ∀ w ∈ p.waiters, (w.call, .error) ∈ (acquireTimeout p w.call).settled
  shut : p.closed = true → p.waiters = []
  woken : Woken p
  awake : p.closed = false → p.waiters ≠ [] → p.tasks = 0 →
    ∃ c ∈ p.conns, connecting (p.conn c) = true ∨ (p.at c).callers ≠ 0

/-- No caller is stranded and none is served twice, whatever the order of events. -/
theorem pool_serves (max : ℕ) (es : List Event) : Served max (run (step max) Pool.init es) := by
  obtain ⟨h, hw⟩ := run_spec es (init_sound max) fun _ hne => absurd rfl hne
  refine ⟨⟨h.nodup, h.bounded⟩, fun c => ?_, h.accounted, fun e => step_settled e, fun w hmem => ?_,
    fun hclosed => (h.shut hclosed).2, hw, fun hopen hne htasks => ?_⟩
  · refine (h.each c).single.trans ?_
    split_ifs <;> simp
  · rw [acquireTimeout, if_pos (List.mem_map_of_mem hmem)]
    simp
  · rcases hw hopen hne with ⟨c, hmem, hcon | hbusy⟩ | ⟨t, ht, _⟩
    · exact ⟨c, hmem, Or.inl hcon⟩
    · exact ⟨c, hmem, Or.inr ((h.each c).lent hmem hbusy)⟩
    · rw [htasks] at ht
      exact absurd ht (Multiset.notMem_zero t)

/-- The one connection dies under its caller: the next caller is served by a new one. -/
example : (run (step 1) Pool.init [.acquire true, .acquire true, .readyForQuery 0,
    .resume (.connected 0), .resume (.lent 0 0 true), .fail 0, .resume (.queryDone 0 0),
    .readyForQuery 1, .resume (.connected 1)]).settled = [(0, .conn 0), (1, .conn 1)] := by
  decide

end Turma.PgPool
