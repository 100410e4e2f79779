import Turma.PgPool.Pool

/-! What holds of the pool over every run: the bound on its connections, one caller for each of
them, one settlement for each acquire, and a queue that something will pump. -/

namespace Turma.PgPool

open Turma.Lib List

def Task.conn : Task → ℕ
  | .connected c => c
  | .connectFailed c => c
  | .lent _ c _ => c
  | .queryDone _ c => c

@[simp] theorem conn_connectFailed (c : ℕ) : (Task.connectFailed c).conn = c := rfl

@[simp] theorem conn_lent (call c : ℕ) (encodable : Bool) :
    (Task.lent call c encodable).conn = c := rfl

@[simp] theorem conn_queryDone (call c : ℕ) : (Task.queryDone call c).conn = c := rfl

def Task.caller : Task → Option ℕ
  | .lent call _ _ => some call
  | .queryDone call _ => some call
  | _ => none

structure Standing where
  pooled : Prop
  conn : Conn
  tasks : Multiset Task

/-- The callers that hold it: they got it and have not given it back. -/
def Standing.callers (x : Standing) : Multiset ℕ :=
  x.tasks.filterMap Task.caller + (x.conn.q.toList : Multiset ℕ)

def connecting (conn : Conn) : Bool := !conn.alive && conn.handshake && !conn.dialed

def Pool.at (p : Pool) (c : ℕ) : Standing :=
  ⟨c ∈ p.conns, p.conn c, p.tasks.filter fun t => t.conn = c⟩

structure Standing.Ok (closed born : Bool) (c : ℕ) (x : Standing) : Prop where
  standing : x.pooled → born = true ∧ x.conn.torn = false ∧
    (connecting x.conn = true ∨ x.conn.alive = true)
  gone : closed = false → born = true → ¬ x.pooled → x.conn.torn = true
  unborn : born = false → x.tasks = 0 ∧ x.conn.q = none
  single : x.callers.card ≤ if x.conn.busy = true then 1 else 0
  lent : x.pooled → x.conn.busy = true → x.callers ≠ 0
  handed : x.callers ≠ 0 → x.conn.handshake = false
  inFlight : x.conn.q.isSome = true → x.conn.torn = false
  ready : x.conn.alive = true → x.conn.handshake = false
  failed : .connectFailed c ∈ x.tasks → ¬ x.pooled

structure Sound (max : ℕ) (p : Pool) : Prop where
  nodup : p.conns.Nodup
  bounded : p.conns.length ≤ bound max
  each : ∀ c, (p.at c).Ok p.closed (c < p.dialCount) c
  shut : p.closed = true → p.conns = [] ∧ p.waiters = []
  accounted : (p.settled.map Prod.fst ++ p.waiters.map Waiter.call).Perm (List.range p.calls)

/-- A continuation that pumps, at the latest when what it leaves behind has run. -/
def Task.pumps (p : Pool) : Task → Prop
  | .lent _ c _ => c ∉ p.conns
  | _ => True

/-- Whoever waits is going to be seen to. -/
def Woken (p : Pool) : Prop := p.closed = false → p.waiters ≠ [] →
  (∃ c ∈ p.conns, connecting (p.conn c) = true ∨ (p.conn c).busy = true) ∨
    ∃ t ∈ p.tasks, t.pumps p

/-- `p'` differs from `p` at the connection `c`, which comes to stand as `x`. -/
structure Changed (p p' : Pool) (c : ℕ) (x : Standing) : Prop where
  others : ∀ c', c' ≠ c → p'.at c' = p.at c'
  here : p'.at c = x
  conns : p'.conns.Sublist p.conns
  closed : p'.closed = p.closed
  dialCount : p'.dialCount = p.dialCount
  waiters : p'.waiters = p.waiters
  settled : p'.settled = p.settled
  calls : p'.calls = p.calls

variable {x : Standing}

theorem Sound.changed {max : ℕ} {p p' : Pool} {c : ℕ} (h : Sound max p)
    (hc : Changed p p' c x) (hx : x.Ok p.closed (c < p.dialCount) c) : Sound max p' where
  nodup := h.nodup.sublist hc.conns
  bounded := hc.conns.length_le.trans h.bounded
  each c' := by
    rw [hc.closed, hc.dialCount]
    by_cases hcc : c' = c
    · rw [hcc, hc.here]
      exact hx
    · rw [hc.others c' hcc]
      exact h.each c'
  shut hclosed := by
    rw [hc.closed] at hclosed
    obtain ⟨hconns, hwaiters⟩ := h.shut hclosed
    have hsub := hc.conns
    rw [hconns, sublist_nil] at hsub
    exact ⟨hsub, hc.waiters.trans hwaiters⟩
  accounted := by
    rw [hc.settled, hc.waiters, hc.calls]
    exact h.accounted

theorem Changed.trans {p p' p'' : Pool} {c : ℕ} {x y : Standing} (h : Changed p p' c x)
    (h' : Changed p' p'' c y) : Changed p p'' c y where
  others c' hc := (h'.others c' hc).trans (h.others c' hc)
  here := h'.here
  conns := h'.conns.trans h.conns
  closed := h'.closed.trans h.closed
  dialCount := h'.dialCount.trans h.dialCount
  waiters := h'.waiters.trans h.waiters
  settled := h'.settled.trans h.settled
  calls := h'.calls.trans h.calls

theorem Changed.refl (p : Pool) (c : ℕ) : Changed p p c (p.at c) :=
  ⟨fun _ _ => rfl, rfl, Sublist.refl _, rfl, rfl, rfl, rfl, rfl⟩

theorem setConn_changed (p : Pool) (c : ℕ) (conn : Conn) :
    Changed p (p.setConn c conn) c { p.at c with conn := conn } where
  others c' hc := by simp [Pool.at, Pool.setConn, hc]
  here := by simp [Pool.at, Pool.setConn]
  conns := Sublist.refl _
  closed := rfl
  dialCount := rfl
  waiters := rfl
  settled := rfl
  calls := rfl

theorem push_changed (p : Pool) (t : Task) :
    Changed p (p.push t) t.conn { p.at t.conn with tasks := t ::ₘ (p.at t.conn).tasks } where
  others c' hc := by simp [Pool.at, Pool.push, Ne.symm hc]
  here := by simp [Pool.at, Pool.push]
  conns := Sublist.refl _
  closed := rfl
  dialCount := rfl
  waiters := rfl
  settled := rfl
  calls := rfl

theorem teardown_changed {p : Pool} {c : ℕ} (hnodup : p.conns.Nodup)
    (htorn : c ∈ p.conns → (p.conn c).torn = false) :
    Changed p (teardown p c) c ⟨False, { p.conn c with alive := false, torn := true },
      (p.at c).tasks⟩ where
  others c' hc := by
    unfold teardown Pool.at Pool.setConn
    dsimp only
    split_ifs
    · rfl
    · simp only [mem_erase_of_ne hc]
  here := by
    unfold teardown Pool.at Pool.setConn
    dsimp only
    rw [if_pos rfl]
    congr 1
    rw [eq_iff_iff, iff_false]
    split_ifs with h
    · intro hmem
      rw [htorn hmem] at h
      cases h
    · exact hnodup.not_mem_erase
  conns := by
    unfold teardown
    split_ifs
    · exact Sublist.refl _
    · exact erase_sublist
  closed := rfl
  dialCount := rfl
  waiters := rfl
  settled := rfl
  calls := rfl

theorem callers_cons (x : Standing) (t : Task) :
    ({ x with tasks := t ::ₘ x.tasks } : Standing).callers =
      (t.caller.toList : Multiset ℕ) + x.callers := by
  have hnone : ∀ t : Task, t.caller = none →
      (t ::ₘ x.tasks).filterMap Task.caller = x.tasks.filterMap Task.caller :=
    fun t ht => Multiset.filterMap_cons_none t x.tasks ht
  cases t with
  | connected c => simp [Standing.callers, hnone (.connected c) rfl, Task.caller]
  | connectFailed c => simp [Standing.callers, hnone (.connectFailed c) rfl, Task.caller]
  | lent call c encodable => simp [Standing.callers, Task.caller]
  | queryDone call c => simp [Standing.callers, Task.caller]

variable {call : ℕ}

theorem callers_of_q (hq : x.conn.q = some call) : x.callers ≠ 0 := by
  rw [← Multiset.card_pos, Standing.callers, hq]
  simp

theorem settleQuery_changed (p : Pool) (c : ℕ) :
    Changed p (settleQuery p c) c ((settleQuery p c).at c) := by
  unfold settleQuery
  cases (p.conn c).q with
  | none => exact Changed.refl p c
  | some call =>
    have h := (setConn_changed p c { p.conn c with q := none }).trans (push_changed _ (.queryDone call c))
    exact h.here ▸ h

theorem settleQuery_conn (p : Pool) (c : ℕ) :
    (settleQuery p c).conn c = { p.conn c with q := none } := by
  unfold settleQuery
  cases hq : (p.conn c).q with
  | none => simp [← hq]
  | some call => simp [Pool.push, Pool.setConn]

theorem settleQuery_callers (p : Pool) (c : ℕ) :
    ((settleQuery p c).at c).callers = (p.at c).callers := by
  unfold settleQuery
  cases hq : (p.conn c).q with
  | none => rfl
  | some call =>
    have hat := (push_changed (p.setConn c { p.conn c with q := none }) (.queryDone call c)).here
    rw [show (Task.queryDone call c).conn = c from rfl] at hat
    rw [hat, callers_cons, (setConn_changed p c _).here]
    rw [Standing.callers, Standing.callers, Multiset.add_comm]
    simp [Pool.at, hq, Task.caller]

theorem settleQuery_tasks (p : Pool) (c : ℕ) : p.tasks ≤ (settleQuery p c).tasks := by
  unfold settleQuery
  cases (p.conn c).q with
  | none => exact le_rfl
  | some call => exact Multiset.le_cons_self _ _

theorem rejectConnect_changed (p : Pool) (c : ℕ) :
    Changed p (rejectConnect p c) c ((rejectConnect p c).at c) := by
  unfold rejectConnect
  split_ifs
  · exact Changed.refl p c
  · have h := (setConn_changed p c { p.conn c with dialed := true }).trans
      (push_changed _ (.connectFailed c))
    exact h.here ▸ h

theorem rejectConnect_conn (p : Pool) (c : ℕ) :
    (rejectConnect p c).conn c = { p.conn c with dialed := true } := by
  unfold rejectConnect
  split_ifs with h
  · simp [← h]
  · simp [Pool.push, Pool.setConn]

theorem rejectConnect_callers (p : Pool) (c : ℕ) :
    ((rejectConnect p c).at c).callers = (p.at c).callers := by
  unfold rejectConnect
  split_ifs
  · rfl
  · have hat := (push_changed (p.setConn c { p.conn c with dialed := true })
      (.connectFailed c)).here
    rw [show (Task.connectFailed c).conn = c from rfl] at hat
    rw [hat, callers_cons, (setConn_changed p c _).here]
    simp [Standing.callers, Pool.at, Task.caller]

theorem rejectConnect_tasks (p : Pool) (c : ℕ) : p.tasks ≤ (rejectConnect p c).tasks := by
  unfold rejectConnect
  split_ifs
  · exact le_rfl
  · exact Multiset.le_cons_self _ _

theorem settleQuery_failed {p : Pool} {c c' : ℕ} :
    .connectFailed c' ∈ (settleQuery p c).tasks ↔ .connectFailed c' ∈ p.tasks := by
  unfold settleQuery
  cases (p.conn c).q with
  | none => rfl
  | some call => simp [Pool.push, Pool.setConn]

/-- `c` has been torn down, and whoever had something to hear of it hears of it. -/
structure Torn (p p' : Pool) (c : ℕ) : Prop where
  changed : Changed p p' c (p'.at c)
  pooled : c ∉ p'.conns
  torn : (p'.conn c).torn = true
  alive : (p'.conn c).alive = false
  q : (p'.conn c).q = none
  callers : (p'.at c).callers = (p.at c).callers
  busy : (p'.conn c).busy = (p.conn c).busy
  handshake : (p.conn c).handshake = false → (p'.conn c).handshake = false
  tasks : p.tasks ≤ p'.tasks
  failed : connecting (p.conn c) = true → .connectFailed c ∈ p'.tasks

variable {t : Task}

section

variable {max : ℕ} {p p' : Pool} {c : ℕ}

theorem Sound.torn_of_mem (h : Sound max p) (hc : c ∈ p.conns) : (p.conn c).torn = false :=
  ((h.each c).standing hc).2.1

theorem Torn.sound (ht : Torn p p' c) (h : Sound max p) (hborn : c < p.dialCount) :
    Sound max p' := by
  have hx := h.each c
  refine h.changed ht.changed ⟨fun hp => absurd hp ht.pooled, fun _ _ _ => ht.torn, ?_, ?_,
    fun hp => absurd hp ht.pooled, ?_, ?_, ?_, fun _ => ht.pooled⟩
  · intro hb
    exact absurd hborn (of_decide_eq_false hb)
  · rw [ht.callers, show (p'.at c).conn.busy = (p.conn c).busy from ht.busy]
    exact hx.single
  · intro hcallers
    rw [ht.callers] at hcallers
    exact ht.handshake (hx.handed hcallers)
  · intro hq
    rw [show (p'.at c).conn.q = none from ht.q] at hq
    cases hq
  · intro halive
    rw [show (p'.at c).conn.alive = false from ht.alive] at halive
    cases halive

theorem Woken.changed (hw : Woken p) (hc : Changed p p' c x)
    (htasks : p.closed = false → ∀ t ∈ p.tasks, t.pumps p →
      t ∈ p'.tasks ∨ ∃ t' ∈ p'.tasks, t'.pumps p')
    (hwit : c ∈ p.conns → connecting (p.conn c) = true ∨ (p.conn c).busy = true →
      (c ∈ p'.conns ∧ (connecting (p'.conn c) = true ∨ (p'.conn c).busy = true)) ∨
        ∃ t ∈ p'.tasks, t.pumps p') : Woken p' := by
  intro hopen hwaiters
  rw [hc.closed] at hopen
  rw [hc.waiters] at hwaiters
  rcases hw hopen hwaiters with ⟨c', hmem, hstand⟩ | ⟨t, ht, hpumps⟩
  · by_cases hcc : c' = c
    · subst hcc
      rcases hwit hmem hstand with ⟨hmem, hstand⟩ | hpump
      · exact Or.inl ⟨c', hmem, hstand⟩
      · exact Or.inr hpump
    · have hat := hc.others c' hcc
      have hmem' : (p'.at c').pooled := by
        rw [hat]
        exact hmem
      have hconn : p'.conn c' = p.conn c' := congrArg Standing.conn hat
      exact Or.inl ⟨c', hmem', by rw [hconn]; exact hstand⟩
  · rcases htasks hopen t ht hpumps with hmem | hpump
    · refine Or.inr ⟨t, hmem, ?_⟩
      cases t with
      | lent call c' encodable => exact fun hmem => hpumps (hc.conns.subset hmem)
      | connected | connectFailed | queryDone => trivial
    · exact Or.inr hpump

theorem Torn.woken (ht : Torn p p' c) (h : Sound max p) (hw : Woken p) : Woken p' := by
  refine hw.changed ht.changed (fun _ t hmem _ => Or.inl (Multiset.mem_of_le ht.tasks hmem))
    fun hmem hstand => Or.inr ?_
  rcases hstand with hconnecting | hbusy
  · exact ⟨.connectFailed c, ht.failed hconnecting, trivial⟩
  · -- the caller has a continuation: no query is in flight any more
    have hcallers := (h.each c).lent hmem hbusy
    rw [← ht.callers, Standing.callers, show (p'.at c).conn.q = none from ht.q] at hcallers
    obtain ⟨call, hcall⟩ := Multiset.exists_mem_of_ne_zero hcallers
    simp only [Option.toList_none, Multiset.coe_nil, Multiset.add_zero, Multiset.mem_filterMap]
      at hcall
    obtain ⟨t, ht', hcaller⟩ := hcall
    obtain ⟨hmem', hconn⟩ := Multiset.mem_filter.mp ht'
    refine ⟨t, hmem', ?_⟩
    cases t with
    | lent call' c' encodable =>
      obtain rfl : c' = c := hconn
      exact ht.pooled
    | connected | connectFailed | queryDone => trivial

theorem handshake_of_q (h : Sound max p) (hq : (p.conn c).q = some call) :
    (p.conn c).handshake = false :=
  (h.each c).handed (callers_of_q hq)

theorem not_mem_of_at_eq (h : p.at c = x) (hx : ¬ x.pooled) : c ∉ p.conns :=
  fun hmem => hx (h ▸ hmem)

/-- The query settles, then the socket goes. -/
theorem settled_torn (h : Sound max p) (hc : connecting (p.conn c) = false) :
    Torn p (teardown (settleQuery p c) c) c := by
  have hset := settleQuery_changed p c
  have hconn := settleQuery_conn p c
  have hdown := teardown_changed (p := settleQuery p c) (c := c) (h.nodup.sublist hset.conns)
    (fun hmem => by
      rw [hconn]
      exact h.torn_of_mem (hset.conns.subset hmem))
  have hat := hdown.here
  have hconn' : (teardown (settleQuery p c) c).conn c =
      { p.conn c with alive := false, torn := true, q := none } := by
    rw [show (teardown (settleQuery p c) c).conn c = _ from congrArg Standing.conn hat]
    rw [hconn]
  refine ⟨hat ▸ hset.trans hdown, not_mem_of_at_eq hat id, ?_, ?_, ?_, ?_, ?_, fun hh => ?_,
    settleQuery_tasks p c, fun hcon => ?_⟩
  · rw [hconn']
  · rw [hconn']
  · rw [hconn']
  · rw [hat, ← settleQuery_callers, Standing.callers, Standing.callers, hconn]
    simp [Pool.at, hconn]
  · rw [hconn']
  · rw [hconn']
    exact hh
  · rw [hc] at hcon
    cases hcon

/-- The socket goes while the handshake lasts, and the dial is rejected if it is not over. -/
theorem rejected_torn (h : Sound max p) (hh : (p.conn c).handshake = true) (b : Bool) :
    Torn p (rejectConnect (teardown (p.setConn c { p.conn c with handshake := b }) c) c) c := by
  have hset := setConn_changed p c { p.conn c with handshake := b }
  set p₁ := p.setConn c { p.conn c with handshake := b }
  have hconn₁ : p₁.conn c = { p.conn c with handshake := b } := congrArg Standing.conn hset.here
  have hdown := teardown_changed (p := p₁) (c := c) h.nodup (fun hmem => by
    rw [hconn₁]
    exact h.torn_of_mem hmem)
  have hrej := rejectConnect_changed (teardown p₁ c) c
  have hconn := rejectConnect_conn (teardown p₁ c) c
  rw [show (teardown p₁ c).conn c = _ from congrArg Standing.conn hdown.here, hconn₁] at hconn
  have hq : (p.conn c).q = none := by
    cases hq : (p.conn c).q with
    | none => rfl
    | some call =>
      rw [handshake_of_q h hq] at hh
      cases hh
  refine ⟨(hset.trans hdown).trans hrej, ?_, ?_, ?_, ?_, ?_, ?_, fun hh' => ?_, ?_, fun hcon => ?_⟩
  · intro hmem
    exact not_mem_of_at_eq hdown.here id (hrej.conns.subset hmem)
  · rw [hconn]
  · rw [hconn]
  · rw [hconn]
    exact hq
  · rw [rejectConnect_callers, hdown.here]
    rw [Standing.callers, Standing.callers, hset.here, hconn₁]
    rfl
  · rw [hconn]
  · rw [hh] at hh'
    cases hh'
  · exact rejectConnect_tasks (teardown p₁ c) c
  · have hdialed : ((teardown p₁ c).conn c).dialed = false := by
      rw [show (teardown p₁ c).conn c = _ from congrArg Standing.conn hdown.here, hconn₁]
      simp only [connecting, Bool.and_eq_true, Bool.not_eq_true'] at hcon
      exact hcon.2
    rw [rejectConnect, if_neg (by simp [hdialed])]
    exact Multiset.mem_cons_self _ _

theorem settleQuery_none (hq : (p.conn c).q = none) : settleQuery p c = p := by
  simp only [settleQuery, hq]

theorem setConn_self (p : Pool) (c : ℕ) : p.setConn c (p.conn c) = p := by
  have : (fun c' => if c' = c then p.conn c else p.conn c') = p.conn := by
    funext c'
    split_ifs with h
    · rw [h]
    · rfl
  rw [Pool.setConn, this]

theorem fail_torn (h : Sound max p) : Torn p (fail p c) c := by
  unfold fail
  split_ifs with hh
  · exact rejected_torn h hh false
  · exact settled_torn h (by simp [connecting, Bool.eq_false_iff.mpr hh])

theorem connectTimeout_spec (h : Sound max p) (hw : Woken p) (hborn : c < p.dialCount) :
    Sound max (connectTimeout p c) ∧ Woken (connectTimeout p c) := by
  unfold connectTimeout
  split_ifs with hh
  · have ht := rejected_torn h hh (p.conn c).handshake
    rw [setConn_self] at ht
    exact ⟨ht.sound h hborn, ht.woken h hw⟩
  · exact ⟨h, hw⟩

theorem born_of_q (h : Sound max p) (hq : (p.conn c).q = some call) :
    c < p.dialCount := by
  by_contra hb
  have := ((h.each c).unborn (decide_eq_false hb)).2
  rw [show (p.at c).conn.q = some call from hq] at this
  cases this

theorem queryTimeout_spec (h : Sound max p) (hw : Woken p) :
    Sound max (queryTimeout p c) ∧ Woken (queryTimeout p c) := by
  unfold queryTimeout
  cases hq : (p.conn c).q with
  | none => exact ⟨h, hw⟩
  | some call =>
    have ht := settled_torn h (c := c) (by simp [connecting, handshake_of_q h hq])
    exact ⟨ht.sound h (born_of_q h hq), ht.woken h hw⟩

/-- A query settles on a connection that lives on. -/
theorem settleQuery_spec (h : Sound max p) (hw : Woken p) (hborn : c < p.dialCount) :
    Sound max (settleQuery p c) ∧ Woken (settleQuery p c) := by
  have hset := settleQuery_changed p c
  have hconn := settleQuery_conn p c
  have hx := h.each c
  have hpooled : ((settleQuery p c).at c).pooled ↔ (p.at c).pooled := by
    unfold settleQuery
    cases (p.conn c).q <;> exact Iff.rfl
  refine ⟨h.changed hset ⟨fun hp => ?_, fun ho hb hp => ?_, fun hb => ?_, ?_, fun hp hb => ?_,
    fun hcallers => ?_, fun hq => ?_, fun ha => ?_, fun hf hp => ?_⟩, ?_⟩
  · rw [show ((settleQuery p c).at c).conn = _ from hconn]
    exact hx.standing (hpooled.mp hp)
  · rw [show ((settleQuery p c).at c).conn = _ from hconn]
    exact hx.gone ho hb (mt hpooled.mpr hp)
  · exact absurd hborn (of_decide_eq_false hb)
  · rw [settleQuery_callers, show ((settleQuery p c).at c).conn = _ from hconn]
    exact hx.single
  · rw [show ((settleQuery p c).at c).conn = _ from hconn] at hb
    rw [settleQuery_callers]
    exact hx.lent (hpooled.mp hp) hb
  · rw [settleQuery_callers] at hcallers
    rw [show ((settleQuery p c).at c).conn = _ from hconn]
    exact hx.handed hcallers
  · rw [show ((settleQuery p c).at c).conn = _ from hconn] at hq
    cases hq
  · rw [show ((settleQuery p c).at c).conn = _ from hconn] at ha ⊢
    exact hx.ready ha
  · refine hx.failed ?_ (hpooled.mp hp)
    have hmem := Multiset.mem_filter.mp hf
    refine Multiset.mem_filter.mpr ⟨?_, rfl⟩
    exact settleQuery_failed.mp hmem.1
  · refine hw.changed hset (fun _ t ht _ => Or.inl (Multiset.mem_of_le (settleQuery_tasks p c) ht)) ?_
    intro hmem hstand
    refine Or.inl ⟨hpooled.mpr hmem, ?_⟩
    rw [hconn]
    exact hstand

/-- Other tasks for the same callers. -/
theorem Standing.Ok.retask {closed born : Bool} {ts : Multiset Task}
    (h : x.Ok closed born c) (hcallers : ({ x with tasks := ts } : Standing).callers = x.callers)
    (hborn : born = false → ts = 0)
    (hfailed : .connectFailed c ∈ ts → .connectFailed c ∈ x.tasks) :
    ({ x with tasks := ts } : Standing).Ok closed born c where
  standing := h.standing
  gone := h.gone
  unborn hb := ⟨hborn hb, (h.unborn hb).2⟩
  single := by
    rw [hcallers]
    exact h.single
  lent hp hb := by
    rw [hcallers]
    exact h.lent hp hb
  handed hne := by
    rw [hcallers] at hne
    exact h.handed hne
  inFlight := h.inFlight
  ready := h.ready
  failed hf := h.failed (hfailed hf)

theorem pop_changed (p : Pool) (t : Task) : Changed (p.push t) p t.conn (p.at t.conn) where
  others c' hc := by simp [Pool.at, Pool.push, Ne.symm hc]
  here := rfl
  conns := Sublist.refl _
  closed := rfl
  dialCount := rfl
  waiters := rfl
  settled := rfl
  calls := rfl

theorem Sound.at_push (h : Sound max (p.push t)) :
    ({ p.at t.conn with tasks := t ::ₘ (p.at t.conn).tasks } : Standing).Ok p.closed
      (t.conn < p.dialCount) t.conn :=
  (push_changed p t).here ▸ h.each t.conn

theorem Sound.born_of_task (h : Sound max (p.push t)) : t.conn < p.dialCount := by
  by_contra hb
  have := (h.at_push.unborn (decide_eq_false hb)).1
  exact absurd this (Multiset.cons_ne_zero)

/-- A task that no caller waits for is taken. -/
theorem Sound.pop (h : Sound max (p.push t)) (ht : t.caller = none) : Sound max p := by
  refine h.changed (pop_changed p t) (h.at_push.retask ?_ (fun hb => ?_) fun hf =>
    Multiset.mem_cons_of_mem hf)
  · have := callers_cons (p.at t.conn) t
    rw [this, ht]
    simp
    rfl
  · exact absurd h.born_of_task (of_decide_eq_false hb)

theorem readyForQuery_spec (h : Sound max p) (hw : Woken p) (hborn : c < p.dialCount) :
    Sound max (readyForQuery p c) ∧ Woken (readyForQuery p c) := by
  unfold readyForQuery
  by_cases ha : (p.conn c).alive = true
  · rw [if_pos ha]
    exact settleQuery_spec h hw hborn
  · rw [if_neg ha]
    have hx := h.each c
    have hset := setConn_changed p c { p.conn c with
      alive := true, handshake := false, dialed := (p.conn c).dialed || (p.conn c).handshake }
    have hsound := h.changed hset
      ⟨fun hp => ⟨(hx.standing hp).1, (hx.standing hp).2.1, Or.inr rfl⟩, hx.gone, hx.unborn,
        hx.single, hx.lent, fun _ => rfl, hx.inFlight, fun _ => rfl, hx.failed⟩
    split_ifs with hpush
    · have hpushed := push_changed (p.setConn c { p.conn c with
        alive := true, handshake := false, dialed := (p.conn c).dialed || (p.conn c).handshake })
        (.connected c)
      refine ⟨hsound.changed hpushed ((hsound.each c).retask ?_ (fun hb => ?_) fun hf => ?_),
        hw.changed (hset.trans hpushed) (fun _ t ht _ => Or.inl (Multiset.mem_cons_of_mem ht))
          fun _ _ => Or.inr ⟨_, Multiset.mem_cons_self _ _, trivial⟩⟩
      · exact (callers_cons _ (.connected c)).trans (by simp [Task.caller])
      · exact absurd hborn (of_decide_eq_false hb)
      · simpa [Task.conn] using hf
    · refine ⟨hsound, hw.changed hset (fun _ t ht _ => Or.inl ht) fun hmem hstand =>
        Or.inl ⟨hmem, Or.inr ?_⟩⟩
      rcases hstand with hcon | hbusy
      · simp only [connecting, Bool.and_eq_true, Bool.not_eq_true'] at hcon
        simp [hcon.1.2, hcon.2] at hpush
      · simpa [Pool.setConn] using hbusy

end

end Turma.PgPool
