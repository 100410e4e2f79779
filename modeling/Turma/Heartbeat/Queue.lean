import Turma.Heartbeat.Outcome

/-! The hosts' queues: what each event leaves of them. -/

namespace Turma.Heartbeat

open Turma.Lib Turma.Tenancy Turma.Registry List OrdMap

variable {β κ σ : Type} {R : Rules β κ} {s : State β κ σ}

def State.queue (s : State β κ σ) (key : JsString) : List Command :=
  ((s.agents.get? key).map (·.commands)).getD []

variable {a : Record β κ} {key : JsString}

theorem queue_of_get? (h : s.agents.get? key = some a) :
    s.queue key = a.commands := by
  rw [State.queue, h]
  rfl

theorem queue_of_none (h : s.agents.get? key = none) : s.queue key = [] := by
  rw [State.queue, h]
  rfl

theorem queue_congr {s' : State β κ σ}
    (h : s'.agents.get? key = s.agents.get? key) : s'.queue key = s.queue key := by
  rw [State.queue, h, State.queue]

theorem get?_of_mem_queue {c : Command} (h : c ∈ s.queue key) :
    ∃ a, s.agents.get? key = some a ∧ c ∈ a.commands := by
  cases ha : s.agents.get? key with
  | none =>
    rw [queue_of_none ha] at h
    exact absurd h (not_mem_nil)
  | some a => exact ⟨a, rfl, by rwa [queue_of_get? ha] at h⟩

theorem trimBytes_spec (R : Rules β κ) (a : Record β κ) (size : ℕ) (cmds : List Command) :
    ∃ dropped, cmds = dropped ++ (trimBytes R a size cmds).1 ∧
      (cmds ≠ [] → (trimBytes R a size cmds).1 ≠ []) ∧
      ((trimBytes R a size cmds).1.length ≤ 1 ∨
        R.size { a with commands := (trimBytes R a size cmds).1 } ≤ R.agentRecordMax) ∧
      ∀ p c q, dropped = p ++ c :: q → R.agentRecordMax <
        R.size { a with commands := c :: (q ++ (trimBytes R a size cmds).1) } := by
  induction cmds generalizing size with
  | nil => exact ⟨[], rfl, fun h => absurd rfl h, .inl (Nat.zero_le _), by simp⟩
  | cons c cmds ih =>
    cases cmds with
    | nil => exact ⟨[], rfl, fun _ => cons_ne_nil _ _, .inl (Nat.le_refl _), by simp⟩
    | cons c' cmds =>
      rw [trimBytes]
      by_cases hlarge : R.agentRecordMax < R.size { a with commands := c :: c' :: cmds }
      · rw [if_pos hlarge]
        obtain ⟨dropped, hsplit, hleft, hfit, hneed⟩ :=
          ih (R.size { a with commands := c :: c' :: cmds })
        refine ⟨c :: dropped, by rw [cons_append, ← hsplit],
          fun _ => hleft (cons_ne_nil _ _), hfit, ?_⟩
        intro p x q hp
        cases p with
        | nil =>
          obtain ⟨rfl, rfl⟩ : c = x ∧ dropped = q := by simpa using hp
          rwa [← hsplit]
        | cons y p =>
          rw [cons_append, List.cons.injEq] at hp
          exact hneed p x q hp.2
      · rw [if_neg hlarge]
        exact ⟨[], rfl, fun _ => cons_ne_nil _ _, .inr (Nat.le_of_not_lt hlarge), by simp⟩

def freshCommand (s : State β κ σ) (key : JsString) (o : Order) : Command :=
  ⟨s.nextRef, key, o.cmdId, o.type, tenantOfHostKey key, o.bindTenant, none⟩

/-- What `queueCommand` leaves of the queue of `a`, to which it adds `c`: the end of it, with the new
command, and no more dropped than the two bounds ask for. -/
structure Trimmed (R : Rules β κ) (a : Record β κ) (c : Command) (dropped left : List Command) :
    Prop where
  split : a.commands ++ [c] = dropped ++ left
  mem : c ∈ left
  count : left.length ≤ R.commandQueueMax
  bytes : R.size { a with commands := left } ≤ R.agentRecordMax ∨ left = [c]
  needed : ∀ p x q, dropped = p ++ x :: q → R.commandQueueMax < (x :: (q ++ left)).length ∨
    R.agentRecordMax < R.size { a with commands := x :: (q ++ left) }

theorem mem_of_append_eq {α : Type} {l dropped left : List α} {c : α}
    (h : l ++ [c] = dropped ++ left) (hleft : left ≠ []) : c ∈ left := by
  rcases eq_nil_or_concat left with rfl | ⟨q, x, rfl⟩
  · exact absurd rfl hleft
  · rw [concat_eq_append, ← append_assoc] at h
    obtain ⟨-, hx⟩ := append_inj' h rfl
    obtain rfl : c = x := by simpa using hx
    simp

/-- The two bounds in turn. -/
theorem trimmed_of_drop (R : Rules β κ) (a : Record β κ) (c : Command) (size : ℕ) :
    ∃ dropped, Trimmed R a c dropped (trimBytes R a size
      ((a.commands ++ [c]).drop ((a.commands ++ [c]).length - R.commandQueueMax))).1 := by
  have hpos := R.commandQueueMax_pos
  generalize hn : (a.commands ++ [c]).length - R.commandQueueMax = n
  obtain ⟨dropped, hsplit, hleft, hfit, hneed⟩ :=
    trimBytes_spec R a size ((a.commands ++ [c]).drop n)
  generalize (trimBytes R a size ((a.commands ++ [c]).drop n)).1 = left at hsplit hleft hfit hneed
  have hlength : (a.commands ++ [c]).length = a.commands.length + 1 := by simp
  have hdrop : ((a.commands ++ [c]).drop n).length = (a.commands ++ [c]).length - n :=
    length_drop
  have hall : a.commands ++ [c] = ((a.commands ++ [c]).take n ++ dropped) ++ left := by
    rw [append_assoc, ← hsplit, take_append_drop]
  have hne : left ≠ [] := by
    apply hleft
    intro hnil
    rw [hnil, length_nil] at hdrop
    omega
  have hmem := mem_of_append_eq hall hne
  have hsum : dropped.length + left.length = (a.commands ++ [c]).length - n := by
    rw [← hdrop, hsplit, length_append]
  refine ⟨_, hall, hmem, by omega, ?_, ?_⟩
  · refine hfit.symm.imp_right fun hone => ?_
    have hlen : left.length = 1 := by
      have := length_pos_of_ne_nil hne
      omega
    obtain ⟨x, rfl⟩ := length_eq_one_iff.mp hlen
    rw [mem_singleton.mp hmem]
  · intro p x q hp
    rcases append_eq_append_iff.mp hp with ⟨m, hpm, hm⟩ | ⟨m, hm, hq⟩
    · exact .inr (hneed m x q hm)
    · cases m with
      | nil =>
        rw [nil_append] at hq
        exact .inr (hneed [] x q hq.symm)
      | cons y m =>
        -- The command went by the count.
        rw [cons_append, List.cons.injEq] at hq
        have htake : ((a.commands ++ [c]).take n).length ≤ n := length_take_le _ _
        rw [hm, length_append, length_cons] at htake
        left
        rw [hq.2, length_cons, length_append, length_append]
        omega

theorem queueCommand_trimmed (key : JsString) (o : Order)
    (ha : s.agents.get? key = some a) : ∃ dropped left,
      Trimmed R a (freshCommand s key o) dropped left ∧
      (queueCommand R s key o).agents.get? key = some { a with commands := left } ∧
      (∀ k, k ≠ key → (queueCommand R s key o).agents.get? k = s.agents.get? k) ∧
      (queueCommand R s key o).handling = s.handling.map (·.follow key left) ∧
      (queueCommand R s key o).replies = s.replies ∧
      (queueCommand R s key o).nextRef = s.nextRef + 1 := by
  obtain ⟨dropped, htrim⟩ := trimmed_of_drop R a (freshCommand s key o)
    (R.size { a with commands := (a.commands ++ [freshCommand s key o]).drop (
      (a.commands ++ [freshCommand s key o]).length - R.commandQueueMax) })
  rw [queueCommand, ha]
  refine ⟨dropped, _, htrim, ?_, fun k hk => ?_, rfl, rfl, rfl⟩
  · rw [get?_upsert, if_pos rfl]
    rfl
  · rw [get?_upsert, if_neg hk]

theorem withdraw_queue (key cmdId kind k : JsString) :
    (dropQueuedCommand R s key cmdId kind).queue k =
      if k = key then (s.queue k).filter fun c => c.cmdId ≠ cmdId || c.type ≠ kind
      else s.queue k := by
  rw [dropQueuedCommand]
  cases ha : s.agents.get? key with
  | none =>
    by_cases hk : k = key
    · rw [if_pos hk, hk, queue_of_none ha, filter_nil]
    · rw [if_neg hk]
  | some a =>
    rw [State.queue, get?_upsert]
    by_cases hk : k = key
    · rw [if_pos hk, if_pos hk, hk, queue_of_get? ha]
      rfl
    · rw [if_neg hk, if_neg hk]
      rfl

theorem note_queue (key : JsString) (lastSeen : ℤ) (body : β) (kept : κ)
    (subagentHistory : OrdMap JsString SubagentEntry) (k : JsString) :
    (note s key lastSeen body kept subagentHistory).queue k = s.queue k := by
  rw [State.queue, note, get?_adjust, State.queue]
  by_cases hk : k = key
  · rw [if_pos hk]
    cases s.agents.get? k <;> rfl
  · rw [if_neg hk]

/-- The reply: what is stamped is what is sent. -/
theorem reply_queue {h : Handling} (hh : s.handling = some h)
    (ha : s.agents.get? h.key = some a) (now : ℤ) (k : JsString) :
    (reply R s now).queue k =
      if k = h.key then (s.queue k).map fun c =>
        if c.ref ∈ h.commands.map (·.ref) then c.stamp now else c
      else s.queue k := by
  rw [reply, hh]
  dsimp only
  rw [ha]
  rw [State.queue, get?_upsert]
  by_cases hk : k = h.key
  · rw [if_pos hk, if_pos hk, hk, queue_of_get? ha]
    rfl
  · rw [if_neg hk, if_neg hk]
    rfl

theorem reply_sent {h : Handling} (hh : s.handling = some h)
    (ha : s.agents.get? h.key = some a) (now : ℤ) :
    (reply R s now).handling = none ∧ (reply R s now).nextRef = s.nextRef ∧
      (reply R s now).replies = s.replies ++
        [⟨h.key, publicCommands (h.commands.map (·.stamp now)), h.commands.map (·.stamp now)⟩] := by
  rw [reply, hh]
  dsimp only
  rw [ha]
  exact ⟨rfl, rfl, rfl⟩

section

variable {b : Beat β σ} {s' : State β κ σ} {r : Record β κ}

def prevQueue (s : State β κ σ) (b : Beat β σ) : List Command :=
  ((prev s b).map (·.commands)).getD []

theorem prevQueue_own (h : s.agents.get? b.key ≠ none) : prevQueue s b = s.queue b.key := by
  obtain ⟨a, ha⟩ := Option.ne_none_iff_exists'.mp h
  rw [prevQueue, prev, ha, queue_of_get? ha]
  rfl

theorem prevQueue_moved {old : JsString} (h : s.agents.get? b.key = none)
    (hold : renamedFrom s b = some old) : prevQueue s b = s.queue old := by
  rw [prevQueue, prev, h, hold, State.queue]
  rfl

theorem prevQueue_newcomer (h : s.agents.get? b.key = none) (hnone : renamedFrom s b = none) :
    prevQueue s b = [] := by
  rw [prevQueue, prev, h, hnone]
  rfl

theorem Accepted.queue_own (h : Accepted R s b s' r) :
    s'.queue b.key = commandsLeft b (prevQueue s b) ∧
      s'.handling = some ⟨b.key, commandsLeft b (prevQueue s b), true⟩ := by
  have hcommands : r.commands = commandsLeft b (prevQueue s b) := (normalizeRecord_same h.normalized).2.1
  rw [queue_of_get? h.own, h.handling, hcommands]
  exact ⟨rfl, rfl⟩

theorem Accepted.queue_other (h : Accepted R s b s' r) {k : JsString} (hk : k ≠ b.key) :
    s'.queue k = s.queue k ∨ s'.agents.get? k = none :=
  (h.others k hk).imp_left queue_congr

theorem settle_commands (coerced : Bool) (stamp : Option Reason) (now : ℤ) (a : Record β κ) :
    (settle coerced stamp now a).commands = a.commands := by
  cases coerced <;> cases stamp <;> rfl

theorem Rolled.queue (h : Rolled R s b s') (k : JsString) :
    s'.queue k = s.queue k ∨ s'.agents.get? k = none := by
  have hsettle : ∀ a, s.agents.get? k = some a →
      (∃ coerced stamp, s'.agents.get? k = some (settle coerced stamp b.now a)) →
      s'.queue k = s.queue k := by
    rintro a ha ⟨coerced, stamp, ha'⟩
    rw [queue_of_get? ha', queue_of_get? ha, settle_commands]
  by_cases hk : k = b.key
  · subst hk
    cases ha : s.agents.get? b.key with
    | none => exact .inr (h.absent (.inl ha))
    | some a =>
      cases hfrom : renamedFrom s b with
      | none => exact .inl (hsettle a ha (h.own hfrom a ha))
      | some old => exact .inr (h.absent (.inr (by rw [hfrom]; rfl)))
  · by_cases hold : renamedFrom s b = some k
    · obtain ⟨a, ha⟩ := Option.isSome_iff_exists.mp (renamedFrom_present hold)
      exact .inl (hsettle a ha (h.home k a hold ha))
    · rcases h.others k hk hold with hsame | ⟨hnone, -⟩
      · exact .inl (queue_congr hsame)
      · exact .inr hnone

end

end Turma.Heartbeat
