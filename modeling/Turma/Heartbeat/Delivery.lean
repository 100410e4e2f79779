import Turma.Heartbeat.Queue

/-! The delivery of queued commands: how long one stays, what a reply carries, and what its stamp
says. -/

namespace Turma.Heartbeat

open Turma.Lib Turma.Tenancy Turma.Registry List Option JsString

variable {β κ σ : Type} {R : Rules β κ} {s : State β κ σ}

def Command.unstamped (c : Command) : Command := { c with deliveredAt := none }

def homeAfter (R : Rules β κ) (s : State β κ σ) (key : JsString) : Event β κ σ → JsString
  | .beat b =>
    if s.handling.isNone ∧ (heartbeat R s b).2 = .accepted ∧ renamedFrom s b = some key ∧
        (s.agents.get? b.key).isNone then b.key else key
  | _ => key

def home (R : Rules β κ) : State β κ σ → JsString → List (Event β κ σ) → JsString
  | _, key, [] => key
  | s, key, e :: es => home R (step R s e) (homeAfter R s key e) es

/-- Why an event takes the command `c` out of the queue of the host at `key`. -/
inductive Loss (R : Rules β κ) (s : State β κ σ) (key : JsString) (c : Command) : Event β κ σ → Prop
  | acked {b : Beat β σ} (hb : (heartbeat R s b).2 = .accepted)
      (hk : homeAfter R s key (.beat b) = b.key) (hc : c.cmdId ∈ b.ackedCommands) :
      Loss R s key c (.beat b)
  | foreign {b : Beat β σ} (hb : (heartbeat R s b).2 = .accepted)
      (hk : homeAfter R s key (.beat b) = b.key) (hc : c.meantFor b.key = false) :
      Loss R s key c (.beat b)
  | withdrawn : Loss R s key c (.withdraw key c.cmdId c.type)
  | trimmed {o : Order} {a : Record β κ} {dropped left : List Command}
      (ha : s.agents.get? key = some a) (ht : Trimmed R a (freshCommand s key o) dropped left)
      (hc : c ∈ dropped) : Loss R s key c (.queue key o)
  /-- The record goes with its queue: the host was idle, or it has another record. -/
  | dropped {b : Beat β σ} {a : Record β κ} (ha : s.agents.get? key = some a)
      (hk : homeAfter R s key (.beat b) = key) (hgone : (heartbeat R s b).1.agents.get? key = none)
      (hwhy : b.now - a.lastSeen > R.limits.agentEvictIdleMs ∨
        (key ≠ b.key ∧ ∃ uid, b.beatUid = some uid ∧ a.agentUid = some uid) ∨
        (key = b.key ∧ Doubled s b)) : Loss R s key c (.beat b)

variable {c : Command} {b : Beat β σ}

theorem mem_commandsLeft {queue : List Command} :
    c ∈ commandsLeft b queue ↔
      c ∈ queue ∧ c.cmdId ∉ b.ackedCommands ∧ c.meantFor b.key = true := by
  simp [commandsLeft]

theorem unstamped_stamp (c : Command) (now : ℤ) : (c.stamp now).unstamped = c.unstamped := rfl

variable {key : JsString}

/-- A beat keeps a command, or has a reason not to. -/
theorem heartbeat_keeps (hidle : s.handling = none)
    (hc : c ∈ s.queue key) : c ∈ (heartbeat R s b).1.queue (homeAfter R s key (.beat b)) ∨
      Loss R s key c (.beat b) := by
  obtain ⟨a, ha, hmem⟩ := get?_of_mem_queue hc
  have hgone : homeAfter R s key (.beat b) = key → (heartbeat R s b).1.agents.get? key = none →
      Loss R s key c (.beat b) := by
    intro hhome hnone
    refine .dropped ha hhome hnone ?_
    by_cases hlive : b.now - a.lastSeen > R.limits.agentEvictIdleMs
    · exact .inl hlive
    · exact .inr (heartbeat_evicts ha (Int.not_lt.mp hlive) hnone)
  by_cases hans : (heartbeat R s b).2 = .accepted
  · obtain ⟨r, hacc⟩ := heartbeat_accepted hans
    have hfilter : homeAfter R s key (.beat b) = b.key → c ∈ prevQueue s b →
        c ∈ (heartbeat R s b).1.queue b.key ∨ Loss R s key c (.beat b) := by
      intro hhome hprev
      rw [hacc.queue_own.1, mem_commandsLeft]
      by_cases hack : c.cmdId ∈ b.ackedCommands
      · exact .inr (.acked hans hhome hack)
      · by_cases hmeant : c.meantFor b.key = true
        · exact .inl ⟨hprev, hack, hmeant⟩
        · exact .inr (.foreign hans hhome (Bool.not_eq_true _ ▸ hmeant))
    by_cases hmoved : renamedFrom s b = some key ∧ (s.agents.get? b.key).isNone = true
    · have hhome : homeAfter R s key (.beat b) = b.key := by
        rw [homeAfter, if_pos ⟨by rw [hidle]; rfl, hans, hmoved.1, hmoved.2⟩]
      rw [hhome]
      apply hfilter hhome
      rw [prevQueue_moved (isNone_iff_eq_none.mp hmoved.2) hmoved.1]
      exact hc
    · have hhome : homeAfter R s key (.beat b) = key := by
        rw [homeAfter, if_neg fun h => hmoved ⟨h.2.2.1, h.2.2.2⟩]
      by_cases hk : key = b.key
      · subst hk
        rw [hhome]
        apply hfilter hhome
        rw [prevQueue_own (by rw [ha]; exact some_ne_none a)]
        exact hc
      · rw [hhome]
        rcases hacc.queue_other hk with hsame | hnone
        · exact .inl (hsame ▸ hc)
        · exact .inr (hgone hhome hnone)
  · have hhome : homeAfter R s key (.beat b) = key := by
      rw [homeAfter, if_neg fun h => hans h.2.1]
    rw [hhome]
    rcases (heartbeat_rolled hans).queue key with hsame | hnone
    · exact .inl (hsame ▸ hc)
    · exact .inr (hgone hhome hnone)

theorem step_keeps (e : Event β κ σ) (hc : c ∈ s.queue key) :
    (∃ c' ∈ (step R s e).queue (homeAfter R s key e), c'.unstamped = c.unstamped) ∨
      Loss R s key c e := by
  cases e with
  | beat b =>
    rw [step]
    cases hidle : s.handling with
    | none =>
      rw [isSome_none, if_neg Bool.false_ne_true]
      exact (heartbeat_keeps hidle hc).imp_left fun h => ⟨c, h, rfl⟩
    | some h =>
      have hhome : homeAfter R s key (.beat b) = key := by
        rw [homeAfter, if_neg fun h' => by simp [hidle] at h']
      rw [isSome_some, if_pos rfl, hhome]
      exact .inl ⟨c, hc, rfl⟩
  | queue key' o =>
    change (∃ c' ∈ (queueCommand R s key' o).queue key, _) ∨ _
    cases ha : s.agents.get? key' with
    | none =>
      rw [queueCommand, ha]
      exact .inl ⟨c, hc, rfl⟩
    | some a =>
      obtain ⟨dropped, left, htrim, hget, hother, -⟩ := queueCommand_trimmed (R := R) key' o ha
      by_cases hk : key = key'
      · subst hk
        rw [queue_of_get? ha] at hc
        have hsplit : c ∈ dropped ++ left := by
          rw [← htrim.split]
          exact mem_append_left _ hc
        rw [queue_of_get? hget]
        rcases mem_append.mp hsplit with hdropped | hleft
        · exact .inr (.trimmed ha htrim hdropped)
        · exact .inl ⟨c, hleft, rfl⟩
      · rw [queue_congr (hother key hk)]
        exact .inl ⟨c, hc, rfl⟩
  | withdraw key' cmdId kind =>
    change (∃ c' ∈ (dropQueuedCommand R s key' cmdId kind).queue key, _) ∨ _
    rw [withdraw_queue]
    by_cases hk : key = key'
    · subst hk
      rw [if_pos rfl]
      by_cases hmatch : c.cmdId = cmdId ∧ c.type = kind
      · obtain ⟨rfl, rfl⟩ := hmatch
        exact .inr .withdrawn
      · refine .inl ⟨c, mem_filter.mpr ⟨hc, ?_⟩, rfl⟩
        simpa [imp_iff_not_or] using hmatch
    · rw [if_neg hk]
      exact .inl ⟨c, hc, rfl⟩
  | note key' lastSeen body kept subagentHistory =>
    change (∃ c' ∈ (note s key' lastSeen body kept subagentHistory).queue key, _) ∨ _
    rw [note_queue]
    exact .inl ⟨c, hc, rfl⟩
  | reply now =>
    change (∃ c' ∈ (reply R s now).queue key, _) ∨ _
    left
    cases hh : s.handling with
    | none =>
      rw [reply, hh]
      exact ⟨c, hc, rfl⟩
    | some h =>
      cases ha : s.agents.get? h.key with
      | none =>
        rw [reply, hh]
        dsimp only
        rw [ha]
        exact ⟨c, hc, rfl⟩
      | some a =>
        rw [reply_queue hh ha]
        split_ifs
        · refine ⟨_, List.mem_map_of_mem hc, ?_⟩
          split_ifs
          · exact unstamped_stamp c now
          · rfl
        · exact ⟨c, hc, rfl⟩

/-- A queued command stays in its host's queue over a run, or some step of it had a reason to take
it out. -/
theorem command_stays (hc : c ∈ s.queue key)
    (es : List (Event β κ σ)) :
    (∃ c' ∈ (run (step R) s es).queue (home R s key es), c'.unstamped = c.unstamped) ∨
      ∃ p e q c', es = p ++ e :: q ∧ c' ∈ (run (step R) s p).queue (home R s key p) ∧
        c'.unstamped = c.unstamped ∧ Loss R (run (step R) s p) (home R s key p) c' e := by
  induction es generalizing s key c with
  | nil => exact .inl ⟨c, hc, rfl⟩
  | cons e es ih =>
    rcases step_keeps (R := R) e hc with ⟨c', hc', hsame⟩ | hloss
    · rcases ih hc' with ⟨c'', hc'', hsame'⟩ | ⟨p, e', q, c'', rfl, hc'', hsame', hloss⟩
      · exact .inl ⟨c'', hc'', hsame'.trans hsame⟩
      · exact .inr ⟨e :: p, e', q, c'', rfl, hc'', hsame'.trans hsame, hloss⟩
    · exact .inr ⟨[], e, es, c, rfl, hc, rfl, hloss⟩

def Command.Genuine (s : State β κ σ) (c : Command) : Prop :=
  c.ref < s.nextRef ∧ c.tenant = tenantOfHostKey c.queuedFor

structure Handled (s : State β κ σ) (h : Handling) : Prop where
  present : s.agents.get? h.key ≠ none
  shared : h.shared = true → s.queue h.key = h.commands
  commands : ∀ c ∈ h.commands, c.Genuine s ∧ c.meantFor h.key = true
  alone : ∀ c ∈ h.commands, ∀ k, ∀ c' ∈ s.queue k, c'.ref = c.ref → k = h.key

/-- No command is in two queues, and one is stamped once a reply has carried it. -/
structure Delivering (s : State β κ σ) : Prop where
  genuine : ∀ k, ∀ c ∈ s.queue k, c.Genuine s
  alone : ∀ k k' c c', c ∈ s.queue k → c' ∈ s.queue k' → c.ref = c'.ref → k = k'
  stamped : ∀ k, ∀ c ∈ s.queue k,
    (c.deliveredAt.isSome = true ↔ ∃ p ∈ s.replies, ∃ c' ∈ p.objects, c'.ref = c.ref)
  sent : ∀ p ∈ s.replies, ∀ c ∈ p.objects, c.Genuine s ∧ c.meantFor p.key = true
  handling : ∀ h, s.handling = some h → Handled s h

theorem start_delivering (stores : σ) : Delivering (State.start stores : State β κ σ) := by
  have hqueue : ∀ k, (State.start stores : State β κ σ).queue k = [] := fun k => rfl
  refine ⟨?_, ?_, ?_, ?_, ?_⟩
  · intro k c hc
    exact absurd hc (by simp [hqueue])
  · intro k k' c c' hc
    exact absurd hc (by simp [hqueue])
  · intro k c hc
    exact absurd hc (by simp [hqueue])
  · intro p hp
    exact absurd hp (not_mem_nil)
  · intro h hh
    exact nomatch hh

/-- Where the commands of a queue were before the beat. -/
theorem heartbeat_source (hidle : s.handling = none) {k : JsString}
    (hc : c ∈ (heartbeat R s b).1.queue k) :
    ∃ k', c ∈ s.queue k' ∧ homeAfter R s k' (.beat b) = k := by
  obtain ⟨a', ha', -⟩ := get?_of_mem_queue hc
  have hpresent : (heartbeat R s b).1.agents.get? k ≠ none := by
    rw [ha']
    exact some_ne_none a'
  by_cases hans : (heartbeat R s b).2 = .accepted
  · obtain ⟨r, hacc⟩ := heartbeat_accepted hans
    by_cases hk : k = b.key
    · subst hk
      rw [hacc.queue_own.1, mem_commandsLeft] at hc
      by_cases hown : s.agents.get? b.key = none
      · cases hfrom : renamedFrom s b with
        | none =>
          rw [prevQueue_newcomer hown hfrom] at hc
          exact absurd hc.1 not_mem_nil
        | some old =>
          rw [prevQueue_moved hown hfrom] at hc
          refine ⟨old, hc.1, ?_⟩
          rw [homeAfter, if_pos ⟨by rw [hidle]; rfl, hans, hfrom, by rw [hown]; rfl⟩]
      · rw [prevQueue_own hown] at hc
        refine ⟨b.key, hc.1, ?_⟩
        rw [homeAfter, ite_self]
    · rcases hacc.queue_other hk with hsame | hnone
      · refine ⟨k, hsame ▸ hc, ?_⟩
        rw [homeAfter, if_neg fun h => hpresent (hacc.moved k h.2.2.1)]
      · exact absurd hnone hpresent
  · rcases (heartbeat_rolled hans).queue k with hsame | hnone
    · refine ⟨k, hsame ▸ hc, ?_⟩
      rw [homeAfter, if_neg fun h => hans h.2.1]
    · exact absurd hnone hpresent

theorem heartbeat_rest (R : Rules β κ) (s : State β κ σ) (b : Beat β σ) :
    (heartbeat R s b).1.replies = s.replies ∧ (heartbeat R s b).1.nextRef = s.nextRef := by
  by_cases hans : (heartbeat R s b).2 = .accepted
  · obtain ⟨r, hacc⟩ := heartbeat_accepted hans
    exact ⟨hacc.replies, hacc.nextRef⟩
  · have hrest := (heartbeat_rolled hans).rest
    exact ⟨hrest.replies, hrest.nextRef⟩

theorem genuine_congr {s s' : State β κ σ} (h : s'.nextRef = s.nextRef) (c : Command) :
    c.Genuine s' ↔ c.Genuine s := by
  rw [Command.Genuine, h, Command.Genuine]

theorem heartbeat_delivering (h : Delivering s) (hidle : s.handling = none) :
    Delivering (heartbeat R s b).1 := by
  obtain ⟨hreplies, hnext⟩ := heartbeat_rest R s b
  have halone : ∀ k k' c c', c ∈ (heartbeat R s b).1.queue k → c' ∈ (heartbeat R s b).1.queue k' →
      c.ref = c'.ref → k = k' := by
    intro k k' c c' hc hc' href
    obtain ⟨k₀, hk₀, rfl⟩ := heartbeat_source hidle hc
    obtain ⟨k₀', hk₀', rfl⟩ := heartbeat_source hidle hc'
    rw [h.alone k₀ k₀' c c' hk₀ hk₀' href]
  have hgenuine : ∀ k, ∀ c ∈ (heartbeat R s b).1.queue k, c.Genuine (heartbeat R s b).1 := by
    intro k c hc
    obtain ⟨k', hk', -⟩ := heartbeat_source hidle hc
    exact (genuine_congr hnext c).mpr (h.genuine k' c hk')
  refine ⟨hgenuine, halone, ?_, ?_, ?_⟩
  · intro k c hc
    obtain ⟨k', hk', -⟩ := heartbeat_source hidle hc
    rw [hreplies]
    exact h.stamped k' c hk'
  · intro p hp c hc
    rw [hreplies] at hp
    rw [genuine_congr hnext]
    exact h.sent p hp c hc
  · intro g hg
    by_cases hans : (heartbeat R s b).2 = .accepted
    · obtain ⟨r, hacc⟩ := heartbeat_accepted hans
      obtain ⟨hqueue, hhandling⟩ := hacc.queue_own
      obtain rfl := Option.some.inj (hhandling.symm.trans hg)
      refine ⟨?_, fun _ => hqueue, ?_, ?_⟩
      · rw [hacc.own]
        exact some_ne_none r
      · intro c hc
        refine ⟨hgenuine b.key c ?_, (mem_commandsLeft.mp hc).2.2⟩
        rwa [hqueue]
      · intro c hc k c' hc' href
        refine halone k b.key c' c hc' ?_ href
        rwa [hqueue]
    · rw [(heartbeat_rolled hans).rest.handling, hidle] at hg
      exact nomatch hg

theorem freshCommand_meantFor (s : State β κ σ) (key : JsString) (o : Order) :
    (freshCommand s key o).meantFor key = true := by
  simp [Command.meantFor, freshCommand]

theorem queueCommand_delivering (h : Delivering s) (key : JsString) (o : Order) :
    Delivering (queueCommand R s key o) := by
  cases ha : s.agents.get? key with
  | none =>
    rw [queueCommand, ha]
    exact h
  | some a =>
    obtain ⟨dropped, left, htrim, hget, hother, hhandling, hreplies, hnext⟩ :=
      queueCommand_trimmed (R := R) key o ha
    generalize queueCommand R s key o = s' at hget hother hhandling hreplies hnext
    have hqueue : s'.queue key = left := queue_of_get? hget
    have hleft : ∀ c ∈ left, c ∈ s.queue key ∨ c = freshCommand s key o := by
      intro c hc
      have hmem : c ∈ a.commands ++ [freshCommand s key o] := by
        rw [htrim.split]
        exact mem_append_right _ hc
      rw [queue_of_get? ha]
      simpa using hmem
    have hsource : ∀ k, ∀ c ∈ s'.queue k,
        c ∈ s.queue k ∨ (k = key ∧ c = freshCommand s key o) := by
      intro k c hc
      by_cases hk : k = key
      · subst hk
        rw [hqueue] at hc
        exact (hleft c hc).imp_right fun hnew => ⟨rfl, hnew⟩
      · rw [queue_congr (hother k hk)] at hc
        exact .inl hc
    have hgrow : ∀ c : Command, c.Genuine s → c.Genuine s' := by
      intro c hc
      refine ⟨?_, hc.2⟩
      have hlt := hc.1
      omega
    have hnew : (freshCommand s key o).Genuine s' := by
      refine ⟨?_, rfl⟩
      change s.nextRef < s'.nextRef
      omega
    have hnotnew : ∀ c : Command, c.Genuine s → c.ref ≠ (freshCommand s key o).ref := by
      intro c hc
      exact Nat.ne_of_lt hc.1
    have halone : ∀ k k' c c', c ∈ s'.queue k → c' ∈ s'.queue k' → c.ref = c'.ref → k = k' := by
      intro k k' c c' hc hc' href
      rcases hsource k c hc with hold | ⟨rfl, rfl⟩
      · rcases hsource k' c' hc' with hold' | ⟨rfl, rfl⟩
        · exact h.alone k k' c c' hold hold' href
        · exact absurd href (hnotnew c (h.genuine k c hold))
      · rcases hsource k' c' hc' with hold' | ⟨rfl, rfl⟩
        · exact absurd href.symm (hnotnew c' (h.genuine k' c' hold'))
        · rfl
    refine ⟨?_, halone, ?_, ?_, ?_⟩
    · intro k c hc
      rcases hsource k c hc with hold | ⟨rfl, rfl⟩
      · exact hgrow c (h.genuine k c hold)
      · exact hnew
    · intro k c hc
      rw [hreplies]
      rcases hsource k c hc with hold | ⟨rfl, rfl⟩
      · exact h.stamped k c hold
      · refine iff_of_false (by simp [freshCommand]) ?_
        rintro ⟨p, hp, c', hc', href⟩
        exact hnotnew c' (h.sent p hp c' hc').1 href
    · intro p hp c hc
      rw [hreplies] at hp
      exact (h.sent p hp c hc).imp_left (hgrow c)
    · intro g hg
      rw [hhandling] at hg
      obtain ⟨g, hg', rfl⟩ := map_eq_some_iff.mp hg
      have hh := h.handling g hg'
      by_cases hfollow : g.key = key ∧ g.shared = true
      · obtain ⟨rfl, hshared⟩ := hfollow
        rw [Handling.follow, if_pos ⟨rfl, hshared⟩]
        refine ⟨?_, fun _ => hqueue, ?_, ?_⟩
        · rw [hget]
          exact some_ne_none _
        · intro c hc
          rcases hleft c hc with hold | rfl
          · rw [hh.shared hshared] at hold
            exact (hh.commands c hold).imp_left (hgrow c)
          · exact ⟨hnew, freshCommand_meantFor s g.key o⟩
        · intro c hc k c' hc' href
          refine halone k g.key c' c hc' ?_ href
          rwa [hqueue]
      · rw [Handling.follow, if_neg hfollow]
        refine ⟨?_, ?_, ?_, ?_⟩
        · by_cases hk : g.key = key
          · rw [hk, hget]
            exact some_ne_none _
          · rw [hother g.key hk]
            exact hh.present
        · intro hshared
          rw [queue_congr (hother g.key fun hk => hfollow ⟨hk, hshared⟩)]
          exact hh.shared hshared
        · exact fun c hc => (hh.commands c hc).imp_left (hgrow c)
        · intro c hc k c' hc' href
          rcases hsource k c' hc' with hold | ⟨rfl, rfl⟩
          · exact hh.alone c hc k c' hold href
          · exact absurd href.symm (hnotnew c (hh.commands c hc).1)

/-- An event that adds no command and changes none. -/
theorem Delivering.shrink {s' : State β κ σ} (h : Delivering s) (hnext : s'.nextRef = s.nextRef)
    (hreplies : s'.replies = s.replies) (hqueue : ∀ k, s'.queue k ⊆ s.queue k)
    (hhandling : ∀ g', s'.handling = some g' → ∃ g, s.handling = some g ∧ g'.key = g.key ∧
      g'.commands = g.commands ∧ (g'.shared = true → g.shared = true ∧
        s'.queue g.key = s.queue g.key) ∧ s'.agents.get? g.key ≠ none) : Delivering s' := by
  refine ⟨?_, ?_, ?_, ?_, ?_⟩
  · exact fun k c hc => (genuine_congr hnext c).mpr (h.genuine k c (hqueue k hc))
  · exact fun k k' c c' hc hc' => h.alone k k' c c' (hqueue k hc) (hqueue k' hc')
  · intro k c hc
    rw [hreplies]
    exact h.stamped k c (hqueue k hc)
  · intro p hp c hc
    rw [hreplies] at hp
    rw [genuine_congr hnext]
    exact h.sent p hp c hc
  · intro g' hg'
    obtain ⟨g, hg, hkey, hcommands, hshared, hpresent⟩ := hhandling g' hg'
    have hh := h.handling g hg
    refine ⟨?_, ?_, ?_, ?_⟩
    · rw [hkey]
      exact hpresent
    · intro hs
      rw [hkey, hcommands, (hshared hs).2]
      exact hh.shared (hshared hs).1
    · intro c hc
      rw [hcommands] at hc
      rw [hkey, genuine_congr hnext]
      exact hh.commands c hc
    · intro c hc k c' hc' href
      rw [hcommands] at hc
      rw [hkey]
      exact hh.alone c hc k c' (hqueue k hc') href

theorem withdraw_delivering (h : Delivering s) (key cmdId kind : JsString) :
    Delivering (dropQueuedCommand R s key cmdId kind) := by
  have hqueue := fun k => withdraw_queue (R := R) (s := s) key cmdId kind k
  have hpresent : ∀ k, s.agents.get? k ≠ none →
      (dropQueuedCommand R s key cmdId kind).agents.get? k ≠ none := by
    intro k hk
    rw [dropQueuedCommand]
    cases ha : s.agents.get? key with
    | none => exact hk
    | some a =>
      rw [OrdMap.get?_upsert]
      by_cases hkey : k = key
      · rw [if_pos hkey]
        exact some_ne_none _
      · rw [if_neg hkey]
        exact hk
  have hrest : (dropQueuedCommand R s key cmdId kind).nextRef = s.nextRef ∧
      (dropQueuedCommand R s key cmdId kind).replies = s.replies ∧
      ((dropQueuedCommand R s key cmdId kind).handling = s.handling ∧ s.agents.get? key = none ∨
        (dropQueuedCommand R s key cmdId kind).handling = s.handling.map fun g =>
          if g.key = key then { g with shared := false } else g) := by
    rw [dropQueuedCommand]
    cases ha : s.agents.get? key with
    | none => exact ⟨rfl, rfl, .inl ⟨rfl, rfl⟩⟩
    | some a => exact ⟨rfl, rfl, .inr rfl⟩
  generalize dropQueuedCommand R s key cmdId kind = s' at hqueue hpresent hrest
  obtain ⟨hnext, hreplies, hhandling⟩ := hrest
  refine h.shrink hnext hreplies (fun k c hc => ?_) fun g' hg' => ?_
  · rw [hqueue] at hc
    split_ifs at hc
    · exact (mem_filter.mp hc).1
    · exact hc
  · rcases hhandling with ⟨hsame, hnone⟩ | hmap
    · rw [hsame] at hg'
      have hp := (h.handling g' hg').present
      have hne : g'.key ≠ key := fun hk => hp (hk ▸ hnone)
      exact ⟨g', hg', rfl, rfl, fun hs => ⟨hs, by rw [hqueue, if_neg hne]⟩, hpresent _ hp⟩
    · rw [hmap] at hg'
      obtain ⟨g, hg, rfl⟩ := map_eq_some_iff.mp hg'
      have hp := hpresent _ (h.handling g hg).present
      by_cases hk : g.key = key
      · rw [if_pos hk]
        exact ⟨g, hg, rfl, rfl, fun hs => Bool.noConfusion hs, hp⟩
      · rw [if_neg hk]
        exact ⟨g, hg, rfl, rfl, fun hs => ⟨hs, by rw [hqueue, if_neg hk]⟩, hp⟩

theorem note_delivering (h : Delivering s) (key : JsString) (lastSeen : ℤ) (body : β) (kept : κ)
    (subagentHistory : OrdMap JsString SubagentEntry) :
    Delivering (note s key lastSeen body kept subagentHistory) := by
  have hqueue := note_queue (s := s) key lastSeen body kept subagentHistory
  refine h.shrink rfl rfl (fun k c hc => hqueue k ▸ hc) fun g hg =>
    ⟨g, hg, rfl, rfl, fun hs => ⟨hs, hqueue g.key⟩, ?_⟩
  rw [note, OrdMap.get?_adjust]
  have hp := (h.handling g hg).present
  by_cases hk : g.key = key
  · rw [if_pos hk]
    simpa using hp
  · rw [if_neg hk]
    exact hp

theorem isSome_stamp (c : Command) (now : ℤ) : (c.stamp now).deliveredAt.isSome = true := by
  rw [Command.stamp]
  cases c.deliveredAt <;> rfl

theorem reply_delivering (h : Delivering s) (now : ℤ) : Delivering (reply R s now) := by
  cases hh : s.handling with
  | none =>
    rw [reply, hh]
    exact h
  | some g =>
    have hg := h.handling g hh
    obtain ⟨a, ha⟩ := ne_none_iff_exists'.mp hg.present
    have hqueue := reply_queue (R := R) hh ha now
    obtain ⟨hhandling, hnext, hreplies⟩ := reply_sent (R := R) hh ha now
    generalize reply R s now = s' at hqueue hhandling hnext hreplies
    -- A command of a queue, and what it was before.
    have hsource : ∀ k, ∀ c ∈ s'.queue k, ∃ c₀ ∈ s.queue k,
        (k = g.key ∧ c₀.ref ∈ g.commands.map (·.ref) ∧ c = c₀.stamp now) ∨
          (c₀.ref ∉ g.commands.map (·.ref) ∧ c = c₀) := by
      intro k c hc
      rw [hqueue] at hc
      by_cases hk : k = g.key
      · rw [if_pos hk] at hc
        obtain ⟨c₀, hc₀, rfl⟩ := List.mem_map.mp hc
        refine ⟨c₀, hc₀, ?_⟩
        by_cases hmem : c₀.ref ∈ g.commands.map (·.ref)
        · exact .inl ⟨hk, hmem, if_pos hmem⟩
        · exact .inr ⟨hmem, if_neg hmem⟩
      · rw [if_neg hk] at hc
        refine ⟨c, hc, .inr ⟨fun hmem => hk ?_, rfl⟩⟩
        obtain ⟨c', hc', href⟩ := List.mem_map.mp hmem
        exact hg.alone c' hc' k c hc href.symm
    have hgenuine : ∀ c : Command, c.Genuine s → (c.stamp now).Genuine s' := by
      intro c hc
      rw [genuine_congr hnext]
      exact hc
    refine ⟨?_, ?_, ?_, ?_, ?_⟩
    · intro k c hc
      obtain ⟨c₀, hc₀, ⟨-, -, rfl⟩ | ⟨-, rfl⟩⟩ := hsource k c hc
      · exact hgenuine c₀ (h.genuine k c₀ hc₀)
      · exact (genuine_congr hnext c).mpr (h.genuine k c hc₀)
    · intro k k' c c' hc hc' href
      obtain ⟨c₀, hc₀, hcase⟩ := hsource k c hc
      obtain ⟨c₀', hc₀', hcase'⟩ := hsource k' c' hc'
      have hr : c.ref = c₀.ref := by
        rcases hcase with ⟨-, -, rfl⟩ | ⟨-, rfl⟩ <;> rfl
      have hr' : c'.ref = c₀'.ref := by
        rcases hcase' with ⟨-, -, rfl⟩ | ⟨-, rfl⟩ <;> rfl
      exact h.alone k k' c₀ c₀' hc₀ hc₀' (hr.symm.trans (href.trans hr'))
    · intro k c hc
      rw [hreplies]
      obtain ⟨c₀, hc₀, ⟨-, hmem, rfl⟩ | ⟨hmem, rfl⟩⟩ := hsource k c hc
      · obtain ⟨c', hc', href⟩ := List.mem_map.mp hmem
        refine iff_of_true (isSome_stamp c₀ now) ⟨_, mem_append_right _ mem_cons_self, ?_⟩
        exact ⟨c'.stamp now, List.mem_map_of_mem hc', href⟩
      · rw [h.stamped k c hc₀]
        constructor
        · rintro ⟨p, hp, hc'⟩
          exact ⟨p, mem_append_left _ hp, hc'⟩
        · rintro ⟨p, hp, c', hc', href⟩
          rcases mem_append.mp hp with hold | hnew
          · exact ⟨p, hold, c', hc', href⟩
          · obtain rfl := mem_singleton.mp hnew
            obtain ⟨c'', hc'', rfl⟩ := List.mem_map.mp hc'
            exact absurd (List.mem_map.mpr ⟨c'', hc'', href⟩) hmem
    · intro p hp c hc
      rw [hreplies] at hp
      rcases mem_append.mp hp with hold | hnew
      · exact (h.sent p hold c hc).imp_left (genuine_congr hnext c).mpr
      · obtain rfl := mem_singleton.mp hnew
        obtain ⟨c', hc', rfl⟩ := List.mem_map.mp hc
        exact (hg.commands c' hc').imp_left (hgenuine c')
    · intro g' hg'
      cases hhandling.symm.trans hg'

theorem step_delivering (h : Delivering s) (e : Event β κ σ) : Delivering (step R s e) := by
  cases e with
  | beat b =>
    rw [step]
    cases hidle : s.handling with
    | none => exact heartbeat_delivering h hidle
    | some g => exact h
  | queue key o => exact queueCommand_delivering h key o
  | withdraw key cmdId kind => exact withdraw_delivering h key cmdId kind
  | note key lastSeen body kept subagentHistory =>
    exact note_delivering h key lastSeen body kept subagentHistory
  | reply now => exact reply_delivering h now

theorem run_delivering (R : Rules β κ) (stores : σ) (es : List (Event β κ σ)) :
    Delivering (run (step R) (.start stores) es) :=
  run_inv (P := Delivering) _ (fun _ e h _ => step_delivering h e) (start_delivering stores)
    (along_of_forall _ fun _ _ => trivial)

/-- An event that does not end the beat of `key` and withdraws nothing from it. -/
def Undisturbed (key : JsString) : Event β κ σ → Prop
  | .withdraw key' _ _ => key' ≠ key
  | .reply _ => False
  | _ => True

variable {g : Handling}

theorem step_shared (hg : s.handling = some g) (hshared : g.shared = true)
    {e : Event β κ σ} (he : Undisturbed g.key e) :
    ∃ g', (step R s e).handling = some g' ∧ g'.key = g.key ∧ g'.shared = true := by
  cases e with
  | beat b =>
    rw [step, hg, isSome_some, if_pos rfl]
    exact ⟨g, hg, rfl, hshared⟩
  | queue key o =>
    change ∃ g', (queueCommand R s key o).handling = some g' ∧ _
    cases ha : s.agents.get? key with
    | none =>
      rw [queueCommand, ha]
      exact ⟨g, hg, rfl, hshared⟩
    | some a =>
      obtain ⟨dropped, left, -, -, -, hhandling, -⟩ := queueCommand_trimmed (R := R) key o ha
      rw [hhandling, hg]
      refine ⟨g.follow key left, rfl, ?_⟩
      unfold Handling.follow
      split_ifs
      · exact ⟨rfl, hshared⟩
      · exact ⟨rfl, hshared⟩
  | withdraw key cmdId kind =>
    change ∃ g', (dropQueuedCommand R s key cmdId kind).handling = some g' ∧ _
    rw [dropQueuedCommand]
    cases s.agents.get? key with
    | none => exact ⟨g, hg, rfl, hshared⟩
    | some a =>
      rw [hg, map_some, if_neg (Ne.symm he)]
      exact ⟨g, rfl, rfl, hshared⟩
  | note key lastSeen body kept subagentHistory => exact ⟨g, hg, rfl, hshared⟩
  | reply now => exact he.elim

theorem run_shared (es : List (Event β κ σ)) (hes : ∀ e ∈ es, Undisturbed key e)
    (hg : s.handling = some g) (hkey : g.key = key) (hshared : g.shared = true) :
    ∃ g', (run (step R) s es).handling = some g' ∧ g'.key = key ∧ g'.shared = true := by
  induction es generalizing s g with
  | nil => exact ⟨g, hg, hkey, hshared⟩
  | cons e es ih =>
    subst hkey
    obtain ⟨g', hg', hkey', hshared'⟩ := step_shared (R := R) hg hshared (hes e mem_cons_self)
    exact ih (fun e' he' => hes e' (.tail _ he')) hg' hkey' hshared'

/-- While the array is shared, the reply carries the queue, and all of it is stamped. -/
theorem reply_shared (h : Delivering s) (hg : s.handling = some g)
    (hshared : g.shared = true) (now : ℤ) :
    (reply R s now).queue g.key = (s.queue g.key).map (·.stamp now) ∧
      (reply R s now).replies = s.replies ++ [⟨g.key, publicCommands ((reply R s now).queue g.key),
        (reply R s now).queue g.key⟩] := by
  have hh := h.handling g hg
  obtain ⟨a, ha⟩ := ne_none_iff_exists'.mp hh.present
  have hqueue : (reply R s now).queue g.key = (s.queue g.key).map (·.stamp now) := by
    rw [reply_queue hg ha, if_pos rfl, hh.shared hshared]
    apply map_congr_left
    intro c hc
    rw [if_pos (List.mem_map_of_mem hc)]
  refine ⟨hqueue, ?_⟩
  rw [(reply_sent hg ha now).2.2, hqueue, hh.shared hshared]

/-- A queued command stays in its host's queue until it is acked, withdrawn, trimmed or filtered, or
the record goes. The reply to a beat during which nothing is withdrawn from the host carries its
queue, in order. What is stamped is what a reply has carried. No reply carries a command that was
queued under another tenant, the bind token apart. A new command is queued within the bounds. -/
theorem commands_delivered (R : Rules β κ) (stores : σ) (es : List (Event β κ σ)) :
    let s := run (step R) (.start stores) es
    (∀ key c, c ∈ s.queue key → ∀ es',
      (∃ c' ∈ (run (step R) s es').queue (home R s key es'), c'.unstamped = c.unstamped) ∨
        ∃ p e q c', es' = p ++ e :: q ∧ c' ∈ (run (step R) s p).queue (home R s key p) ∧
          c'.unstamped = c.unstamped ∧ Loss R (run (step R) s p) (home R s key p) c' e) ∧
    (∀ b mid now, s.handling = none → (heartbeat R s b).2 = .accepted →
      (∀ e ∈ mid, Undisturbed b.key e) →
        let t := run (step R) s (.beat b :: mid)
        let t' := step R t (.reply now)
        t'.queue b.key = (t.queue b.key).map (·.stamp now) ∧
          t'.replies = t.replies ++
            [⟨b.key, publicCommands (t'.queue b.key), t'.queue b.key⟩]) ∧
    (∀ key, ∀ c ∈ s.queue key, c.ref < s.nextRef ∧
      (c.deliveredAt.isSome = true ↔ ∃ p ∈ s.replies, ∃ c' ∈ p.objects, c'.ref = c.ref)) ∧
    (∀ p ∈ s.replies, ∀ c ∈ p.objects, c.ref < s.nextRef ∧
      (tenantOfHostKey c.queuedFor = tenantOfHostKey p.key ∨
        (c.type = setToken ∧ c.bindTenant = some (tenantOfHostKey p.key)))) ∧
    ∀ key o a, s.agents.get? key = some a → ∃ dropped left,
      Trimmed R a (freshCommand s key o) dropped left ∧
        (queueCommand R s key o).agents.get? key = some { a with commands := left } := by
  have hinv := run_delivering R stores es
  intro s
  refine ⟨fun key c hc es' => command_stays hc es', fun b mid now hidle hans hmid => ?_,
    fun key c hc => ⟨(hinv.genuine key c hc).1, hinv.stamped key c hc⟩, fun p hp c hc => ?_,
    fun key o a ha => ?_⟩
  · intro t
    have ht : Delivering t := by
      have hrun : t = run (step R) (.start stores) (es ++ .beat b :: mid) := (run_append _ _ _ _).symm
      rw [hrun]
      exact run_delivering R stores _
    obtain ⟨r, hacc⟩ := heartbeat_accepted hans
    have hbeat : step R s (.beat b) = (heartbeat R s b).1 := by
      rw [step, hidle, isSome_none, if_neg Bool.false_ne_true]
    have hshared : ∃ g, t.handling = some g ∧ g.key = b.key ∧ g.shared = true := by
      have hhandling : (step R s (.beat b)).handling = some ⟨b.key, r.commands, true⟩ := by
        rw [hbeat, hacc.handling]
      exact run_shared mid hmid hhandling rfl rfl
    obtain ⟨g, hg, hkey, hs⟩ := hshared
    have hreply := reply_shared (R := R) ht hg hs now
    rwa [hkey] at hreply
  · obtain ⟨hgenuine, hmeant⟩ := hinv.sent p hp c hc
    refine ⟨hgenuine.1, ?_⟩
    rw [Command.meantFor, hgenuine.2] at hmeant
    simp only [Bool.or_eq_true, Bool.and_eq_true, decide_eq_true_eq] at hmeant
    exact hmeant.imp_right fun h => ⟨h.1.2, h.2⟩
  · obtain ⟨dropped, left, htrim, hget, -⟩ := queueCommand_trimmed (R := R) key o ha
    exact ⟨dropped, left, htrim, hget⟩

def ticketOrder : Order := ⟨ofString "c1", ofString "spawnTicket", none⟩

def queuedMeanwhile : List (Event ℕ Unit Unit) :=
  [.beat (beatOf atticHost 10 0), .reply 0, .beat (beatOf atticHost 10 1),
    .queue atticHost ticketOrder]

/-- A command that is queued during a beat is in its reply. -/
theorem commands_delivered_queued :
    let t := run (step tinyRules) (.start ()) queuedMeanwhile
    let t' := step tinyRules t (.reply 2)
    (t.queue atticHost).map (·.cmdId) = [ticketOrder.cmdId] ∧
      t'.queue atticHost = (t.queue atticHost).map (·.stamp 2) ∧
        t'.replies = t.replies ++ [⟨atticHost, publicCommands (t'.queue atticHost),
          t'.queue atticHost⟩] := by
  have hmid : ∀ e ∈ [(.queue atticHost ticketOrder : Event ℕ Unit Unit)],
      Undisturbed atticHost e := fun e he => by
    rw [mem_singleton.mp he]
    trivial
  exact ⟨by decide, (commands_delivered tinyRules () (queuedMeanwhile.take 2)).2.1
    (beatOf atticHost 10 1) [.queue atticHost ticketOrder] 2 rfl (by decide) hmid⟩

/-- A queued command goes with the record of its idle host. A beat during which a command that is not
there is withdrawn has a reply without the command that is queued next. -/
theorem command_dropped_or_left_out :
    let s := queueCommand tinyRules atticHub atticHost ticketOrder
    let t := run (step tinyRules) atticHub [.beat (beatOf atticHost 10 1),
      .withdraw atticHost (ofString "c0") (ofString "renderDailyBrief"),
      .queue atticHost ticketOrder]
    ((s.queue atticHost).map (·.cmdId) = [ticketOrder.cmdId] ∧
      (heartbeat tinyRules s (beatOf laptopHost 20 1000)).2 = .accepted ∧
      (heartbeat tinyRules s (beatOf laptopHost 20 1000)).1.agents.values.flatMap (·.commands) = []) ∧
    ((t.queue atticHost).map (·.cmdId) = [ticketOrder.cmdId] ∧
      (step tinyRules t (.reply 2)).replies.map (·.commands) = t.replies.map (·.commands) ++ [[]] ∧
      ((step tinyRules t (.reply 2)).queue atticHost).map (·.deliveredAt) = [none]) := by
  decide

end Turma.Heartbeat
