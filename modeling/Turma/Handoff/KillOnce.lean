import Turma.Handoff.Invariant

/-! Over a run of the hub: what queues a kill, what a move that failed comes to, and when a restore
queues none. -/

namespace Turma.Handoff

open Turma.Lib Turma.Migrations List Option OrdMap JsString

namespace Hub

/-- The target of the move that `k` ends reports the session that its import brought up. -/
def Backed (s : Hub) (k : Kill) : Prop :=
  ∃ m cmd a x, s.held k.id = some m ∧ m.srcHost = k.srcHost ∧ m.srcSessionId = k.sessionId ∧
    m.record.phase = .importing ∧ m.record.importCmdId = some cmd ∧
    s.agents.get? m.targetHost = some a ∧ x ∈ a.sessions ∧ x.spawnCmdId = some (some cmd) ∧
    x.running = true

/-- The hub's moves end as they should, from `s` on. A file whose move is neither in flight nor being
written is gone. -/
structure Careful (N : ℕ) (s : Hub) : Prop where
  once : (s.kills.map (·.id)).Nodup
  backed : ∀ e, ∃ new, (s.step N e).kills = s.kills ++ new ∧ ∀ k ∈ new, s.Backed k
  failed : ∀ id m, s.held id = some m → m.record.phase = .failed → ∀ es,
    (∀ k ∈ (run (Hub.step N) s es).kills, k.id ≠ id) ∧
      ∀ m', (run (Hub.step N) s es).held id = some m' → m'.record.phase = .failed
  restores : ∀ k ∈ s.kills, k.srcHost ≠ none
  spools : ∀ p ∈ s.spools, ∃ id, p = migrationSpoolPath id ∧ (id ∈ s.uploads ∨ id ∈ s.packs ∨
    ∃ m, s.held id = some m ∧ m.record.phase = .importing)
  room : s.migrations.size ≤ max MIGRATIONS_MAX N ∧ ∀ e id m, s.held id = some m →
    (s.step N e).held id = none → m.record.phase.settled = true

/-- The sweep hands no restore off while a host named `null` is registered. -/
def NoHostNull (s : Hub) : Event → Prop
  | .advanceMigrations _ => ∀ id m, s.held id = some m → m.srcHost = none → s.handsOff m = true →
    s.agents.get? (ofString "null") = none
  | _ => True

def killOf (s : Hub) (id : Id) : Option Kill :=
  (s.held id).bind fun m =>
    if s.handsOff m = true ∧ (s.agents.get? (propertyKey m.srcHost)).isSome then
      some ⟨id, m.srcHost, m.srcSessionId⟩
    else none

variable {N : ℕ} {s s' : Hub} {id k : Id} {m : Move} {r : Migration}

theorem not_retires (h : s.handsOff m = true) (now : ℤ) : m.record.retires now = false := by
  obtain ⟨hphase, -⟩ := handsOff_spec h now
  unfold Migration.retires
  rw [hphase]
  rfl

theorem kills_advanceOne (s : Hub) (id : Id) (now : ℤ) :
    (s.advanceOne id now).kills = s.kills ++ (s.killOf id).toList := by
  unfold advanceOne killOf
  cases hm : s.held id with
  | none => exact (append_nil _).symm
  | some m =>
    dsimp only [bind_some]
    by_cases hretires : m.record.retires now = true
    · have hno : s.handsOff m ≠ true := fun hoff => by simp [not_retires hoff] at hretires
      rw [if_pos hretires, if_neg fun h => hno h.1]
      exact (append_nil _).symm
    · rw [if_neg hretires]
      split_ifs
      · rfl
      · rw [toList_none, append_nil]
        exact (put_rest s id m _).2.1

theorem agents_advanceOne (s : Hub) (id : Id) (now : ℤ) : (s.advanceOne id now).agents = s.agents := by
  unfold advanceOne
  cases s.held id with
  | none => rfl
  | some m =>
    dsimp only
    split_ifs
    · rfl
    · exact (put_rest s id m _).1
    · exact (put_rest s id m _).1

theorem held_advanceOne (s : Hub) (id : Id) (now : ℤ) (k : Id) : (s.advanceOne id now).held k =
    if k = id then (s.held id).bind fun m => if m.record.retires now then none
      else some { m with record := m.record.advance (s.fleet m now) now }
    else s.held k := by
  unfold advanceOne
  cases hm : s.held id with
  | none =>
    by_cases hk : k = id
    · rw [if_pos hk, hk, hm]
      rfl
    · rw [if_neg hk]
  | some m =>
    dsimp only [bind_some]
    by_cases hretires : m.record.retires now = true
    · rw [if_pos hretires, if_pos hretires]
      exact get?_erase s.migrations id k
    · rw [if_neg hretires, if_neg hretires]
      have hput := held_put (r := m.record.advance (s.fleet m now) now) hm k
      split_ifs at hput ⊢ <;> exact hput

/-- Over ids that differ, each record is dealt with as it was before the loop. -/
theorem foldl_spec {ids : List Id} (h : ids.Nodup) (s : Hub) (now : ℤ) :
    (ids.foldl (fun s id => s.advanceOne id now) s).agents = s.agents ∧
      (ids.foldl (fun s id => s.advanceOne id now) s).kills = s.kills ++ ids.filterMap s.killOf ∧
      ∀ k, (ids.foldl (fun s id => s.advanceOne id now) s).held k =
        if k ∈ ids then (s.advanceOne k now).held k else s.held k := by
  induction ids generalizing s with
  | nil => exact ⟨rfl, (append_nil _).symm, fun k => rfl⟩
  | cons id ids ih =>
    obtain ⟨hid, hids⟩ := nodup_cons.mp h
    obtain ⟨hagents, hkills, hheld⟩ := ih hids (s.advanceOne id now)
    have hsame : ∀ k, k ≠ id → (s.advanceOne id now).held k = s.held k := fun k hk => by
      rw [held_advanceOne, if_neg hk]
    have hhands : ∀ m, (s.advanceOne id now).handsOff m = s.handsOff m := fun m => by
      rw [handsOff, up, agents_advanceOne, handsOff, up]
    rw [foldl_cons]
    refine ⟨hagents.trans (agents_advanceOne s id now), ?_, fun k => ?_⟩
    · have hrest : ids.filterMap (s.advanceOne id now).killOf = ids.filterMap s.killOf := by
        refine filterMap_congr fun k hk => ?_
        rw [killOf, hsame k (fun heq => hid (heq ▸ hk)), agents_advanceOne, killOf]
        simp only [hhands]
      rw [hkills, hrest, kills_advanceOne, filterMap_cons, append_assoc]
      cases s.killOf id <;> rfl
    · rw [hheld]
      by_cases hk : k ∈ ids
      · have hne : k ≠ id := fun heq => hid (heq ▸ hk)
        have hfleet : ∀ m, (s.advanceOne id now).fleet m now = s.fleet m now := fun m => by
          rw [fleet, up, live, agents_advanceOne, fleet, up, live]
        rw [if_pos hk, if_pos (.tail _ hk), held_advanceOne, if_pos rfl, hsame k hne,
          held_advanceOne, if_pos rfl]
        simp only [hfleet]
      · rw [if_neg hk]
        by_cases heq : k = id
        · rw [heq, if_pos mem_cons_self]
        · rw [hsame k heq, if_neg (by simp [heq, hk])]

theorem kills_advanceMigrations (s : Hub) (now : ℤ) :
    (s.advanceMigrations now).kills = s.kills ++ s.migrations.keys.filterMap s.killOf :=
  (foldl_spec s.migrations.nodup s now).2.1

theorem held_advanceMigrations (s : Hub) (now : ℤ) (id : Id) :
    (s.advanceMigrations now).held id = (s.advanceOne id now).held id := by
  refine ((foldl_spec s.migrations.nodup s now).2.2 id).trans ?_
  split_ifs with hid
  · rfl
  · have hnone : s.held id = none := get?_eq_none.mpr hid
    rw [held_advanceOne, if_pos rfl, hnone]
    rfl

theorem killOf_backed {c : Kill} (h : s.killOf id = some c) : s.Backed c := by
  obtain ⟨m, hm, hc⟩ := bind_eq_some_iff.mp h
  split_ifs at hc with hoff
  cases hc
  obtain ⟨hphase, -, cmd, a, x, hcmd, ha, hx, hspawn, hrunning⟩ := handsOff_spec hoff.1 0
  exact ⟨m, cmd, a, x, hm, rfl, rfl, hphase, hcmd, ha, hx, hspawn, hrunning⟩

/-- What a step makes of the move of `id`: it is left alone, or retired once it has settled, or its
record changes, and not from failed. -/
def Fate (s s' : Hub) (id : Id) : Prop :=
  s'.held id = s.held id ∨ ∃ m, s.held id = some m ∧
    (s'.held id = none ∧ m.record.phase.settled = true ∨
      ∃ r, s'.held id = some { m with record := r } ∧ (m.record.phase = .failed → r.phase = .failed))

theorem Turns.fate (t : Turns s s' k m r) (h : m.record.phase = .failed → r.phase = .failed) (id : Id) :
    Fate s s' id := by
  by_cases hid : id = k
  · subst hid
    exact .inr ⟨m, t.was, .inr ⟨r, by rw [t.held, if_pos rfl], h⟩⟩
  · exact .inl (by rw [t.held, if_neg hid])

/-- A step that changes at most the record of `k`, and not from failed. -/
def TurnsAt (s s' : Hub) (k : Id) : Prop :=
  (s'.held = s.held ∧ s'.kills = s.kills ∧ s'.minted = s.minted) ∨
    ∃ m r, Turns s s' k m r ∧ (m.record.phase = .failed → r.phase = .failed)

theorem TurnsAt.fate (h : TurnsAt s s' k) (id : Id) : Fate s s' id := by
  rcases h with ⟨hheld, -⟩ | ⟨m, r, t, hfailed⟩
  · exact .inl (by rw [hheld])
  · exact t.fate hfailed id

theorem TurnsAt.rest (h : TurnsAt s s' k) : s'.kills = s.kills ∧ s'.minted = s.minted := by
  rcases h with ⟨-, hrest⟩ | ⟨m, r, t, -⟩
  · exact hrest
  · exact ⟨t.kills, t.minted⟩

theorem turnsAt_same : TurnsAt s s k := .inl ⟨rfl, rfl, rfl⟩

theorem fate_retire (hm : s.held k = some m) (h : m.record.phase.settled = true) (id : Id) :
    Fate s (s.retireMigration k m) id := by
  have hheld := get?_erase s.migrations k id
  by_cases hid : id = k
  · subst hid
    exact .inr ⟨m, hm, .inl ⟨hheld.trans (if_pos rfl), h⟩⟩
  · exact .inl (hheld.trans (if_neg hid))

theorem fate_insert (hid : id ∈ s.minted) (hk : k ∉ s.minted) : Fate s (s.insert k m) id := by
  have hne : id ≠ k := fun heq => hk (heq ▸ hid)
  have hheld : (s.insert k m).held id = s.evict.held id := by rw [held_insert, if_neg hne]
  have hevict : Fate s s.evict id := by
    rcases evict_cases (N := 0) s with ⟨hsame, -⟩ | ⟨k', m', hm', hsettled, heq⟩
    · rw [hsame]
      exact .inl rfl
    · rw [heq]
      exact fate_retire hm' hsettled id
  unfold Fate
  rw [hheld]
  exact hevict

theorem beginUpload_turns (s : Hub) (k : Id) (host : JsString) : TurnsAt s (s.beginUpload k host) k := by
  unfold beginUpload
  cases hm : s.held k with
  | none => exact turnsAt_same
  | some m =>
    dsimp only
    split_ifs
    · have t := turns_put (r := { m.record with uploading := true }) hm
      obtain ⟨-, -, huploads, -⟩ := put_rest s k m { m.record with uploading := true }
      refine .inr ⟨m, { m.record with uploading := true }, ⟨hm, t.held, t.minted, t.kills, t.size,
        fun j hj => ⟨?_, (t.writers j hj).2⟩⟩, fun hf => hf⟩
      rw [← (t.writers j hj).1, huploads]
      simp [hj]
    · exact turnsAt_same

theorem refuse_turns (s : Hub) (k : Id) (host error : JsString) : TurnsAt s (s.refuse k host error) k := by
  unfold refuse
  cases hm : s.held k with
  | none => exact turnsAt_same
  | some m =>
    dsimp only
    split_ifs
    · exact .inr ⟨m, _, turns_put hm, fun hf => (phase_refuse m.record error).trans hf⟩
    · exact turnsAt_same

theorem uploadEnds_turns (s : Hub) (k : Id) (result : UploadResult) (command replica : JsString)
    (now : ℤ) : TurnsAt s (s.uploadEnds k result command replica now) k := by
  unfold uploadEnds
  by_cases hin : k ∈ s.uploads
  swap
  · rw [if_pos hin]
    exact turnsAt_same
  rw [if_neg (not_not.mpr hin)]
  dsimp only
  rw [show ({ s with uploads := s.uploads.filter (· ≠ k) } : Hub).held k = s.held k from rfl]
  cases hm : s.held k with
  | none => exact .inl ⟨rfl, rfl, rfl⟩
  | some m =>
    cases result with
    | empty => exact .inr ⟨m, { m.record with uploading := false }, (turns_uploaded hm).unlink, fun hf => hf⟩
    | failed tooBig =>
      refine .inr ⟨m, _, (turns_uploaded hm).unlink, fun hf => ?_⟩
      simp [Migration.uploadFailed, hf]
    | stored size =>
      dsimp only
      by_cases hphase : m.record.phase = .exporting
      swap
      · rw [if_pos hphase]
        exact .inr ⟨m, { m.record with uploading := false }, (turns_uploaded hm).unlink, fun hf => hf⟩
      rw [if_neg (not_not.mpr hphase)]
      have hnot : m.record.phase ≠ .failed := by simp [hphase]
      split_ifs
      · exact .inr ⟨m, _, (turns_uploaded hm).unlink, fun hf => absurd hf hnot⟩
      · exact .inr ⟨m, _, turns_uploaded hm, fun hf => absurd hf hnot⟩
      · exact .inr ⟨m, _, turns_uploaded hm, fun hf => absurd hf hnot⟩

theorem packEnds_turns (s : Hub) (k : Id) (result : PackResult) (conversation command : JsString)
    (now : ℤ) : TurnsAt s (s.packEnds k result conversation command now) k := by
  unfold packEnds
  by_cases hin : k ∈ s.packs
  swap
  · rw [if_pos hin]
    exact turnsAt_same
  rw [if_neg (not_not.mpr hin)]
  dsimp only
  rw [show ({ s with packs := s.packs.filter (· ≠ k) } : Hub).held k = s.held k from rfl]
  cases hm : s.held k with
  | none => exact .inl ⟨rfl, rfl, rfl⟩
  | some m =>
    dsimp only
    generalize (⟨result, conversation, migrationSpoolPath k, _, now⟩ : PackEnd) = x
    cases hlate : x.late m.record with
    | true => exact .inr ⟨m, { m.record with packing := false }, (turns_packed hm).unlink, fun hf => hf⟩
    | false =>
      rw [if_neg Bool.false_ne_true]
      have htells := write_tells hlate
      cases hout : x.outcome with
      | fails error =>
        rw [hout] at htells
        exact .inr ⟨m, _, (turns_packed hm).unlink, fun _ => htells.1⟩
      | imports cmd =>
        refine .inr ⟨m, _, turns_packed hm, fun hf => ?_⟩
        unfold PackEnd.outcome at hout
        unfold PackEnd.late at hlate
        cases hresult : x.result with
        | failed tooLarge =>
          rw [hresult] at hout
          cases hout
        | packed size missing =>
          rw [hresult] at hlate
          simp [hf] at hlate

theorem fate_advanceMigrations (s : Hub) (now : ℤ) (id : Id) : Fate s (s.advanceMigrations now) id := by
  unfold Fate
  rw [held_advanceMigrations, held_advanceOne, if_pos rfl]
  cases hm : s.held id with
  | none => exact .inl rfl
  | some m =>
    rw [bind_some]
    refine .inr ⟨m, rfl, ?_⟩
    by_cases hretires : m.record.retires now = true
    · rw [if_pos hretires]
      unfold Migration.retires at hretires
      rw [Bool.and_eq_true] at hretires
      exact .inl ⟨rfl, hretires.1⟩
    · rw [if_neg hretires]
      refine .inr ⟨_, rfl, fun hf => ?_⟩
      rcases advance_cases m.record (s.fleet m now) now with hsame | ⟨hopen, -⟩
      · rw [hsame, hf]
      · simp [hf, Phase.settled] at hopen

theorem step_fate (hid : id ∈ s.minted) (e : Event) : Fate s (s.step N e) id := by
  cases e with
  | agent host record => exact .inl rfl
  | startMigration k srcHost session targetHost now =>
    simp only [step, startMigration]
    split_ifs with hno
    · exact .inl rfl
    · exact fate_insert hid fun hk => hno (.inl hk)
  | startArchiveRestore k transcriptId targetHost now =>
    simp only [step, startArchiveRestore]
    split_ifs with hno
    · exact .inl rfl
    · exact fate_insert hid fun hk => hno (.inl hk)
  | beginUpload k host => exact (beginUpload_turns s k host).fate id
  | uploadEnds k result command replica now =>
    exact (uploadEnds_turns s k result command replica now).fate id
  | packEnds k result conversation command now =>
    exact (packEnds_turns s k result conversation command now).fate id
  | refuse k host error => exact (refuse_turns s k host error).fate id
  | advanceMigrations now => exact fate_advanceMigrations s now id

theorem evict_rest (s : Hub) : s.evict.kills = s.kills ∧ s.evict.minted = s.minted := by
  rcases evict_cases (N := 0) s with ⟨hsame, -⟩ | ⟨k, m, -, -, heq⟩
  · rw [hsame]
    exact ⟨rfl, rfl⟩
  · rw [heq]
    exact ⟨rfl, rfl⟩

theorem insert_rest (s : Hub) (k : Id) (m : Move) :
    (s.insert k m).kills = s.kills ∧ s.minted ⊆ (s.insert k m).minted := by
  obtain ⟨hkills, hminted⟩ := evict_rest s
  refine ⟨hkills, ?_⟩
  change s.minted ⊆ k :: s.evict.minted
  rw [hminted]
  exact subset_cons_self k s.minted

def newKills (s : Hub) : Event → List Kill
  | .advanceMigrations _ => s.migrations.keys.filterMap s.killOf
  | _ => []

theorem advanceOne_minted (s : Hub) (id : Id) (now : ℤ) : (s.advanceOne id now).minted = s.minted := by
  unfold advanceOne
  cases s.held id with
  | none => rfl
  | some m =>
    dsimp only
    split_ifs
    · rfl
    · exact (put_rest s id m _).2.2.2.2.1
    · exact (put_rest s id m _).2.2.2.2.1

theorem foldl_minted (ids : List Id) (s : Hub) (now : ℤ) :
    (ids.foldl (fun s id => s.advanceOne id now) s).minted = s.minted := by
  induction ids generalizing s with
  | nil => rfl
  | cons id ids ih => rw [foldl_cons, ih, advanceOne_minted]

theorem step_rest (s : Hub) (e : Event) :
    (s.step N e).kills = s.kills ++ s.newKills e ∧ s.minted ⊆ (s.step N e).minted := by
  have hquiet : ∀ {s' : Hub}, s'.kills = s.kills ∧ s.minted ⊆ s'.minted →
      s'.kills = s.kills ++ [] ∧ s.minted ⊆ s'.minted := fun h => ⟨by rw [h.1, append_nil], h.2⟩
  have hturns : ∀ {s' : Hub} {k : Id}, TurnsAt s s' k →
      s'.kills = s.kills ++ [] ∧ s.minted ⊆ s'.minted := fun h =>
    hquiet ⟨h.rest.1, fun _ hin => h.rest.2 ▸ hin⟩
  cases e with
  | agent host record => exact hquiet ⟨rfl, fun _ hin => hin⟩
  | startMigration k srcHost session targetHost now =>
    refine hquiet ?_
    simp only [step, startMigration]
    split_ifs
    · exact ⟨rfl, fun _ hin => hin⟩
    · exact insert_rest s k _
  | startArchiveRestore k transcriptId targetHost now =>
    refine hquiet ?_
    simp only [step, startArchiveRestore]
    split_ifs
    · exact ⟨rfl, fun _ hin => hin⟩
    · generalize (⟨none, none, targetHost, _⟩ : Move) = m
      exact insert_rest s k m
  | beginUpload k host => exact hturns (beginUpload_turns s k host)
  | uploadEnds k result command replica now =>
    exact hturns (uploadEnds_turns s k result command replica now)
  | packEnds k result conversation command now =>
    exact hturns (packEnds_turns s k result conversation command now)
  | refuse k host error => exact hturns (refuse_turns s k host error)
  | advanceMigrations now =>
    exact ⟨kills_advanceMigrations s now, fun _ hin => (foldl_minted _ s now).symm ▸ hin⟩

theorem newKills_backed {e : Event} {c : Kill} (h : c ∈ s.newKills e) : s.Backed c := by
  cases e with
  | advanceMigrations now =>
    obtain ⟨id, -, hc⟩ := mem_filterMap.mp h
    exact killOf_backed hc
  | _ => exact nomatch h

/-- The move of `id` is over, and its source lives. -/
structure Over (id : Id) (s : Hub) : Prop where
  minted : id ∈ s.minted
  spared : ∀ k ∈ s.kills, k.id ≠ id
  failed : ∀ m, s.held id = some m → m.record.phase = .failed

theorem Over.step (h : Over id s) (e : Event) : Over id (s.step N e) := by
  obtain ⟨hkills, hminted⟩ := step_rest (N := N) s e
  refine ⟨hminted h.minted, fun c hc hid => ?_, fun m hm => ?_⟩
  · rw [hkills] at hc
    rcases mem_append.mp hc with hold | hnew
    · exact h.spared c hold hid
    · obtain ⟨m, cmd, a, x, hm, -, -, himporting, -⟩ := newKills_backed hnew
      have hfailed := h.failed m (hid ▸ hm)
      rw [himporting] at hfailed
      exact Phase.noConfusion hfailed
  · rcases step_fate (N := N) h.minted e with hsame | ⟨m₀, hm₀, hnone | ⟨r, hr, hfailed⟩⟩
    · exact h.failed m (hsame ▸ hm)
    · exact nomatch hnone.1.symm.trans hm
    · obtain rfl := some.inj (hr.symm.trans hm)
      exact hfailed (h.failed m₀ hm₀)

theorem Over.run (h : Over id s) (es : List Event) : Over id (run (Hub.step N) s es) := by
  induction es generalizing s with
  | nil => exact h
  | cons e es ih => exact ih (h.step e)

theorem Inv.over (h : Inv N s) (hm : s.held id = some m) (hfailed : m.record.phase = .failed) :
    Over id s := by
  refine ⟨h.minted id m hm, fun k hk hid => ?_, fun m' hm' => ?_⟩
  · have hdone := h.killed k hk m (hid ▸ hm)
    rw [hfailed] at hdone
    exact Phase.noConfusion hdone
  · obtain rfl := some.inj (hm.symm.trans hm')
    exact hfailed

def Restores (s : Hub) : Prop := ∀ k ∈ s.kills, k.srcHost ≠ none

theorem newKills_restores (s : Hub) (e : Event) :
    (∀ k ∈ s.newKills e, k.srcHost ≠ none) ↔ s.NoHostNull e := by
  cases e with
  | advanceMigrations now =>
    constructor
    · intro h id m hm hsrc hoff
      by_contra hhost
      refine h ⟨id, m.srcHost, m.srcSessionId⟩ ?_ hsrc
      refine mem_filterMap.mpr ⟨id, OrdMap.mem_keys.mpr ⟨m, hm⟩, ?_⟩
      have hsome : (s.agents.get? (propertyKey m.srcHost)).isSome = true := by
        rw [hsrc]
        exact isSome_iff_ne_none.mpr hhost
      rw [killOf, hm, bind_some, if_pos ⟨hoff, hsome⟩]
    · intro h k hk hsrc
      obtain ⟨id, -, hkill⟩ := mem_filterMap.mp hk
      obtain ⟨m, hm, hc⟩ := bind_eq_some_iff.mp hkill
      split_ifs at hc with hoff
      cases hc
      have hnone := h id m hm hsrc hoff.1
      have hsome := hoff.2
      rw [show m.srcHost = none from hsrc] at hsome
      rw [propertyKey, getD_none, hnone] at hsome
      exact Bool.noConfusion hsome
  | _ => exact ⟨fun _ => trivial, fun _ k hk => nomatch hk⟩

theorem restores_step (s : Hub) (e : Event) :
    (s.step N e).Restores ↔ s.Restores ∧ s.NoHostNull e := by
  rw [← newKills_restores, Restores, (step_rest s e).1]
  exact forall_mem_append

theorem restores_run (es : List Event) :
    (run (Hub.step N) s es).Restores ↔ s.Restores ∧ Along (Hub.step N) NoHostNull s es := by
  induction es generalizing s with
  | nil => exact (and_iff_left trivial).symm
  | cons e es ih => rw [run_cons, ih, restores_step, Along, and_assoc]

/-- In every run the moves end as they should exactly where no restore is handed off while a host named
`null` is registered: `agents[m.srcHost]` of a restore is that host, and it is sent the kill. -/
theorem careful_iff (N : ℕ) (es : List Event) :
    Careful N (run (Hub.step N) {} es) ↔ Along (Hub.step N) NoHostNull {} es := by
  have h := inv_run N es
  have hrestores := restores_run (N := N) (s := {}) es
  rw [and_iff_right (show Restores {} from fun k hk => nomatch hk)] at hrestores
  rw [← hrestores]
  refine ⟨fun hc => hc.restores, fun hr => ⟨h.once, ?_, ?_, hr, ?_, h.size, ?_⟩⟩
  · exact fun e => ⟨_, (step_rest _ e).1, fun k hk => newKills_backed hk⟩
  · intro id m hm hfailed es'
    have hover := (h.over hm hfailed).run (N := N) es'
    exact ⟨hover.spared, hover.failed⟩
  · intro p hp
    obtain ⟨id, rfl, hw⟩ := h.spooled p hp
    refine ⟨id, rfl, hw.imp_right fun hw => hw.imp_right ?_⟩
    rintro ⟨m, hm, hblob⟩
    exact ⟨m, hm, (h.blob id m _ hm hblob).2⟩
  · intro e id m hm hnone
    rcases step_fate (N := N) (h.minted id m hm) e with hsame | ⟨m', hm', hgone | ⟨r, hr, -⟩⟩
    · exact nomatch hnone.symm.trans (hsame.trans hm)
    · obtain rfl := some.inj (hm.symm.trans hm')
      exact hgone.2
    · exact nomatch hnone.symm.trans hr

/-- A host has the name `null` while a restore onto another one comes up. -/
def restoreBesideNull : List Event :=
  let name := ofString
  let session : Session := ⟨name "s1", some (some (name "c1")), true, some (name "t1"), name "/w"⟩
  [.agent (name "null") (some ⟨[], 0⟩), .agent (name "laptop") (some ⟨[], 0⟩),
    .startArchiveRestore (name "m1") (name "t1") (name "laptop") 0,
    .packEnds (name "m1") (.packed 10 []) (name "t1.jsonl") (name "c1") 1,
    .agent (name "laptop") (some ⟨[session], 2⟩), .advanceMigrations 2]

theorem restore_kills_host_null : ¬ Careful 4 (run (Hub.step 4) {} restoreBesideNull) ∧
    (run (Hub.step 4) {} restoreBesideNull).kills = [⟨ofString "m1", none, none⟩] := by
  have hkills : (run (Hub.step 4) {} restoreBesideNull).kills =
      [⟨ofString "m1", none, none⟩] := by decide
  refine ⟨fun h => h.restores ⟨ofString "m1", none, none⟩ ?_ rfl, hkills⟩
  rw [hkills]
  exact mem_singleton_self _

end Hub

end Turma.Handoff
