import Turma.Heartbeat.Beat

/-! What a refused beat leaves behind. -/

namespace Turma.Heartbeat

open Turma.Lib Turma.Tenancy Turma.Registry Option OrdMap JsString

variable {β κ σ : Type}

/-- Nothing has changed but the refusal stamp of the beating host. -/
structure Untouched (s s' : State β κ σ) (b : Beat β σ) : Prop where
  others : ∀ k, k ≠ b.key → renamedFrom s b ≠ some k → s'.agents.get? k = s.agents.get? k
  own : ∀ k, k = b.key ∨ renamedFrom s b = some k →
    (s'.agents.get? k).map Record.unstamped = (s.agents.get? k).map Record.unstamped
  /-- No record comes up under a name that has none. -/
  absent : s.agents.get? b.key = none → s'.agents.get? b.key = none
  stores : s'.stores = s.stores

/-- A renamed host with a record under the new name as well. -/
def Doubled (s : State β κ σ) (b : Beat β σ) : Prop :=
  (renamedFrom s b).isSome = true ∧ (s.agents.get? b.key).isSome = true

/-- The beat gets as far as the coercion, which finds something to rewrite in the entries that the
new record shares with the host's old one. -/
def Rewrites (R : Rules β κ) (s : State β κ σ) (b : Beat β σ) : Prop :=
  R.size (next R s b) ≤ R.agentRecordMax ∧ R.normalizeSessions b.body ≠ none ∧
    ∃ r, prev s b = some r ∧ r.coerced ≠ r

variable {r : Record β κ} {old : JsString}

section

variable {R : Rules β κ} {s t : State β κ σ} {b : Beat β σ}

theorem renamedFrom_ne_key (h : renamedFrom s b = some old) : old ≠ b.key := by
  unfold renamedFrom at h
  split at h
  · split_ifs at h with hc
    cases h
    exact hc.1
  · exact nomatch h

theorem renamedFrom_present (h : renamedFrom s b = some old) :
    (s.agents.get? old).isSome = true := by
  unfold renamedFrom at h
  split at h
  · split_ifs at h with hc
    cases h
    cases hr : s.agents.get? _ with
    | none =>
      rw [hr] at hc
      exact absurd hc.2 (by simp)
    | some r => rfl
  · exact nomatch h

/-- The record of a host that beats under its own name is put back. -/
theorem restore_own (hfrom : renamedFrom s b = none)
    (hr : s.agents.get? b.key = some r) (coerced : Bool) (stamp : Option Reason) (forget : Bool)
    (k : JsString) : (restore R s b t coerced stamp forget).agents.get? k =
      if k = b.key then some (settle coerced stamp b.now r) else t.agents.get? k := by
  have hroll : rollback s b = some r := by
    rw [rollback, hfrom, if_neg (by simp), hr]
  rw [restore, hroll]
  exact get?_upsert _ _ _ _

/-- A newcomer has no record. -/
theorem restore_newcomer (hfrom : renamedFrom s b = none) (hr : s.agents.get? b.key = none)
    (coerced : Bool) (stamp : Option Reason) (forget : Bool) (k : JsString) :
    (restore R s b t coerced stamp forget).agents.get? k =
      if k = b.key then none else t.agents.get? k := by
  have hroll : rollback s b = none := by
    rw [rollback, hfrom, if_neg (by simp), hr]
  rw [restore, hroll, hfrom]
  exact get?_erase _ _ _

/-- A renamed host has its old record, and none under the new name. -/
theorem restore_renamed (hfrom : renamedFrom s b = some old) (coerced : Bool)
    (stamp : Option Reason) (forget : Bool) (k : JsString) :
    (restore R s b t coerced stamp forget).agents.get? k =
      if k = b.key then none
      else if k = old then (t.agents.get? k).map
        (settle (coerced && (s.agents.get? b.key).isNone) stamp b.now)
      else t.agents.get? k := by
  have hroll : rollback s b = none := by
    rw [rollback, hfrom, if_pos (by simp)]
  have hne := renamedFrom_ne_key hfrom
  rw [restore, hroll, hfrom]
  rw [get?_adjust, get?_erase]
  by_cases hk : k = b.key
  · rw [if_pos hk, if_pos hk, if_neg (fun h => hne (h.symm.trans hk))]
  · rw [if_neg hk, if_neg hk]

theorem restore_rest (R : Rules β κ) (s t : State β κ σ) (b : Beat β σ) (coerced : Bool)
    (stamp : Option Reason) (forget : Bool) : SameRest t (restore R s b t coerced stamp forget) := by
  unfold restore
  cases rollback s b with
  | some r => exact ⟨rfl, rfl, rfl, rfl⟩
  | none => cases renamedFrom s b <;> exact ⟨rfl, rfl, rfl, rfl⟩

theorem normalizeRecord_snd (r : Record β κ) :
    (normalizeRecord R r).2 = true ↔ R.normalizeSessions r.body ≠ none := by
  unfold normalizeRecord
  cases R.normalizeSessions r.body with
  | none => simp
  | some body =>
    cases hrest : R.normalizeRest body r.kept with
    | none => simp [hrest]
    | some p => simp [hrest]

theorem admission_get? (R : Rules β κ) (s : State β κ σ) (b : Beat β σ) (k : JsString) :
    (admission R s b).1.agents.get? k = s.agents.get? k ∨
      ((admission R s b).1.agents.get? k = none ∧
        ∃ r, s.agents.get? k = some r ∧ b.now - r.lastSeen > R.limits.agentEvictIdleMs) := by
  unfold admission
  split_ifs
  · exact .inl rfl
  · exact makeRegistryRoom_get? R s b.now 0 1 k

theorem admission_rest (R : Rules β κ) (s : State β κ σ) (b : Beat β σ) :
    SameRest s (admission R s b).1 := by
  unfold admission
  split_ifs
  · exact ⟨rfl, rfl, rfl, rfl⟩
  · exact makeRegistryRoom_rest R s b.now 0 1

/-- A beat that is refused is one for which there is no room, or it is rolled back, with the entries
rewritten exactly when the coercion got to them. -/
theorem heartbeat_refused (h : (heartbeat R s b).2 ≠ .accepted) :
    ((admission R s b).2 = false ∧ (heartbeat R s b).1 = (admission R s b).1) ∨
      ((admission R s b).2 = true ∧ ∃ t coerced stamp forget,
        (heartbeat R s b).1 = restore R s b t coerced stamp forget ∧
        (∀ k, k ≠ b.key → t.agents.get? k = (admission R s b).1.agents.get? k) ∧
        SameRest (admission R s b).1 t ∧
        (coerced = true ↔ R.size (next R s b) ≤ R.agentRecordMax ∧
          R.normalizeSessions b.body ≠ none)) := by
  have hupsert : ∀ (m : OrdMap JsString (Record β κ)) (r : Record β κ) k, k ≠ b.key →
      (m.upsert b.key fun _ => r).get? k = m.get? k := by
    intro m r k hk
    rw [get?_upsert, if_neg hk]
  unfold heartbeat at h ⊢
  by_cases hroomed : (admission R s b).2 = false
  · rw [if_pos hroomed]
    exact .inl ⟨hroomed, rfl⟩
  rw [if_neg hroomed] at h ⊢
  refine .inr ⟨by simpa using hroomed, ?_⟩
  by_cases hraw : R.agentRecordMax < R.size (next R s b)
  · rw [if_pos hraw]
    refine ⟨_, _, _, _, rfl, fun k hk => hupsert _ _ k hk, ⟨rfl, rfl, rfl, rfl⟩, ?_⟩
    simp [hraw]
  rw [if_neg hraw] at h ⊢
  have hle : R.size (next R s b) ≤ R.agentRecordMax := Nat.le_of_not_lt hraw
  have hcoerced : (normalizeRecord R (next R s b)).2 = true ↔
      R.size (next R s b) ≤ R.agentRecordMax ∧ R.normalizeSessions b.body ≠ none := by
    rw [normalizeRecord_snd, and_iff_right hle]
    rfl
  generalize hnorm : normalizeRecord R (next R s b) = norm at h hcoerced ⊢
  obtain ⟨record, coerced⟩ := norm
  cases record with
  | none =>
    exact ⟨_, _, _, _, rfl, fun k hk => hupsert _ _ k hk, ⟨rfl, rfl, rfl, rfl⟩, hcoerced⟩
  | some r =>
    dsimp only at h ⊢
    by_cases hsize : R.agentRecordMax < R.size r
    · rw [if_pos hsize]
      refine ⟨_, _, _, _, rfl, fun k hk => ?_, ⟨rfl, rfl, rfl, rfl⟩, hcoerced⟩
      exact (hupsert _ _ k hk).trans (hupsert _ _ k hk)
    rw [if_neg hsize] at h ⊢
    split_ifs at h ⊢ with hroom
    · -- No room was made, so that nothing was evicted.
      refine ⟨_, _, _, _, rfl, fun k hk => ?_,
        ⟨(makeRegistryRoom_rest R _ b.now 0 0).stores, (makeRegistryRoom_rest R _ b.now 0 0).handling,
          (makeRegistryRoom_rest R _ b.now 0 0).replies,
          (makeRegistryRoom_rest R _ b.now 0 0).nextRef⟩, hcoerced⟩
      rcases makeRegistryRoom_cases R _ b.now 0 0 with ⟨gone, rest, -, hmade, -⟩ | ⟨hmade, -⟩
      · rw [hmade] at hroom
        exact Bool.noConfusion hroom.1
      · rw [hmade]
        exact (hupsert _ _ k hk).trans (hupsert _ _ k hk)
    · exact absurd rfl h

theorem admission_known (hknown : known s b = true) : admission R s b = (s, true) := by
  rw [admission, if_pos hknown]

end

def tinyRules : Rules ℕ Unit where
  limits := { agentsMax := 1, agentsTotalMax := 1000, agentEvictIdleMs := 100 }
  agentRecordMax := 50
  commandQueueMax := 2
  agentsMax_pos := by decide
  commandQueueMax_pos := by decide
  idle_nonneg := by decide
  size := fun r => r.body
  normalizeSessions := some
  normalizeRest := fun body kept => some (body, kept)
  siteKeyOf := fun _ => []
  blank := ()
  forgetWait := fun kept _ => kept

def beatOf (key : JsString) (size : ℕ) (now : ℤ) : Beat ℕ Unit where
  key := key
  beatUid := none
  uidHome := none
  tokenBound := false
  body := size
  ackedCommands := []
  now := now
  ingest := id

def atticHost : JsString := ofString "attic"

def laptopHost : JsString := ofString "laptop"

def atticHub : State ℕ Unit Unit :=
  { (heartbeat tinyRules (.start ()) (beatOf atticHost 10 0)).1 with handling := none }

end Turma.Heartbeat
