import Turma.Registry.Identities
import Turma.Lib.Run

/-! `tenant-migration.js`: the marker. What `coerceMarker` returns is a marker whose lists and
records are in their whitelisted form, and it is a fixed point on those. -/

namespace Turma.TenantMigration

open Turma.Lib Turma.Tenancy Turma.Registry List Option OrdMap

def maxSafe : ℕ := 2 ^ 53 - 1

def keysMax : ℕ := 4096

def keyMax : ℕ := 300

abbrev TenantId := {t : JsString // isTenantId t = true}

abbrev SafeNat := {n : ℕ // n ≤ maxSafe}

/-- `ms(n)`, and what is kept of `moved`: a safe integer that is not negative, else 0. -/
def ms (n : ℤ) : SafeNat := if h : n.toNat ≤ maxSafe then ⟨n.toNat, h⟩ else ⟨0, Nat.zero_le _⟩

theorem ms_coe (n : SafeNat) : ms (n.1 : ℤ) = n := by
  have h : (n.1 : ℤ).toNat ≤ maxSafe := by
    rw [Int.toNat_natCast]
    exact n.2
  rw [ms, dif_pos h]
  exact Subtype.ext (Int.toNat_natCast _)

def keyUsable (k : JsString) : Bool := k ≠ [] && k.length16 ≤ keyMax

structure KeyList where
  keys : List JsString
  nodup : keys.Nodup
  usable : ∀ k ∈ keys, keyUsable k = true
  bounded : keys.length ≤ keysMax
deriving DecidableEq

/-- The loop of `keyList` from what it has pushed so far. -/
def keysFrom (out : List JsString) : List JsString → List JsString
  | [] => out
  | k :: ks =>
    let out := if keyUsable k ∧ k ∉ out then out ++ [k] else out
    if keysMax ≤ out.length then out else keysFrom out ks

theorem keysFrom_ok {out : List JsString} (ks : List JsString) (hnodup : out.Nodup)
    (husable : ∀ k ∈ out, keyUsable k = true) (hlen : out.length < keysMax) :
    (keysFrom out ks).Nodup ∧ (∀ k ∈ keysFrom out ks, keyUsable k = true) ∧
      (keysFrom out ks).length ≤ keysMax := by
  induction ks generalizing out with
  | nil => exact ⟨hnodup, husable, hlen.le⟩
  | cons k ks ih =>
    rw [keysFrom]
    by_cases hk : keyUsable k = true ∧ k ∉ out
    · rw [if_pos hk]
      have hnodup' : (out ++ [k]).Nodup := nodup_append_comm.mp (by
        rw [singleton_append, nodup_cons]
        exact ⟨hk.2, hnodup⟩)
      have husable' : ∀ k' ∈ out ++ [k], keyUsable k' = true := by
        intro k' hk'
        rcases mem_append.mp hk' with h | h
        · exact husable k' h
        · rw [mem_singleton.mp h]
          exact hk.1
      split_ifs with hfull
      · refine ⟨hnodup', husable', ?_⟩
        rw [length_append, length_singleton]
        exact hlen
      · exact ih hnodup' husable' (by omega)
    · rw [if_neg hk, if_neg (by omega)]
      exact ih hnodup husable hlen

/-- A list that is in order already is taken whole. -/
theorem keysFrom_eq {out ks : List JsString} (hnodup : (out ++ ks).Nodup)
    (husable : ∀ k ∈ ks, keyUsable k = true) (hlen : (out ++ ks).length ≤ keysMax) :
    keysFrom out ks = out ++ ks := by
  induction ks generalizing out with
  | nil => rw [keysFrom, append_nil]
  | cons k ks ih =>
    have hk : k ∉ out := fun h => by
      rw [nodup_append] at hnodup
      exact hnodup.2.2 k h k mem_cons_self rfl
    have happend : out ++ k :: ks = (out ++ [k]) ++ ks := by
      rw [append_assoc, singleton_append]
    have hpush : (if keyUsable k = true ∧ k ∉ out then out ++ [k] else out) = out ++ [k] :=
      if_pos ⟨husable k mem_cons_self, hk⟩
    rw [keysFrom, hpush]
    rw [happend] at hnodup hlen ⊢
    split_ifs with hfull
    · -- The list is full, so that nothing follows.
      rw [length_append] at hlen
      have hks : ks = [] := length_eq_zero_iff.mp (by omega)
      rw [hks, append_nil]
    · exact ih hnodup (fun k' hk' => husable k' (.tail _ hk')) hlen

def keyList (ks : List JsString) : KeyList where
  keys := keysFrom [] ks
  nodup := (keysFrom_ok ks nodup_nil (by simp) (by decide)).1
  usable := (keysFrom_ok ks nodup_nil (by simp) (by decide)).2.1
  bounded := (keysFrom_ok ks nodup_nil (by simp) (by decide)).2.2

theorem keyList_eq {ks : List JsString} (hnodup : ks.Nodup)
    (husable : ∀ k ∈ ks, keyUsable k = true) (hlen : ks.length ≤ keysMax) :
    (keyList ks).keys = ks :=
  @keysFrom_eq [] ks hnodup husable hlen

theorem keyList_keys (l : KeyList) : keyList l.keys = l := by
  have h := keyList_eq l.nodup l.usable l.bounded
  cases l
  rw [KeyList.mk.injEq]
  exact h

def stepChar : CodePoint → Bool
  | .scalar c => ('A' ≤ c && c ≤ 'Z') || ('a' ≤ c && c ≤ 'z') || ('0' ≤ c && c ≤ '9') ||
      c == '_' || c == '.' || c == '-'
  | .lone _ => false

/-- `/^[A-Za-z0-9_.-]{1,64}$/`. -/
def stepName (n : JsString) : Bool := 1 ≤ n.length && n.length ≤ 64 && n.all stepChar

structure StepRecord where
  moved : SafeNat
  landed : SafeNat
deriving DecidableEq

/-- A marker that names a tenant. Where it does not, `coerceMarker` answers `{}`. -/
structure Marker where
  tenantId : TenantId
  owner : Option TenantId
  startedAt : SafeNat
  steps : OrdMap JsString StepRecord
  names : ∀ n ∈ steps.keys, stepName n = true
  hosts : KeyList
  sites : KeyList
  /-- Zero where it is not set. -/
  completedAt : SafeNat
  arrived : KeyList

/-- The fields that `coerceMarker` reads, besides the tenant. -/
structure Raw where
  owner : Option JsString
  startedAt : ℤ
  steps : OrdMap JsString (ℤ × ℤ)
  hosts : List JsString
  sites : List JsString
  completedAt : ℤ
  arrived : List JsString

def Marker.spread (m : Marker) : Raw where
  owner := m.owner.map Subtype.val
  startedAt := m.startedAt.1
  steps := m.steps.mapValues fun r => (r.moved.1, r.landed.1)
  hosts := m.hosts.keys
  sites := m.sites.keys
  completedAt := m.completedAt.1
  arrived := m.arrived.keys

def coerceOwner (owner : Option JsString) : Option TenantId :=
  match owner with
  | some t => if h : isTenantId t = true then some ⟨t, h⟩ else none
  | none => none

def coerceStep (name : JsString) (r : ℤ × ℤ) : Option StepRecord :=
  if stepName name then some ⟨ms r.1, ms r.2⟩ else none

/-- `coerceMarker` of a raw marker that names a tenant. -/
def coerceFields (t : TenantId) (raw : Raw) : Marker where
  tenantId := t
  owner := coerceOwner raw.owner
  startedAt := ms raw.startedAt
  steps := raw.steps.sift coerceStep
  names := by
    intro n hn
    obtain ⟨r, hr⟩ := OrdMap.mem_keys.mp hn
    rw [get?_sift] at hr
    obtain ⟨v, -, hv⟩ := bind_eq_some_iff.mp hr
    by_contra hname
    rw [coerceStep, if_neg hname] at hv
    exact some_ne_none r hv.symm
  hosts := keyList raw.hosts
  sites := keyList raw.sites
  completedAt := ms raw.completedAt
  arrived := keyList raw.arrived

def coerceMarker (tenantId : JsString) (raw : Raw) : Option Marker :=
  if h : isTenantId tenantId = true then some (coerceFields ⟨tenantId, h⟩ raw) else none

/-- `coerceMarker` changes nothing of a marker, so that what is loaded is what was saved. -/
theorem coerceMarker_spread (m : Marker) : coerceMarker m.tenantId.1 m.spread = some m := by
  have howner : coerceOwner m.spread.owner = m.owner := by
    cases ho : m.owner with
    | none => simp [Marker.spread, ho, coerceOwner]
    | some t => simp [Marker.spread, ho, coerceOwner, t.2]
  have hsteps : m.spread.steps.sift coerceStep = m.steps := by
    apply eq_of_entries
    simp only [Marker.spread, OrdMap.sift, OrdMap.mapValues, filterMap_map]
    conv_rhs => rw [← filterMap_some (l := m.steps.entries)]
    apply filterMap_congr
    intro e he
    have hname : stepName e.1 = true := m.names e.1 (List.mem_map_of_mem he)
    simp only [Function.comp_apply, coerceStep, if_pos hname, ms_coe]
    rfl
  rw [coerceMarker, dif_pos m.tenantId.2, some.injEq]
  cases m
  rw [Marker.mk.injEq]
  exact ⟨rfl, howner, ms_coe _, hsteps, keyList_keys _, keyList_keys _, ms_coe _, keyList_keys _⟩

/-! `tenant-migration.js` and its callers in `server.js`: the run, the late steps and the bind beats
over one marker, with the process killed at any await. The hub keeps its stores in files: a marker
that is set is on disk later, the newest of those set so far. -/

structure Step where
  name : JsString
  /-- Whether the step has a `late` function. -/
  late : Bool
deriving DecidableEq

namespace Marker

def fresh (t : TenantId) (owner : JsString) (now : ℤ) (hosts sites : List JsString) : Marker :=
  coerceFields t ⟨some owner, now, .empty, hosts, sites, 0, []⟩

/-- `{...m, steps: {...m.steps, [name]: {moved, at}}}`. -/
def withStep (m : Marker) (name : JsString) (moved now : ℤ) : Marker :=
  coerceFields m.tenantId
    { m.spread with steps := m.spread.steps.upsert name fun _ => (moved, now) }

def complete (m : Marker) (now : ℤ) : Marker :=
  coerceFields m.tenantId { m.spread with completedAt := now }

def withArrived (m : Marker) (host : JsString) : Marker :=
  coerceFields m.tenantId { m.spread with arrived := m.spread.arrived ++ [host] }

def Completed (m : Marker) : Prop := m.completedAt.1 ≠ 0

instance (m : Marker) : Decidable m.Completed := inferInstanceAs (Decidable (_ ≠ _))

end Marker

/-- What a run awaits: the stores' flush and then the marker's write inside `save`, or a step's
function. `todo` is what the loop does after the save. -/
inductive Phase (τ : Type)
  | flushing (todo : τ)
  | persisting (todo : τ)
  | applying (st : Step) (rest : List Step)

structure Run (τ : Type) where
  tenantId : TenantId
  marker : Marker
  phase : Phase τ

structure State where
  steps : List Step
  /-- `tenantMigrationMarker`. -/
  cur : Option Marker
  /-- The markers set and not on disk yet, oldest first. -/
  stored : List Marker
  /-- The marker on disk. -/
  saved : Option Marker
  /-- `tenantMigrationRunning`: nothing is left to do after the save that completes the marker. -/
  main : Option (Run (Option (List Step)))
  /-- `tenantLateStepsRunning`. -/
  late : Option (Run (List Step))
  /-- The steps whose function returned while a marker was on disk, over all processes. -/
  applied : List JsString

def boot (steps : List Step) : State := ⟨steps, none, [], none, none, none, []⟩

inductive Event
  /-- The leader's tick, for the owner's tenant; the two lists are the snapshot. -/
  | tick (tenantId owner : JsString) (dryRun : Bool) (now : ℤ) (hosts sites : List JsString)
  | flushed
  | persisted (now : ℤ)
  | applied (moved now : ℤ)
  | failed
  | lateTick
  | lateFlushed
  | latePersisted
  | lateApplied (moved now : ℤ)
  | lateFailed
  /-- A bind beat. -/
  | bind (fromKey toKey : JsString)
  /-- A write of the marker's file, of the `n`-th of the markers that wait. -/
  | land (n : ℕ)
  /-- The process is killed, and the next one registers `steps`. -/
  | crash (steps : List Step)

/-- `tenantMigrationMarker.completedAt`. -/
def State.Migrated (s : State) : Prop := ∃ m, s.cur = some m ∧ m.Completed

instance (s : State) : Decidable s.Migrated :=
  match h : s.cur with
  | none => isFalse fun ⟨_, hm, _⟩ => by simp [h] at hm
  | some m => decidable_of_iff m.Completed (by simp [State.Migrated, h])

/-- `tenantMigrationMarker = m; persistTenantMigration()`. -/
def State.install (s : State) (m : Marker) : State :=
  { s with cur := some m, stored := s.stored ++ [m] }

/-- The loop of `runMigration` at its head. -/
def migrateNext (t : TenantId) (m : Marker) (now : ℤ) : List Step → Run (Option (List Step))
  | [] => ⟨t, m.complete now, .flushing none⟩
  | st :: rest =>
    if st.name ∈ m.steps.keys then migrateNext t m now rest else ⟨t, m, .applying st rest⟩

/-- The loop of `runLateSteps` at its head. -/
def lateNext (m : Marker) : List Step → Option (Run (List Step))
  | [] => none
  | st :: rest =>
    if st.name ∈ m.steps.keys ∨ st.late = false then lateNext m rest
    else some ⟨m.tenantId, m, .applying st rest⟩

def State.noteApplied (s : State) (st : Step) : List JsString :=
  if s.saved.isSome then st.name :: s.applied else s.applied

/-- `runTenantMigration`, from its owner to the first await of `runMigration`. -/
def runMigration (s : State) (tenantId owner : JsString) (dryRun : Bool) (now : ℤ)
    (hosts sites : List JsString) : State :=
  if s.Migrated ∨ s.main.isSome then s
  else if h : isTenantId tenantId = true then
    match s.cur with
    | some m =>
      if m.tenantId.1 ≠ tenantId then s
      else if dryRun then s
      else { s with main := some ⟨⟨tenantId, h⟩, m, .flushing (some s.steps)⟩ }
    | none =>
      if dryRun then s
      else { s with main := some ⟨⟨tenantId, h⟩, .fresh ⟨tenantId, h⟩ owner now hosts sites,
        .flushing (some s.steps)⟩ }
  else s

/-- `runTenantLateSteps`. -/
def runLateSteps (s : State) : State :=
  match s.cur with
  | some m => if m.Completed ∧ s.late.isNone then { s with late := lateNext m s.steps } else s
  | none => s

def tenantMigrationOnBind (s : State) (fromKey toKey : JsString) : State :=
  match s.cur with
  | some m =>
    if m.Completed ∧ tenantOfHostKey toKey = m.tenantId.1 ∧ fromKey ∈ m.hosts.keys ∧
        fromKey ∉ m.arrived.keys then
      s.install (m.withArrived fromKey)
    else s
  | none => s

def step (s : State) : Event → State
  | .tick tenantId owner dryRun now hosts sites =>
    runMigration s tenantId owner dryRun now hosts sites
  | .flushed => match s.main with
    | some ⟨t, m, .flushing todo⟩ => { s.install m with main := some ⟨t, m, .persisting todo⟩ }
    | _ => s
  | .persisted now => match s.main with
    -- `save` ends with the store's flush, so the marker of the moment is on disk.
    | some ⟨t, m, .persisting (some todo)⟩ =>
      { s with saved := s.cur, stored := [], main := some (migrateNext t m now todo) }
    | some ⟨_, _, .persisting none⟩ => { s with saved := s.cur, stored := [], main := none }
    | _ => s
  | .applied moved now => match s.main with
    | some ⟨t, m, .applying st rest⟩ =>
      { s with
        applied := s.noteApplied st
        main := some ⟨t, m.withStep st.name moved now, .flushing (some rest)⟩ }
    | _ => s
  | .failed => match s.main with
    | some ⟨_, _, .applying _ _⟩ => { s with main := none }
    | _ => s
  | .lateTick => runLateSteps s
  | .lateFlushed => match s.late with
    | some ⟨t, m, .flushing todo⟩ => { s.install m with late := some ⟨t, m, .persisting todo⟩ }
    | _ => s
  | .latePersisted => match s.late with
    | some ⟨_, m, .persisting todo⟩ => { s with late := lateNext m todo }
    | _ => s
  | .lateApplied moved now => match s.late with
    | some ⟨t, m, .applying st rest⟩ =>
      { s with
        applied := s.noteApplied st
        late := some ⟨t, m.withStep st.name moved now, .flushing rest⟩ }
    | _ => s
  | .lateFailed => match s.late with
    | some ⟨_, m, .applying _ rest⟩ => { s with late := lateNext m rest }
    | _ => s
  | .bind fromKey toKey => tenantMigrationOnBind s fromKey toKey
  | .land n => match s.stored[n]? with
    | some m => { s with saved := some m, stored := s.stored.drop (n + 1) }
    | none => s
  | .crash steps =>
    { s with
      steps := steps
      cur := s.saved.bind fun m => coerceMarker m.tenantId.1 m.spread
      stored := []
      main := none
      late := none }

namespace Marker

theorem coerceFields_spread (m : Marker) : coerceFields m.tenantId m.spread = m := by
  have h := coerceMarker_spread m
  rw [coerceMarker, dif_pos m.tenantId.2] at h
  exact some.inj h

theorem get?_spread (m : Marker) (n : JsString) :
    (m.spread.steps.get? n).bind (coerceStep n) = m.steps.get? n := by
  rw [← get?_sift]
  exact congrArg (fun m : Marker => m.steps.get? n) (coerceFields_spread m)

theorem mem_withStep {m : Marker} {name n : JsString} {moved now : ℤ} :
    n ∈ (m.withStep name moved now).steps.keys ↔
      n ∈ m.steps.keys ∨ n = name ∧ stepName name = true := by
  rw [OrdMap.mem_keys, OrdMap.mem_keys]
  simp only [withStep, coerceFields, get?_sift, get?_upsert, ← get?_spread m n]
  by_cases hn : n = name
  · subst hn
    rw [if_pos rfl, bind_some, coerceStep]
    split_ifs with hname
    · simp [hname]
    · -- A name that is not kept cannot have been kept before.
      simp only [reduceCtorEq, exists_false, hname, and_false, or_false, false_iff, not_exists]
      intro r hr
      obtain ⟨v, -, hv⟩ := bind_eq_some_iff.mp hr
      rw [coerceStep, if_neg hname] at hv
      exact some_ne_none r hv.symm
  · rw [if_neg hn]
    simp [hn]

theorem mem_withStep_of_mem {m : Marker} {name n : JsString} {moved now : ℤ}
    (h : n ∈ m.steps.keys) : n ∈ (m.withStep name moved now).steps.keys :=
  mem_withStep.mpr (.inl h)

theorem sift_spread (m : Marker) : m.spread.steps.sift coerceStep = m.steps :=
  congrArg Marker.steps (coerceFields_spread m)

section

variable (m : Marker) (name host : JsString) (moved now : ℤ)

@[simp] theorem withStep_tenantId : (m.withStep name moved now).tenantId = m.tenantId := rfl

@[simp] theorem withStep_hosts : (m.withStep name moved now).hosts = m.hosts := keyList_keys _

@[simp] theorem withStep_sites : (m.withStep name moved now).sites = m.sites := keyList_keys _

@[simp] theorem withStep_completedAt : (m.withStep name moved now).completedAt = m.completedAt :=
  ms_coe _

@[simp] theorem withStep_arrived : (m.withStep name moved now).arrived = m.arrived :=
  keyList_keys _

@[simp] theorem complete_tenantId : (m.complete now).tenantId = m.tenantId := rfl

@[simp] theorem complete_steps : (m.complete now).steps = m.steps := sift_spread m

@[simp] theorem complete_hosts : (m.complete now).hosts = m.hosts := keyList_keys _

@[simp] theorem complete_sites : (m.complete now).sites = m.sites := keyList_keys _

@[simp] theorem complete_arrived : (m.complete now).arrived = m.arrived := keyList_keys _

@[simp] theorem withArrived_tenantId : (m.withArrived host).tenantId = m.tenantId := rfl

@[simp] theorem withArrived_steps : (m.withArrived host).steps = m.steps := sift_spread m

@[simp] theorem withArrived_hosts : (m.withArrived host).hosts = m.hosts := keyList_keys _

@[simp] theorem withArrived_sites : (m.withArrived host).sites = m.sites := keyList_keys _

@[simp] theorem withArrived_completedAt : (m.withArrived host).completedAt = m.completedAt :=
  ms_coe _

end

/-- The arrivals are hosts of the marker, each once, so that there is room for one more. -/
theorem withArrived_arrived {m : Marker} {host : JsString} (hsub : m.arrived.keys ⊆ m.hosts.keys)
    (hhost : host ∈ m.hosts.keys) (hnew : host ∉ m.arrived.keys) :
    (m.withArrived host).arrived.keys = m.arrived.keys ++ [host] := by
  have hnodup : (m.arrived.keys ++ [host]).Nodup := by
    rw [nodup_append_comm, singleton_append, nodup_cons]
    exact ⟨hnew, m.arrived.nodup⟩
  have hall : m.arrived.keys ++ [host] ⊆ m.hosts.keys :=
    append_subset.mpr ⟨hsub, cons_subset.mpr ⟨hhost, nil_subset _⟩⟩
  exact keyList_eq hnodup (fun k hk => m.hosts.usable k (hall hk))
    ((hnodup.subperm hall).length_le.trans m.hosts.bounded)

end Marker

end Turma.TenantMigration
