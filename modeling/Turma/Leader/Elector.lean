import Mathlib.Data.Rat.Floor
import Mathlib.Tactic.Basic

/-! One elector of `leader.js`: its fields, the synchronous functions that read and write
them, and the bodies its requests carry. A function that calls `Date.now()` takes the
clock it reads as an argument. -/

namespace Turma.Leader

/-- `spec` of a Lease. A time is the millisecond `Date.parse` reads off it, `none` a field
that is missing or does not parse. -/
structure LeaseSpec where
  holderIdentity : Option String
  leaseDurationSeconds : Option ℤ
  acquireTime : Option ℤ
  renewTime : Option ℤ
  leaseTransitions : Option ℤ
deriving DecidableEq

structure Lease where
  resourceVersion : ℕ
  spec : LeaseSpec
deriving DecidableEq

structure Config (ι : Type*) where
  identity : ι → String
  identity_injective : Function.Injective identity
  leaseDurationMs : ι → ℚ
  renewDeadlineMs : ι → ℚ
  canLead : ι → Bool

/-- `edges` lists what `_emit` was called with. `abstentions` counts the times the elector
stepped down because `canLead()` was false and backdated its lease, and `confirmed` keeps, for each lease write it
saw answered 200, how many of those came before that tick's GET: they are history, no
branch reads them. -/
structure Node where
  leader : Bool
  lastRenew : ℕ
  closed : Bool
  edges : List Bool
  abstentions : ℕ
  confirmed : List ℕ

def Node.init : Node := ⟨false, 0, false, [], 0, []⟩

inductive Call
  | tick | release
deriving DecidableEq

inductive Purpose
  | create | renew | acquire | abstain | release
deriving DecidableEq

/-- The writes whose 200 reaches `_setLeader`. -/
def Purpose.claims : Purpose → Bool
  | .create | .renew | .acquire => true
  | .abstain | .release => false

inductive Status
  | pending | applied | rejected
deriving DecidableEq

/-- A POST (`version = none`) or a PUT of the lease. `now` is the tick's own stamp and
`sent` the history count of abstentions at that moment. -/
structure Request where
  purpose : Purpose
  version : Option ℕ
  spec : LeaseSpec
  now : ℕ
  sent : ℕ
  status : Status
deriving DecidableEq

section

variable {ι : Type*} (c : Config ι) (i : ι)

def leaseSeconds : ℤ := max 1 ⌈c.leaseDurationMs i / 1000⌉

def leaseMs : ℤ := leaseSeconds c i * 1000

/-- `new Date(ms)` drops the fraction of a millisecond. -/
def timeClip (ms : ℚ) : ℤ := if 0 ≤ ms then ⌊ms⌋ else ⌈ms⌉

/-- `microTime(t - leaseDurationMs - 1000)`, the renewTime of a backdating write. -/
def past (now : ℕ) : ℤ := timeClip (now - c.leaseDurationMs i - 1000)

def lapsed (clock stamp : ℕ) : Prop := leaseMs c i < (clock : ℤ) - stamp

instance (clock stamp : ℕ) : Decidable (lapsed c i clock stamp) :=
  inferInstanceAs (Decidable (_ < _))

def isLeader (n : Node) (clock : ℕ) : Bool := n.leader && !decide (lapsed c i clock n.lastRenew)

def cannotLead (canLead : Bool) : Bool := c.canLead i && !canLead

/-- The end of `_setLeader`: a real edge is recorded and emitted. -/
def setTo (n : Node) (next : Bool) : Node :=
  if next = n.leader then n else { n with leader := next, edges := n.edges ++ [next] }

def refuses (n : Node) (clock : ℕ) (canLead : Bool) (renewedAt : ℕ) : Prop :=
  lapsed c i clock (max n.lastRenew renewedAt) ∨ n.closed = true ∨ cannotLead c i canLead = true

instance (n : Node) (clock : ℕ) (canLead : Bool) (renewedAt : ℕ) :
    Decidable (refuses c i n clock canLead renewedAt) :=
  inferInstanceAs (Decidable (_ ∨ _ ∨ _))

def setLeader (n : Node) (clock : ℕ) (canLead next : Bool) (renewedAt : ℕ) : Node :=
  if next then
    if refuses c i n clock canLead renewedAt then setTo n false
    else
      let m := { n with lastRenew := max n.lastRenew renewedAt }
      -- our own leadership had lapsed with `_leader` still set: a demote/promote pair
      if n.leader ∧ lapsed c i clock n.lastRenew then { m with edges := n.edges ++ [false, true] }
      else setTo m true
  else setTo n false

def maybeExpire (n : Node) (clock : ℕ) : Node :=
  if n.leader ∧ c.renewDeadlineMs i < (clock : ℚ) - n.lastRenew then setTo n false else n

/-- `_spec`; `prev = none` is the `null` that `_create` passes. -/
def spec (now : ℕ) (prev : Option LeaseSpec) : LeaseSpec where
  holderIdentity := some (c.identity i)
  leaseDurationSeconds := some (leaseSeconds c i)
  acquireTime :=
    match prev with
    | none => some now
    | some p =>
      if p.acquireTime.isSome ∧ p.holderIdentity = some (c.identity i) then p.acquireTime
      else some now
  renewTime := some now
  leaseTransitions :=
    match prev with
    | none => some 0
    | some p =>
      match p.leaseTransitions with
      | none => some 1
      | some k => some (k + if p.holderIdentity = some (c.identity i) then 0 else 1)

def create (n : Node) (now : ℕ) : Request :=
  ⟨.create, none, spec c i now none, now, n.abstentions, .pending⟩

def put (n : Node) (purpose : Purpose) (observed : Lease) (now : ℕ) : Request :=
  ⟨purpose, some observed.resourceVersion, spec c i now (some observed.spec), now,
    n.abstentions, .pending⟩

/-- The PUT of `_abstain` and of `release()`, sent only over a lease we still hold. -/
def backdate (n : Node) (purpose : Purpose) (observed : Option Lease) (now : ℕ) :
    Option Request :=
  match observed with
  | none => none
  | some l =>
    if l.spec.holderIdentity = some (c.identity i) then
      some ⟨purpose, some l.resourceVersion, { l.spec with renewTime := some (past c i now) },
        now, n.abstentions, .pending⟩
    else none

/-- `(Number(spec.leaseDurationSeconds) || this.leaseSeconds) * 1000`. -/
def durMs (s : LeaseSpec) : ℤ :=
  (match s.leaseDurationSeconds with
    | some d => if d = 0 then leaseSeconds c i else d
    | none => leaseSeconds c i) * 1000

def expired (s : LeaseSpec) (now : ℕ) : Bool :=
  match s.renewTime with
  | none => true
  | some r => decide (durMs c i s < (now : ℤ) - r)

def stepDown (n : Node) : Node := { setTo n false with abstentions := n.abstentions + 1 }

/-- `_tick` from its `const now = Date.now()` to its next `await`: the elector it leaves
and the write it sends, `none` where the tick is over. -/
def tickObserved (n : Node) (now : ℕ) (observed : Option Lease) (canLead : Bool) :
    Node × Option Request :=
  if cannotLead c i canLead then
    if n.leader then
      match backdate c i (stepDown n) .abstain observed now with
      | some r => (stepDown n, some r)
      | none => (setTo n false, none)
    else (n, none)
  else match observed with
    | none => (n, some (create c i n now))
    | some l =>
      if l.spec.holderIdentity = some (c.identity i) then (n, some (put c i n .renew l now))
      else if expired c i l.spec now then (n, some (put c i n .acquire l now))
      else (setTo n false, none)

def releaseObserved (n : Node) (now : ℕ) (observed : Option Lease) : Node × Option Request :=
  match backdate c i n .release observed now with
  | some r => (n, some r)
  | none => ({ n with leader := false }, none)

def getThrew (call : Call) (n : Node) (clock : ℕ) : Node :=
  match call with
  | .tick => maybeExpire c i n clock
  | .release => { n with leader := false }

/-- How the `await` of a write ends: status 200/201, another status, or a throw. -/
inductive Outcome
  | ok | refused | threw
deriving DecidableEq

/-- The end of a tick whose `_create` or `_put` is answered. A throw leaves `_tick` at the
`await`; a failed renew keeps leadership within the renew deadline. -/
def claimAnswered (n : Node) (clock : ℕ) (r : Request) (issued : ℕ) (out : Outcome)
    (canLead : Bool) : Node :=
  match out with
  | .threw => n
  | .refused => if r.purpose = .renew then maybeExpire c i n clock else setTo n false
  | .ok => { setLeader c i n clock canLead true r.now with confirmed := issued :: n.confirmed }

/-- The end of a tick or of `release()`, once its write is answered. -/
def writeAnswered (n : Node) (clock : ℕ) (r : Request) (issued : ℕ) (out : Outcome)
    (canLead : Bool) : Node :=
  match r.purpose with
  | .create | .renew | .acquire => claimAnswered c i n clock r issued out canLead
  | .abstain => n
  | .release => { n with leader := false }

structure Quiet (n n' : Node) : Prop where
  leader : n'.leader = true → n.leader = true
  lastRenew : n'.lastRenew = n.lastRenew
  closed : n.closed = true → n'.closed = true
  abstentions : n.abstentions ≤ n'.abstentions
  confirmed : n'.confirmed = n.confirmed

theorem Quiet.refl (n : Node) : Quiet n n := ⟨id, rfl, id, le_rfl, rfl⟩

theorem setTo_leader (n : Node) (b : Bool) : (setTo n b).leader = b := by
  unfold setTo
  split_ifs with h
  · exact h.symm
  · rfl

theorem setTo_kept (n : Node) (b : Bool) : (setTo n b).lastRenew = n.lastRenew ∧
    (setTo n b).closed = n.closed ∧ (setTo n b).abstentions = n.abstentions ∧
    (setTo n b).confirmed = n.confirmed := by
  unfold setTo
  split_ifs <;> exact ⟨rfl, rfl, rfl, rfl⟩

theorem setTo_false_quiet (n : Node) : Quiet n (setTo n false) := by
  obtain ⟨hl, hc, ha, hcf⟩ := setTo_kept n false
  exact ⟨fun h => by rw [setTo_leader] at h; exact absurd h (by decide), hl,
    fun h => hc.trans h, ha.ge, hcf⟩

theorem stepDown_quiet (n : Node) : Quiet n (stepDown n) := by
  have h := setTo_false_quiet n
  obtain ⟨-, -, ha, -⟩ := setTo_kept n false
  exact ⟨h.leader, h.lastRenew, h.closed, Nat.le_succ _, h.confirmed⟩

/-- The `finally` of `release()`. -/
theorem finally_quiet (n : Node) : Quiet n { n with leader := false } :=
  ⟨fun h => absurd h Bool.false_ne_true, rfl, id, le_rfl, rfl⟩

theorem maybeExpire_quiet (n : Node) (clock : ℕ) : Quiet n (maybeExpire c i n clock) := by
  unfold maybeExpire
  split_ifs
  · exact setTo_false_quiet n
  · exact Quiet.refl n

theorem maybeExpire_abstentions (n : Node) (clock : ℕ) :
    (maybeExpire c i n clock).abstentions = n.abstentions := by
  unfold maybeExpire
  split_ifs
  · exact (setTo_kept n false).2.2.1
  · rfl

theorem getThrew_quiet (call : Call) (n : Node) (clock : ℕ) :
    Quiet n (getThrew c i call n clock) := by
  cases call with
  | tick => exact maybeExpire_quiet c i n clock
  | release => exact finally_quiet n

theorem setLeader_refused {n : Node} {clock renewedAt : ℕ} {canLead : Bool}
    (h : refuses c i n clock canLead renewedAt) :
    setLeader c i n clock canLead true renewedAt = setTo n false := by
  rw [setLeader, if_pos rfl, if_pos h]

theorem setLeader_held {n : Node} {clock renewedAt : ℕ} {canLead : Bool}
    (h : ¬ refuses c i n clock canLead renewedAt) :
    let m := setLeader c i n clock canLead true renewedAt
    m.leader = true ∧ m.lastRenew = max n.lastRenew renewedAt ∧ m.closed = n.closed ∧
      m.abstentions = n.abstentions ∧ m.confirmed = n.confirmed := by
  simp only [setLeader, if_true, if_neg h]
  split_ifs with hl
  · exact ⟨hl.1, rfl, rfl, rfl, rfl⟩
  · obtain ⟨h1, h2, h3, h4⟩ := setTo_kept { n with lastRenew := max n.lastRenew renewedAt } true
    exact ⟨setTo_leader _ _, h1, h2, h3, h4⟩

theorem setLeader_abstentions (n : Node) (clock renewedAt : ℕ) (canLead : Bool) :
    (setLeader c i n clock canLead true renewedAt).abstentions = n.abstentions := by
  by_cases h : refuses c i n clock canLead renewedAt
  · rw [setLeader_refused c i h]
    exact (setTo_kept n false).2.2.1
  · exact (setLeader_held c i h).2.2.2.1

/-- The ways a tick goes on after its GET: it abstains over a lease of its own, it sends a
lease write, or it is over. -/
theorem tickObserved_cases (n : Node) (now : ℕ) (observed : Option Lease)
    (canLead : Bool) :
    (∃ r, cannotLead c i canLead = true ∧
      backdate c i (stepDown n) .abstain observed now = some r ∧
      tickObserved c i n now observed canLead = (stepDown n, some r)) ∨
    (observed = none ∧ tickObserved c i n now observed canLead = (n, some (create c i n now))) ∨
    (∃ l purpose, observed = some l ∧ (purpose = .renew ∨ purpose = .acquire) ∧
      (l.spec.holderIdentity = some (c.identity i) ∨ expired c i l.spec now = true) ∧
      tickObserved c i n now observed canLead = (n, some (put c i n purpose l now))) ∨
    ∃ m, Quiet n m ∧ m.abstentions = n.abstentions ∧
      tickObserved c i n now observed canLead = (m, none) := by
  unfold tickObserved
  split_ifs with hc hl
  · cases hb : backdate c i (stepDown n) .abstain observed now with
    | some r => exact Or.inl ⟨r, hc, rfl, rfl⟩
    | none => exact Or.inr (Or.inr (Or.inr ⟨_, setTo_false_quiet n, (setTo_kept n false).2.2.1, rfl⟩))
  · exact Or.inr (Or.inr (Or.inr ⟨n, Quiet.refl n, rfl, rfl⟩))
  · right
    cases observed with
    | none => exact Or.inl ⟨rfl, rfl⟩
    | some l =>
      right
      dsimp only
      split_ifs with hh he
      · exact Or.inl ⟨l, .renew, rfl, Or.inl rfl, Or.inl hh, rfl⟩
      · exact Or.inl ⟨l, .acquire, rfl, Or.inr rfl, Or.inr he, rfl⟩
      · exact Or.inr ⟨_, setTo_false_quiet n, (setTo_kept n false).2.2.1, rfl⟩

theorem backdate_eq_some {n : Node} {purpose : Purpose} {observed : Option Lease}
    {now : ℕ} {r : Request} (h : backdate c i n purpose observed now = some r) :
    ∃ l, observed = some l ∧ l.spec.holderIdentity = some (c.identity i) ∧
      r = ⟨purpose, some l.resourceVersion, { l.spec with renewTime := some (past c i now) },
        now, n.abstentions, .pending⟩ := by
  cases observed with
  | none => simp [backdate] at h
  | some l =>
    simp only [backdate, Option.ite_none_right_eq_some, Option.some.injEq] at h
    exact ⟨l, rfl, h.1, h.2.symm⟩

/-- The ways a write's answer leaves the elector: quiet, or a 200 to a lease write that
`_setLeader` refuses or holds. -/
theorem writeAnswered_cases (n : Node) (clock issued : ℕ) (r : Request) (out : Outcome)
    (canLead : Bool) :
    let m := writeAnswered c i n clock r issued out canLead
    (Quiet n m ∧ m.abstentions = n.abstentions) ∨
    (out = .ok ∧ r.purpose.claims = true ∧
      m = { setLeader c i n clock canLead true r.now with confirmed := issued :: n.confirmed }) := by
  have claim : Quiet n (claimAnswered c i n clock r issued out canLead) ∧
      (claimAnswered c i n clock r issued out canLead).abstentions = n.abstentions ∨
      (out = .ok ∧ claimAnswered c i n clock r issued out canLead =
        { setLeader c i n clock canLead true r.now with confirmed := issued :: n.confirmed }) := by
    unfold claimAnswered
    cases out with
    | threw => exact Or.inl ⟨Quiet.refl n, rfl⟩
    | refused =>
      split_ifs
      · exact Or.inl ⟨maybeExpire_quiet c i n clock, maybeExpire_abstentions c i n clock⟩
      · exact Or.inl ⟨setTo_false_quiet n, (setTo_kept n false).2.2.1⟩
    | ok => exact Or.inr ⟨rfl, rfl⟩
  unfold writeAnswered
  cases hp : r.purpose with
  | abstain => exact Or.inl ⟨Quiet.refl n, rfl⟩
  | release => exact Or.inl ⟨finally_quiet n, rfl⟩
  | create | renew | acquire =>
    rcases claim with hq | ⟨ho, he⟩
    · exact Or.inl hq
    · exact Or.inr ⟨ho, rfl, he⟩

theorem writeAnswered_ok {n : Node} {clock issued : ℕ} {r : Request} {canLead : Bool}
    (hp : r.purpose.claims = true) :
    writeAnswered c i n clock r issued .ok canLead =
      { setLeader c i n clock canLead true r.now with confirmed := issued :: n.confirmed } := by
  unfold writeAnswered
  cases h : r.purpose with
  | create | renew | acquire => rfl
  | abstain | release => rw [h] at hp; exact absurd hp Bool.false_ne_true

end

end Turma.Leader
