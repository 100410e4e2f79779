import Mathlib.Logic.Function.Basic
import Turma.Lib.Run
import Turma.Leader.Elector

/-! The replicas, the one Lease and the requests between them. A scheduler picks the
events: each is the clock moving, one elector running from one `await` to the next, or the
API server taking one request. -/

namespace Turma.Leader

open Turma.Lib

/-- Where a call of an elector is. In `got` the API server has read the lease, `none`
being its 404, and the answer is on its way. -/
inductive Pc
  | getting
  | got (observed : Option Lease)
  | writing
  | done
deriving DecidableEq

/-- One `_tick` or `release()` and the write it has sent, which outlives the call: an
elector can give up on a write that the API server still applies. `issued` is the history
count of abstentions when its GET was sent. -/
structure Task (ι : Type*) where
  owner : ι
  call : Call
  pc : Pc
  request : Option Request
  issued : ℕ

structure World (ι : Type*) where
  clock : ℕ
  nextVersion : ℕ
  lease : Option Lease
  node : ι → Node
  tasks : List (Task ι)

/-- `serveGet` and `serveWrite` are the API server's; `getFailed` is a GET that throws,
`gotLease` and `answered` are responses arriving, with what `canLead()` answers then. -/
inductive Event (ι : Type*)
  | elapse (d : ℕ)
  | tick (i : ι)
  | release (i : ι)
  | serveGet (k : ℕ)
  | getFailed (k : ℕ)
  | gotLease (k : ℕ) (canLead : Bool)
  | serveWrite (k : ℕ)
  | answered (k : ℕ) (out : Outcome) (canLead : Bool)

def accepts (lease : Option Lease) (version : Option ℕ) : Bool :=
  match lease, version with
  | none, none => true
  | some l, some v => l.resourceVersion == v
  | _, _ => false

section

variable {ι : Type*} [DecidableEq ι]

def World.init (clock : ℕ) (lease : Option Lease) : World ι where
  clock := clock
  nextVersion := match lease with
    | none => 1
    | some l => l.resourceVersion + 1
  lease := lease
  node := fun _ => Node.init
  tasks := []

def World.start (w : World ι) (i : ι) (call : Call) : World ι :=
  { w with tasks := w.tasks ++ [⟨i, call, .getting, none, (w.node i).abstentions⟩] }

def World.stop (w : World ι) (i : ι) : World ι :=
  { w with node := Function.update w.node i { w.node i with closed := true } }

def World.ran (w : World ι) (k : ℕ) (t : Task ι) (n : Node) : World ι :=
  { w with node := Function.update w.node t.owner n, tasks := w.tasks.set k t }

/-- The elector comes to the `await` of the write it sends, or to the end of the call. -/
def World.await (w : World ι) (k : ℕ) (t : Task ι) (n : Node) : Option Request → World ι
  | some r => w.ran k { t with pc := .writing, request := some r } n
  | none => w.ran k { t with pc := .done } n

variable (c : Config ι)

def getFailed (w : World ι) (k : ℕ) (t : Task ι) : World ι :=
  w.ran k { t with pc := .done } (getThrew c t.owner t.call (w.node t.owner) w.clock)

def gotLease (w : World ι) (k : ℕ) (t : Task ι) (observed : Option Lease) (canLead : Bool) :
    World ι :=
  let p := match t.call with
    | .tick => tickObserved c t.owner (w.node t.owner) w.clock observed canLead
    | .release => releaseObserved c t.owner (w.node t.owner) w.clock observed
  w.await k t p.1 p.2

def World.applied (w : World ι) (k : ℕ) (t : Task ι) (r : Request) : World ι :=
  { w with
    lease := some ⟨w.nextVersion, r.spec⟩
    nextVersion := w.nextVersion + 1
    tasks := w.tasks.set k { t with request := some { r with status := .applied } } }

def serveWrite (w : World ι) (k : ℕ) (t : Task ι) (r : Request) : World ι :=
  if accepts w.lease r.version then w.applied k t r
  else { w with tasks := w.tasks.set k { t with request := some { r with status := .rejected } } }

def answered (w : World ι) (k : ℕ) (t : Task ι) (r : Request) (out : Outcome)
    (canLead : Bool) : World ι :=
  w.ran k { t with pc := .done }
    (writeAnswered c t.owner (w.node t.owner) w.clock r t.issued out canLead)

def step (w : World ι) : Event ι → World ι
  | .elapse d => { w with clock := w.clock + d }
  | .tick i => if (w.node i).closed then w else w.start i .tick
  | .release i => if (w.node i).leader then (w.stop i).start i .release else w.stop i
  | .serveGet k =>
    match w.tasks[k]? with
    | some t =>
      if t.pc = .getting then { w with tasks := w.tasks.set k { t with pc := .got w.lease } } else w
    | none => w
  | .getFailed k =>
    match w.tasks[k]? with
    | some t =>
      match t.pc with
      | .getting | .got _ => getFailed c w k t
      | _ => w
    | none => w
  | .gotLease k canLead =>
    match w.tasks[k]? with
    | some t =>
      match t.pc with
      | .got observed => gotLease c w k t observed canLead
      | _ => w
    | none => w
  | .serveWrite k =>
    match w.tasks[k]? with
    | some t =>
      match t.request with
      | some r => if r.status = .pending then serveWrite w k t r else w
      | none => w
    | none => w
  | .answered k out canLead =>
    match w.tasks[k]? with
    | some t =>
      match t.pc, t.request with
      -- only a write that was applied is answered 200
      | .writing, some r =>
        if out = .ok ∧ r.status ≠ .applied then w else answered c w k t r out canLead
      | _, _ => w
    | none => w

inductive Effect (w : World ι) : Event ι → World ι → Prop
  | idle (e : Event ι) : Effect w e w
  | elapse (d : ℕ) : Effect w (.elapse d) { w with clock := w.clock + d }
  | tick (i : ι) : Effect w (.tick i) (w.start i .tick)
  | stop (i : ι) : Effect w (.release i) (w.stop i)
  | release (i : ι) : Effect w (.release i) ((w.stop i).start i .release)
  | serveGet {k : ℕ} {t : Task ι} (hk : w.tasks[k]? = some t) :
      Effect w (.serveGet k) { w with tasks := w.tasks.set k { t with pc := .got w.lease } }
  | getFailed {k : ℕ} {t : Task ι} (hk : w.tasks[k]? = some t) :
      Effect w (.getFailed k) (getFailed c w k t)
  | gotLease {k : ℕ} {t : Task ι} {observed : Option Lease} (canLead : Bool)
      (hk : w.tasks[k]? = some t) (hpc : t.pc = .got observed) :
      Effect w (.gotLease k canLead) (gotLease c w k t observed canLead)
  | serveWrite {k : ℕ} {t : Task ι} {r : Request} (hk : w.tasks[k]? = some t)
      (hr : t.request = some r) (hp : r.status = .pending) :
      Effect w (.serveWrite k) (serveWrite w k t r)
  | answered {k : ℕ} {t : Task ι} {r : Request} {out : Outcome} (canLead : Bool)
      (hk : w.tasks[k]? = some t) (hpc : t.pc = .writing) (hr : t.request = some r)
      (hok : out = .ok → r.status = .applied) :
      Effect w (.answered k out canLead) (answered c w k t r out canLead)

theorem step_effect (w : World ι) (e : Event ι) : Effect c w e (step c w e) := by
  cases e with
  | elapse d => exact .elapse d
  | tick i =>
    simp only [step]
    split_ifs
    · exact .idle _
    · exact .tick i
  | release i =>
    simp only [step]
    split_ifs
    · exact .release i
    · exact .stop i
  | serveGet k =>
    simp only [step]
    split
    · next t hk =>
      split_ifs
      · exact .serveGet hk
      · exact .idle _
    · exact .idle _
  | getFailed k =>
    simp only [step]
    split
    · next t hk =>
      split
      · exact .getFailed hk
      · exact .getFailed hk
      · exact .idle _
    · exact .idle _
  | gotLease k canLead =>
    simp only [step]
    split
    · next t hk =>
      split
      · next hpc => exact .gotLease canLead hk hpc
      · exact .idle _
    · exact .idle _
  | serveWrite k =>
    simp only [step]
    split
    · next t hk =>
      split
      · next r hr =>
        split_ifs with hp
        · exact .serveWrite hk hr hp
        · exact .idle _
      · exact .idle _
    · exact .idle _
  | answered k out canLead =>
    simp only [step]
    split
    · next t hk =>
      split
      · next r hpc hr =>
        split_ifs with hno
        · exact .idle _
        · simp only [not_and, not_not] at hno
          exact .answered canLead hk hpc hr hno
      · exact .idle _
    · exact .idle _

def World.leads (w : World ι) (i : ι) : Bool := isLeader c i (w.node i) w.clock

end

end Turma.Leader

/-! The invariant that ties every elector's `_lastRenew` to the lease. A stamp on which
`isLeader()` may come to rest without another write being applied is either older than the
lease its elector advertises, or covered: the lease names the elector, with its duration
and a renewTime no older than the stamp. -/

namespace Turma.Leader

open Turma.Lib

variable {ι : Type*} (c : Config ι)

structure Awaited (t : Task ι) (r : Request) : Prop where
  pc : t.pc = .writing
  request : t.request = some r
  applied : r.status = .applied
  claims : r.purpose.claims = true

instance (t : Task ι) (r : Request) : Decidable (Awaited t r) :=
  decidable_of_iff (t.pc = .writing ∧ t.request = some r ∧ r.status = .applied ∧
      r.purpose.claims = true)
    ⟨fun ⟨h1, h2, h3, h4⟩ => ⟨h1, h2, h3, h4⟩, fun ⟨h1, h2, h3, h4⟩ => ⟨h1, h2, h3, h4⟩⟩

/-- Replica `i` has confirmed a write of a tick whose GET came after its `n`-th abstention. -/
def Reconfirmed (n : Node) (k : ℕ) : Prop := ∃ e ∈ n.confirmed, k ≤ e

instance (n : Node) (k : ℕ) : Decidable (Reconfirmed n k) :=
  inferInstanceAs (Decidable (∃ e ∈ n.confirmed, k ≤ e))

def Live (w : World ι) (i : ι) : Prop :=
  (w.node i).leader = true ∨ (w.node i).closed = false ∧
    (Reconfirmed (w.node i) (w.node i).abstentions ∨
      ∃ t ∈ w.tasks, ∃ r, t.owner = i ∧ Awaited t r ∧ t.issued = (w.node i).abstentions)

inductive Stamp (w : World ι) : ι → ℕ → Prop
  | latest {i : ι} (h : Live w i) : Stamp w i (w.node i).lastRenew
  | awaited {t : Task ι} {r : Request} (h : Live w t.owner)
      (ho : (w.node t.owner).closed = false) (ht : t ∈ w.tasks) (ha : Awaited t r) :
      Stamp w t.owner r.now

def Covers (w : World ι) (i : ι) (s : ℕ) : Prop :=
  lapsed c i w.clock s ∨ ∃ l, w.lease = some l ∧
    l.spec.holderIdentity = some (c.identity i) ∧
    l.spec.leaseDurationSeconds = some (leaseSeconds c i) ∧
    ∃ r, l.spec.renewTime = some r ∧ (s : ℤ) ≤ r

def Seen (w : World ι) (l : Lease) : Prop :=
  l.resourceVersion < w.nextVersion ∧
    ∀ m, w.lease = some m → m.resourceVersion = l.resourceVersion → m = l

/-- What applying a pending write of replica `i` relies on. Everything about stamps is
asked only while the write would still be accepted. -/
structure Sound (w : World ι) (i : ι) (r : Request) : Prop where
  body : r.purpose.claims = true → r.spec.holderIdentity = some (c.identity i) ∧
    r.spec.leaseDurationSeconds = some (leaseSeconds c i) ∧ r.spec.renewTime = some (r.now : ℤ)
  post : r.version = none → r.purpose.claims = true
  old : ∀ v, r.version = some v → v < w.nextVersion
  others : ∀ l, w.lease = some l → r.version = some l.resourceVersion →
    ∀ j s, Stamp w j s → j ≠ i ∨ r.purpose.claims = false → lapsed c j w.clock s
  own : ∀ l, w.lease = some l → r.version = some l.resourceVersion → r.purpose.claims = true →
    (w.node i).lastRenew ≤ r.now ∧
      ∀ t ∈ w.tasks, ∀ r', t.owner = i → Awaited t r' → r'.now ≤ r.now

structure Inv (w : World ι) : Prop where
  renewed : ∀ i, (w.node i).lastRenew ≤ w.clock
  version : ∀ l, w.lease = some l → l.resourceVersion < w.nextVersion
  fresh : w.lease = none → ∀ i, (w.node i).lastRenew = 0 ∧ ¬ Live w i ∧
    ∀ t ∈ w.tasks, ∀ r, ¬ Awaited t r
  covered : ∀ i s, Stamp w i s → Covers c w i s
  confirmed : ∀ i, ∀ e ∈ (w.node i).confirmed, e ≤ (w.node i).abstentions
  issued : ∀ t ∈ w.tasks, t.issued ≤ (w.node t.owner).abstentions
  closing : ∀ t ∈ w.tasks, t.call = .release → (w.node t.owner).closed = true
  seen : ∀ t ∈ w.tasks, ∀ l, t.pc = .got (some l) → Seen w l
  stamped : ∀ t ∈ w.tasks, ∀ r, t.request = some r → r.now ≤ w.clock
  sent : ∀ t ∈ w.tasks, ∀ r, t.request = some r → r.sent ≤ (w.node t.owner).abstentions
  sound : ∀ t ∈ w.tasks, ∀ r, t.request = some r → r.status = .pending →
    Sound c w t.owner r

variable {i : ι} {s : ℕ}

variable {c} in
theorem Inv.no_stamp {w : World ι} (h : Inv c w) (hn : w.lease = none) :
    ¬ Stamp w i s := by
  intro hs
  cases hs with
  | latest hl => exact (h.fresh hn _).2.1 hl
  | awaited hl => exact (h.fresh hn _).2.1 hl

theorem lapsed_mono {a b s : ℕ} (hab : a ≤ b) (h : lapsed c i a s) : lapsed c i b s := by
  unfold lapsed at *
  omega

variable {c}

theorem Inv.stamp_le {w : World ι} (h : Inv c w) (hs : Stamp w i s) :
    s ≤ w.clock := by
  cases hs with
  | latest _ => exact h.renewed _
  | awaited _ _ ht ha => exact h.stamped _ ht _ ha.request

/-- The point of the invariant: at one clock reading, two replicas that both report
leadership are both named by the one lease. -/
theorem Inv.exclusive {w : World ι} (h : Inv c w) {i j : ι} (hi : w.leads c i = true)
    (hj : w.leads c j = true) : i = j := by
  have named : ∀ k, w.leads c k = true →
      ∃ l, w.lease = some l ∧ l.spec.holderIdentity = some (c.identity k) := by
    intro k hk
    simp only [World.leads, isLeader, Bool.and_eq_true, Bool.not_eq_true', decide_eq_false_iff_not]
      at hk
    rcases h.covered k _ (.latest (Or.inl hk.1)) with hl | ⟨l, hl, hn, _⟩
    · exact absurd hl hk.2
    · exact ⟨l, hl, hn⟩
  obtain ⟨l, hl, hli⟩ := named i hi
  obtain ⟨m, hm, hmj⟩ := named j hj
  rw [hl, Option.some.injEq] at hm
  subst m
  rw [hli, Option.some.injEq] at hmj
  exact c.identity_injective hmj

/-! A step that applies no write: the lease stays, time passes, and no elector gains a
stamp. -/

structure Settled (w : World ι) (i : ι) (n : Node) : Prop where
  live : n.leader = true ∨ n.closed = false ∧ Reconfirmed n n.abstentions → Live w i
  renew : n.lastRenew = (w.node i).lastRenew ∨ Stamp w i n.lastRenew
  closed : (w.node i).closed = true → n.closed = true
  abstentions : (w.node i).abstentions ≤ n.abstentions
  confirmed : ∀ e ∈ n.confirmed, e ≤ n.abstentions

theorem Inv.settled {w : World ι} (h : Inv c w) {n : Node} (hq : Quiet (w.node i) n) :
    Settled w i n where
  live := by
    rintro (hl | ⟨hc, e, he, hle⟩)
    · exact Or.inl (hq.leader hl)
    · refine Or.inr ⟨?_, Or.inl ⟨e, hq.confirmed ▸ he, hq.abstentions.trans hle⟩⟩
      by_contra hopen
      have := hq.closed (Bool.eq_true_of_not_eq_false hopen)
      exact Bool.false_ne_true (hc.symm.trans this)
  renew := Or.inl hq.lastRenew
  closed := hq.closed
  abstentions := hq.abstentions
  confirmed e he := (h.confirmed i e (hq.confirmed ▸ he)).trans hq.abstentions

structure Calm (w w' : World ι) : Prop where
  lease : w'.lease = w.lease
  next : w'.nextVersion = w.nextVersion
  clock : w.clock ≤ w'.clock
  node : ∀ i, Settled w i (w'.node i)
  tasks : ∀ t ∈ w'.tasks, t ∈ w.tasks ∨ ∀ r, ¬ Awaited t r

variable {w w' : World ι}

theorem Calm.opened (hw : Calm w w')
    (h : (w'.node i).closed = false) : (w.node i).closed = false := by
  by_contra hc
  exact Bool.false_ne_true (h.symm.trans ((hw.node i).closed (Bool.eq_true_of_not_eq_false hc)))

theorem Calm.awaited (hw : Calm w w') {t : Task ι} {r : Request}
    (ht : t ∈ w'.tasks) (ha : Awaited t r) : t ∈ w.tasks :=
  (hw.tasks t ht).resolve_right fun hn => hn r ha

theorem Inv.live (h : Inv c w) (hw : Calm w w') (hl : Live w' i) :
    Live w i := by
  rcases hl with hl | ⟨hc, hr | ⟨t, ht, r, rfl, ha, hi⟩⟩
  · exact (hw.node i).live (Or.inl hl)
  · exact (hw.node i).live (Or.inr ⟨hc, hr⟩)
  · have htw := hw.awaited ht ha
    have hle := h.issued t htw
    have hab := (hw.node t.owner).abstentions
    exact Or.inr ⟨hw.opened hc, Or.inr ⟨t, htw, r, rfl, ha, by omega⟩⟩

theorem Inv.stamps (h : Inv c w) (hw : Calm w w')
    (hs : Stamp w' i s) : Stamp w i s := by
  cases hs with
  | latest hl =>
    rcases (hw.node i).renew with hr | hr
    · rw [hr]; exact .latest (h.live hw hl)
    · exact hr
  | awaited hl ho ht ha => exact .awaited (h.live hw hl) (hw.opened ho) (hw.awaited ht ha) ha

theorem Calm.covers (h : Calm w w') (hc : Covers c w i s) :
    Covers c w' i s := by
  rcases hc with hl | hl
  · exact Or.inl (lapsed_mono c h.clock hl)
  · exact Or.inr (by rwa [h.lease])

theorem Calm.seen (h : Calm w w') {l : Lease} (hs : Seen w l) : Seen w' l := by
  unfold Seen
  rwa [h.lease, h.next]

theorem Inv.sound_calm (h : Inv c w) (hw : Calm w w') {r : Request}
    (hs : Sound c w i r) : Sound c w' i r where
  body := hs.body
  post := hs.post
  old := by rw [hw.next]; exact hs.old
  others := by
    intro l hl hv j s hst hj
    exact lapsed_mono c hw.clock (hs.others l (hw.lease ▸ hl) hv j s (h.stamps hw hst) hj)
  own := by
    intro l hl hv hp
    obtain ⟨hlast, hown⟩ := hs.own l (hw.lease ▸ hl) hv hp
    refine ⟨?_, fun t ht r' ho ha => hown t (hw.awaited ht ha) r' ho ha⟩
    rcases (hw.node i).renew with hr | hr
    · rw [hr]; exact hlast
    · generalize (w'.node i).lastRenew = s at hr
      cases hr with
      | latest _ => exact hlast
      | awaited _ _ ht ha => exact hown _ ht _ rfl ha

/-- What a task of the next state owes: its write is an old one or a sound one. -/
structure Carried (c : Config ι) (w w' : World ι) (t : Task ι) : Prop where
  issued : t.issued ≤ (w'.node t.owner).abstentions
  closing : t.call = .release → (w'.node t.owner).closed = true
  seen : ∀ l, t.pc = .got (some l) → Seen w l
  request : ∀ r, t.request = some r →
    (∃ t₀ ∈ w.tasks, t₀.owner = t.owner ∧ t₀.request = some r) ∨
      r.now ≤ w.clock ∧ r.sent ≤ (w'.node t.owner).abstentions ∧
        (r.status = .pending → Sound c w' t.owner r)

theorem Inv.carried (h : Inv c w) (hw : Calm w w') {t : Task ι}
    (ht : t ∈ w.tasks) : Carried c w w' t where
  issued := (h.issued t ht).trans (hw.node _).abstentions
  closing hc := (hw.node _).closed (h.closing t ht hc)
  seen := h.seen t ht
  request _ hr := Or.inl ⟨t, ht, rfl, hr⟩

theorem Inv.calm (h : Inv c w) (hw : Calm w w')
    (ht : ∀ t ∈ w'.tasks, Carried c w w' t) : Inv c w' where
  renewed i := by
    have hcl := hw.clock
    rcases (hw.node i).renew with hr | hr
    · rw [hr]; exact (h.renewed i).trans hcl
    · exact (h.stamp_le hr).trans hcl
  version := by rw [hw.lease, hw.next]; exact h.version
  fresh hn i := by
    rw [hw.lease] at hn
    obtain ⟨h0, hl, ha⟩ := h.fresh hn i
    refine ⟨?_, fun hl' => hl (h.live hw hl'), fun t ht r har => ha t (hw.awaited ht har) r har⟩
    rcases (hw.node i).renew with hr | hr
    · rw [hr, h0]
    · generalize (w'.node i).lastRenew = s at hr
      cases hr with
      | latest hl' => exact absurd hl' hl
      | awaited hl' => exact absurd hl' hl
  covered i s hs := hw.covers (h.covered i s (h.stamps hw hs))
  confirmed i := (hw.node i).confirmed
  issued t htm := (ht t htm).issued
  closing t htm := (ht t htm).closing
  seen t htm l hl := hw.seen ((ht t htm).seen l hl)
  stamped t htm r hr := by
    rcases (ht t htm).request r hr with ⟨t₀, ht₀, -, hr₀⟩ | ⟨hle, -⟩
    · exact (h.stamped t₀ ht₀ r hr₀).trans hw.clock
    · exact hle.trans hw.clock
  sent t htm r hr := by
    rcases (ht t htm).request r hr with ⟨t₀, ht₀, ho, hr₀⟩ | ⟨-, hle, -⟩
    · rw [← ho]
      exact (h.sent t₀ ht₀ r hr₀).trans (hw.node t₀.owner).abstentions
    · exact hle
  sound t htm r hr hp := by
    rcases (ht t htm).request r hr with ⟨t₀, ht₀, ho, hr₀⟩ | ⟨-, -, hs⟩
    · rw [← ho]
      exact h.sound_calm hw (h.sound t₀ ht₀ r hr₀ hp)
    · exact hs hp

end Turma.Leader
