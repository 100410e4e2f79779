import Turma.LedgerStore.Forget
import Turma.LedgerStore.Scan
import Turma.Tenancy.HostKey

/-! `rekeyHost` over the Postgres backend. The flush that `rekeyHost` asks for calls back when
its writes have settled, and a write that fails settles like one that lands: the callback has
the rows of the old key deleted without a word on the rows of the new one. -/

namespace Turma.LedgerStore

open Turma.Lib Turma.Ledger Turma.Tenancy List OrdMap JsString

/-- How far a promise of `_serialize` has come. -/
inductive Work
  | persist
  | writing (e : Entry) (sent : ℕ)
  | forget
  | deleting (sent : ℕ)

/-- Who asked for it: the flush of the re-key, the callback of that flush, or anyone else. -/
inductive Caller
  | rekey
  | callback
  | other
deriving DecidableEq

structure Job where
  work : Work
  caller : Caller

/-- The queries of a job that have no answer yet. The first one is on the way. -/
def Work.queries (key : JsString) : Work → List Query
  | .persist => []
  | .writing e sent => (writeQueries key e).drop sent
  | .forget => []
  | .deleting sent => (deleteQueries key).drop sent

def Work.next : Work → Work
  | .persist => .persist
  | .writing e sent => .writing e (sent + 1)
  | .forget => .forget
  | .deleting sent => .deleting (sent + 1)

/-- The live hosts, `_dirty`, `_writing`, the keys whose writes the flush of the re-key waits
for, `_closed`, and the tables. -/
structure Backend where
  hosts : Hosts
  dirty : Finset JsString
  writing : JsString → List Job
  awaited : Option (Finset JsString)
  closed : Bool
  tables : Tables

def Backend.chain (b : Backend) (key : JsString) (jobs : List Job) : Backend :=
  { b with writing := fun k => if k = key then jobs else b.writing k }

def serialize (b : Backend) (key : JsString) (job : Job) : Backend :=
  b.chain key (b.writing key ++ [job])

theorem serialize_writing (b : Backend) (key : JsString) (job : Job) (k : JsString) :
    (serialize b key job).writing k =
      if k = key then b.writing key ++ [job] else b.writing k := rfl

def onChange (b : Backend) (key : JsString) : Backend :=
  if b.closed = true then b else { b with dirty := insert key b.dirty }

def onForget (b : Backend) (key : JsString) (caller : Caller) : Backend :=
  if b.closed = true then b
  else serialize { b with dirty := b.dirty.erase key } key ⟨.forget, caller⟩

/-- `_flushDirty`: every marked key has a write chained. -/
def flushDirty (b : Backend) (caller : Caller) : Backend :=
  { b with
    dirty := ∅
    writing := fun key =>
      if key ∈ b.dirty then b.writing key ++ [⟨.persist, caller⟩] else b.writing key }

/-- `opts.siteKey`, as a function of the current label. -/
def relabel (site : JsString → Option JsString) (e : Entry) : Entry :=
  match site e.siteKey with
  | none => e
  | some label => if label = [] then e else { e with siteKey := label }

def rekeyHost (L : Limits) (site : JsString → Option JsString) (b : Backend)
    (fromKey toKey : JsString) : Backend :=
  match b.hosts.get? fromKey with
  | none => b
  | some src =>
    if isTenantKeyOf fromKey toKey = true then
      let entry := match b.hosts.get? toKey with
        | none => relabel site src
        | some dst => enforceHostShare L (relabel site (mergeTwoEntries L dst src))
      let b := { b with hosts := (b.hosts.upsert toKey fun _ => entry).erase fromKey }
      let b := onChange b toKey
      { flushDirty b .rekey with awaited := some b.dirty }
    else b

/-- The answer to a query: it landed, it failed and did nothing, or it did its work and its
answer was lost. -/
inductive Outcome
  | landed
  | refused
  | lost
deriving DecidableEq

inductive Event
  | beat (key : JsString) (e : Entry)
  | scanned (key : JsString) (e : Entry)
  | timer
  | start (key : JsString)
  | answer (key : JsString) (o : Outcome)
  | settled
  | close

/-- The first promise of a chain starts. A host that is gone has nothing to write. -/
def start (L : Limits) (b : Backend) (key : JsString) : Backend :=
  match b.writing key with
  | ⟨.persist, caller⟩ :: rest =>
    match b.hosts.get? key with
    | none => b.chain key rest
    | some e =>
      let e := enforceHostShare L e
      { b.chain key (⟨.writing e 0, caller⟩ :: rest) with hosts := b.hosts.upsert key fun _ => e }
  | ⟨.forget, caller⟩ :: rest => b.chain key (⟨.deleting 0, caller⟩ :: rest)
  | _ => b

/-- The query that is on the way is answered. A failure ends the job, and says so to nobody. -/
def answer (b : Backend) (key : JsString) (o : Outcome) : Backend :=
  match b.writing key with
  | [] => b
  | job :: rest =>
    match job.work.queries key with
    | [] => b
    | q :: more =>
      let jobs :=
        if o = .landed ∧ more.isEmpty = false then ⟨job.work.next, job.caller⟩ :: rest else rest
      { b.chain key jobs with tables := if o = .refused then b.tables else q.apply b.tables }

/-- The callback of `rekeyHost`, once every write of its flush has settled. -/
def settled (b : Backend) (fromKey : JsString) : Backend :=
  match b.awaited with
  | none => b
  | some ks =>
    if ∃ key ∈ ks, ∃ job ∈ b.writing key, job.caller = .rekey then b
    else if (b.hosts.get? fromKey).isSome = true then { b with awaited := none }
    else onForget { b with awaited := none } fromKey .callback

def step (L : Limits) (fromKey : JsString) (b : Backend) : Event → Backend
  | .beat key e => onChange { b with hosts := b.hosts.upsert key fun _ => e } key
  | .scanned key e => { b with hosts := b.hosts.upsert key fun _ => e }
  | .timer => if b.closed = true then b else flushDirty b .other
  | .start key => start L b key
  | .answer key o => answer b key o
  | .settled => settled b fromKey
  | .close => { b with closed := true }

def Backend.durable (b : Backend) (key sid : JsString) (k : TokenKey) : ℕ :=
  b.tables.total key sid k

/-- The totals `D` are durable under the old key or under the new one. -/
def Held (D : JsString → TokenKey → ℕ) (fromKey toKey : JsString) (b : Backend) : Prop :=
  (∀ sid k, D sid k ≤ b.durable fromKey sid k) ∨ ∀ sid k, D sid k ≤ b.durable toKey sid k

/-- The entry and the rows that are there come to no less than `D` under `key`. -/
def Covers (D : JsString → TokenKey → ℕ) (T : Tables) (key : JsString) (e : Entry) : Prop :=
  ∀ sid k, D sid k ≤ max (T.stored key sid .pre k) (writes key e key sid .pre k) +
    sumOn (fun d => !inPre (T.cutoff key sid) d && !inPre (writesCutoff key e key sid) d)
      fun d => max (T.stored key sid (.date d) k) (writes key e key sid (.date d) k)

def pending (toKey : JsString) (b : Backend) : Bool :=
  (b.writing toKey).any fun job => job.caller = .rekey

def moves (b : Backend) (fromKey : JsString) : Bool :=
  !b.closed && (b.hosts.get? fromKey).isSome

def holder (moved : Bool) (fromKey toKey : JsString) (b : Backend) : JsString :=
  if (moved && !pending toKey b) = true then toKey else fromKey

/-- The write of the re-key starts from an entry that covers `D`, and each of its statements
lands. Any other write takes nothing out of the totals of the key that holds the history. -/
def Meets (L : Limits) (D : JsString → TokenKey → ℕ) (moved : Bool) (fromKey toKey : JsString)
    (b : Backend) : Event → Prop
  | .start key => moved = true → key = toKey →
      ∀ rest, b.writing key = ⟨.persist, .rekey⟩ :: rest →
        ∃ e, b.hosts.get? key = some e ∧ Covers D b.tables key (enforceHostShare L e)
  | .answer key o => ∀ job rest q more,
      b.writing key = job :: rest → job.work.queries key = q :: more →
        if job.caller = .rekey ∧ key = toKey then moved = true → o = .landed
        else job.caller ≠ .callback → o ≠ .refused →
          Spares b.tables q (holder moved fromKey toKey b)
  | _ => True

def Named (hosts : Hosts) : Prop := ∀ key e, hosts.get? key = some e → [] ∉ e.repos.keys

def Event.Named : Event → Prop
  | .beat _ e => [] ∉ e.repos.keys
  | .scanned _ e => [] ∉ e.repos.keys
  | _ => True

structure Untouched (b : Backend) : Prop where
  unawaited : b.awaited = none
  others : ∀ key, ∀ job ∈ b.writing key, job.caller = .other
  named : LedgerStore.Named b.hosts

structure Advanced (b b' : Backend) (key : JsString) (job : Job) (rest : List Job)
    (next : Option Job) : Prop where
  was : b.writing key = job :: rest
  writing : ∀ k, b'.writing k = if k = key then next.toList ++ rest else b.writing k
  awaited : b'.awaited = b.awaited
  closed : b'.closed = b.closed
  caller : ∀ j ∈ next, j.caller = job.caller

variable {key : JsString}

theorem Advanced.mem {b b' : Backend} {job : Job} {rest : List Job}
    {next : Option Job} (h : Advanced b b' key job rest next) {k : JsString} {j : Job}
    (hj : j ∈ b'.writing k) : ∃ j' ∈ b.writing k, j.caller = j'.caller := by
  rw [h.writing] at hj
  split_ifs at hj with hk
  · subst hk
    rw [h.was]
    rcases mem_append.mp hj with hj | hj
    · exact ⟨job, mem_cons_self, h.caller j (Option.mem_toList.mp hj)⟩
    · exact ⟨j, mem_cons_of_mem job hj, rfl⟩
  · exact ⟨j, hj, rfl⟩

theorem start_cases (L : Limits) (b : Backend) (key : JsString) :
    start L b key = b ∨ ∃ job rest next,
      Advanced b (start L b key) key job rest next ∧ (start L b key).tables = b.tables ∧
        (∀ e sent, job.work ≠ .writing e sent) ∧
        (job.work = .persist → ∀ e, b.hosts.get? key = some e →
          next = some ⟨.writing (enforceHostShare L e) 0, job.caller⟩) := by
  unfold start
  rcases hchain : b.writing key with _ | ⟨⟨w, caller⟩, rest⟩
  · exact Or.inl rfl
  · cases w with
    | persist =>
      right
      cases hhost : b.hosts.get? key with
      | none =>
        exact ⟨⟨.persist, caller⟩, rest, none, ⟨hchain, fun _ => rfl, rfl, rfl, by simp⟩, rfl,
          by simp, by simp⟩
      | some e =>
        refine ⟨⟨.persist, caller⟩, rest, some ⟨.writing (enforceHostShare L e) 0, caller⟩,
          ⟨hchain, fun _ => rfl, rfl, rfl, by simp⟩, rfl, by simp, ?_⟩
        rintro - e' he'
        rw [Option.some.inj he']
    | writing e sent => exact Or.inl rfl
    | forget =>
      exact Or.inr ⟨⟨.forget, caller⟩, rest, some ⟨.deleting 0, caller⟩,
        ⟨hchain, fun _ => rfl, rfl, rfl, by simp⟩, rfl, by simp, by simp⟩
    | deleting sent => exact Or.inl rfl

theorem answer_cases (b : Backend) (key : JsString) (o : Outcome) :
    answer b key o = b ∨ ∃ job rest next q more,
      Advanced b (answer b key o) key job rest next ∧ job.work.queries key = q :: more ∧
        (answer b key o).tables = (if o = .refused then b.tables else q.apply b.tables) ∧
        (o = .landed → next = if more = [] then none else some ⟨job.work.next, job.caller⟩) := by
  unfold answer
  rcases hchain : b.writing key with _ | ⟨job, rest⟩
  · exact Or.inl rfl
  · dsimp only
    cases hqueries : job.work.queries key with
    | nil => exact Or.inl rfl
    | cons q more =>
      right
      dsimp only
      by_cases hon : o = .landed ∧ more.isEmpty = false
      · refine ⟨job, rest, some ⟨job.work.next, job.caller⟩, q, more,
          ⟨hchain, fun k => ?_, rfl, rfl, by simp⟩, hqueries, rfl, fun _ => ?_⟩
        · rw [if_pos hon]
          rfl
        · rw [if_neg fun hnil => by simp [hnil] at hon]
      · refine ⟨job, rest, none, q, more, ⟨hchain, fun k => ?_, rfl, rfl, by simp⟩, hqueries, rfl,
          fun ho => ?_⟩
        · rw [if_neg hon]
          rfl
        · cases more with
          | nil => rfl
          | cons q' more => exact absurd ⟨ho, rfl⟩ hon

variable {w : Work}

theorem Work.queries_of {q : Query} (hq : q ∈ w.queries key) :
    q.Of key := by
  cases w with
  | persist => exact absurd hq not_mem_nil
  | writing e sent => exact writeQueries_of (mem_of_mem_drop hq)
  | forget => exact absurd hq not_mem_nil
  | deleting sent => exact deleteQueries_of (mem_of_mem_drop hq)

theorem Work.queries_next {q : Query} {more : List Query}
    (hq : w.queries key = q :: more) : w.next.queries key = more := by
  cases w with
  | persist => exact absurd hq (cons_ne_nil q more).symm
  | writing e sent => exact tail_drop.symm.trans (congrArg List.tail hq)
  | forget => exact absurd hq (cons_ne_nil q more).symm
  | deleting sent => exact tail_drop.symm.trans (congrArg List.tail hq)

theorem named_upsert {hosts : Hosts} (h : Named hosts) (key : JsString) {e : Entry}
    (he : [] ∉ e.repos.keys) : Named (hosts.upsert key fun _ => e) := by
  intro key' e' he'
  rw [get?_upsert] at he'
  split_ifs at he'
  · rwa [← Option.some.inj he']
  · exact h key' e' he'

variable {ev : Event}

theorem named_step {L : Limits} {fromKey : JsString} {b : Backend}
    (h : Named b.hosts) (hev : ev.Named) : Named (step L fromKey b ev).hosts := by
  cases ev with
  | beat key e =>
    simp only [step, onChange]
    split_ifs <;> exact named_upsert h key hev
  | scanned key e => exact named_upsert h key hev
  | timer =>
    simp only [step]
    split_ifs <;> exact h
  | start key =>
    simp only [step, start]
    split
    · split
      · exact h
      · rename_i e he
        exact named_upsert h key fun hk => h key e he (keys_enforceHostShare hk)
    · exact h
    · exact h
  | answer key o =>
    simp only [step, answer]
    split
    · exact h
    · split <;> exact h
  | settled =>
    simp only [step, settled]
    split
    · exact h
    · split_ifs
      · exact h
      · exact h
      · unfold onForget
        split_ifs <;> exact h
  | close => exact h

theorem named_mergeTwoEntries {L : Limits} {dst src : Entry} (hdst : [] ∉ dst.repos.keys)
    (hsrc : [] ∉ src.repos.keys) : [] ∉ (mergeTwoEntries L dst src).repos.keys := by
  have hrepos : (mergeTwoEntries L dst src).repos = OrdMap.mergeWith (mergeTwoSlots L) dst.repos
      (src.repos.filterKeys fun rk => rk ≠ ofString "__proto__") := by
    unfold mergeTwoEntries
    dsimp only
    split_ifs <;> rfl
  rw [hrepos, mem_keys_mergeWith, mem_keys_filterKeys]
  rintro (hk | ⟨-, hk⟩)
  · exact hdst hk
  · exact hsrc hk

section

variable {L : Limits} {D : JsString → TokenKey → ℕ} {moved : Bool} {fromKey toKey : JsString}
  {b b' : Backend}

/-- The write of the re-key has not settled: it has not started, or what is left of it brings the
rows of the new key to `D`. -/
structure Waiting (D : JsString → TokenKey → ℕ) (toKey : JsString) (b : Backend)
    (before : List Job) (w : Work) (rest : List Job) : Prop where
  chain : b.writing toKey = before ++ ⟨w, .rekey⟩ :: rest
  alone : ∀ job ∈ before ++ rest, job.caller ≠ .rekey
  awaited : ∃ keys, b.awaited = some keys ∧ toKey ∈ keys
  progress : w = .persist ∨ before = [] ∧ ∃ e sent, w = .writing e sent ∧
    ∀ sid k, D sid k ≤
      (run Query.apply b.tables ((writeQueries toKey e).drop sent)).total toKey sid k

/-- First the old key holds the history and nobody has asked for its rows to be deleted, then
the new key holds it. -/
inductive Phase (D : JsString → TokenKey → ℕ) (moved : Bool) (fromKey toKey : JsString)
    (b : Backend) : Prop
  | old (kept : ∀ sid k, D sid k ≤ b.durable fromKey sid k)
      (uncalled : ∀ key, ∀ job ∈ b.writing key, job.caller ≠ .callback)
      (waiting : moved = true → ∃ before w rest, Waiting D toKey b before w rest)
      (idle : moved = false → b.awaited = none ∨ b.closed = true)
  | new (moves : moved = true) (kept : ∀ sid k, D sid k ≤ b.durable toKey sid k)
      (done : ∀ job ∈ b.writing toKey, job.caller ≠ .rekey)
      (called : ∀ key, ∀ job ∈ b.writing key, job.caller = .callback → key = fromKey)

theorem Phase.held (h : Phase D moved fromKey toKey b) : Held D fromKey toKey b := by
  cases h with
  | old kept => exact Or.inl kept
  | new _ kept => exact Or.inr kept

theorem Waiting.pending {before rest : List Job} (h : Waiting D toKey b before w rest) :
    pending toKey b = true := by
  rw [LedgerStore.pending, h.chain, any_append, any_cons]
  simp

theorem holder_old (hwaiting : moved = true → ∃ before w rest, Waiting D toKey b before w rest) :
    holder moved fromKey toKey b = fromKey := by
  apply if_neg
  rw [Bool.and_eq_true]
  rintro ⟨hmoved, hdone⟩
  obtain ⟨before, w, rest, h⟩ := hwaiting hmoved
  rw [h.pending] at hdone
  cases hdone

theorem holder_new (hmoved : moved = true) (hdone : ∀ job ∈ b.writing toKey, job.caller ≠ .rekey) :
    holder moved fromKey toKey b = toKey := by
  have hpending : pending toKey b = false := by
    rw [LedgerStore.pending, any_eq_false]
    intro job hjob
    simpa using hdone job hjob
  rw [holder, hmoved, hpending]
  rfl

/-- Jobs of other callers join the chains. -/
theorem Phase.append (h : Phase D moved fromKey toKey b)
    (htables : b'.tables = b.tables) (hawaited : b'.awaited = b.awaited)
    (hclosed : b.closed = true → b'.closed = true)
    (hwriting : ∀ key, ∃ extra, b'.writing key = b.writing key ++ extra ∧
      ∀ job ∈ extra, job.caller = .other) : Phase D moved fromKey toKey b' := by
  have hmem : ∀ key, ∀ job ∈ b'.writing key, job ∈ b.writing key ∨ job.caller = .other := by
    intro key job hjob
    obtain ⟨extra, hchain, hother⟩ := hwriting key
    rw [hchain] at hjob
    exact (mem_append.mp hjob).imp_right (hother job)
  cases h with
  | old kept uncalled waiting idle =>
    refine .old ?_ ?_ ?_ ?_
    · simpa only [Backend.durable, htables] using kept
    · intro key job hjob
      rcases hmem key job hjob with hjob | hjob
      · exact uncalled key job hjob
      · simp [hjob]
    · intro hmoved
      obtain ⟨before, w, rest, hw⟩ := waiting hmoved
      obtain ⟨extra, hchain, hother⟩ := hwriting toKey
      refine ⟨before, w, rest ++ extra, ?_, ?_, ?_, ?_⟩
      · rw [hchain, hw.chain, append_assoc, cons_append]
      · intro job hjob
        rw [← append_assoc] at hjob
        rcases mem_append.mp hjob with hjob | hjob
        · exact hw.alone job hjob
        · simp [hother job hjob]
      · rw [hawaited]
        exact hw.awaited
      · rw [htables]
        exact hw.progress
    · intro hmoved
      rw [hawaited]
      exact (idle hmoved).imp_right hclosed
  | new hmoved kept done called =>
    refine .new hmoved ?_ ?_ ?_
    · simpa only [Backend.durable, htables] using kept
    · intro job hjob
      rcases hmem toKey job hjob with hjob | hjob
      · exact done job hjob
      · simp [hjob]
    · intro key job hjob hcall
      rcases hmem key job hjob with hjob | hjob
      · exact called key job hjob hcall
      · simp [hjob] at hcall

/-- The write of the re-key goes on waiting while the jobs before it, or other keys, advance. -/
theorem Waiting.advance {before rest : List Job}
    (hw : Waiting D toKey b before w rest) {job : Job} {tail : List Job}
    {next : Option Job} (hadv : Advanced b b' key job tail next)
    (hother : key = toKey → before ≠ [])
    (htables : key ≠ toKey → SameUnder toKey b'.tables b.tables) :
    ∃ before', Waiting D toKey b' before' w rest := by
  by_cases hkey : key = toKey
  · subst hkey
    obtain ⟨hd, bs, rfl⟩ := exists_cons_of_ne_nil (hother rfl)
    have hsplit := hadv.was.symm.trans hw.chain
    rw [cons_append] at hsplit
    obtain ⟨rfl, rfl⟩ := List.cons.inj hsplit
    refine ⟨next.toList ++ bs, ?_, ?_, ?_, ?_⟩
    · rw [hadv.writing, if_pos rfl, append_assoc]
    · intro j hj
      rw [append_assoc] at hj
      rcases mem_append.mp hj with hj | hj
      · rw [hadv.caller j (Option.mem_toList.mp hj)]
        exact hw.alone job (by simp)
      · exact hw.alone j (by simpa using Or.inr (mem_append.mp hj))
    · rw [hadv.awaited]
      exact hw.awaited
    · rcases hw.progress with hp | ⟨hnil, -⟩
      · exact Or.inl hp
      · exact absurd hnil (cons_ne_nil _ _)
  · refine ⟨before, ?_, hw.alone, ?_, ?_⟩
    · rw [hadv.writing, if_neg fun h => hkey h.symm]
      exact hw.chain
    · rw [hadv.awaited]
      exact hw.awaited
    · refine hw.progress.imp_right ?_
      rintro ⟨hnil, e, sent, rfl, hcover⟩
      refine ⟨hnil, e, sent, rfl, fun sid k => (hcover sid k).trans (le_of_eq ?_)⟩
      exact ((htables hkey).run _).symm.total sid k

theorem Phase.start (hne : toKey ≠ fromKey) (h : Phase D moved fromKey toKey b)
    (hnamed : Named b.hosts)
    (hmeets : Meets L D moved fromKey toKey b (.start key)) :
    Phase D moved fromKey toKey (start L b key) := by
  rcases start_cases L b key with hsame | ⟨job, tail, next, hadv, htables, hfresh, hwrite⟩
  · rw [hsame]
    exact h
  cases h with
  | old kept uncalled waiting idle =>
    refine .old ?_ ?_ ?_ ?_
    · simpa only [Backend.durable, htables] using kept
    · intro k j hj
      obtain ⟨j', hj', hcaller⟩ := hadv.mem hj
      rw [hcaller]
      exact uncalled k j' hj'
    · intro hmoved
      obtain ⟨before, w, rest, hw⟩ := waiting hmoved
      by_cases hhead : key = toKey ∧ before = []
      · obtain ⟨rfl, rfl⟩ := hhead
        obtain ⟨rfl, rfl⟩ := List.cons.inj (hadv.was.symm.trans hw.chain)
        have hpersist : w = .persist := by
          rcases hw.progress with hp | ⟨-, e, sent, rfl, -⟩
          · exact hp
          · exact absurd rfl (hfresh e sent)
        subst hpersist
        obtain ⟨e, he, hcover⟩ := hmeets hmoved rfl _ hw.chain
        have hnext := hwrite rfl e he
        refine ⟨[], .writing (enforceHostShare L e) 0, tail, ?_, hw.alone, ?_, Or.inr ⟨rfl, ?_⟩⟩
        · rw [hadv.writing, if_pos rfl, hnext]
          rfl
        · rw [hadv.awaited]
          exact hw.awaited
        · refine ⟨_, 0, rfl, fun sid k => ?_⟩
          rw [htables, drop_zero, run_writeQueries,
            total_after fun hk => hnamed key e he (keys_enforceHostShare hk)]
          exact hcover sid k
      · obtain ⟨before', hw'⟩ := hw.advance hadv (fun hk hnil => hhead ⟨hk, hnil⟩) fun _ => by
          rw [htables]
          exact .refl toKey _
        exact ⟨before', w, rest, hw'⟩
    · intro hmoved
      rw [hadv.awaited, hadv.closed]
      exact idle hmoved
  | new hmoved kept done called =>
    refine .new hmoved ?_ ?_ ?_
    · simpa only [Backend.durable, htables] using kept
    · intro j hj
      obtain ⟨j', hj', hcaller⟩ := hadv.mem hj
      rw [hcaller]
      exact done j' hj'
    · intro k j hj hcall
      obtain ⟨j', hj', hcaller⟩ := hadv.mem hj
      exact called k j' hj' (hcaller ▸ hcall)

theorem Phase.answer (hne : toKey ≠ fromKey) (h : Phase D moved fromKey toKey b)
    {o : Outcome} (hmeets : Meets L D moved fromKey toKey b (.answer key o)) :
    Phase D moved fromKey toKey (answer b key o) := by
  rcases answer_cases b key o with hsame | ⟨job, tail, next, q, more, hadv, hq, htables, hnext⟩
  · rw [hsame]
    exact h
  have hmeets := hmeets job tail q more hadv.was hq
  have hof : q.Of key := Work.queries_of (hq ▸ mem_cons_self)
  have hsame : ∀ k, key ≠ k → SameUnder k (LedgerStore.answer b key o).tables b.tables := by
    intro k hk
    rw [htables]
    split_ifs
    · exact .refl k _
    · exact hof.same hk b.tables
  have hkept : ∀ k, (o ≠ .refused → Spares b.tables q k) →
      ∀ sid tk, b.durable k sid tk ≤ (LedgerStore.answer b key o).durable k sid tk := by
    intro k hspares sid tk
    rw [Backend.durable, Backend.durable, htables]
    split_ifs with ho
    · exact le_rfl
    · exact (hspares ho).total_le sid tk
  cases h with
  | old kept uncalled waiting idle =>
    have hfrom : ∀ sid k, D sid k ≤ (LedgerStore.answer b key o).durable fromKey sid k := by
      intro sid k
      by_cases hkey : key = fromKey
      · have hnot : ¬(job.caller = .rekey ∧ key = toKey) := fun hc => hne (hc.2.symm.trans hkey)
        have hcaller : job.caller ≠ .callback :=
          uncalled key job (hadv.was ▸ mem_cons_self)
        rw [if_neg hnot, holder_old waiting] at hmeets
        exact (kept sid k).trans (hkept fromKey (hmeets hcaller) sid k)
      · exact (kept sid k).trans (le_of_eq ((hsame fromKey hkey).total sid k).symm)
    have huncalled : ∀ k, ∀ j ∈ (LedgerStore.answer b key o).writing k, j.caller ≠ .callback := by
      intro k j hj
      obtain ⟨j', hj', hcaller⟩ := hadv.mem hj
      rw [hcaller]
      exact uncalled k j' hj'
    cases hmoved : moved with
    | false =>
      refine .old hfrom huncalled (nofun) fun _ => ?_
      rw [hadv.awaited, hadv.closed]
      exact idle hmoved
    | true =>
      obtain ⟨before, w, rest, hw⟩ := waiting hmoved
      by_cases hhead : key = toKey ∧ before = []
      · obtain ⟨rfl, rfl⟩ := hhead
        obtain ⟨rfl, rfl⟩ := List.cons.inj (hadv.was.symm.trans hw.chain)
        obtain rfl : o = .landed := by
          rw [if_pos ⟨rfl, rfl⟩] at hmeets
          exact hmeets hmoved
        have hnext := hnext rfl
        rw [if_neg (by decide)] at htables
        rcases hw.progress with rfl | ⟨-, e, sent, rfl, hcover⟩
        · exact absurd hq.symm (cons_ne_nil q more)
        · have hdrop : (writeQueries key e).drop sent = q :: more := hq
          rw [hdrop, run_cons, ← htables] at hcover
          by_cases hmore : more = []
          · -- the last statement has landed: the new key holds the history
            rw [if_pos hmore] at hnext
            rw [hmore] at hcover
            refine .new rfl hcover ?_ fun k j hj hc => absurd hc (huncalled k j hj)
            intro j hj
            rw [hadv.writing, if_pos rfl, hnext] at hj
            exact hw.alone j hj
          · rw [if_neg hmore] at hnext
            refine .old hfrom huncalled (fun _ => ?_) nofun
            refine ⟨[], .writing e (sent + 1), tail, ?_, hw.alone, ?_, Or.inr ⟨rfl, e, sent + 1,
              rfl, ?_⟩⟩
            · rw [hadv.writing, if_pos rfl, hnext]
              rfl
            · rw [hadv.awaited]
              exact hw.awaited
            · rw [show (writeQueries key e).drop (sent + 1) = more from Work.queries_next hq]
              exact hcover
      · obtain ⟨before', hw'⟩ := hw.advance hadv (fun hk hnil => hhead ⟨hk, hnil⟩)
          (hsame toKey)
        exact .old hfrom huncalled (fun _ => ⟨before', w, rest, hw'⟩) nofun
  | new hmoved kept done called =>
    have hjob : job ∈ b.writing key := hadv.was ▸ mem_cons_self
    refine .new hmoved ?_ ?_ ?_
    · intro sid k
      by_cases hkey : key = toKey
      · have hcaller : job.caller ≠ .rekey := done job (hkey ▸ hjob)
        have hcallback : job.caller ≠ .callback := fun hc =>
          hne (hkey.symm.trans (called key job hjob hc))
        rw [if_neg fun hc => hcaller hc.1, holder_new hmoved done] at hmeets
        exact (kept sid k).trans (hkept toKey (hmeets hcallback) sid k)
      · exact (kept sid k).trans (le_of_eq ((hsame toKey hkey).total sid k).symm)
    · intro j hj
      obtain ⟨j', hj', hcaller⟩ := hadv.mem hj
      rw [hcaller]
      exact done j' hj'
    · intro k j hj hcall
      obtain ⟨j', hj', hcaller⟩ := hadv.mem hj
      exact called k j' hj' (hcaller ▸ hcall)

/-- The callback: it comes when the write of the re-key has settled, and that one has landed. -/
theorem Phase.settled (hne : toKey ≠ fromKey) (h : Phase D moved fromKey toKey b) :
    Phase D moved fromKey toKey (settled b fromKey) := by
  unfold LedgerStore.settled
  split
  · exact h
  rename_i keys hkeys
  by_cases hunsettled : ∃ key ∈ keys, ∃ job ∈ b.writing key, job.caller = .rekey
  · rw [if_pos hunsettled]
    exact h
  rw [if_neg hunsettled]
  cases h with
  | old kept uncalled waiting idle =>
    have hmoved : moved = false := by
      rw [← Bool.not_eq_true]
      intro hmoved
      obtain ⟨before, w, rest, hw⟩ := waiting hmoved
      obtain ⟨keys', hkeys', hin⟩ := hw.awaited
      obtain rfl := Option.some.inj (hkeys.symm.trans hkeys')
      exact hunsettled ⟨toKey, hin, ⟨w, .rekey⟩, by rw [hw.chain]; simp, rfl⟩
    have hclosed : b.closed = true := (idle hmoved).resolve_left (by rw [hkeys]; simp)
    have hphase : Phase D moved fromKey toKey { b with awaited := none } :=
      .old kept uncalled (fun hm => absurd (hmoved.symm.trans hm) (by simp)) fun _ => Or.inl rfl
    split_ifs
    · exact hphase
    · rw [onForget, if_pos hclosed]
      exact hphase
  | new hmoved kept done called =>
    have hphase : Phase D moved fromKey toKey { b with awaited := none } :=
      .new hmoved kept done called
    split_ifs
    · exact hphase
    · unfold onForget
      split_ifs
      · exact hphase
      · refine .new hmoved kept ?_ ?_
        · intro job hjob
          rw [serialize_writing, if_neg hne] at hjob
          exact done job hjob
        · intro key job hjob hcall
          by_contra hkey
          rw [serialize_writing, if_neg hkey] at hjob
          exact hkey (called key job hjob hcall)

theorem Phase.step (hne : toKey ≠ fromKey) (h : Phase D moved fromKey toKey b)
    (hnamed : Named b.hosts) (hmeets : Meets L D moved fromKey toKey b ev) :
    Phase D moved fromKey toKey (step L fromKey b ev) := by
  cases ev with
  | beat key e =>
    simp only [LedgerStore.step, onChange]
    split_ifs <;> exact h.append rfl rfl id fun k => ⟨[], by simp, by simp⟩
  | scanned key e => exact h.append rfl rfl id fun k => ⟨[], (append_nil _).symm, by simp⟩
  | timer =>
    simp only [LedgerStore.step]
    split_ifs
    · exact h
    · refine h.append rfl rfl id fun k => ?_
      by_cases hk : k ∈ b.dirty
      · exact ⟨[⟨.persist, .other⟩], if_pos hk, by simp⟩
      · exact ⟨[], (if_neg hk).trans (append_nil _).symm, by simp⟩
  | start key => exact h.start hne hnamed hmeets
  | answer key o => exact h.answer hne hmeets
  | settled => exact h.settled hne
  | close => exact h.append rfl rfl (fun _ => rfl) fun k => ⟨[], (append_nil _).symm, by simp⟩

end

section

variable {L : Limits} {site : JsString → Option JsString} {b : Backend} {fromKey toKey : JsString}

theorem relabel_repos (site : JsString → Option JsString) (e : Entry) :
    (relabel site e).repos = e.repos := by
  unfold relabel
  split
  · rfl
  · split_ifs <;> rfl

theorem named_rekeyHost (h : Named b.hosts) : Named (rekeyHost L site b fromKey toKey).hosts := by
  unfold rekeyHost
  cases hsrc : b.hosts.get? fromKey with
  | none => exact h
  | some src =>
    split_ifs
    · have hentry : [] ∉ (match b.hosts.get? toKey with
          | none => relabel site src
          | some dst => enforceHostShare L
              (relabel site (mergeTwoEntries L dst src))).repos.keys := by
        cases hdst : b.hosts.get? toKey with
        | none =>
          rw [relabel_repos]
          exact h fromKey src hsrc
        | some dst =>
          intro hk
          have hk := keys_enforceHostShare hk
          rw [relabel_repos] at hk
          exact named_mergeTwoEntries (h toKey dst hdst) (h fromKey src hsrc) hk
      have herase : ∀ hosts : Hosts, Named hosts → Named (hosts.erase fromKey) := by
        intro hosts hhosts key e he
        rw [get?_erase] at he
        split_ifs at he
        exact hhosts key e he
      simp only [flushDirty, onChange]
      split_ifs <;> exact herase _ (named_upsert h toKey hentry)
    · exact h

theorem rekeyHost_tables : (rekeyHost L site b fromKey toKey).tables = b.tables := by
  unfold rekeyHost
  split
  · rfl
  · split_ifs
    · simp only [flushDirty, onChange]
      split_ifs <;> rfl
    · rfl

theorem rekeyHost_phase (hkey : isTenantKeyOf fromKey toKey = true) (hb : Untouched b) :
    Phase (b.durable fromKey) (moves b fromKey) fromKey toKey
      (rekeyHost L site b fromKey toKey) := by
  have hidle : ∀ {c : Backend}, c.tables = b.tables → c.awaited = none ∨ c.closed = true →
      (∀ key, ∀ job ∈ c.writing key, job.caller ≠ .callback) → moves b fromKey = false →
      Phase (b.durable fromKey) (moves b fromKey) fromKey toKey c := by
    intro c htables hquiet huncalled hmoves
    refine .old (fun sid k => ?_) huncalled (fun hm => absurd (hmoves.symm.trans hm) (by simp))
      fun _ => hquiet
    rw [Backend.durable, Backend.durable, htables]
  unfold rekeyHost
  cases hsrc : b.hosts.get? fromKey with
  | none =>
    refine hidle rfl (Or.inl hb.unawaited) (fun key job hjob => ?_) (by simp [moves, hsrc])
    simp [hb.others key job hjob]
  | some src =>
    dsimp only
    rw [if_pos hkey]
    have huncalled : ∀ dirty : Finset JsString, ∀ key, ∀ job ∈ (if key ∈ dirty then
        b.writing key ++ [⟨.persist, .rekey⟩] else b.writing key), job.caller ≠ .callback := by
      intro dirty key job hjob
      split_ifs at hjob
      · rcases mem_append.mp hjob with hjob | hjob
        · simp [hb.others key job hjob]
        · simp [mem_singleton.mp hjob]
      · simp [hb.others key job hjob]
    by_cases hclosed : b.closed = true
    · rw [onChange, if_pos hclosed]
      exact hidle rfl (Or.inr hclosed) (huncalled _) (by simp [moves, hclosed])
    · have hmoves : moves b fromKey = true := by simp [moves, hclosed, hsrc]
      rw [onChange, if_neg hclosed]
      refine .old (fun sid k => le_rfl) (huncalled _) (fun _ => ?_)
        fun hm => absurd (hm.symm.trans hmoves) (by simp)
      refine ⟨b.writing toKey, .persist, [], if_pos (Finset.mem_insert_self _ _), ?_,
        ⟨_, rfl, Finset.mem_insert_self _ _⟩, Or.inl rfl⟩
      intro job hjob
      rw [append_nil] at hjob
      simp [hb.others toKey job hjob]

/-- Whatever the state of the ledger and of its writes, whatever fails and wherever the run is
cut: the history stays durable under one of the two keys when the write of the new one starts
from an entry that covers it and lands, and the other writes take nothing out of it. -/
theorem rekey_keeps_history (L : Limits) (site : JsString → Option JsString) (b : Backend)
    (fromKey toKey : JsString) (hkey : isTenantKeyOf fromKey toKey = true) (hb : Untouched b)
    (evs : List Event) (hevs : ∀ ev ∈ evs, ev.Named)
    (hmeets : Along (step L fromKey)
      (Meets L (b.durable fromKey) (moves b fromKey) fromKey toKey)
      (rekeyHost L site b fromKey toKey) evs) :
    Throughout (step L fromKey) (Held (b.durable fromKey) fromKey toKey)
      (rekeyHost L site b fromKey toKey) evs := by
  rintro p ⟨rest, rfl⟩
  have hnamed : Along (step L fromKey) (fun _ ev => ev.Named)
      (rekeyHost L site b fromKey toKey) p :=
    along_of_forall _ fun ev hev => hevs ev (mem_append_left rest hev)
  have hrun := run_inv (step L fromKey)
    (P := fun c => Phase (b.durable fromKey) (moves b fromKey) fromKey toKey c ∧ Named c.hosts)
    (fun c ev hc hok => ⟨hc.1.step (ne_of_isTenantKeyOf hkey) hc.2 hok.1,
      named_step hc.2 hok.2⟩)
    ⟨rekeyHost_phase hkey hb, named_rekeyHost hb.named⟩
    (((along_append _).mp hmeets).1.and _ hnamed)
  exact hrun.1.held

/-- What this replica wrote of a host under one key it can write again under another. -/
theorem covers_written (L : Limits) {e : Entry} (hnamed : [] ∉ e.repos.keys)
    (hne : toKey ≠ fromKey) :
    Covers (fun sid k => (writeEntry L .empty fromKey e).total fromKey sid k)
      (writeEntry L .empty fromKey e) toKey (enforceHostShare L e) := by
  have hnamed : [] ∉ (enforceHostShare L e).repos.keys := fun hk => hnamed (keys_enforceHostShare hk)
  intro sid k
  have hcutoff : (writeEntry L .empty fromKey e).cutoff toKey sid = none := by
    rw [writeEntry, cutoff_after hnamed, writesCutoff, if_neg hne]
    rfl
  have hwrites : ∀ day, writes toKey (enforceHostShare L e) toKey sid day k =
      writes fromKey (enforceHostShare L e) fromKey sid day k := fun day => by
    rw [writes, writes, if_pos rfl, if_pos rfl]
  have hclosed : writesCutoff toKey (enforceHostShare L e) toKey sid =
      writesCutoff fromKey (enforceHostShare L e) fromKey sid := by
    rw [writesCutoff, writesCutoff, if_pos rfl, if_pos rfl]
  have hzero : ∀ day, Tables.empty.stored fromKey sid day k = 0 := fun _ => rfl
  have htotal : (writeEntry L .empty fromKey e).total fromKey sid k = _ :=
    total_after hnamed .empty fromKey fromKey sid k
  beta_reduce
  rw [htotal, hcutoff, hclosed, show Tables.empty.cutoff fromKey sid = none from rfl]
  refine Nat.add_le_add ?_ (sumOn_le_sumOn fun d _ => ?_)
  · rw [hzero, hwrites, Nat.zero_max]
    exact le_max_right _ _
  · rw [hzero, hwrites, Nat.zero_max]
    exact le_max_right _ _

/-- Nothing but the jobs of the re-key is answered, and its write succeeds. -/
def undisturbed (toKey : JsString) (b : Backend) : Event → Bool
  | .start key => key ≠ toKey
  | .answer key o => (b.writing key).all fun job =>
      job.caller = .callback || (job.caller = .rekey && key = toKey && o = .landed)
  | _ => true

theorem meets_of_undisturbed {D : JsString → TokenKey → ℕ} {moved : Bool}
    (h : undisturbed toKey b ev = true) : Meets L D moved fromKey toKey b ev := by
  cases ev with
  | start key => exact fun _ hkey => absurd hkey (of_decide_eq_true h)
  | answer key o =>
    intro job rest q more hchain _
    have hjob := all_eq_true.mp h job (hchain ▸ mem_cons_self)
    simp only [Bool.or_eq_true, Bool.and_eq_true, decide_eq_true_eq] at hjob
    rcases hjob with hcall | ⟨⟨hcall, hkey⟩, ho⟩
    · rw [if_neg fun hc => by simp [hcall] at hc]
      exact fun hnot => absurd hcall hnot
    · rw [if_pos ⟨hcall, hkey⟩]
      exact fun _ => ho
  | beat | scanned | timer | settled | close => trivial

end

/-- A host from before there were tenants, with the entry that its rows were written from. -/
def beforeTenants : Backend where
  hosts := rescanned
  dirty := ∅
  writing := fun _ => []
  awaited := none
  closed := false
  tables := writtenOnce

def tenantKey : JsString := ofString "host@00000000000000000000000000000000"

theorem tenantKey_of : isTenantKeyOf (ofString "host") tenantKey = true := by
  decide +kernel

theorem beforeTenants_untouched : Untouched beforeTenants where
  unawaited := rfl
  others := fun _ _ hjob => absurd hjob not_mem_nil
  named := by
    intro key e he
    rw [show beforeTenants.hosts = rescanned from rfl, rescanned, get?_upsert] at he
    split_ifs at he
    · rw [← Option.some.inj he]
      exact not_mem_nil
    · cases he

/-- The write of the new key lands, then the rows of the old key go. -/
theorem rekey_keeps_history_landed :
    (run (step shipped (ofString "host")) (rekeyHost shipped (fun _ => none)
        beforeTenants (ofString "host") tenantKey)
      (.start tenantKey :: .answer tenantKey .landed :: .answer tenantKey .landed ::
        .answer tenantKey .landed :: .settled :: .start (ofString "host") ::
        List.replicate 4 (.answer (ofString "host") .landed))).durable tenantKey []
      .input = 100 ∧
    Throughout (step shipped (ofString "host"))
      (Held (beforeTenants.durable (ofString "host")) (ofString "host")
        tenantKey)
      (rekeyHost shipped (fun _ => none) beforeTenants (ofString "host") tenantKey)
      (.start tenantKey :: .answer tenantKey .landed :: .answer tenantKey .landed ::
        .answer tenantKey .landed :: .settled :: .start (ofString "host") ::
        List.replicate 4 (.answer (ofString "host") .landed)) := by
  refine ⟨by decide +kernel, ?_⟩
  refine rekey_keeps_history shipped _ beforeTenants _ _ tenantKey_of
    beforeTenants_untouched _ ?_ ⟨fun _ _ rest _ => ?_, ?_⟩
  · simp [Event.Named]
  · refine ⟨hostOnly (run (Op.apply shipped) blankSeries
      [.absorb (inputReport 100 [(20260101, 100)])]), by rfl, ?_⟩
    have hwritten : beforeTenants.tables = writeEntry shipped .empty (ofString "host")
        (hostOnly (run (Op.apply shipped) blankSeries
          [.absorb (inputReport 100 [(20260101, 100)])])) := by
      simp only [beforeTenants, writtenOnce, firstReplica, run_cons, run_nil, Write.land]
    unfold Backend.durable
    rw [rekeyHost_tables, hwritten]
    exact covers_written shipped not_mem_nil (ne_of_isTenantKeyOf tenantKey_of)
  · refine Along.mono _ (fun b ev h => meets_of_undisturbed h) ?_
    decide +kernel

/-- The write of the new key fails, and the rows of the old key go all the same. -/
theorem rekey_loses_history : isTenantKeyOf (ofString "host") tenantKey = true ∧
    Untouched beforeTenants ∧
    ¬ Throughout (step shipped (ofString "host"))
      (Held (beforeTenants.durable (ofString "host")) (ofString "host")
        tenantKey)
      (rekeyHost shipped (fun _ => none) beforeTenants (ofString "host") tenantKey)
      (.start tenantKey :: .answer tenantKey .refused :: .settled ::
        .start (ofString "host") ::
        List.replicate 4 (.answer (ofString "host") .landed)) := by
  refine ⟨tenantKey_of, beforeTenants_untouched, fun hheld => ?_⟩
  rcases hheld _ (prefix_refl _) with hle | hle
  · have hle := hle [] .input
    revert hle
    decide +kernel
  · have hle := hle [] .input
    revert hle
    decide +kernel

end Turma.LedgerStore
