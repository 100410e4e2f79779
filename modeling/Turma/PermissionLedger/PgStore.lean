import Turma.Lib.Run
import Turma.Lib.WriteBehind
import Turma.PermissionLedger.Model

/-! The permission ledger with its Postgres table: beats, drains, rescans and tenant purges, the
statements of each on their way while the others go on. -/

namespace Turma.PermissionLedger

open Turma.Lib Turma.Tenancy

/-- A row of `permission_event`, with `host` and `id` as its key. The text of `doc` is that of the
row. -/
structure Stored where
  openedAt : ℕ
  progress : ℕ
  doc : Row
deriving DecidableEq

def pgQueueMax : ℕ := 10000

def pgRowsPerInsert : ℕ := 500

/-- The upsert never writes over a row that is further along. -/
def pgConfig : WriteBehind.Config Stored where
  cap := pgQueueMax
  perBatch := pgRowsPerInsert
  accepts old new := decide (old.progress ≤ new.progress)
  trims := true

abbrev PgStore := WriteBehind Key Stored

def Row.stored (r : Row) : Stored := ⟨r.openedAt, rowProgress r, r⟩

def tuple (host : JsString) (r : Row) : Key × Stored := ((host, r.id), r.stored)

def onChange (s : PgStore) (host : JsString) (rows : List Row) : PgStore :=
  s.upsert pgConfig (rows.map (tuple host))

def onDelete (s : PgStore) (pairs : List Key) : PgStore := s.delete pgConfig pairs

/-- What the next statement of a rescan is, or what its `SELECT` has answered. -/
inductive Scan
  | prune
  | select
  | answered (got : List (Key × Stored))

structure Rescan where
  now : ℕ
  scan : Scan

/-- The rows of a table by `opened_at DESC`. Rows of one time stay as they are listed. -/
def byOpenedAt (rows : List (Key × Stored)) : List (Key × Stored) :=
  rows.mergeSort fun a b => b.2.openedAt ≤ a.2.openedAt

/-- The keys that the first statement of a rescan deletes: what a host has beyond its share. -/
def beyondShare (l : Limits) (rows : List (Key × Stored)) : List Key :=
  (rows.map fun e => e.1.1).dedup.flatMap fun host =>
    (((byOpenedAt rows).filter fun e => e.1.1 = host).drop l.hostMaxRows).map Prod.fst

/-- The answer to the `SELECT`. -/
def selected (l : Limits) (now : ℕ) (rows : List (Key × Stored)) : List (Key × Stored) :=
  ((byOpenedAt rows).filter fun e => now ≤ e.2.openedAt + l.days * dayMs).take l.maxRows

/-- The loop over the answer: the model, the keys the table holds, the oldest time among its rows,
and the rows to queue again. -/
structure ReadBack where
  hosts : Hosts
  held : List Key
  oldest : Option ℕ
  stale : List (JsString × Row)

def readRow (l : Limits) (now : ℕ) (acc : ReadBack) (e : Key × Stored) : ReadBack :=
  let host := e.1.1
  if host = [] ∨ host = JsString.ofString "__proto__" then acc
  else
    match sanitizePermissionEvent l now e.2.doc.raw with
    | none => acc
    | some row =>
      let acc := { acc with
        held := (host, row.id) :: acc.held
        oldest := some ((acc.oldest.map fun t => min t row.openedAt).getD row.openedAt) }
      match hot acc.hosts (host, row.id) with
      | some kept =>
        if rowProgress row < rowProgress kept then
          { acc with stale := acc.stale ++ [(host, kept)] }
        else { acc with hosts := acc.hosts.upsert host fun m => setRow (m.getD OrdMap.empty) row }
      | none =>
        { acc with hosts := acc.hosts.upsert host fun m => setRow (m.getD OrdMap.empty) row }

def withinScan (l : Limits) (now : ℕ) (got : List (Key × Stored)) (acc : ReadBack) (r : Row) : Bool :=
  if l.maxRows ≤ got.length then acc.oldest.any fun t => t ≤ r.openedAt
  else now ≤ r.openedAt + l.days * dayMs

/-- The rows that the table is to have again: those it holds less far along, those closed by their
age, and those that the answer should have named. -/
def staleRows (l : Limits) (now : ℕ) (got : List (Key × Stored)) (acc : ReadBack)
    (old : List (JsString × List Row)) (hosts : Hosts) : List (JsString × Row) :=
  acc.stale ++ (old.flatMap fun e => e.2.map fun r => (e.1, r)) ++
    (allRows hosts).filter fun e =>
      withinScan l now got acc e.2 && decide ((e.1, e.2.id) ∉ acc.held)

def requeue (store : PgStore) (stale : List (JsString × Row)) : PgStore :=
  { store with
    queue := WriteBehind.trim pgConfig.cap (store.queue ++ stale.map fun e => tuple e.1 e.2) }

/-- The rest of a rescan, once its `SELECT` has answered. -/
def merge (l : Limits) (now : ℕ) (hosts : Hosts) (store : PgStore) (got : List (Key × Stored)) :
    Hosts × PgStore :=
  let acc := got.foldl (readRow l now) ⟨hosts, [], none, []⟩
  let (hosts, old) := ageOut now acc.hosts
  let (hosts, gone) := evict l now hosts
  let stale := staleRows l now got acc old hosts
  let store := requeue store stale
  let store := if gone = [] then store else onDelete store gone
  (hosts, if stale = [] then store else store.drain)

/-- `host.endsWith("@" + t)`, and the `right(host, 33)` of the table. -/
def ofTenant (t host : JsString) : Bool := host.drop (host.length - 33) = .scalar '@' :: t

/-- A purge on its way: it waits for the drain, or for its `DELETE`. -/
structure Purge where
  call : ℕ
  tenant : JsString
  waiting : Bool

structure Ledger where
  hosts : Hosts
  store : PgStore
  rescans : List Rescan
  purges : List Purge
  purgeCalls : ℕ
  purged : List ℕ

def Ledger.init (hosts : Hosts) (table : Key → Option Stored) : Ledger :=
  ⟨hosts, WriteBehind.init table, [], [], 0, []⟩

def dropQueued (t : JsString) (store : PgStore) : PgStore :=
  { store with queue := store.queue.filter fun e => ofTenant t e.1.1 = false }

/-- `purgeTenant`, with what `onPurgeTenant` does before its first `await`. -/
def purgeTenant (s : Ledger) (t : JsString) : Ledger :=
  if tenantSuffix (.scalar '@' :: t) = false then s
  else
    let waiting : Bool := match s.store.flight with
      | .idle => false
      | _ => true
    { s with
      hosts := s.hosts.filterKeys fun h => tenantOfHostKey h ≠ t
      store := dropQueued t s.store
      purges := s.purges ++ [⟨s.purgeCalls, t, waiting⟩]
      purgeCalls := s.purgeCalls + 1 }

/-- The purges that waited for the drain go on when it has ended. -/
def wakePurges (s : Ledger) : Ledger :=
  match s.store.flight with
  | .idle =>
    { s with
      store := ((s.purges.filter Purge.waiting).map Purge.tenant).foldl
        (fun store t => dropQueued t store) s.store
      purges := s.purges.map fun p => { p with waiting := false } }
  | _ => s

inductive Event
  | ingest (now : ℕ) (host : JsString) (events : List RawEvent)
  | drain
  | resume (ok : Bool)
  | rescan (now : ℕ)
  | prune (n : ℕ) (rows : List (Key × Stored))
  | select (n : ℕ) (rows : List (Key × Stored))
  | merge (n : ℕ)
  | giveUp (n : ℕ)
  | purge (t : JsString)
  | purgeLands (n : ℕ) (ok : Bool)
  | sweep (now : ℕ)
  | close

def storeIngested (store : PgStore) (out : Ingested) : PgStore :=
  let store := out.changes.foldl (fun store c => onChange store c.1 c.2) store
  if out.gone = [] then store else onDelete store out.gone

def retained (l : Limits) (now : ℕ) (table : Key → Option Stored) (k : Key) : Option Stored :=
  (table k).filter fun e => now ≤ e.openedAt + l.days * dayMs

def step (l : Limits) (s : Ledger) : Event → Ledger
  | .ingest now host events =>
    match ingest l now s.hosts host events with
    | none => s
    | some out => { s with hosts := out.hosts, store := storeIngested s.store out }
  | .drain => { s with store := s.store.drain }
  | .resume ok => wakePurges { s with store := s.store.resume pgConfig ok }
  | .rescan now => { s with rescans := s.rescans ++ [⟨now, .prune⟩] }
  | .prune n rows =>
    match s.rescans[n]? with
    | some ⟨now, .prune⟩ =>
      let gone := beyondShare l rows
      { s with
        store := { s.store with table := fun k => if k ∈ gone then none else s.store.table k }
        rescans := s.rescans.set n ⟨now, .select⟩ }
    | _ => s
  | .select n rows =>
    match s.rescans[n]? with
    | some ⟨now, .select⟩ =>
      { s with rescans := s.rescans.set n ⟨now, .answered (selected l now rows)⟩ }
    | _ => s
  | .merge n =>
    match s.rescans[n]? with
    | some ⟨now, .answered got⟩ =>
      let (hosts, store) := merge l now s.hosts s.store got
      { s with hosts := hosts, store := store, rescans := s.rescans.eraseIdx n }
    | _ => s
  | .giveUp n => { s with rescans := s.rescans.eraseIdx n }
  | .purge t => purgeTenant s t
  | .purgeLands n ok =>
    match s.purges[n]? with
    | some ⟨call, t, false⟩ =>
      let s := { s with purges := s.purges.eraseIdx n }
      if ok = true then
        { s with
          store := { s.store with
            table := fun k => if ofTenant t k.1 = true then none else s.store.table k }
          purged := call :: s.purged }
      else s
    | _ => s
  | .sweep now =>
    { s with store := { s.store with table := retained l now s.store.table } }
  | .close => { s with store := { s.store with closed := true } }

/-- The rows that a statement saw were those of the table, in some order. -/
def Admits (s : Ledger) : Event → Prop
  | .prune _ rows | .select _ rows =>
    (rows.map Prod.fst).Nodup ∧ ∀ k v, (k, v) ∈ rows ↔ s.store.table k = some v
  | _ => True

end Turma.PermissionLedger
