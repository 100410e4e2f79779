import Mathlib.Data.Multiset.Filter
import Turma.Lib.Run

/-! The connection pool of `pgclient.js` with the lifecycle of its connections. The promises
that have settled leave continuations behind, and these run in any order, with any event
between them. -/

namespace Turma.PgPool

/-- `PgConnection`, as far as the pool sees it. `handshake` says that `_onReady` and `_onFail` are
set, `dialed` that the promise of `connect` has settled, `torn` that the socket is gone and
`onDead` has been called. `q` is the caller whose statement is in flight. -/
structure Conn where
  alive : Bool
  busy : Bool
  handshake : Bool
  dialed : Bool
  q : Option ℕ
  torn : Bool
  spawnSeq : ℕ
deriving DecidableEq

/-- A queued acquire: the number of the call, its place in the queue's count, and whether the
statement that it is for can be encoded. -/
structure Waiter where
  call : ℕ
  seq : ℕ
  encodable : Bool
deriving DecidableEq

inductive Outcome
  | conn (c : ℕ)
  | error
deriving DecidableEq

/-- The continuations: `then` and `catch` of a dial, the caller that resumes with its connection,
and the `finally` of its query. -/
inductive Task
  | connected (c : ℕ)
  | connectFailed (c : ℕ)
  | lent (call c : ℕ) (encodable : Bool)
  | queryDone (call c : ℕ)
deriving DecidableEq

structure Pool where
  conns : List ℕ
  conn : ℕ → Conn
  dialCount : ℕ
  waiters : List Waiter
  waiterSeq : ℕ
  closed : Bool
  tasks : Multiset Task
  calls : ℕ
  settled : List (ℕ × Outcome)

def noConn : Conn := ⟨false, false, false, false, none, false, 0⟩

def Pool.init : Pool := ⟨[], fun _ => noConn, 0, [], 0, false, 0, 0, []⟩

/-- `Math.max(1, opts.max)`. -/
def bound (max : ℕ) : ℕ := Nat.max 1 max

def Pool.setConn (p : Pool) (c : ℕ) (conn : Conn) : Pool :=
  { p with conn := fun c' => if c' = c then conn else p.conn c' }

def Pool.push (p : Pool) (t : Task) : Pool := { p with tasks := t ::ₘ p.tasks }

/-- `_teardown`, with the `onDead` of the pool. -/
def teardown (p : Pool) (c : ℕ) : Pool :=
  let conns := if (p.conn c).torn = true then p.conns else p.conns.erase c
  { p.setConn c { p.conn c with alive := false, torn := true } with conns := conns }

/-- The promise of `connect` rejects. -/
def rejectConnect (p : Pool) (c : ℕ) : Pool :=
  if (p.conn c).dialed = true then p
  else (p.setConn c { p.conn c with dialed := true }).push (.connectFailed c)

def settleQuery (p : Pool) (c : ℕ) : Pool :=
  match (p.conn c).q with
  | none => p
  | some call => (p.setConn c { p.conn c with q := none }).push (.queryDone call c)

def fail (p : Pool) (c : ℕ) : Pool :=
  if (p.conn c).handshake = true then
    rejectConnect (teardown (p.setConn c { p.conn c with handshake := false }) c) c
  else teardown (settleQuery p c) c

def connectTimeout (p : Pool) (c : ℕ) : Pool :=
  if (p.conn c).handshake = true then rejectConnect (teardown p c) c else p

def queryTimeout (p : Pool) (c : ℕ) : Pool :=
  match (p.conn c).q with
  | none => p
  | some _ => teardown (settleQuery p c) c

/-- `ReadyForQuery`: the end of the handshake, or of the query in flight. -/
def readyForQuery (p : Pool) (c : ℕ) : Pool :=
  let conn := p.conn c
  if conn.alive = true then settleQuery p c
  else
    let p' := p.setConn c { conn with
      alive := true, handshake := false, dialed := conn.dialed || conn.handshake }
    if (conn.handshake && !conn.dialed) = true then p'.push (.connected c) else p'

/-- `conn.query`. A write to a torn socket fails at once. -/
def query (p : Pool) (call c : ℕ) (encodable : Bool) : Pool :=
  let conn := p.conn c
  if (!conn.alive || conn.q.isSome || !encodable) = true then p.push (.queryDone call c)
  else
    let p := p.setConn c { conn with q := some call }
    if conn.torn = true then fail p c else p

def spawnConn (p : Pool) : Pool :=
  { p.setConn p.dialCount ⟨false, false, true, false, none, false, p.waiterSeq⟩ with
    conns := p.conns ++ [p.dialCount]
    dialCount := p.dialCount + 1 }

def lend (p : Pool) (w : Waiter) (c : ℕ) : Pool :=
  { (p.setConn c { p.conn c with busy := true }).push (.lent w.call c w.encodable) with
    settled := p.settled ++ [(w.call, .conn c)] }

def idle (p : Pool) : Option ℕ :=
  p.conns.find? fun c => (p.conn c).alive && !(p.conn c).busy

/-- The loop of `_pump`, over the waiters that are left. -/
def serve (max : ℕ) (p : Pool) : List Waiter → Pool
  | [] => { p with waiters := [] }
  | w :: ws =>
    match idle p with
    | some c => serve max (lend p w c) ws
    | none =>
      let p := { p with waiters := w :: ws }
      if p.conns.length < bound max then spawnConn p else p

def pump (max : ℕ) (p : Pool) : Pool := if p.closed = true then p else serve max p p.waiters

def removeConn (p : Pool) (c : ℕ) : Pool := { p with conns := p.conns.erase c }

/-- `query` and `execute`, up to their `await`. -/
def acquire (max : ℕ) (p : Pool) (encodable : Bool) : Pool :=
  let p' := { p with calls := p.calls + 1 }
  if p.closed = true then { p' with settled := p.settled ++ [(p.calls, .error)] }
  else
    pump max { p' with
      waiterSeq := p.waiterSeq + 1
      waiters := p.waiters ++ [⟨p.calls, p.waiterSeq + 1, encodable⟩] }

def acquireTimeout (p : Pool) (call : ℕ) : Pool :=
  if call ∈ p.waiters.map Waiter.call then
    { p with
      waiters := p.waiters.filter fun w => w.call ≠ call
      settled := p.settled ++ [(call, .error)] }
  else p

def afterQuery (max : ℕ) (p : Pool) (c : ℕ) : Pool :=
  if (p.conn c).alive = true then pump max (p.setConn c { p.conn c with busy := false })
  else pump max (removeConn p c)

/-- The `catch` of a dial: one waiter that was there when it began is rejected. -/
def connectFailed (max : ℕ) (p : Pool) (c : ℕ) : Pool :=
  if p.closed = true then p
  else
    let p := removeConn p c
    match p.waiters with
    | [] => pump max p
    | w :: ws =>
      if w.seq ≤ (p.conn c).spawnSeq then
        pump max { p with waiters := ws, settled := p.settled ++ [(w.call, .error)] }
      else pump max p

def resume (max : ℕ) (p : Pool) : Task → Pool
  | .connected _ => pump max p
  | .connectFailed c => connectFailed max p c
  | .lent call c encodable => query p call c encodable
  | .queryDone _ c => afterQuery max p c

def close (p : Pool) : Pool :=
  p.conns.foldl fail { p with
    closed := true
    conns := []
    waiters := []
    settled := p.settled ++ p.waiters.map fun w => (w.call, .error) }

/-- Warming up, by the constructor or by `ready`. -/
def warm (p : Pool) : Pool := if p.closed = false ∧ p.conns = [] then spawnConn p else p

inductive Event
  | acquire (encodable : Bool)
  | acquireTimeout (call : ℕ)
  | readyForQuery (c : ℕ)
  | fail (c : ℕ)
  | connectTimeout (c : ℕ)
  | queryTimeout (c : ℕ)
  | resume (t : Task)
  | warm
  | close

def step (max : ℕ) (p : Pool) : Event → Pool
  | .acquire encodable => acquire max p encodable
  | .acquireTimeout call => acquireTimeout p call
  | .readyForQuery c => if c < p.dialCount then readyForQuery p c else p
  | .fail c => if c < p.dialCount then fail p c else p
  | .connectTimeout c => if c < p.dialCount then connectTimeout p c else p
  | .queryTimeout c => queryTimeout p c
  | .resume t => if t ∈ p.tasks then resume max { p with tasks := p.tasks.erase t } t else p
  | .warm => warm p
  | .close => close p

end Turma.PgPool
