import Turma.Lib.JsonValue

/-! The commands of Valkey that `SharedLiveStore` sends. Each of them runs alone. -/

namespace Turma.LiveStore

open Turma.Lib

/-- A key on the wire. In UTF-8 a lone surrogate becomes U+FFFD. -/
def wireKey (key : JsString) : List Char :=
  key.map fun c => match c with
    | .scalar c => c
    | .lone _ => Char.ofNat 0xFFFD

inductive Stored
  | text (t : List Char)
  | list (ts : List (List Char))
deriving DecidableEq

abbrev Db := OrdMap (List Char) Stored

inductive Reply
  | ok
  | nil
  | bulk (t : List Char)
  | int (z : ℤ)
  | list (ts : List (List Char))
  | error
deriving DecidableEq

inductive Command
  | get (key : List Char)
  | set (key t : List Char)
  | setNx (key t : List Char)
  | getDel (key : List Char)
  | del (key : List Char)
  | incrBy (key n : List Char)
  | rpush (key t : List Char)
  | evalCompareAndSet (key expected next nullFlag : List Char)
  | evalDrain (key : List Char)

def integerText (z : ℤ) : List Char := signed z (Nat.toDigits 10 z.natAbs)

def int64 (t : List Char) : Option ℤ :=
  (readInt t).filter fun z => integerText z = t ∧ -2 ^ 63 ≤ z ∧ z < 2 ^ 63

def incremented (stored : Option Stored) (n : List Char) : Option ℤ :=
  let current := match stored with
    | none => some 0
    | some (.text t) => int64 t
    | some (.list _) => none
  match current, int64 n with
  | some a, some b => if -2 ^ 63 ≤ a + b ∧ a + b < 2 ^ 63 then some (a + b) else none
  | _, _ => none

/-- What the script of `compareAndSet` decides. -/
def matched (stored : Option Stored) (expected nullFlag : List Char) : Option Bool :=
  match stored with
  | none => some (nullFlag = ['1'])
  | some (.text v) => some (v = expected)
  | some (.list _) => none

def put (db : Db) (key : List Char) (v : Stored) : Db := db.upsert key fun _ => v

def Db.exec (db : Db) : Command → Db × Reply
  | .get key =>
    match db.get? key with
    | none => (db, .nil)
    | some (.text t) => (db, .bulk t)
    | some (.list _) => (db, .error)
  | .set key t => (put db key (.text t), .ok)
  | .setNx key t =>
    match db.get? key with
    | none => (put db key (.text t), .ok)
    | some _ => (db, .nil)
  | .getDel key =>
    match db.get? key with
    | none => (db, .nil)
    | some (.text t) => (db.erase key, .bulk t)
    | some (.list _) => (db, .error)
  | .del key => (db.erase key, .int (if (db.get? key).isSome = true then 1 else 0))
  | .incrBy key n =>
    match incremented (db.get? key) n with
    | none => (db, .error)
    | some z => (put db key (.text (integerText z)), .int z)
  | .rpush key t =>
    match db.get? key with
    | none => (put db key (.list [t]), .int 1)
    | some (.text _) => (db, .error)
    | some (.list ts) => (put db key (.list (ts ++ [t])), .int (ts.length + 1))
  | .evalCompareAndSet key expected next nullFlag =>
    match matched (db.get? key) expected nullFlag with
    | none => (db, .error)
    | some false => (db, .int 0)
    | some true => (put db key (.text next), .int 1)
  | .evalDrain key =>
    match db.get? key with
    | none => (db.erase key, .list [])
    | some (.text _) => (db, .error)
    | some (.list ts) => (db.erase key, .list ts)

/-! The two backends of `LiveStore`, without expiry: `FileLiveStore` over a map of values and a
map of queues, `SharedLiveStore` over Valkey. -/

inductive Op
  | get (key : JsString)
  | set (key : JsString) (value : Json)
  | del (key : JsString)
  | getDel (key : JsString)
  | setIfAbsent (key : JsString) (value : Json)
  | compareAndSet (key : JsString) (expected next : Json)
  | incrBy (key : JsString) (n : ℤ)
  | queuePush (key : JsString) (item : Json)
  | queueDrain (key : JsString)

inductive Result
  | done
  | value (v : Json)
  | decided (b : Bool)
  | number (n : JsNumber)
  | items (vs : List Json)
  | rejected
deriving DecidableEq

structure FileStore where
  map : OrdMap JsString Json
  queues : OrdMap JsString (List Json)

def sameValue (a b : Json) : Bool := stringify a = stringify b

/-- `(Number(v) || 0) + n`. `other` stands for what `Number` makes of a value that is no whole
number. -/
def incrementValue (other : Json → ℤ → JsNumber) (v : Option Json) (n : ℤ) : JsNumber :=
  match v with
  | none => .ofInt n
  | some (.num (.whole z _ _)) => .ofInt (z + n)
  | some v => other v n

def FileStore.set (s : FileStore) (key : JsString) (v : Json) : FileStore :=
  { s with map := s.map.upsert key fun _ => v }

def FileStore.exec (other : Json → ℤ → JsNumber) (s : FileStore) : Op → FileStore × Result
  | .get key => (s, .value ((s.map.get? key).getD .null))
  | .set key v => (s.set key v, .done)
  | .del key => ({ s with map := s.map.erase key }, .done)
  | .getDel key =>
    match s.map.get? key with
    | none => (s, .value .null)
    | some v => ({ s with map := s.map.erase key }, .value v)
  | .setIfAbsent key v =>
    match s.map.get? key with
    | none => (s.set key v, .decided true)
    | some _ => (s, .decided false)
  | .compareAndSet key expected next =>
    if sameValue ((s.map.get? key).getD .null) expected = true then
      (s.set key next, .decided true)
    else (s, .decided false)
  | .incrBy key n =>
    let next := incrementValue other (s.map.get? key) n
    (s.set key (.num next), .number next)
  | .queuePush key item =>
    ({ s with queues := s.queues.upsert key fun q => q.getD [] ++ [item] }, .done)
  | .queueDrain key =>
    match s.queues.get? key with
    | none => (s, .items [])
    | some q => ({ s with queues := s.queues.upsert key fun _ => [] }, .items q)

/-- `raw == null ? null : JSON.parse(raw)`. -/
def valueOf : Reply → Result
  | .nil => .value .null
  | .bulk t =>
    match parse t with
    | none => .rejected
    | some v => .value v
  | _ => .rejected

def itemsOf : Reply → Result
  | .list ts =>
    match ts.mapM parse with
    | none => .rejected
    | some vs => .items vs
  | _ => .rejected

/-- `expected === null ? "1" : "0"`. -/
def nullFlag : Json → List Char
  | .null => ['1']
  | _ => ['0']

def commandOf : Op → Command
  | .get key => .get (wireKey key)
  | .set key v => .set (wireKey key) (stringify v)
  | .del key => .del (wireKey key)
  | .getDel key => .getDel (wireKey key)
  | .setIfAbsent key v => .setNx (wireKey key) (stringify v)
  | .compareAndSet key expected next =>
    .evalCompareAndSet (wireKey key) (stringify expected) (stringify next) (nullFlag expected)
  | .incrBy key n => .incrBy (wireKey key) (integerText n)
  | .queuePush key item => .rpush (wireKey key) (stringify item)
  | .queueDrain key => .evalDrain (wireKey key)

def resultOf (op : Op) (r : Reply) : Result :=
  if r = .error then .rejected
  else
    match op with
    | .get _ | .getDel _ => valueOf r
    | .set _ _ | .del _ | .queuePush _ _ => .done
    | .setIfAbsent _ _ => .decided (r = .ok)
    | .compareAndSet _ _ _ => .decided (r = .int 1)
    | .incrBy _ _ =>
      match r with
      | .int z => .number (.ofInt z)
      | _ => .rejected
    | .queueDrain _ => itemsOf r

def Db.call (db : Db) (op : Op) : Db × Result :=
  let answer := db.exec (commandOf op)
  (answer.1, resultOf op answer.2)

end Turma.LiveStore
