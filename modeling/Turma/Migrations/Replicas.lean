import Turma.Lib.Run
import Turma.Migrations.Record

/-! The moves as several replicas keep them: each has a map of its own, writes what it changes to
one store, and hears of what the others write. One of them at most leads. -/

namespace Turma.Migrations

open Turma.Lib

def MIGRATIONS_MAX : ℕ := 40

def MIGRATIONS_RETIRED_MAX : ℕ := 512

abbrev Write := Id × Option Migration

/-- A scan for `hydrateMigrations`. -/
inductive Scan
  | asked
  | answered (rows : OrdMap Id Migration)

structure Node where
  migrations : OrdMap Id Migration := OrdMap.empty
  dirty : List Id := []
  retired : List Id := []
  scans : List Scan := [.asked]
  outbox : List Write := []
  inbox : List Write := []

/-- `set.add(id)`. -/
def addTo (ids : List Id) (id : Id) : List Id := if ids.contains id then ids else ids ++ [id]

/-- The one of two settled records that settled first. -/
def olderSettled (oldest : Option (Id × Migration)) (m : Id × Migration) : Option (Id × Migration) :=
  if m.2.phase.settled then
    match oldest with
    | none => some m
    | some o => if m.2.atMs < o.2.atMs then some m else oldest
  else oldest

def oldestSettled (ms : List (Id × Migration)) : Option (Id × Migration) := ms.foldl olderSettled none

namespace Node

variable (n : Node) (leads : Bool)

/-- A leader mirrors all it has, a follower what it changed itself. -/
def publishMigrations (changed : Option Id) : Node :=
  let dirty := changed.elim n.dirty (addTo n.dirty)
  let ms := if leads then n.migrations.entries
    else dirty.filterMap fun id => (n.migrations.get? id).map fun m => (id, m)
  { n with outbox := n.outbox ++ ms.map fun m => (m.1, some m.2.shared), dirty := [] }

def forget (id : Id) : Node := { n with outbox := n.outbox ++ [(id, none)] }

def retireMigration (id : Id) : Node :=
  let retired := addTo n.retired id
  { n.forget id with
    migrations := n.migrations.erase id
    dirty := n.dirty.erase id
    retired := retired.drop (retired.length - MIGRATIONS_RETIRED_MAX) }

def evicted : Option Id :=
  if MIGRATIONS_MAX ≤ n.migrations.size then (oldestSettled n.migrations.entries).map (·.1)
  else none

def start (id : Id) (restore : Bool) (transcriptId : Option JsString) (now : ℤ) : Node :=
  let n := n.evicted.elim n n.retireMigration
  let m := { restore, transcriptId, packing := restore, startedAt := now, atMs := now }
  { n with migrations := n.migrations.upsert id fun _ => m }.publishMigrations leads (some id)

def change (id : Id) (f : Migration → Migration) : Node :=
  { n with migrations := n.migrations.adjust id f }.publishMigrations leads (some id)

def quiet (id : Id) (f : Migration → Migration) : Node :=
  { n with migrations := n.migrations.adjust id f }

def sweep (id : Id) (fleet : Migration.Fleet) (now : ℤ) : Node :=
  match n.migrations.get? id with
  | none => n
  | some m =>
    if m.retires now then (n.retireMigration id).publishMigrations true none
    else if m.advance fleet now = m then n
    else (n.quiet id fun m => m.advance fleet now).publishMigrations true none

def applyRemoteMigration (id : Id) (value : Migration) (now : ℤ) : Node :=
  if !leads then { n with migrations := n.migrations.upsert id fun _ => value.shared }
  else
    match n.migrations.get? id with
    | none =>
      if n.retired.contains id then n.forget id
      else { n with migrations := n.migrations.upsert id fun _ => value.shared }
    | some _ => n.quiet id fun cur => cur.learn value now

def applyRemoteMigrationRemoval (id : Id) : Node :=
  if leads then n else { n with migrations := n.migrations.erase id }

/-- `hydrateMigrations`, once its scan is answered. A record that is held stays. -/
def hydrateMigrations (rows : OrdMap Id Migration) : Node :=
  { n with migrations := OrdMap.mergeWith (fun cur m => cur.getD m.shared) n.migrations rows }

end Node

structure State (ρ : Type) where
  nodes : ρ → Node
  store : OrdMap Id Migration := OrdMap.empty
  leader : Option ρ := none
  /-- The ids a leader has retired. -/
  gone : List Id := []

def State.start {ρ : Type} : State ρ := { nodes := fun _ => {} }

inductive Event (ρ : Type)
  | start (r : ρ) (id : Id) (restore : Bool) (transcriptId : Option JsString) (now : ℤ)
  | beginUpload (r : ρ) (id : Id)
  | uploadEmpty (r : ρ) (id : Id)
  | uploadFailed (r : ρ) (id : Id) (tooBig : Bool) (now : ℤ)
  | uploaded (r : ρ) (id : Id) (spool : JsString) (size : ℕ) (replica : JsString)
    (command : Option JsString) (now : ℤ)
  | packed (r : ρ) (id : Id) (spool : JsString) (size : ℕ) (missing : List JsString)
    (damaged : Bool) (command : JsString) (now : ℤ)
  | packFailed (r : ρ) (id : Id) (error : JsString) (now : ℤ)
  | detached (r : ρ) (id : Id)
  | refuse (r : ρ) (id : Id) (error : JsString)
  | sweep (r : ρ) (id : Id) (fleet : Migration.Fleet) (now : ℤ)
  | lead (r : ρ)
  | stepDown
  | restart (r : ρ)
  | scan (r : ρ) (i : ℕ)
  | scanFailed (r : ρ) (i : ℕ)
  | hydrate (r : ρ) (i : ℕ)
  | send (r : ρ)
  | sendFailed (r : ρ)
  | expire (id : Id)
  | deliver (r : ρ) (i : ℕ) (now : ℤ)
  | drop (r : ρ) (i : ℕ)

variable {ρ : Type} [DecidableEq ρ]

namespace State

def leads (s : State ρ) (r : ρ) : Bool := s.leader = some r

def held (s : State ρ) (r : ρ) (id : Id) : Option Migration := (s.nodes r).migrations.get? id

def onNode (s : State ρ) (r : ρ) (f : Node → Node) : State ρ :=
  { s with nodes := Function.update s.nodes r (f (s.nodes r)) }

def noteGone (s : State ρ) (r : ρ) (id : Option Id) : State ρ :=
  if s.leads r then { s with gone := id.toList ++ s.gone } else s

/-- A handler ends whose record is still the one in the map, as `holds` tells. -/
def handler (s : State ρ) (r : ρ) (id : Id) (holds : Migration → Bool)
    (f : Migration → Migration) (publishes : Migration → Bool) : State ρ :=
  match s.held r id with
  | none => s
  | some m =>
    if holds m then
      if publishes m then s.onNode r fun n => n.change (s.leads r) id f
      else s.onNode r fun n => n.quiet id f
    else s

def write (s : State ρ) (w : Write) : State ρ :=
  { s with
    store := w.2.elim (s.store.erase w.1) fun m => s.store.upsert w.1 fun _ => m
    nodes := fun r => { s.nodes r with inbox := (s.nodes r).inbox ++ [w] } }

/-- Whether an event may be delivered: those on the same key before it are. -/
def firstOfKey (inbox : List Write) (i : ℕ) (w : Write) : Bool :=
  inbox[i]? = some w && (inbox.take i).all fun w' => w'.1 ≠ w.1

def deliver (s : State ρ) (r : ρ) (i : ℕ) (now : ℤ) : State ρ :=
  match (s.nodes r).inbox[i]? with
  | none => s
  | some w =>
    if firstOfKey (s.nodes r).inbox i w then
      s.onNode r fun n =>
        let n := { n with inbox := n.inbox.eraseIdx i }
        match w.2 with
        | none => n.applyRemoteMigrationRemoval (s.leads r) w.1
        | some m => n.applyRemoteMigration (s.leads r) w.1 m now
    else s

end State

open State in
def step (s : State ρ) : Event ρ → State ρ
  | .start r id restore transcriptId now =>
    (s.onNode r fun n => n.start (s.leads r) id restore transcriptId now).noteGone r
      (s.nodes r).evicted
  | .beginUpload r id => s.onNode r fun n => n.quiet id Migration.beginUpload
  | .uploadEmpty r id =>
    s.handler r id (·.uploading) (fun m => { m with uploading := false }) fun _ => false
  | .uploadFailed r id tooBig now =>
    s.handler r id (·.uploading) (fun m => m.uploadFailed tooBig now) fun _ => true
  | .uploaded r id spool size replica command now =>
    s.handler r id (·.uploading) (fun m => m.uploaded spool size replica command now)
      fun m => m.phase = .exporting
  | .packed r id spool size missing damaged command now =>
    s.handler r id (·.packing) (fun m => m.packed spool size missing damaged command now)
      fun m => m.phase = .exporting
  | .packFailed r id error now =>
    s.handler r id (·.packing) (fun m => m.packFailed error now) fun _ => true
  | .detached r id => s.onNode r fun n => n.publishMigrations (s.leads r) (some id)
  | .refuse r id error => s.onNode r fun n => n.quiet id fun m => m.refuse error
  | .sweep r id fleet now =>
    if s.leads r then
      (s.onNode r fun n => n.sweep id fleet now).noteGone r
        ((s.held r id).bind fun m => if m.retires now then some id else none)
    else s
  | .lead r =>
    if s.leader = none then { s.onNode r fun n => { n with scans := n.scans ++ [.asked] } with leader := some r }
    else s
  | .stepDown => { s with leader := none }
  | .restart r =>
    { s with
      nodes := Function.update s.nodes r {}
      leader := if s.leads r then none else s.leader }
  | .scan r i =>
    match (s.nodes r).scans[i]? with
    | some .asked => s.onNode r fun n => { n with scans := n.scans.set i (.answered s.store) }
    | _ => s
  | .scanFailed r i => s.onNode r fun n => { n with scans := n.scans.eraseIdx i }
  | .hydrate r i =>
    match (s.nodes r).scans[i]? with
    | some (.answered rows) =>
      s.onNode r fun n => { n with scans := n.scans.eraseIdx i }.hydrateMigrations rows
    | _ => s
  | .send r =>
    match (s.nodes r).outbox with
    | [] => s
    | w :: rest => (s.onNode r fun n => { n with outbox := rest }).write w
  | .sendFailed r => s.onNode r fun n => { n with outbox := n.outbox.tail }
  | .expire id => { s with store := s.store.erase id }
  | .deliver r i now => s.deliver r i now
  | .drop r i => s.onNode r fun n => { n with inbox := n.inbox.eraseIdx i }

/-- A record in hand is not behind the row it is kept over, and no row brings back a retired id. -/
def RowMeets (s : State ρ) (row : Id × Migration) : Option Migration → Prop
  | none => row.1 ∉ s.gone
  | some m => migrationPhaseRank row.2.phase ≤ migrationPhaseRank m.phase

def ScanMeets (s : State ρ) (r : ρ) : Option Scan → Prop
  | some (.answered rows) => ∀ row ∈ rows.entries, RowMeets s row (s.held r row.1)
  | _ => True

def FailsDone (s : State ρ) (r : ρ) (id : Id) (holds : Migration → Bool) : Prop :=
  (s.held r id).any fun m => holds m && m.phase = .done

def BringsBack (s : State ρ) (r : ρ) (i : ℕ) : Prop :=
  (s.nodes r).inbox[i]?.any fun w =>
    w.2.isSome && s.held r w.1 = none && s.gone.contains w.1 && !(s.nodes r).retired.contains w.1

/-- Random ids are new, no handler of the leader fails a move that is done, and nothing a leader
retired comes to a leader: not as one is promoted, nor by its scan or its watch; and what the leader
has is not behind what its scan answered. -/
def Meets (s : State ρ) : Event ρ → Prop
  | .start r id .. => s.held r id = none ∧ id ∉ s.gone
  | .uploadFailed r id .. => s.leads r = true → ¬ FailsDone s r id (·.uploading)
  | .packFailed r id .. => s.leads r = true → ¬ FailsDone s r id (·.packing)
  | .lead r => s.leader = none → ∀ id ∈ s.gone, s.held r id = none
  | .hydrate r i => s.leads r = true → ScanMeets s r (s.nodes r).scans[i]?
  | .deliver r i _ => s.leads r = true → ¬ BringsBack s r i
  | _ => True

instance (s : State ρ) (row : Id × Migration) : ∀ o, Decidable (RowMeets s row o)
  | none => inferInstanceAs (Decidable (row.1 ∉ s.gone))
  | some m => inferInstanceAs (Decidable (_ ≤ migrationPhaseRank m.phase))

instance (s : State ρ) (r : ρ) : ∀ o, Decidable (ScanMeets s r o)
  | some (.answered rows) =>
    List.decidableBAll (fun row => RowMeets s row (s.held r row.1)) rows.entries
  | some .asked | none => isTrue trivial

instance (s : State ρ) (r : ρ) (id : Id) (holds : Migration → Bool) :
    Decidable (FailsDone s r id holds) := inferInstanceAs (Decidable (_ = true))

instance (s : State ρ) (r : ρ) (i : ℕ) : Decidable (BringsBack s r i) :=
  inferInstanceAs (Decidable (_ = true))

instance (s : State ρ) : ∀ e : Event ρ, Decidable (Meets s e)
  | .start r id .. => inferInstanceAs (Decidable (s.held r id = none ∧ id ∉ s.gone))
  | .uploadFailed r id .. =>
    inferInstanceAs (Decidable (s.leads r = true → ¬ FailsDone s r id (·.uploading)))
  | .packFailed r id .. =>
    inferInstanceAs (Decidable (s.leads r = true → ¬ FailsDone s r id (·.packing)))
  | .hydrate r i =>
    inferInstanceAs (Decidable (s.leads r = true → ScanMeets s r (s.nodes r).scans[i]?))
  | .deliver r i _ => inferInstanceAs (Decidable (s.leads r = true → ¬ BringsBack s r i))
  | .lead r =>
    @instDecidableForall _ _ _ (List.decidableBAll (fun id => s.held r id = none) s.gone)
  | .beginUpload .. | .uploadEmpty .. | .uploaded .. | .packed .. | .detached .. | .refuse ..
  | .sweep .. | .stepDown | .restart _ | .scan .. | .scanFailed .. | .send _ | .sendFailed _
  | .expire _ | .drop .. => isTrue trivial

end Turma.Migrations
