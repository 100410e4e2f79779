import Turma.EpicRun.Runs

/-! The epic panel of the board beside the driver of the hub: what each takes a child's blockers for. -/

namespace Turma.EpicRun

open Turma.Lib Turma.Lib.Json List Option OrdMap

def isEpicOf (run : Json) (key : JsString) : Bool := get run .epicKey = some (.str key)

def kids (run : Json) : List JsString := listOf (get run .children)

inductive Category
  | todo
  | inprogress
  | review
  | done
deriving DecidableEq

/-- What the panel reads of a ticket besides its row: its summary, and whether the name of its status
reads as a review. -/
structure Display where
  summary : Row → JsString
  isReviewStatus : Row → Bool

def categoryOf (d : Display) (t : Row) : Category :=
  if t.statusCategory = some (text "done") then .done
  else if t.statusCategory = some (text "inprogress") then
    if d.isReviewStatus t = true then .review else .inprogress
  else .todo

/-- The tickets of an org, no org's where there is none. -/
structure Site where
  siteKey : JsString
  tickets : List Row

/-- The waiting tickets by org and key, and the states of each ticket's sessions. -/
structure ViewOpts where
  ticketQueue : List (JsString × JsString)
  sessionIndex : JsString → List JsString

def ViewOpts.queuedTicketOf (o : ViewOpts) (siteKey issueKey : JsString) : Bool :=
  o.ticketQueue.any fun q => q.1 = siteKey && q.2 = issueKey

def ViewOpts.ticketSessionsOf (o : ViewOpts) (siteKey key : JsString) : List JsString :=
  o.sessionIndex (ticketQueueKey siteKey key)

inductive ChildStatus
  | done
  | running
  | ready
  | blocked
deriving DecidableEq

namespace Panel

variable (run : Json) (site : Site) (o : ViewOpts) (d : Display)

def siteKey : JsString := if site.siteKey ≠ [] then site.siteKey else siteOf run

/-- `byKey`, where the last ticket of a key stands. -/
def byKey (k : JsString) : Option Row := site.tickets.reverse.find? fun t => t.key = k

def isDone (k : JsString) : Bool :=
  match byKey site k with
  | some t => categoryOf d t = .done
  | none => k ∈ listOf (get run .doneChildren)

def isRunning (k : JsString) : Bool :=
  o.queuedTicketOf (siteKey run site) k ||
    (o.ticketSessionsOf (siteKey run site) k).any fun s => s = text "running" || s = text "queued"

def isUnderway (k : JsString) : Bool :=
  match byKey site k with
  | some t => categoryOf d t = .inprogress || categoryOf d t = .review
  | none => false

def holds (b : JsString) : Bool :=
  (b ∈ kids run || (byKey site b).isSome) && !isDone run site d b

def statusOf (k : JsString) : ChildStatus :=
  if isDone run site d k = true then .done
  else if isRunning run site o k = true ∨ isUnderway site d k = true then .running
  else if k ∈ listOf (get run .cycle) then .blocked
  else
    let blockers := ((byKey site k).map Row.blockedBy).getD []
    let blockers := blockers.filter fun b => b ≠ [] ∧ b ≠ k ∧ isEpicOf run b = false
    if blockers.any (holds run site d) then .blocked else .ready

structure Node where
  key : JsString
  summary : JsString
  status : ChildStatus
  onBoard : Bool

def node (k : JsString) : Node :=
  { key := k
    summary := ((byKey site k).map d.summary).getD []
    status := statusOf run site o d k
    onBoard := (byKey site k).isSome }

end Panel

structure View where
  state : JsString
  paused : Bool
  total : ℕ
  counts : ChildStatus → ℕ
  waves : List (List Panel.Node)
  cycleChildren : List Panel.Node
  cycle : Bool
  maxConcurrent : Option ℤ

def View.nodes (v : View) : List Panel.Node := v.waves.flatten ++ v.cycleChildren

/-- A blocker of `child`, other than itself and the epic: one within the epic until it is done, one
outside of it while the board lists it and it is not done. -/
def Holds (run : Json) (rows : Rows) (child b : JsString) : Prop :=
  b ≠ [] ∧ b ≠ child ∧ isEpicOf run b = false ∧
    (b ∈ kids run ∨ rows.map.get? (ticketQueueKey (siteOf run) b) ≠ none) ∧
    epicRunChildDone run rows b = false

/-- The rows of an org, as the hub keeps them and as the board lists them. -/
structure Board (siteKey : JsString) where
  rows : Rows
  tickets : List Row
  same : ∀ key row, row ∈ tickets ∧ row.key = key ↔
    rows.map.get? (ticketQueueKey siteKey key) = some row

def Board.site {siteKey : JsString} (B : Board siteKey) : Site := ⟨siteKey, B.tickets⟩

variable {run : Json} {rows : Rows} {row : Row} {k b : JsString} {o : ViewOpts} {d : Display}

variable (B : Board (siteOf run))

def Idle (o : ViewOpts) (siteKey k : JsString) : Prop :=
  o.queuedTicketOf siteKey k = false ∧ o.ticketSessionsOf siteKey k = []

def Board.single (row : Row) : Board row.siteKey where
  rows := {
    map := OrdMap.empty.upsert (ticketQueueKey row.siteKey row.key) fun _ => row
    keyed := by
      rintro ⟨k, r⟩ he
      have hget := get?_eq_some.mpr he
      rw [get?_upsert] at hget
      split at hget
      · rename_i hk
        rw [← Option.some.inj hget]
        exact hk
      · cases hget }
  tickets := [row]
  same key r := by
    rw [get?_upsert, mem_singleton]
    by_cases hkey : key = row.key
    · rw [hkey, if_pos rfl]
      constructor
      · rintro ⟨rfl, -⟩
        rfl
      · intro h
        cases h
        exact ⟨rfl, rfl⟩
    · rw [if_neg (by simpa [ticketQueueKey] using hkey)]
      constructor
      · rintro ⟨rfl, h⟩
        exact absurd h.symm hkey
      · intro h
        cases h

def rowOf (key : String) (blockedBy : List JsString) : Row :=
  { siteKey := text "acme", key := text key, epicKey := some (text "E"), blockedBy := blockedBy
    statusCategory := some (text "todo") }

/-- What arming an epic leaves whose two children block each other. -/
def cyclicRun : Json :=
  orderedObject RunField.name runFields (armed (text "acme") (text "E")
    { children := [text "A", text "B"], waves := [], cycle := [text "A", text "B"], doneChildren := [] }
    none none (.whole 0 (by decide) (by decide)))

def armingRows : Rows where
  map := (OrdMap.empty.upsert (ticketQueueKey (text "acme") (text "A")) fun _ =>
      rowOf "A" [text "B"]).upsert (ticketQueueKey (text "acme") (text "B")) fun _ =>
      rowOf "B" [text "A"]
  keyed := by decide

theorem cyclicRun_armed :
    armEpicRun (text "acme") (text "E") armingRows none none (.whole 0 (by decide) (by decide)) =
      cyclicRun := by
  have hwaves : buildEpicWaves (epicChildRows (text "acme") (text "E") armingRows) =
      ([], [text "A", text "B"]) := by
    have hkeys : dedupe (((epicChildRows (text "acme") (text "E") armingRows).map Row.key).filter
        fun k => k ≠ []) = [text "A", text "B"] := by decide
    rw [buildEpicWaves, hkeys, layer, dif_pos (by decide)]
  have hplan : planOf (text "acme") (text "E") armingRows none =
      { children := [text "A", text "B"], waves := [], cycle := [text "A", text "B"]
        doneChildren := [] } := by
    rw [planOf, hwaves]
    decide
  rw [armEpicRun, map_none, hplan]
  rfl

def plain : Display := ⟨fun _ => [], fun _ => false⟩

end Turma.EpicRun
