import Turma.Lib.JsCut
import Turma.Lib.JsonEdit

/-! The epic runs of the hub: `sanitizeEpicRunRecord`, `buildEpicWaves`, and every function that
writes a run. A record is the JSON object that the code keeps, with its members in the order in which
the code assigned them. -/

namespace Turma.EpicRun

open Turma.Lib Turma.Lib.Json List

def text (s : String) : JsString := JsString.ofString s

def EPIC_RUN_CHILDREN_MAX : ℕ := 500

def EPIC_RUN_MAX_CONCURRENT_MAX : ℤ := 50

def EPIC_RUN_STATES : List JsString := [text "running", text "blocked", text "done"]

/-- The members of a run, in the order of the sanitiser. -/
inductive RunField
  | epicKey
  | siteKey
  | state
  | children
  | waves
  | startedAt
  | updatedAt
  | cycle
  | doneChildren
  | paused
  | maxConcurrent
deriving DecidableEq

def RunField.name : RunField → JsString
  | .epicKey => text "epicKey"
  | .siteKey => text "siteKey"
  | .state => text "state"
  | .children => text "children"
  | .waves => text "waves"
  | .startedAt => text "startedAt"
  | .updatedAt => text "updatedAt"
  | .cycle => text "cycle"
  | .doneChildren => text "doneChildren"
  | .paused => text "paused"
  | .maxConcurrent => text "maxConcurrent"

def runFields : List RunField :=
  [.epicKey, .siteKey, .state, .children, .waves, .startedAt, .updatedAt, .cycle, .doneChildren,
    .paused, .maxConcurrent]

abbrev get (r : Json) (f : RunField) : Option Json := r.field f.name

abbrev assign (r : Json) (f : RunField) (v : Json) : Json := r.put f.name v

def stringOf : Json → Option JsString
  | .str s => some s
  | _ => none

/-- The strings of a list, and nothing of anything else. -/
def listOf : Option Json → List JsString
  | some (.arr vs) => vs.toList.filterMap stringOf
  | _ => []

def strList (x : Option Json) : List JsString :=
  ((listOf x).filter fun s => s ≠ []).take EPIC_RUN_CHILDREN_MAX

def wavesOf : Option Json → List (List JsString)
  | some (.arr vs) =>
    ((vs.toList.take EPIC_RUN_CHILDREN_MAX).map fun w => strList (some w)).filter fun w => w ≠ []
  | _ => []

def strings (ss : List JsString) : Json := .arr (.ofList (ss.map .str))

def wavesJson (ws : List (List JsString)) : Json := .arr (.ofList (ws.map strings))

def nonempty (ss : List JsString) : Option Json := if ss = [] then none else some (strings ss)

def validEpicRunLimit : Json → Bool
  | .num (.whole n _ _) => 1 ≤ n && n ≤ EPIC_RUN_MAX_CONCURRENT_MAX
  | _ => false

/-- A number, or now. -/
def timeOr (now : JsNumber) : Option Json → Json
  | some (.num n) => .num n
  | _ => .num now

def sanitizedRun (now : JsNumber) (v : Json) : RunField → Option Json
  | .epicKey => ((get v .epicKey).bind stringOf).map fun s => .str (s.slice 64)
  | .siteKey => ((get v .siteKey).bind stringOf).map fun s => .str (s.slice 200)
  | .state => some (match (get v .state).bind stringOf with
    | some s => if s ∈ EPIC_RUN_STATES then .str s else .str (text "running")
    | none => .str (text "running"))
  | .children => some (strings (strList (get v .children)))
  | .waves => some (wavesJson (wavesOf (get v .waves)))
  | .startedAt => some (timeOr now (get v .startedAt))
  | .updatedAt => some (timeOr now (get v .updatedAt))
  | .cycle => nonempty (strList (get v .cycle))
  | .doneChildren => nonempty (strList (get v .doneChildren))
  | .paused => if get v .paused = some (.bool true) then some (.bool true) else none
  | .maxConcurrent => (get v .maxConcurrent).filter validEpicRunLimit

def named (x : Option Json) : Bool :=
  match x with
  | some (.str s) => s ≠ []
  | _ => false

def sanitizeEpicRunRecord (now : JsNumber) (v : Json) : Option Json :=
  if v.objectish = true ∧ named (get v .epicKey) = true ∧ named (get v .siteKey) = true then
    some (orderedObject RunField.name runFields (sanitizedRun now v))
  else none

/-- A ticket of the board, as far as the runs read it. -/
structure Row where
  siteKey : JsString
  key : JsString
  epicKey : Option JsString
  blockedBy : List JsString
  statusCategory : Option JsString
deriving DecidableEq

def ticketQueueKey (siteKey issueKey : JsString) : JsString :=
  siteKey ++ .scalar (Char.ofNat 0) :: issueKey

/-- `fleetTicketRows()`: each row stands under its own key. -/
structure Rows where
  map : OrdMap JsString Row
  keyed : ∀ e ∈ map.entries, e.1 = ticketQueueKey e.2.siteKey e.2.key

def dedupe (ss : List JsString) : List JsString := ss.reverse.dedup.reverse

/-- The blockers of each child within the set. -/
def blockersOf (childRows : List Row) (keys : List JsString) (k : JsString) : List JsString :=
  match childRows.reverse.find? fun r => r.key = k with
  | some r => r.blockedBy.filter fun b => b ∈ keys ∧ b ≠ k
  | none => []

/-- The children whose every blocker is placed. -/
def waveOf (blockers : JsString → List JsString) (placed remaining : List JsString) :
    List JsString :=
  remaining.filter fun k => (blockers k).all fun b => b ∈ placed

def unplaced (placed remaining : List JsString) : List JsString :=
  remaining.filter fun k => k ∉ placed

theorem length_unplaced_lt {blockers : JsString → List JsString} {placed remaining : List JsString}
    (h : waveOf blockers placed remaining ≠ []) :
    (unplaced (placed ++ waveOf blockers placed remaining) remaining).length < remaining.length := by
  obtain ⟨k, hk⟩ := exists_mem_of_ne_nil _ h
  have hmem : k ∈ remaining := (mem_filter.mp hk).1
  refine length_filter_lt_length_iff_exists.mpr ⟨k, hmem, ?_⟩
  simp [mem_append_right placed hk]

/-- The loop: a round with nothing to place leaves a cycle. -/
def layer (blockers : JsString → List JsString) (placed remaining : List JsString) :
    List (List JsString) × List JsString :=
  let wave := waveOf blockers placed remaining
  if _ : wave = [] then ([], remaining)
  else
    let rest := layer blockers (placed ++ wave) (unplaced (placed ++ wave) remaining)
    (wave :: rest.1, rest.2)
termination_by remaining.length
decreasing_by exact length_unplaced_lt (by assumption)

def buildEpicWaves (childRows : List Row) : List (List JsString) × List JsString :=
  let keys := dedupe ((childRows.map Row.key).filter fun k => k ≠ [])
  layer (blockersOf childRows keys) [] keys

def epicChildRows (siteKey epicKey : JsString) (rows : Rows) : List Row :=
  rows.map.values.filter fun r => r.siteKey = siteKey ∧ r.epicKey = some epicKey ∧ r.key ≠ epicKey

def siteOf (run : Json) : JsString := ((get run .siteKey).bind stringOf).getD []

def rowDone (row : Row) : Bool := row.statusCategory = some (text "done")

def epicRunChildDone (run : Json) (rows : Rows) (key : JsString) : Bool :=
  match rows.map.get? (ticketQueueKey (siteOf run) key) with
  | some row => rowDone row
  | none => key ∈ listOf (get run .doneChildren)

def epicRunAllChildrenDone (run : Json) (rows : Rows) : Bool :=
  let kids := listOf (get run .children)
  kids ≠ [] && kids.all (epicRunChildDone run rows)

/-- One of the members that come last, deleted and assigned again. -/
def reassign (run : Json) (f : RunField) : Json :=
  match get run f with
  | some v => assign (run.without f.name) f v
  | none => run

def orderEpicRunKeys (run : Json) : Json := [RunField.paused, .maxConcurrent].foldl reassign run

/-- The run, and whether the set changed. -/
def noteEpicRunDoneChildren (run : Json) (rows : Rows) : Json × Bool :=
  let next := (listOf (get run .children)).filter (epicRunChildDone run rows)
  if next = listOf (get run .doneChildren) then (run, false)
  else
    (orderEpicRunKeys (if next ≠ [] then assign run .doneChildren (strings next)
      else run.without (RunField.name .doneChildren)), true)

def advanceEpicRunState (run : Json) (rows : Rows) (now : JsNumber) : Json :=
  let noted := noteEpicRunDoneChildren run rows
  let run := noted.1
  let want := if listOf (get run .cycle) ≠ [] then (get run .state).getD .null
    else if epicRunAllChildrenDone run rows = true then .str (text "done") else .str (text "running")
  if get run .state = some want ∧ noted.2 = false then run
  else assign (assign run .state want) .updatedAt (.num now)

/-- The turn of one run in `epicRunDriveSweep`. -/
def driveEpicRun (run : Json) (rows : Rows) (now : JsNumber) : Json :=
  if get run .state = some (.str (text "done")) then run
  else if ((get run .paused).getD .null).truthy = true then (noteEpicRunDoneChildren run rows).1
  else advanceEpicRunState run rows now

/-- A run as `armEpicRun` rebuilds it. -/
structure Plan where
  children : List JsString
  waves : List (List JsString)
  cycle : List JsString
  doneChildren : List JsString
deriving DecidableEq

def planOf (siteKey epicKey : JsString) (rows : Rows) (prev : Option Json) : Plan :=
  let kids := epicChildRows siteKey epicKey rows
  let built := buildEpicWaves kids
  let onBoard := fun key => (rows.map.get? (ticketQueueKey siteKey key)).isSome
  let kept := (listOf (prev.bind fun p => get p .children)).filter fun key => onBoard key = false
  let children := (dedupe ((kids.map Row.key ++ kept).filter fun c => c ≠ [])).take EPIC_RUN_CHILDREN_MAX
  let keptSet := dedupe (kept.filter fun c => c ∈ children)
  let waves := (built.1.map fun w => w.filter fun c => c ∈ children).filter fun w => w ≠ []
  let waves := if keptSet = [] then waves
    else match waves with
      | w :: ws => (keptSet ++ w) :: ws
      | [] => [keptSet]
  let prevDone := listOf (prev.bind fun p => get p .doneChildren)
  let isDone := fun key =>
    if key ∈ keptSet then decide (key ∈ prevDone)
    else ((rows.map.get? (ticketQueueKey siteKey key)).map rowDone).getD false
  { children := children
    waves := waves
    cycle := built.2.filter fun c => c ∈ children
    doneChildren := children.filter isDone }

def Plan.state (p : Plan) : JsString :=
  if p.cycle ≠ [] then text "blocked"
  else if p.children ≠ [] ∧ p.doneChildren = p.children then text "done"
  else text "running"

/-- What an armed run holds. `opts` is `none` for `undefined`, and keeps the cap of the run before. -/
def armed (siteKey epicKey : JsString) (p : Plan) (prev : Option Json) (opts : Option Json)
    (now : JsNumber) : RunField → Option Json
  | .epicKey => some (.str epicKey)
  | .siteKey => some (.str siteKey)
  | .state => some (.str p.state)
  | .children => some (strings p.children)
  | .waves => some (wavesJson p.waves)
  | .startedAt => some (timeOr now (prev.bind fun r => get r .startedAt))
  | .updatedAt => some (.num now)
  | .cycle => nonempty p.cycle
  | .doneChildren => nonempty p.doneChildren
  | .paused =>
    if ((prev.bind fun r => get r .paused).getD .null).truthy = true then some (.bool true) else none
  | .maxConcurrent =>
    (opts.or (prev.bind fun r => get r .maxConcurrent)).filter validEpicRunLimit

def armEpicRun (siteKey epicKey : JsString) (rows : Rows) (prev : Option Json) (opts : Option Json)
    (now : JsNumber) : Json :=
  let prev := prev.map fun p => (noteEpicRunDoneChildren p rows).1
  orderedObject RunField.name runFields
    (armed siteKey epicKey (planOf siteKey epicKey rows prev) prev opts now)

def setEpicRunPaused (run : Json) (want : Bool) (now : JsNumber) : Json :=
  if ((get run .paused).getD .null).truthy = want then run
  else
    assign (orderEpicRunKeys (if want = true then assign run .paused (.bool true)
      else run.without (RunField.name .paused))) .updatedAt (.num now)

def setEpicRunLimit (run : Json) (limit : Json) (now : JsNumber) : Json :=
  let want := if validEpicRunLimit limit = true then some limit else none
  if get run .maxConcurrent = want then run
  else
    assign (match want with
      | some limit => assign run .maxConcurrent limit
      | none => run.without (RunField.name .maxConcurrent)) .updatedAt (.num now)

/-- What `epicRunCompleteSweep` makes of a run whose children are all done. -/
def completeEpicRun (run : Json) (now : JsNumber) : Json :=
  if get run .state = some (.str (text "done")) then run
  else assign (assign run .state (.str (text "done"))) .updatedAt (.num now)

abbrev EpicRuns := OrdMap JsString Json

def epicRunKey (siteKey epicKey : JsString) : JsString := siteKey ++ .scalar '/' :: epicKey

inductive RunEvent
  /-- With the runs that the bound of the map drops. -/
  | arm (siteKey epicKey : JsString) (rows : Rows) (opts : Option Json) (now : JsNumber)
      (evicted : List JsString)
  | clear (siteKey epicKey : JsString)
  | pause (siteKey epicKey : JsString) (want : Bool) (now : JsNumber)
  | limit (siteKey epicKey : JsString) (limit : Json) (now : JsNumber)
  /-- The turn of the run at `key` in a sweep. -/
  | drive (key : JsString) (rows : Rows) (now : JsNumber)
  | complete (key : JsString) (now : JsNumber)

def epicRunStep (epicRuns : EpicRuns) : RunEvent → EpicRuns
  | .arm siteKey epicKey rows opts now evicted =>
    let key := epicRunKey siteKey epicKey
    let run := armEpicRun siteKey epicKey rows (epicRuns.get? key) opts now
    (epicRuns.upsert key fun _ => run).filterKeys fun k => k = key ∨ k ∉ evicted
  | .clear siteKey epicKey => epicRuns.erase (epicRunKey siteKey epicKey)
  | .pause siteKey epicKey want now =>
    epicRuns.adjust (epicRunKey siteKey epicKey) fun run => setEpicRunPaused run want now
  | .limit siteKey epicKey limit now =>
    epicRuns.adjust (epicRunKey siteKey epicKey) fun run => setEpicRunLimit run limit now
  | .drive key rows now => epicRuns.adjust key fun run => driveEpicRun run rows now
  | .complete key now => epicRuns.adjust key fun run => completeEpicRun run now

end Turma.EpicRun
