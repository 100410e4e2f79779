import Turma.Lib.JsonEdit

/-! The hub's coercion of the usage blocks of a heartbeat or of a restored record:
`normalizeModelUsage`, `normalizeSubagentUsage`, `normalizeUsageTokens` and the walk of
`normalizeUsage` over the places where a block rides. A value edited in place is returned, and a
`TypeError` is a computation with no result. -/

namespace Turma.Usage

open Turma.Lib

def text (s : String) : JsString := JsString.ofString s

structure Tally where
  count : ℕ
  first : JsString
deriving DecidableEq

def Tally.zero : Tally := { count := 0, first := [] }

abbrev Coercing := StateT Tally Option

def noteUsageCoercion (place : JsString) : Coercing Unit :=
  modify fun t => { count := t.count + 1, first := if t.first = [] then place else t.first }

/-- `k in v`, which throws for a primitive. No key read here is a property of every array. -/
def isIn (k : JsString) : Json → Coercing Bool
  | .obj ms => pure ((Json.obj ms).has k)
  | .arr _ => pure false
  | _ => failure

def zero : Json := .num (.ofInt 0)

/-- `Number.isSafeInteger(v) && v >= 0`. -/
def usableFigure : Json → Bool
  | .num (.whole z _ _) => 0 ≤ z && z ≤ 2 ^ 53 - 1
  | _ => false

/-- A bare model name becomes an entry. -/
def namedModel : Json → Json
  | .str s => .obj (.cons (text "model") (.str s) .nil)
  | m => m

def hasName (m : Json) : Bool :=
  match m.field (text "model") with
  | some (.str s) => s ≠ []
  | _ => false

def normalizeModelUsage (usage : Json) : Coercing Json :=
  if usage.truthy = false then pure usage
  else
    match usage.field (text "models") with
    | some (.arr vs) =>
      pure (usage.put (text "models")
        (.arr (.ofList ((vs.toList.map namedModel).filter hasName))))
    | models => do
      if ← isIn (text "models") usage then
        -- a null is the agent saying that there is nothing to report
        if models ≠ some .null then noteUsageCoercion (text "models")
        pure (usage.without (text "models"))
      else pure usage

def windows : List JsString := [text "totals", text "today", text "week"]

def tokenKeys : List JsString :=
  [text "input", text "output", text "cacheWrite", text "cacheRead"]

/-- A figure of a sub-agent window: a missing one is 0, and an unusable one is none. -/
def subagentFigure : Option Json → Option Json
  | none | some .null => some zero
  | some v => if usableFigure v = true then some v else none

def subagentWindow (b : Json) : Option Json :=
  if b.objectish = true then
    (tokenKeys.mapM fun k => (subagentFigure (b.field k)).map fun v => (k, v)).map fun es =>
      .obj (.ofList es)
  else none

/-- The block as it is rebuilt, where all of it is usable. -/
def subagentBlock (s : Json) : Option Json :=
  if s.objectish = true then
    (windows.mapM fun w => ((s.field w).bind subagentWindow).map fun b => (w, b)).map fun es =>
      .obj (.ofList es)
  else none

def normalizeSubagentUsage (usage : Json) : Coercing Json :=
  match (usage.field (text "subagent")).bind subagentBlock with
  | some out => pure (usage.put (text "subagent") out)
  | none => pure (usage.without (text "subagent"))

/-- One of the four figures of the bucket at `key`. -/
def zeroUnusable (key : JsString) (bucket : Json) (k : JsString) : Coercing Json :=
  match bucket.field k with
  | none => pure bucket
  | some v =>
    if usableFigure v = true then pure bucket
    else do
      noteUsageCoercion (key ++ text "." ++ k)
      pure (bucket.put k zero)

def normalizeTokenBucket (owner : Json) (key : JsString) : Coercing Json :=
  match owner.field key with
  | none => pure owner
  | some bucket =>
    if bucket.objectish = true then do
      let bucket ← tokenKeys.foldlM (zeroUnusable key) bucket
      pure (owner.put key bucket)
    else do
      noteUsageCoercion key
      pure (owner.without key)

def normalizeWindows (owner : Json) : Coercing Json := windows.foldlM normalizeTokenBucket owner

def normalizeDays (usage : Json) : Coercing Json :=
  match usage.field (text "days") with
  | none => pure usage
  | some days =>
    if days.objectish = true then do
      let days ← days.memberKeys.foldlM normalizeTokenBucket days
      pure (usage.put (text "days") days)
    else do
      noteUsageCoercion (text "days")
      pure (usage.without (text "days"))

def normalizeModelWindows (usage : Json) : Coercing Json :=
  match usage.field (text "models") with
  | some (.arr vs) => do
    let vs ← vs.toList.mapM normalizeWindows
    pure (usage.put (text "models") (.arr (.ofList vs)))
  | _ => pure usage

/-- A member that is typed as a string, with what is noted where it is none. -/
def keepString (k place : JsString) (owner : Json) : Coercing Json :=
  match owner.field k with
  | none | some (.str _) => pure owner
  | some _ => do
    noteUsageCoercion place
    pure (owner.without k)

def normalizeUsageTokens (usage : Json) : Coercing Json :=
  if usage.objectish = false then pure usage
  else do
    let usage ← normalizeWindows usage
    let usage ← normalizeDays usage
    let usage ← normalizeModelWindows usage
    keepString (text "lastActivity") (text "lastActivity") usage

def normalizeUsageBlock (usage : Json) : Coercing Json := do
  let usage ← normalizeModelUsage usage
  let usage ← normalizeSubagentUsage usage
  normalizeUsageTokens usage

def dropUnusableUsage (owner : Json) : Coercing Json :=
  match owner.field (text "usage") with
  | none => pure owner
  | some usage =>
    if usage.objectish = true then pure owner
    else do
      if usage ≠ .null then noteUsageCoercion (text "usage")
      pure (owner.without (text "usage"))

/-- `normalizeUsageBlock(owner.usage)`: each walk returns at once where there is no usage. -/
def normalizeUsageOf (owner : Json) : Coercing Json :=
  match owner.field (text "usage") with
  | none => pure owner
  | some usage => do
    let usage ← normalizeUsageBlock usage
    pure (owner.put (text "usage") usage)

def normalizeSession (s : Json) : Coercing Json := do
  let s ← dropUnusableUsage s
  normalizeUsageOf s

def normalizeRepo (r : Json) : Coercing Json := do
  let r ← keepString (text "repo") (text "repoUsage.repo") r
  let r ← keepString (text "remoteKey") (text "repoUsage.remoteKey") r
  let r ← dropUnusableUsage r
  normalizeUsageOf r

def normalizeRepos (payload : Json) : Coercing Json :=
  match payload.field (text "repoUsage") with
  | none => pure payload
  | some (.arr vs) => do
    if vs.toList.all Json.objectish = false then noteUsageCoercion (text "repoUsage[]")
    let rs ← (vs.toList.filter Json.objectish).mapM normalizeRepo
    pure (payload.put (text "repoUsage") (.arr (.ofList rs)))
  | some _ => pure (payload.put (text "repoUsage") (.arr .nil))

def normalizeSessions (payload : Json) : Coercing Json :=
  match payload.field (text "sessions") with
  | some (.arr vs) => do
    let ss ← vs.toList.mapM normalizeSession
    pure (payload.put (text "sessions") (.arr (.ofList ss)))
  | _ => pure payload

def normalizePlaces (payload : Json) : Coercing Json := do
  let payload ← dropUnusableUsage payload
  let payload ← normalizeUsageOf payload
  let payload ← normalizeRepos payload
  normalizeSessions payload

def USAGE_COERCION_LOG_EVERY_MS : ℤ := 60 * 1000

/-- The throttle of the line, which all hosts share. -/
structure CoercionLog where
  usageCoercionLogAt : ℤ
  usageCoercionSuppressed : ℕ
deriving DecidableEq

mutual

/-- Whether `String(v)` throws: an object whose own `toString` hides the inherited one has no way
left to a primitive, and an array prints its elements. -/
def unprintable : Json → Bool
  | .obj ms => (Json.obj ms).has (text "toString")
  | .arr vs => unprintableAny vs
  | _ => false

def unprintableAny : JsonElements → Bool
  | .nil => false
  | .cons v vs => unprintable v || unprintableAny vs

end

/-- `payload.device || payload.agentId || "?"`. -/
def reporter (payload : Json) : Json :=
  let device := (payload.field (text "device")).getD .null
  let agentId := (payload.field (text "agentId")).getD .null
  if device.truthy = true then device else if agentId.truthy = true then agentId
  else .str (text "?")

def logUsageCoercion (now : ℤ) (payload : Json) (tally : Tally) (log : CoercionLog) :
    Option CoercionLog :=
  if tally.count = 0 then some log
  else if now - log.usageCoercionLogAt < USAGE_COERCION_LOG_EVERY_MS then
    some { log with usageCoercionSuppressed := log.usageCoercionSuppressed + 1 }
  else if unprintable (reporter payload) = true then none
  else some { usageCoercionLogAt := now, usageCoercionSuppressed := 0 }

def normalizeUsage (now : ℤ) (log : CoercionLog) (payload : Json) : Option (Json × CoercionLog) :=
  match normalizePlaces payload Tally.zero with
  | none => none
  | some (payload, tally) => (logUsageCoercion now payload tally log).map fun log => (payload, log)

end Turma.Usage
