import Turma.EpicPlan.Waves
import Turma.Lib.JsString

/-! The checks of a plan: exactly one epic, children that are named and typed, dependencies within
the plan and without loops, and a final child that all the others block. -/

namespace Turma.EpicPlan

open Turma.Lib List Option

inductive ErrorCode
  | notAnObject
  | epicMissing
  | noChildren
  | childNotObject
  | localIdMissing
  | localIdDuplicate
  | summaryMissing
  | repoMissing
  | issueTypeInvalid
  | blockedBySelf
  | blockedByDangling
  | cycle
  | finalNotBlockedByAll
deriving DecidableEq

structure PlanError where
  code : ErrorCode
  message : JsString
deriving DecidableEq

structure Verdict where
  valid : Bool
  errors : List PlanError
  waves : List (List JsString)
  cycle : List JsString
  finalId : Option JsString
deriving DecidableEq

def text (s : String) : JsString := .ofString s

def quoted (s : JsString) : JsString := .scalar '"' :: s ++ [.scalar '"']

/-- `JSON.stringify` within a message. -/
def shown (v : Option Json) : JsString :=
  match v with
  | some v => (stringify v).map .scalar
  | none => text "undefined"

def joined (names : List JsString) : JsString := (names.intersperse (text ", ")).flatten

def isNonEmptyString (v : Option Json) : Option JsString :=
  match v with
  | some (.str s) => if s.trim = [] then none else some s
  | _ => none

def isObject (v : Option Json) : Bool :=
  match v with
  | some (.obj _) => true
  | _ => false

/-- `plan.children`, where it is an array. -/
def childrenOf (plan : Json) : Option (List Json) :=
  match plan.field (text "children") with
  | some (.arr vs) => some vs.toList
  | _ => none

def childRow (c : Json) : ChildRow where
  key := if c.truthy = true then c.field (text "localId") else some c
  blockedBy := some (.arr (.ofList (elements (c.field (text "blockedBy")))))

def planChildRows (plan : Json) : List ChildRow := ((childrenOf plan).getD []).map childRow

/-- `waves(plan)` -/
def wavesOf (plan : Json) : Option Layout := layerWaves (planChildRows plan)

def finalChild (plan : Json) : Option Json := ((childrenOf plan).getD []).getLast?

def localId (c : Json) : Option JsString := isNonEmptyString (c.field (text "localId"))

def epicErrors (plan : Json) : List PlanError :=
  let epic := plan.field (text "epic")
  if isObject epic = false then
    [⟨.epicMissing, text "plan.epic must be an object with a summary"⟩]
  else if isNonEmptyString (epic.bind fun e => e.field (text "summary")) = none then
    [⟨.epicMissing, text "plan.epic.summary must be a non-empty string"⟩]
  else []

def childrenErrors (plan : Json) : List PlanError :=
  match childrenOf plan with
  | none => [⟨.noChildren, text "plan.children must be an array"⟩]
  | some [] => [⟨.noChildren, text "plan.children must not be empty"⟩]
  | some _ => []

/-- The loop that makes `ids`. -/
def idErrors (ids dup : List JsString) : List Json → List PlanError
  | [] => []
  | c :: cs =>
    if isObject (some c) = false then
      ⟨.childNotObject, text "each child must be an object"⟩ :: idErrors ids dup cs
    else
      match localId c with
      | none => ⟨.localIdMissing, text "each child needs a non-empty localId"⟩ :: idErrors ids dup cs
      | some id =>
        if id ∈ ids ∧ id ∉ dup then
          ⟨.localIdDuplicate, text "duplicate localId " ++ quoted id⟩ ::
            idErrors (ids ++ [id]) (dup ++ [id]) cs
        else idErrors (ids ++ [id]) dup cs

def blockedByErrors (ids : List JsString) (id : JsString) (bs : List Json) : List PlanError :=
  bs.filterMap fun b =>
    if b = .str id then
      some ⟨.blockedBySelf, text "child " ++ quoted id ++ text " cannot block itself"⟩
    else if b ∈ ids.map .str then none
    else some ⟨.blockedByDangling,
      text "child " ++ quoted id ++ text " is blocked by unknown localId " ++ shown (some b)⟩

def childErrors (lower : JsString → JsString) (ids : List JsString) (c : Json) : List PlanError :=
  match localId c with
  | none => []
  | some id =>
    (if isNonEmptyString (c.field (text "summary")) = none then
      [⟨.summaryMissing, text "child " ++ quoted id ++ text " needs a non-empty summary"⟩] else []) ++
    (if isNonEmptyString (c.field (text "repo")) = none then
      [⟨.repoMissing,
        text "child " ++ quoted id ++ text " needs a non-empty repo (its work's repository)"⟩]
      else []) ++
    (if (isNonEmptyString (c.field (text "issueType"))).any
        (fun t => lower t.trim ∈ [text "task", text "story"]) = false then
      [⟨.issueTypeInvalid, text "child " ++ quoted id ++ text " issueType must be one of Task/Story " ++
        text "(got " ++ shown (c.field (text "issueType")) ++ text ")"⟩] else []) ++
    blockedByErrors ids id (elements (c.field (text "blockedBy")))

def missing (cs : List Json) (final : Json) (finalId : JsString) : List JsString :=
  let blockedBy := (elements (final.field (text "blockedBy"))).filter (· ≠ .str finalId)
  (cs.filterMap localId).filter fun id => id ≠ finalId ∧ .str id ∉ blockedBy

def finalErrors (cs : List Json) (final : Option Json) : List PlanError :=
  match final with
  | none => []
  | some final =>
    match localId final with
    | none => []
    | some finalId =>
      if 1 < cs.length ∧ missing cs final finalId ≠ [] then
        [⟨.finalNotBlockedByAll, text "final child " ++ quoted finalId ++
          text " must be blocked by every other child; missing: " ++
            joined (missing cs final finalId)⟩]
      else []

def cycleErrors (cycle : List JsString) : List PlanError :=
  if cycle = [] then [] else [⟨.cycle, text "dependency cycle among children: " ++ joined cycle⟩]

def planErrors (lower : JsString → JsString) (plan : Json) (cycle : List JsString) : List PlanError :=
  let cs := (childrenOf plan).getD []
  epicErrors plan ++ childrenErrors plan ++ idErrors [] [] cs ++
    cs.flatMap (childErrors lower (cs.filterMap localId)) ++ cycleErrors cycle ++
      finalErrors cs (finalChild plan)

/-- `none` is that the layering does not come to its end. -/
def validateEpicPlan (lower : JsString → JsString) (plan : Option Json) : Option Verdict :=
  match plan with
  | some (.obj ms) =>
    (wavesOf (.obj ms)).map fun out =>
      { valid := planErrors lower (.obj ms) out.cycle = []
        errors := planErrors lower (.obj ms) out.cycle
        waves := out.waves
        cycle := out.cycle
        finalId := (finalChild (.obj ms)).bind localId }
  | _ => some ⟨false, [⟨.notAnObject, text "plan must be an object"⟩], [], [], none⟩

theorem localId_eq_some {c : Json} {id : JsString} (h : localId c = some id) :
    c.field (text "localId") = some (.str id) ∧ id ≠ [] := by
  unfold localId isNonEmptyString at h
  split at h
  · rename_i s hs
    split_ifs at h with htrim
    cases h
    refine ⟨hs, ?_⟩
    rintro rfl
    exact htrim rfl
  · cases h

theorem ownKey_childRow {c : Json} {id : JsString} (h : localId c = some id) :
    (childRow c).ownKey = some id := by
  obtain ⟨hfield, hne⟩ := localId_eq_some h
  have htruthy : c.truthy = true := by
    cases c with
    | obj ms => rfl
    | _ => cases hfield
  rw [ChildRow.ownKey, childRow, if_pos htruthy, hfield]
  exact if_neg hne

/-- Every child has a localId of its own. -/
theorem idErrors_eq_nil {ids : List JsString} {cs : List Json} (h : idErrors ids [] cs = []) :
    (∀ c ∈ cs, ∃ id, localId c = some id) ∧ (cs.filterMap localId).Nodup ∧
      ∀ id ∈ cs.filterMap localId, id ∉ ids := by
  induction cs generalizing ids with
  | nil => exact ⟨fun c hc => absurd hc not_mem_nil, nodup_nil,
      fun id hid => absurd hid not_mem_nil⟩
  | cons c cs ih =>
    rw [idErrors] at h
    split_ifs at h with hobj
    cases hid : localId c with
    | none => simp [hid] at h
    | some id =>
      rw [hid] at h
      dsimp only at h
      split_ifs at h with hdup
      have hnew : id ∉ ids := fun hmem => hdup ⟨hmem, not_mem_nil⟩
      obtain ⟨hall, hnodup, hapart⟩ := ih h
      rw [filterMap_cons, hid]
      refine ⟨fun c' hc' => ?_, nodup_cons.mpr ⟨fun hmem => ?_, hnodup⟩, fun id' hid' => ?_⟩
      · rcases mem_cons.mp hc' with rfl | hc'
        · exact ⟨id, hid⟩
        · exact hall c' hc'
      · exact hapart id hmem (by simp)
      · rcases mem_cons.mp hid' with rfl | hid'
        · exact hnew
        · exact fun hmem => hapart id' hid' (mem_append_left _ hmem)

theorem byKey_last {cs : List Json} {final : Json} {finalId : JsString}
    (hlast : cs.getLast? = some final) (hid : localId final = some finalId) :
    byKey (cs.map childRow) finalId = some (childRow final) := by
  obtain ⟨init, rfl⟩ := getLast?_eq_some_iff.mp hlast
  rw [byKey, map_append, reverse_append]
  exact find?_cons_of_pos (decide_eq_true (ownKey_childRow hid))

theorem planErrors_eq_nil {lower : JsString → JsString} {plan : Json} {cycle : List JsString}
    (h : planErrors lower plan cycle = []) :
    ∃ cs, childrenOf plan = some cs ∧ cs ≠ [] ∧ (∀ c ∈ cs, ∃ id, localId c = some id) ∧
      cycle = [] ∧ finalErrors cs (finalChild plan) = [] := by
  rw [planErrors] at h
  simp only [append_eq_nil_iff] at h
  obtain ⟨⟨⟨⟨⟨-, hchildren⟩, hids⟩, -⟩, hcycle⟩, hfinal⟩ := h
  have hempty : cycle = [] := by
    by_contra hne
    rw [cycleErrors, if_neg hne] at hcycle
    cases hcycle
  cases hcs : childrenOf plan with
  | none =>
    rw [childrenErrors, hcs] at hchildren
    cases hchildren
  | some cs =>
    rw [hcs, getD_some] at hids hfinal
    refine ⟨cs, rfl, ?_, (idErrors_eq_nil hids).1, hempty, hfinal⟩
    rintro rfl
    rw [childrenErrors, hcs] at hchildren
    cases hchildren

/-- Without errors, all the others block the final child. -/
theorem sink_of_valid {cs : List Json} {final : Json} {finalId : JsString}
    (hids : ∀ c ∈ cs, ∃ id, localId c = some id) (hlast : cs.getLast? = some final)
    (hfinal : localId final = some finalId) (hok : finalErrors cs (some final) = []) :
    ∀ k ∈ keysOf (cs.map childRow), k ≠ finalId →
      k ∈ blockersOf (cs.map childRow) finalId := by
  intro k hk hne
  obtain ⟨r, hr, hkey⟩ := mem_keysOf.mp hk
  obtain ⟨c, hc, rfl⟩ := List.mem_map.mp hr
  obtain ⟨id, hid⟩ := hids c hc
  obtain rfl : id = k := some.inj ((ownKey_childRow hid).symm.trans hkey)
  have hmissing : missing cs final finalId = [] := by
    by_contra hsome
    have htwo : 1 < cs.length := by
      by_contra hone
      obtain ⟨init, rfl⟩ := getLast?_eq_some_iff.mp hlast
      obtain rfl : init = [] := by
        rw [length_append, length_singleton] at hone
        exact length_eq_zero_iff.mp (by omega)
      rw [nil_append, mem_singleton] at hc
      rw [hc, hfinal] at hid
      exact hne (some.inj hid).symm
    rw [finalErrors, hfinal] at hok
    dsimp only at hok
    rw [if_pos ⟨htwo, hsome⟩] at hok
    cases hok
  have hblocks : .str id ∈ elements (final.field (text "blockedBy")) := by
    rw [missing, filter_eq_nil_iff] at hmissing
    have hin := hmissing id (mem_filterMap.mpr ⟨c, hc, hid⟩)
    rw [decide_eq_true_eq, not_and_not_right] at hin
    exact (mem_filter.mp (hin hne)).1
  refine mem_blockersOf.mpr ⟨?_, hk, hne⟩
  rw [byKey_last hlast hfinal, bind_some, childRow, elements, JsonElements.toList_ofList]
  exact hblocks

theorem validateEpicPlan_waves (lower : JsString → JsString) (plan : Option Json) :
    ∃ verdict, validateEpicPlan lower plan = some verdict ∧
      (verdict.valid = true → verdict.cycle = [] ∧
        ∃ final, verdict.finalId = some final ∧ verdict.waves.getLast? = some [final]) := by
  unfold validateEpicPlan
  split
  · rename_i ms
    obtain ⟨out, hout, hlayered⟩ := layerWaves_layered (planChildRows (.obj ms))
    rw [wavesOf, hout]
    refine ⟨_, rfl, fun hvalid => ?_⟩
    obtain ⟨cs, hcs, hne, hids, hcycle, hok⟩ := planErrors_eq_nil (of_decide_eq_true hvalid)
    refine ⟨hcycle, ?_⟩
    obtain ⟨final, hlast⟩ := ne_none_iff_exists'.mp (mt getLast?_eq_none_iff.mp hne)
    obtain ⟨finalId, hfinal⟩ := hids final (mem_of_getLast? hlast)
    have hchild : finalChild (.obj ms) = some final := by rw [finalChild, hcs, getD_some, hlast]
    rw [hchild] at hok ⊢
    refine ⟨finalId, hfinal, ?_⟩
    rw [planChildRows, hcs, getD_some] at hlayered
    refine hlayered.last (nodup_eraseDups _) hcycle ?_ (sink_of_valid hids hlast hfinal hok)
    exact mem_keysOf.mpr ⟨_, List.mem_map_of_mem (mem_of_getLast? hlast), ownKey_childRow hfinal⟩
  · exact ⟨_, rfl, fun hvalid => nomatch hvalid⟩

/-- The layering of all rows, and of a plan that is valid. -/
theorem layerWaves_exact :
    (∀ childRows : List ChildRow, ∃ out, layerWaves childRows = some out ∧
      (out.waves.flatten ++ out.cycle).Nodup ∧
      (∀ k, k ∈ out.waves.flatten ++ out.cycle ↔ ∃ r ∈ childRows, r.key = some (.str k) ∧ k ≠ []) ∧
      (∀ k ∈ out.waves.flatten ++ out.cycle, ∀ i,
        (∃ wave, out.waves[i]? = some wave ∧ k ∈ wave) ↔ Depth (blockersOf childRows) k i) ∧
      ∀ k ∈ out.waves.flatten ++ out.cycle,
        k ∈ out.cycle ↔ ReachesCycle (blockersOf childRows) k) ∧
    ∀ (lower : JsString → JsString) (plan : Option Json), ∃ verdict,
      validateEpicPlan lower plan = some verdict ∧
        (verdict.valid = true → verdict.cycle = [] ∧
          ∃ final, verdict.finalId = some final ∧ verdict.waves.getLast? = some [final]) := by
  refine ⟨fun childRows => ?_, validateEpicPlan_waves⟩
  obtain ⟨out, hout, hlayered⟩ := layerWaves_layered childRows
  have hmem : ∀ {k}, k ∈ out.waves.flatten ++ out.cycle ↔ k ∈ keysOf childRows :=
    hlayered.once.mem_iff
  refine ⟨out, hout, hlayered.once.nodup_iff.mpr (nodup_eraseDups _), fun k => ?_,
    fun k hk => hlayered.wave k (hmem.mp hk), fun k hk => ?_⟩
  · rw [hmem, mem_keysOf]
    refine exists_congr fun r => and_congr_right fun _ => ?_
    unfold ChildRow.ownKey
    split
    · rename_i s hs
      rw [hs]
      split_ifs with hempty
      · simp [hempty]
      · simp only [some.injEq, Json.str.injEq]
        exact ⟨fun h => ⟨h, h ▸ hempty⟩, And.left⟩
    · rename_i hother
      exact ⟨(nomatch ·), fun h => absurd h.1 (hother k)⟩
  · rw [hlayered.cycle]
    exact ⟨And.right, fun h => ⟨hmem.mp hk, h⟩⟩

def sampleChild (id : String) (blockedBy : List String) : Json :=
  .obj (.ofList [(text "localId", .str (text id)), (text "summary", .str (text "s")),
    (text "repo", .str (text "r")), (text "issueType", .str (text "task")),
    (text "blockedBy", .arr (.ofList (blockedBy.map fun b => .str (text b))))])

/-- `w2` and `w3` wait for `w1`, and the final child for them all. -/
def diamond : Json :=
  .obj (.ofList [(text "epic", .obj (.ofList [(text "summary", .str (text "e"))])),
    (text "children", .arr (.ofList [sampleChild "w1" [], sampleChild "w2" ["w1"],
      sampleChild "w3" ["w1"], sampleChild "w4" ["w1", "w2", "w3"]]))])

theorem layerWaves_exact_diamond : ∃ verdict, validateEpicPlan (fun s => s) (some diamond) =
    some verdict ∧ verdict.cycle = [] ∧ verdict.waves.getLast? = some [text "w4"] := by
  obtain ⟨verdict, hverdict, hlast⟩ := layerWaves_exact.2 (fun s => s) (some diamond)
  have hvalid : (validateEpicPlan (fun s => s) (some diamond)).map (fun v => (v.valid, v.finalId)) =
      some (true, some (text "w4")) := by decide
  rw [hverdict] at hvalid
  obtain ⟨hok, hfinal⟩ := Prod.mk.inj (some.inj hvalid)
  obtain ⟨hcycle, final, hid, hwaves⟩ := hlast hok
  rw [hfinal] at hid
  exact ⟨verdict, hverdict, hcycle, some.inj hid ▸ hwaves⟩

end Turma.EpicPlan
