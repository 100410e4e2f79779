import Turma.Migrations.Replicas

/-! The end of a restore's pack. It writes to the record that was captured when the pack began, which
the map may have replaced by then. -/

namespace Turma.Migrations

open Turma.Lib JsString

def MIGRATE_BLOB_MAX : ℕ := 2 ^ 26 + 2 ^ 20

/-- What `packGzipTar` comes to: `missing` are the files that it skipped or found short. -/
inductive PackResult
  | packed (size : ℕ) (missing : List JsString)
  | failed (tooLarge : Bool)
deriving DecidableEq

def packError (tooLarge : Bool) : JsString :=
  ofString (if tooLarge then
    "this session's archived files are larger than the " ++ toString MIGRATE_BLOB_MAX ++
      "-byte bundle ceiling"
  else "packing the archived session failed")

def damagedError : JsString :=
  ofString "the archived conversation could not be packed intact"

/-- A pack that ends. `conversation` is the name of the transcript's own file. `command` is the id of
what is queued on the target, none where the target has no record. -/
structure PackEnd where
  result : PackResult
  conversation : JsString
  spool : JsString
  command : Option JsString
  now : ℤ
deriving DecidableEq

inductive Outcome
  | imports (command : JsString)
  | fails (error : JsString)
deriving DecidableEq

def PackEnd.outcome (x : PackEnd) : Outcome :=
  match x.result with
  | .failed tooLarge => .fails (packError tooLarge)
  | .packed _ missing =>
    if x.conversation ∈ missing then .fails damagedError
    else match x.command with
      | some command => .imports command
      -- `queueCommand` throws, and the rejection is handled as any other.
      | none => .fails (packError false)

def PackEnd.write (x : PackEnd) (m : Migration) : Migration :=
  match x.result with
  | .failed tooLarge => m.packFailed (packError tooLarge) x.now
  | .packed size missing =>
    if x.conversation ∈ missing then m.packed x.spool size missing true [] x.now
    else match x.command with
      | some command => m.packed x.spool size missing false command x.now
      | none =>
        { m with
          incomplete := if missing = [] then m.incomplete else some missing
          blobPath := some x.spool, blobSize := some size }.packFailed (packError false) x.now

/-- Whether the end is too late for the captured record `m`. -/
def PackEnd.late (x : PackEnd) (m : Migration) : Bool :=
  match x.result with
  | .failed _ => false
  | .packed .. => m.phase ≠ .exporting

/-- What the continuation leaves: the replica, the import it queued, whether the spool file is there,
and the failure it reported. -/
structure Ending where
  node : Node
  queued : Option JsString
  spoolLeft : Bool
  failure : Option JsString

/-- The continuation of `startArchiveRestore`, of a pack whose captured record is `m`. `attached`: it
is the record in the map. -/
def Node.packEnds (n : Node) (leads : Bool) (id : Id) (m : Migration) (attached : Bool)
    (x : PackEnd) : Ending :=
  if (n.migrations.get? id).isNone ∨ x.late m = true then
    ⟨if attached then n.quiet id fun m => { m with packing := false } else n, none, false, none⟩
  else
    let node := if attached then n.change leads id x.write else n.publishMigrations leads (some id)
    match x.outcome with
    | .imports command => ⟨node, some command, true, none⟩
    | .fails error => ⟨node, none, false, some error⟩

/-- The replicas, and the records that packs still hold though the maps do not. -/
structure Packs (ρ : Type) where
  hub : State ρ
  loose : ρ → OrdMap Id Migration

def Packs.start {ρ : Type} : Packs ρ := ⟨.start, fun _ => .empty⟩

/-- The records that a map had and that have been replaced in it, or dropped. -/
def loosened (before after loose : OrdMap Id Migration) : OrdMap Id Migration :=
  (before.entries.filter fun e => e.2.packing && !(after.get? e.1).any (·.packing)).foldl
    (fun loose e => loose.upsert e.1 fun _ => e.2) loose

inductive PackEvent (ρ : Type)
  | ended (r : ρ) (id : Id) (x : PackEnd)
  | other (e : Event ρ)

/-- The events that stand for the end of a pack, where its record is not looked at. -/
def Event.endsPack {ρ : Type} : Event ρ → Bool
  | .packed .. | .packFailed .. | .detached .. => true
  | _ => false

def Event.restarts {ρ : Type} [DecidableEq ρ] (r : ρ) : Event ρ → Bool
  | .restart r' => r' = r
  | _ => false

variable {ρ : Type} [DecidableEq ρ]

namespace Packs

/-- The record that a pack holds, and whether it is the one in the map. -/
def captured (p : Packs ρ) (r : ρ) (id : Id) : Option (Migration × Bool) :=
  if (p.hub.held r id).any (·.packing) then (p.hub.held r id).map (·, true)
  else ((p.loose r).get? id).map (·, false)

def ending (p : Packs ρ) (r : ρ) (id : Id) (m : Migration) (attached : Bool) (x : PackEnd) : Ending :=
  (p.hub.nodes r).packEnds (p.hub.leads r) id m attached x

def step (p : Packs ρ) : PackEvent ρ → Packs ρ
  | .ended r id x =>
    match p.captured r id with
    | none => p
    | some (m, attached) =>
      { hub := p.hub.onNode r fun _ => (p.ending r id m attached x).node
        loose := Function.update p.loose r ((p.loose r).erase id) }
  | .other e =>
    if e.endsPack then p
    else
      { hub := Migrations.step p.hub e
        loose := fun r =>
          if e.restarts r then .empty
          else loosened (p.hub.nodes r).migrations ((Migrations.step p.hub e).nodes r).migrations
            (p.loose r) }

end Packs

/-- The record says what the end of a pack comes to. -/
def Migration.Tells (m : Migration) (spool : JsString) : Outcome → Prop
  | .imports command =>
    m.phase = .importing ∧ m.blobPath = some spool ∧ m.importCmdId = some command
  | .fails error => m.phase = .failed ∧ m.error = some error

instance (m : Migration) (spool : JsString) : ∀ o, Decidable (m.Tells spool o)
  | .imports _ => inferInstanceAs (Decidable (_ ∧ _ ∧ _))
  | .fails _ => inferInstanceAs (Decidable (_ ∧ _))

/-- Of an import that is queued the map's record tells, and so does what is sent to the store. Where
none is queued, the spool file is gone, and of a failure the map's record tells. -/
def Ending.Agrees (before : Node) (id : Id) (spool : JsString) (out : Ending) : Prop :=
  (∀ command, out.queued = some command → ∃ m, out.node.migrations.get? id = some m ∧
    m.Tells spool (.imports command) ∧
    (id, some m.shared) ∈ out.node.outbox.drop before.outbox.length) ∧
  (out.queued = none → out.spoolLeft = false ∧ ∀ error, out.failure = some error →
    ∃ m, out.node.migrations.get? id = some m ∧ m.Tells spool (.fails error))

/-- A step agrees unless it is the end of a pack that does not. -/
def Agrees (p : Packs ρ) : PackEvent ρ → Prop
  | .ended r id x => ∀ m attached, p.captured r id = some (m, attached) →
    (p.ending r id m attached x).Agrees (p.hub.nodes r) id x.spool
  | .other _ => True

/-- When a pack ends in time, its record is still the one in the map, or the map has none, or the one
it has tells the same already. -/
def InHand (p : Packs ρ) : PackEvent ρ → Prop
  | .ended r id x => ∀ m, p.captured r id = some (m, false) → x.late m = false →
    ∀ cur, p.hub.held r id = some cur → cur.Tells x.spool x.outcome
  | .other _ => True

theorem packFailed_tells (m : Migration) (error spool : JsString) (now : ℤ) :
    (m.packFailed error now).Tells spool (.fails error) := by
  unfold Migration.packFailed Migration.dropBlob
  split <;> exact ⟨rfl, rfl⟩

variable {m : Migration} {x : PackEnd}

/-- In time, the captured record is made to tell what the end comes to. -/
theorem write_tells (h : x.late m = false) :
    (x.write m).Tells x.spool x.outcome := by
  unfold PackEnd.write PackEnd.outcome
  unfold PackEnd.late at h
  cases hresult : x.result with
  | failed tooLarge => exact packFailed_tells m _ _ _
  | packed size missing =>
    rw [hresult] at h
    have hphase : m.phase = .exporting := by simpa using h
    dsimp only
    by_cases hdamaged : x.conversation ∈ missing
    · rw [if_pos hdamaged, if_pos hdamaged]
      simp [Migration.packed, hphase, Migration.Tells, Migration.fail, damagedError]
    · rw [if_neg hdamaged, if_neg hdamaged]
      cases x.command with
      | some command => simp [Migration.packed, hphase, Migration.Tells]
      | none => exact packFailed_tells _ _ _ _

variable {n : Node}

/-- What is published tells of the record that the map has. -/
theorem publish_sends (leads : Bool) {id : Id}
    (h : n.migrations.get? id = some m) :
    (id, some m.shared) ∈ (n.publishMigrations leads (some id)).outbox.drop n.outbox.length := by
  have hdirty : id ∈ addTo n.dirty id := by
    unfold addTo
    split_ifs with hmem
    · simpa using hmem
    · simp
  change _ ∈ (n.outbox ++ _).drop n.outbox.length
  rw [List.drop_left, List.mem_map]
  refine ⟨(id, m), ?_, rfl⟩
  cases leads with
  | true => exact OrdMap.get?_eq_some.mp h
  | false =>
    rw [if_neg Bool.false_ne_true, List.mem_filterMap]
    exact ⟨id, hdirty, by rw [h]; rfl⟩

/-- An end that is published agrees exactly when the map's record tells of it. -/
theorem agrees_iff_tells (node : Node) {leads : Bool} {id : Id}
    (hget : node.migrations.get? id = some m) (hlen : node.outbox.length = n.outbox.length) :
    (match x.outcome with
      | .imports command => (⟨node.publishMigrations leads (some id), some command, true, none⟩ : Ending)
      | .fails error => ⟨node.publishMigrations leads (some id), none, false, some error⟩).Agrees n id
        x.spool ↔ m.Tells x.spool x.outcome := by
  have hsent := publish_sends leads hget
  rw [hlen] at hsent
  have hget' : (node.publishMigrations leads (some id)).migrations.get? id = some m := hget
  cases x.outcome with
  | imports command =>
    constructor
    · intro h
      obtain ⟨m', hm', htells, -⟩ := h.1 command rfl
      obtain rfl := Option.some.inj (hget'.symm.trans hm')
      exact htells
    · intro h
      refine ⟨fun command' hc => ?_, fun hnone => nomatch hnone⟩
      cases hc
      exact ⟨m, hget', h, hsent⟩
  | fails error =>
    constructor
    · intro h
      obtain ⟨m', hm', htells⟩ := (h.2 rfl).2 error rfl
      obtain rfl := Option.some.inj (hget'.symm.trans hm')
      exact htells
    · intro h
      refine ⟨fun command hc => (nomatch hc), fun _ => ⟨rfl, fun error' he => ?_⟩⟩
      cases he
      exact ⟨m, hget', h⟩

/-- Nothing to report, and no file left. -/
theorem agrees_late (n node : Node) (id : Id) (spool : JsString) :
    (⟨node, none, false, none⟩ : Ending).Agrees n id spool :=
  ⟨fun _ hc => (nomatch hc), fun _ => ⟨rfl, fun _ he => (nomatch he)⟩⟩

theorem attached_agrees {leads : Bool} {id : Id}
    (hm : n.migrations.get? id = some m) : (n.packEnds leads id m true x).Agrees n id x.spool := by
  unfold Node.packEnds
  cases hlate : x.late m with
  | true =>
    rw [if_pos (.inr rfl)]
    exact agrees_late _ _ _ _
  | false =>
    rw [if_neg (by simp [hm])]
    have hget : (n.quiet id x.write).migrations.get? id = some (x.write m) := by
      change (n.migrations.adjust id x.write).get? id = _
      rw [OrdMap.get?_adjust, if_pos rfl, hm]
      rfl
    exact (agrees_iff_tells (n.quiet id x.write) hget rfl).mpr (write_tells hlate)

theorem detached_agrees_iff {leads : Bool} {id : Id} :
    (n.packEnds leads id m false x).Agrees n id x.spool ↔
      (x.late m = false → ∀ cur, n.migrations.get? id = some cur → cur.Tells x.spool x.outcome) := by
  unfold Node.packEnds
  cases hcur : n.migrations.get? id with
  | none =>
    rw [if_pos (.inl rfl)]
    exact iff_of_true (agrees_late _ _ _ _) fun _ _ h => nomatch h
  | some cur =>
    cases hlate : x.late m with
    | true =>
      rw [if_pos (.inr rfl)]
      exact iff_of_true (agrees_late _ _ _ _) fun h => nomatch h
    | false =>
      rw [if_neg (by simp)]
      refine (agrees_iff_tells n hcur rfl).trans ?_
      simp

variable {ρ : Type} [DecidableEq ρ]

theorem agrees_iff_inHand (p : Packs ρ) (e : PackEvent ρ) : Agrees p e ↔ InHand p e := by
  cases e with
  | other e => exact Iff.rfl
  | ended r id x =>
    constructor
    · intro h m hm
      exact detached_agrees_iff.mp (h m false hm)
    · intro h m attached hm
      cases attached with
      | false => exact detached_agrees_iff.mpr (h m hm)
      | true =>
        refine attached_agrees ?_
        unfold Packs.captured at hm
        split_ifs at hm
        · obtain ⟨m', hm', heq⟩ := Option.map_eq_some_iff.mp hm
          obtain rfl := (Prod.mk.inj heq).1
          exact hm'
        · obtain ⟨m', -, heq⟩ := Option.map_eq_some_iff.mp hm
          exact nomatch (Prod.mk.inj heq).2

/-- In a run of the replicas every end of a pack agrees exactly when every one that is in time finds
its record in hand. -/
theorem restore_agrees_iff (es : List (PackEvent ρ)) :
    Along Packs.step Agrees .start es ↔ Along Packs.step InHand .start es :=
  along_congr (I := fun _ => True) _ (fun p e _ => agrees_iff_inHand p e) (fun _ _ _ _ => trivial)
    trivial

def restored : Id := ofString "0123456789abcdef"

def echoed : List (PackEvent Bool) :=
  [.other (.lead true), .other (.start false restored true none 0), .other (.send false),
    .other (.deliver false 0 0)]

def intact : PackEnd where
  result := .packed 1000 []
  conversation := ofString "c.jsonl"
  spool := ofString "0123456789abcdef.tgz"
  command := some (ofString "import1")
  now := 1000

def begunRestore : Migration :=
  { restore := true, transcriptId := none, packing := true, startedAt := 0, atMs := 0 }

/-- An import is queued, or the pack fails, while the map's record says that the pack goes on. -/
theorem restore_echo_disagrees :
    (∀ x, x = intact ∨ x = { intact with result := .failed false } →
      ((run Packs.step .start (echoed ++ [.ended false restored x])).hub.held false restored).map
        (·.phase) = some .exporting ∧
      ¬ Agrees (run Packs.step .start echoed) (.ended false restored x)) ∧
    ((run Packs.step .start echoed).ending false restored begunRestore false intact).queued =
      some (ofString "import1") := by
  have hcaptured : (run Packs.step .start echoed).captured false restored =
      some (begunRestore, false) := by decide
  have hheld : (run Packs.step .start echoed).hub.held false restored =
      some { begunRestore with packing := false } := by decide
  refine ⟨?_, by decide⟩
  intro x hx
  rw [agrees_iff_inHand]
  rcases hx with rfl | rfl
  · refine ⟨by decide, fun h => ?_⟩
    exact absurd (h _ hcaptured (by decide) _ hheld) (by decide)
  · refine ⟨by decide, fun h => ?_⟩
    exact absurd (h _ hcaptured (by decide) _ hheld) (by decide)

end Turma.Migrations
