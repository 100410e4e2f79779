import Turma.EpicRun.RunsFixed

/-! The builder runs of the hub: `sanitizeEpicBuilderRecord`, the route that arms one, its turn in
`epicBuilderDriveSweep` and `advanceEpicBuilder`. The sanitiser's order is the order in which a
builder usually gains its members, and two sequences of reports leave it. -/

namespace Turma.EpicRun

open Turma.Lib Turma.Lib.Json List Option OrdMap

def EPIC_BUILDER_STATES : List JsString :=
  [text "queued", text "researching", text "creating", text "done", text "failed"]

def EPIC_BUILDER_TITLE_MAX : ℕ := 500

inductive BuilderField
  | id
  | siteKey
  | title
  | idea
  | state
  | startedAt
  | updatedAt
  | repo
  | targetHost
  | host
  | dispatchedAt
  | epicKey
  | error
deriving DecidableEq

def BuilderField.name : BuilderField → JsString
  | .id => text "id"
  | .siteKey => text "siteKey"
  | .title => text "title"
  | .idea => text "idea"
  | .state => text "state"
  | .startedAt => text "startedAt"
  | .updatedAt => text "updatedAt"
  | .repo => text "repo"
  | .targetHost => text "targetHost"
  | .host => text "host"
  | .dispatchedAt => text "dispatchedAt"
  | .epicKey => text "epicKey"
  | .error => text "error"

def builderFields : List BuilderField :=
  [.id, .siteKey, .title, .idea, .state, .startedAt, .updatedAt, .repo, .targetHost, .host,
    .dispatchedAt, .epicKey, .error]

abbrev read (r : Json) (f : BuilderField) : Option Json := r.field f.name

abbrev write (r : Json) (f : BuilderField) (v : Json) : Json := r.put f.name v

/-- A string with something in it, cut to `n` units. -/
def cut (n : ℕ) : Option Json → Option Json
  | some (.str s) => if s = [] then none else some (.str (s.slice n))
  | _ => none

def sanitizedBuilder (now : JsNumber) (v : Json) : BuilderField → Option Json
  | .id => cut 64 (read v .id)
  | .siteKey => cut 200 (read v .siteKey)
  | .title => cut 500 (read v .title)
  | .idea => some (match read v .idea with
    | some (.str s) => .str (s.slice 8000)
    | _ => .str [])
  | .state => some (match read v .state with
    | some (.str s) => if s ∈ EPIC_BUILDER_STATES then .str s else .str (text "queued")
    | _ => .str (text "queued"))
  | .startedAt => some (timeOr now (read v .startedAt))
  | .updatedAt => some (timeOr now (read v .updatedAt))
  | .repo => cut 200 (read v .repo)
  | .targetHost => cut 200 (read v .targetHost)
  | .host => cut 200 (read v .host)
  | .dispatchedAt => match read v .dispatchedAt with
    | some (.num n) => some (.num n)
    | _ => none
  | .epicKey => cut 64 (read v .epicKey)
  | .error => cut 500 (read v .error)

def sanitizeEpicBuilderRecord (now : JsNumber) (v : Json) : Option Json :=
  if v.objectish = true ∧ named (read v .id) = true ∧ named (read v .siteKey) = true ∧
      named (read v .title) = true then
    some (orderedObject BuilderField.name builderFields (sanitizedBuilder now v))
  else none

/-- `crypto.randomBytes(8).toString("hex")`, of the number that the bytes spell. -/
def hexId (n : ℕ) : JsString :=
  (List.range 16).map fun i => .scalar (n / 16 ^ (15 - i) % 16).digitChar

/-- What the route was sent, past its checks of the types. -/
structure BuilderRequest where
  title : JsString
  idea : JsString
  repo : Option JsString
  targetHost : Option JsString
deriving DecidableEq

def armedBuilder (ideaMax : ℕ) (id siteKey : JsString) (q : BuilderRequest) (now : JsNumber) :
    BuilderField → Option Json
  | .id => some (.str id)
  | .siteKey => some (.str siteKey)
  | .title => some (.str (q.title.slice EPIC_BUILDER_TITLE_MAX))
  | .idea => some (.str (q.idea.slice ideaMax))
  | .state => some (.str (text "queued"))
  | .startedAt => some (.num now)
  | .updatedAt => some (.num now)
  | .repo => cut 200 (q.repo.map .str)
  | .targetHost => cut 200 (q.targetHost.map .str)
  | _ => none

def armEpicBuilder (ideaMax : ℕ) (id siteKey : JsString) (q : BuilderRequest) (now : JsNumber) : Json :=
  orderedObject BuilderField.name builderFields (armedBuilder ideaMax id siteKey q now)

/-- The checks of the route on the texts, with the title trimmed. -/
def requestBuilder (ideaMax : ℕ) (id siteKey : JsString) (q : BuilderRequest) (now : JsNumber) :
    Option Json :=
  let title := q.title.trim
  if title = [] ∨ q.idea.trim = [] ∨ EPIC_BUILDER_TITLE_MAX < title.length16 ∨
      200 < (q.repo.getD []).length16 ∨ 200 < (q.targetHost.getD []).length16 ∨
      ideaMax < q.idea.length16 then none
  else some (armEpicBuilder ideaMax id siteKey { q with title := title } now)

/-- Whether the sweep looks for a host: the run still waits for its builder, and no host holds it
or the host that does has lost its claim. -/
def dispatches (run : Json) (lapsed : Bool) : Bool :=
  decide (read run .state = some (.str (text "queued"))) &&
    (!((read run .host).getD .null).truthy || lapsed)

/-- The turn of one builder, where `lapsed` is `epicBuilderClaimLapsed` and `pick` the host that is
found for it and not yet used in the pass. -/
def driveEpicBuilder (run : Json) (lapsed : Bool) (pick : Option JsString) (now : JsNumber) : Json :=
  if dispatches run lapsed = false then run
  else
    let run := if ((read run .host).getD .null).truthy = true then
        write ((run.without (BuilderField.name .host)).without (BuilderField.name .dispatchedAt))
          .updatedAt (.num now)
      else run
    match pick with
    | some host => write (write (write run .host (.str host)) .dispatchedAt (.num now)) .updatedAt (.num now)
    | none => run

/-- What a host reports of a builder, past `normalizeEpicBuilderStatus`. -/
structure Report where
  state : JsString
  epicKey : Option JsString
  error : Option JsString
deriving DecidableEq

def reportedError (q : Report) : JsString := (q.error.map (JsString.slice 500)).getD []

/-- Each of the three writes, with whether it changed anything. -/
def writeState (run : Json) (q : Report) : Json × Bool :=
  if read run .state = some (.str q.state) then (run, false)
  else (write run .state (.str q.state), true)

def writeEpicKey (run : Json) (q : Report) : Json × Bool :=
  match q.epicKey with
  | some key =>
    if key ≠ [] ∧ read run .epicKey ≠ some (.str key) then
      (write run .epicKey (.str (key.slice 64)), true)
    else (run, false)
  | none => (run, false)

def writeError (run : Json) (q : Report) : Json × Bool :=
  if q.state = text "failed" then
    let e := reportedError q
    if read run .error = some (.str e) then (run, false)
    else (write run .error (.str (if e = [] then text "builder reported a failure" else e)), true)
  else if ((read run .error).getD .null).truthy = true then
    (run.without (BuilderField.name .error), true)
  else (run, false)

def advanceEpicBuilder (run : Json) (hostKey : JsString) (q : Report) (now : JsNumber) : Json :=
  if read run .host ≠ some (.str hostKey) ∨ q.state ∉ EPIC_BUILDER_STATES then run
  else
    let stated := writeState run q
    let keyed := writeEpicKey stated.1 q
    let noted := writeError keyed.1 q
    if (stated.2 || keyed.2 || noted.2) = true then write noted.1 .updatedAt (.num now) else noted.1

abbrev EpicBuilders := OrdMap JsString Json

inductive BuilderEvent
  /-- With the builders that the bound of the map drops. -/
  | arm (random : ℕ) (siteKey : JsString) (q : BuilderRequest) (now : JsNumber)
      (evicted : List JsString)
  | clear (id : JsString)
  | drive (id : JsString) (lapsed : Bool) (pick : Option JsString) (now : JsNumber)
  | report (id hostKey : JsString) (q : Report) (now : JsNumber)

def epicBuilderStep (ideaMax : ℕ) (epicBuilders : EpicBuilders) : BuilderEvent → EpicBuilders
  | .arm random siteKey q now evicted =>
    match requestBuilder ideaMax (hexId random) siteKey q now with
    | some run =>
      (epicBuilders.upsert (hexId random) fun _ => run).filterKeys fun k => k = hexId random ∨ k ∉ evicted
    | none => epicBuilders
  | .clear id => epicBuilders.erase id
  | .drive id lapsed pick now => epicBuilders.adjust id fun run => driveEpicBuilder run lapsed pick now
  | .report id hostKey q now => epicBuilders.adjust id fun run => advanceEpicBuilder run hostKey q now

def BuilderOk : BuilderField → Option Json → Prop
  | .id, x => ∃ s, x = some (.str s) ∧ Short 64 s
  | .siteKey, x => ∃ s, x = some (.str s) ∧ Short 200 s
  | .title, x => ∃ s, x = some (.str s) ∧ Short 500 s
  | .idea, x => ∃ s : JsString, x = some (.str s) ∧ s.length16 ≤ 8000
  | .state, x => ∃ s ∈ EPIC_BUILDER_STATES, x = some (.str s)
  | .startedAt, x | .updatedAt, x => ∃ n, x = some (.num n)
  | .repo, x | .targetHost, x | .host, x => x = none ∨ ∃ s, x = some (.str s) ∧ Short 200 s
  | .dispatchedAt, x => x = none ∨ ∃ n, x = some (.num n)
  | .epicKey, x => x = none ∨ ∃ s, x = some (.str s) ∧ Short 64 s
  | .error, x => x = none ∨ ∃ s, x = some (.str s) ∧ Short 500 s

structure BuilderFixed (r : Json) : Prop where
  object : r.objectish = true
  order : r.memberKeys.Sublist (builderFields.map BuilderField.name)
  ok : ∀ f, BuilderOk f (read r f)
  /-- Only a failed builder holds an error. -/
  failed : (read r .error).isSome = true → read r .state = some (.str (text "failed"))
  claimed : (read r .dispatchedAt).isSome = true → (read r .host).isSome = true

theorem builderName_injective : BuilderField.name.Injective := by
  have hall : ∀ f ∈ builderFields, ∀ g ∈ builderFields, f.name = g.name → f = g := by decide
  intro f g
  exact hall f (by cases f <;> decide) g (by cases g <;> decide)

theorem mem_builderFields (f : BuilderField) : f ∈ builderFields := by cases f <;> decide

theorem builderNames_nodup : (builderFields.map BuilderField.name).Nodup := by decide

variable {s : JsString}

theorem cut_short {n : ℕ} (h : Short n s) : cut n (some (.str s)) = some (.str s) := by
  rw [cut, if_neg h.1, JsString.slice_of_le h.2]

variable {r : Json}

theorem sanitizedBuilder_fixed (h : BuilderFixed r) (now : JsNumber) (f : BuilderField) :
    sanitizedBuilder now r f = read r f := by
  have hok := h.ok f
  cases f with
  | id | siteKey | title =>
    obtain ⟨s, hs, hshort⟩ := hok
    rw [sanitizedBuilder, hs, cut_short hshort]
  | idea =>
    obtain ⟨s, hs, hlength⟩ := hok
    rw [sanitizedBuilder, hs]
    exact congrArg (fun s => some (Json.str s)) (JsString.slice_of_le hlength)
  | state =>
    obtain ⟨s, hmem, hs⟩ := hok
    rw [sanitizedBuilder, hs]
    exact congrArg some (if_pos hmem)
  | startedAt | updatedAt =>
    obtain ⟨n, hn⟩ := hok
    rw [sanitizedBuilder, hn]
    rfl
  | repo | targetHost | host | epicKey | error =>
    rcases hok with hnone | ⟨s, hs, hshort⟩
    · rw [sanitizedBuilder, hnone]
      rfl
    · rw [sanitizedBuilder, hs, cut_short hshort]
  | dispatchedAt =>
    rcases hok with hnone | ⟨n, hn⟩
    · rw [sanitizedBuilder, hnone]
    · rw [sanitizedBuilder, hn]

theorem sanitizeEpicBuilderRecord_fixed (h : BuilderFixed r) (now : JsNumber) :
    sanitizeEpicBuilderRecord now r = some r := by
  rw [sanitizeEpicBuilderRecord, if_pos ⟨h.object, named_of_short (h.ok .id),
    named_of_short (h.ok .siteKey), named_of_short (h.ok .title)⟩, funext (sanitizedBuilder_fixed h now)]
  exact congrArg some (eq_orderedObject h.object builderNames_nodup h.order)

theorem units_digitChar : ∀ d, d < 16 → (CodePoint.scalar d.digitChar).units.length = 1 := by decide

theorem hexId_short (n : ℕ) : Short 64 (hexId n) := by
  have hlength : ∀ is : List ℕ, JsString.length16 (is.map fun i =>
      CodePoint.scalar (n / 16 ^ (15 - i) % 16).digitChar) = is.length := by
    intro is
    induction is with
    | nil => rfl
    | cons i is ih =>
      rw [map_cons, JsString.length16_cons, ih, units_digitChar _ (Nat.mod_lt _ (by omega)),
        length_cons, Nat.add_comm]
  refine ⟨fun h => ?_, ?_⟩
  · have hempty := congrArg List.length h
    rw [hexId, length_map, length_range] at hempty
    cases hempty
  · rw [hexId, hlength, length_range]
    omega

theorem cut_ok {x : Option JsString} (h : (x.getD []).length16 ≤ 200) :
    cut 200 (x.map .str) = none ∨ ∃ s, cut 200 (x.map .str) = some (.str s) ∧ Short 200 s := by
  cases x with
  | none => exact .inl rfl
  | some s =>
    by_cases hs : s = []
    · exact .inl (if_pos hs)
    · exact .inr ⟨s, cut_short ⟨hs, h⟩, hs, h⟩

variable {ideaMax : ℕ}

theorem requestBuilder_fixed {siteKey : JsString} {q : BuilderRequest}
    {now : JsNumber} {random : ℕ} (hsite : Short 200 siteKey) (hidea : q.idea.length16 ≤ 8000)
    (h : requestBuilder ideaMax (hexId random) siteKey q now = some r) : BuilderFixed r := by
  unfold requestBuilder at h
  dsimp only at h
  split_ifs at h with hbad
  rw [not_or, not_or, not_or, not_or, not_or] at hbad
  obtain ⟨htitle, -, hlength, hrepo, htarget, hmax⟩ := hbad
  rw [← some.inj h]
  have hfield : ∀ f, read (armEpicBuilder ideaMax (hexId random) siteKey
      { q with title := q.title.trim } now) f =
        armedBuilder ideaMax (hexId random) siteKey { q with title := q.title.trim } now f :=
    fun f => field_orderedObject builderName_injective (mem_builderFields f)
  refine ⟨rfl, memberKeys_orderedObject, fun f => ?_, fun herror => ?_, fun hclaim => ?_⟩
  · rw [hfield]
    cases f with
    | id => exact ⟨_, rfl, hexId_short random⟩
    | siteKey => exact ⟨_, rfl, hsite⟩
    | title =>
      refine ⟨q.title.trim, ?_, htitle, Nat.le_of_not_lt hlength⟩
      rw [armedBuilder, JsString.slice_of_le (Nat.le_of_not_lt hlength)]
    | idea =>
      refine ⟨q.idea, ?_, hidea⟩
      rw [armedBuilder, JsString.slice_of_le (Nat.le_of_not_lt hmax)]
    | state => exact ⟨_, by decide, rfl⟩
    | startedAt | updatedAt => exact ⟨now, rfl⟩
    | repo => exact cut_ok (Nat.le_of_not_lt hrepo)
    | targetHost => exact cut_ok (Nat.le_of_not_lt htarget)
    | host | dispatchedAt | epicKey | error => exact .inl rfl
  · rw [hfield] at herror
    exact nomatch herror
  · rw [hfield] at hclaim
    exact nomatch hclaim

theorem read_write_self (h : r.objectish = true) (f : BuilderField) (v : Json) :
    read (write r f v) f = some v := field_put_self h

theorem read_write_ne {f g : BuilderField} (h : g ≠ f) (r v : Json) :
    read (write r f v) g = read r g := field_put_ne (fun heq => h (builderName_injective heq)) r v

theorem read_without_ne {f g : BuilderField} (h : g ≠ f) (r : Json) :
    read (r.without f.name) g = read r g :=
  field_without_ne (fun heq => h (builderName_injective heq)) r

/-- A builder with its members in order and each as its own check lets it through. -/
structure Tidy (r : Json) : Prop where
  object : r.objectish = true
  order : r.memberKeys.Sublist (builderFields.map BuilderField.name)
  ok : ∀ f, BuilderOk f (read r f)

theorem BuilderFixed.tidy (h : BuilderFixed r) : Tidy r := ⟨h.object, h.order, h.ok⟩

/-- A member is written in its place where it is there, or where no later one is. -/
theorem Tidy.written {r v : Json} (h : Tidy r) {f : BuilderField} (before after : List BuilderField)
    (hsplit : builderFields = before ++ f :: after) (hv : BuilderOk f (some v))
    (hplace : (read r f).isSome = true ∨ ∀ g ∈ after, read r g = none) : Tidy (write r f v) := by
  refine ⟨(objectish_put r f.name v).trans h.object, ?_, fun g => ?_⟩
  · cases hx : read r f with
    | some x =>
      rw [memberKeys_put_mem (mem_memberKeys hx)]
      exact h.order
    | none =>
      have hafter := hplace.resolve_left (by simp [hx])
      have horder := h.order
      rw [hsplit] at horder ⊢
      refine sublist_put_last before after h.object horder fun g hg => ?_
      rcases mem_cons.mp hg with rfl | hg
      · exact hx
      · exact hafter g hg
  · by_cases hg : g = f
    · rw [hg, read_write_self h.object]
      exact hv
    · rw [read_write_ne hg]
      exact h.ok g

theorem Tidy.dropped (h : Tidy r) {f : BuilderField} (hf : BuilderOk f none) :
    Tidy (r.without f.name) := by
  refine ⟨(objectish_without r f.name).trans h.object, ?_, fun g => ?_⟩
  · rw [memberKeys_without]
    exact filter_sublist.trans h.order
  · by_cases hg : g = f
    · rw [hg, read, field_without_self]
      exact hf
    · rw [read_without_ne hg]
      exact h.ok g

theorem Tidy.stamped (h : Tidy r) (now : JsNumber) : Tidy (write r .updatedAt (.num now)) := by
  obtain ⟨n, hn⟩ := h.ok .updatedAt
  exact h.written [.id, .siteKey, .title, .idea, .state, .startedAt]
    [.repo, .targetHost, .host, .dispatchedAt, .epicKey, .error] rfl ⟨now, rfl⟩
    (.inl (isSome_of_eq_some hn))

theorem BuilderFixed.stamped (h : BuilderFixed r) (now : JsNumber) :
    BuilderFixed (write r .updatedAt (.num now)) := by
  have htidy := h.tidy.stamped now
  refine ⟨htidy.object, htidy.order, htidy.ok, fun herror => ?_, fun hclaim => ?_⟩
  · rw [read_write_ne (by decide)] at herror ⊢
    exact h.failed herror
  · rw [read_write_ne (by decide)] at hclaim ⊢
    exact h.claimed hclaim

theorem truthy_str : (Json.str s).truthy = true ↔ s ≠ [] := decide_eq_true_iff

theorem BuilderFixed.host_truthy (h : BuilderFixed r) :
    ((read r .host).getD .null).truthy = (read r .host).isSome := by
  rcases h.ok .host with hnone | ⟨s, hs, hshort⟩
  · rw [hnone]
    rfl
  · rw [hs]
    exact truthy_str.mpr hshort.1

theorem BuilderFixed.driven (h : BuilderFixed r) (lapsed : Bool) {pick : Option JsString}
    (now : JsNumber) (hpick : dispatches r lapsed = true → ∀ host, pick = some host →
      Short 200 host ∧ read r .epicKey = none) : BuilderFixed (driveEpicBuilder r lapsed pick now) := by
  unfold driveEpicBuilder
  by_cases hskip : dispatches r lapsed = false
  · rw [if_pos hskip]
    exact h
  · rw [if_neg hskip]
    rw [Bool.not_eq_false] at hskip
    have hqueued : read r .state = some (.str (text "queued")) := by
      rw [dispatches, Bool.and_eq_true, decide_eq_true_eq] at hskip
      exact hskip.1
    have herror : read r .error = none := by
      cases hx : read r .error with
      | none => rfl
      | some x =>
        have hfailed := h.failed (isSome_of_eq_some hx)
        rw [hqueued] at hfailed
        exact absurd (Json.str.inj (some.inj hfailed)) (by decide)
    -- the run as it is once nobody holds it
    have hfree : ∃ r', BuilderFixed r' ∧ read r' .host = none ∧ read r' .dispatchedAt = none ∧
        read r' .epicKey = read r .epicKey ∧ read r' .error = none ∧
        r' = if ((read r .host).getD .null).truthy = true then
          write ((r.without (BuilderField.name .host)).without (BuilderField.name .dispatchedAt))
            .updatedAt (.num now)
        else r := by
      rw [h.host_truthy]
      split_ifs with hheld
      · refine ⟨_, ?_, ?_, ?_, ?_, ?_, rfl⟩
        · have htidy := (h.tidy.dropped (f := .host) (.inl rfl)).dropped (f := .dispatchedAt) (.inl rfl)
          refine BuilderFixed.stamped ⟨htidy.object, htidy.order, htidy.ok, fun he => ?_, fun hc => ?_⟩ now
          · rw [read_without_ne (by decide), read_without_ne (by decide), herror] at he
            exact nomatch he
          · rw [read, field_without_self] at hc
            exact nomatch hc
        · rw [read_write_ne (by decide), read_without_ne (by decide), read, field_without_self]
        · rw [read_write_ne (by decide), read, field_without_self]
        · rw [read_write_ne (by decide), read_without_ne (by decide), read_without_ne (by decide)]
        · rw [read_write_ne (by decide), read_without_ne (by decide), read_without_ne (by decide), herror]
      · have hhost : read r .host = none := not_isSome_iff_eq_none.mp hheld
        refine ⟨r, h, hhost, ?_, rfl, herror, rfl⟩
        exact not_isSome_iff_eq_none.mp fun hc => hheld (h.claimed hc)
    obtain ⟨r', hr', hhost, hdispatched, hepic, herror', heq⟩ := hfree
    rw [← heq]
    cases pick with
    | none => exact hr'
    | some host =>
      obtain ⟨hshort, hkey⟩ := hpick hskip host rfl
      rw [hkey] at hepic
      have htidy := hr'.tidy.written (f := .host) (v := .str host)
        [.id, .siteKey, .title, .idea, .state, .startedAt, .updatedAt, .repo, .targetHost]
        [.dispatchedAt, .epicKey, .error] rfl (.inr ⟨host, rfl, hshort⟩)
        (.inr (by simp [hdispatched, hepic, herror']))
      have htidy' := htidy.written (f := .dispatchedAt) (v := .num now)
        [.id, .siteKey, .title, .idea, .state, .startedAt, .updatedAt, .repo, .targetHost, .host]
        [.epicKey, .error] rfl (.inr ⟨now, rfl⟩) (.inr (by
          intro g hg
          rw [read_write_ne (by rintro rfl; revert hg; decide)]
          rcases mem_cons.mp hg with rfl | hg
          · exact hepic
          · rw [mem_singleton.mp hg]
            exact herror'))
      refine BuilderFixed.stamped ⟨htidy'.object, htidy'.order, htidy'.ok, fun he => ?_, fun _ => ?_⟩ now
      · rw [read_write_ne (by decide), read_write_ne (by decide), herror'] at he
        exact nomatch he
      · rw [read_write_ne (by decide), read_write_self hr'.object]
        rfl

theorem BuilderFixed.error_truthy {x : Option Json} (h : BuilderOk .error x) :
    (x.getD .null).truthy = x.isSome := by
  rcases h with rfl | ⟨s, rfl, hshort⟩
  · rfl
  · exact truthy_str.mpr hshort.1

theorem writeState_eq (r : Json) (q : Report) :
    (writeState r q).1 = write r .state (.str q.state) := by
  unfold writeState
  split_ifs with hsame
  · exact (put_same hsame).symm
  · rfl

variable {q : Report}

theorem reportedError_short : BuilderOk .error (some (.str (if reportedError q = [] then
    text "builder reported a failure" else reportedError q))) := by
  refine .inr ⟨_, rfl, ?_⟩
  split_ifs with hempty
  · exact ⟨by decide, by decide⟩
  · refine ⟨hempty, ?_⟩
    unfold reportedError
    cases q.error with
    | none => exact Nat.zero_le _
    | some e => exact JsString.length16_slice 500 e

/-- The last write of a report leaves an error with a failed builder only. -/
theorem writeError_fixed (h : Tidy r)
    (hstate : read r .state = some (.str q.state))
    (hclaim : (read r .dispatchedAt).isSome = true → (read r .host).isSome = true) :
    BuilderFixed (writeError r q).1 := by
  have hshort := reportedError_short (q := q)
  unfold writeError
  dsimp only
  rw [BuilderFixed.error_truthy (h.ok .error)]
  generalize (Json.str (if reportedError q = [] then text "builder reported a failure"
    else reportedError q)) = v at hshort ⊢
  split_ifs with hfailed hsame herror
  · exact ⟨h.object, h.order, h.ok, fun _ => by rw [hstate, hfailed], hclaim⟩
  · have htidy := h.written (f := .error) [.id, .siteKey, .title, .idea, .state, .startedAt,
      .updatedAt, .repo, .targetHost, .host, .dispatchedAt, .epicKey] [] rfl hshort
      (.inr fun g hg => absurd hg not_mem_nil)
    refine ⟨htidy.object, htidy.order, htidy.ok, fun _ => ?_, fun hc => ?_⟩
    · rw [read_write_ne (by decide), hstate, hfailed]
    · rw [read_write_ne (by decide)] at hc ⊢
      exact hclaim hc
  · have htidy := h.dropped (f := .error) (.inl rfl)
    refine ⟨htidy.object, htidy.order, htidy.ok, fun he => ?_, fun hc => ?_⟩
    · rw [read, field_without_self] at he
      exact nomatch he
    · rw [read_without_ne (by decide)] at hc ⊢
      exact hclaim hc
  · exact ⟨h.object, h.order, h.ok, fun he => absurd he herror, hclaim⟩

theorem BuilderFixed.stated (h : BuilderFixed r)
    (hs : s ∈ EPIC_BUILDER_STATES) : Tidy (write r .state (.str s)) := by
  obtain ⟨s', -, hs'⟩ := h.ok .state
  exact h.tidy.written [.id, .siteKey, .title, .idea]
    [.startedAt, .updatedAt, .repo, .targetHost, .host, .dispatchedAt, .epicKey, .error]
    rfl ⟨s, hs, rfl⟩ (.inl (isSome_of_eq_some hs'))

theorem Tidy.keyed (h : Tidy r) {key : JsString} (hkey : key ≠ [])
    (hplace : (read r .epicKey).isSome = true ∨ read r .error = none) :
    Tidy (write r .epicKey (.str (key.slice 64))) := by
  have hshort : Short 64 (key.slice 64) := by
    refine ⟨fun hempty => hkey ?_, JsString.length16_slice 64 key⟩
    have hhead := JsString.head?_slice (s := key) (n := 64) (by decide)
    rw [hempty] at hhead
    exact head?_eq_none_iff.mp hhead.symm
  refine h.written (f := .epicKey) [.id, .siteKey, .title, .idea, .state, .startedAt, .updatedAt,
    .repo, .targetHost, .host, .dispatchedAt] [.error] rfl (.inr ⟨_, rfl, hshort⟩) (hplace.imp_right fun herror g hg => ?_)
  rw [mem_singleton.mp hg]
  exact herror

/-- A report that fails a builder brings no first epic key to one that holds an error. -/
def Report.Fits (q : Report) (r : Json) : Prop :=
  q.state = text "failed" → q.epicKey.getD [] ≠ [] → (read r .error).isSome = true →
    (read r .epicKey).isSome = true

theorem BuilderFixed.advanced (h : BuilderFixed r) (hostKey : JsString)
    (now : JsNumber) (hq : read r .host = some (.str hostKey) → q.Fits r) :
    BuilderFixed (advanceEpicBuilder r hostKey q now) := by
  unfold advanceEpicBuilder
  by_cases hskip : read r .host ≠ some (.str hostKey) ∨ q.state ∉ EPIC_BUILDER_STATES
  · rw [if_pos hskip]
    exact h
  · rw [if_neg hskip]
    rw [not_or, not_not, not_not] at hskip
    obtain ⟨hhost, hstate⟩ := hskip
    have hfits := hq hhost
    dsimp only
    rw [writeState_eq]
    have htidy := h.stated hstate
    have hread : ∀ f, f ≠ .state → read (write r .state (.str q.state)) f = read r f :=
      fun f hf => read_write_ne hf r _
    have hself : read (write r .state (.str q.state)) .state = some (.str q.state) :=
      read_write_self h.object _ _
    have hclaim : (read (write r .state (.str q.state)) .dispatchedAt).isSome = true →
        (read (write r .state (.str q.state)) .host).isSome = true := by
      rw [hread _ (by decide), hread _ (by decide)]
      exact h.claimed
    -- what the second and the third write make of it
    have hlast : BuilderFixed (writeError (writeEpicKey (write r .state (.str q.state)) q).1 q).1 := by
      unfold writeEpicKey
      cases hkey : q.epicKey with
      | none => exact writeError_fixed htidy hself hclaim
      | some key =>
        dsimp only
        split_ifs with hwrites
        · have hself' : read (write (write r .state (.str q.state)) .epicKey (.str (key.slice 64))) .state =
              some (.str q.state) := (read_write_ne (by decide) _ _).trans hself
          have hclaim' : (read (write (write r .state (.str q.state)) .epicKey (.str (key.slice 64)))
              .dispatchedAt).isSome = true → (read (write (write r .state (.str q.state)) .epicKey
                (.str (key.slice 64))) .host).isSome = true := by
            rw [read_write_ne (f := .epicKey) (g := .dispatchedAt) (by decide),
              read_write_ne (f := .epicKey) (g := .host) (by decide)]
            exact hclaim
          by_cases hplace : (read r .epicKey).isSome = true ∨ read r .error = none
          · refine writeError_fixed (htidy.keyed hwrites.1 ?_) hself' hclaim'
            rw [hread _ (by decide), hread _ (by decide)]
            exact hplace
          · -- the error in front of the new key goes with this very report
            rw [not_or] at hplace
            have herror : (read r .error).isSome = true := isSome_iff_ne_none.mpr hplace.2
            have hnot : q.state ≠ text "failed" := fun hfailed =>
              hplace.1 (hfits hfailed (by rw [hkey]; exact hwrites.1) herror)
            have hdrop : (writeError (write (write r .state (.str q.state)) .epicKey
                (.str (key.slice 64))) q).1 = write ((write r .state (.str q.state)).without
                  (BuilderField.name .error)) .epicKey (.str (key.slice 64)) := by
              have htruthy : ((read (write (write r .state (.str q.state)) .epicKey
                  (.str (key.slice 64))) .error).getD .null).truthy = true := by
                rw [read_write_ne (by decide), hread _ (by decide), BuilderFixed.error_truthy (h.ok .error)]
                exact herror
              unfold writeError
              rw [if_neg hnot, if_pos htruthy]
              exact put_without (by decide) _ _
            have htidy' := (htidy.dropped (f := .error) (.inl rfl)).keyed hwrites.1 (.inr (by
              rw [read, field_without_self]))
            rw [hdrop]
            refine ⟨htidy'.object, htidy'.order, htidy'.ok, fun he => ?_, fun hc => ?_⟩
            · rw [read_write_ne (by decide), read, field_without_self] at he
              exact nomatch he
            · rw [read_write_ne (by decide), read_without_ne (by decide), hread _ (by decide)] at hc ⊢
              exact h.claimed hc
        · exact writeError_fixed htidy hself hclaim
    split_ifs
    · exact hlast.stamped now
    · exact hlast

/-- What keeps the order: a builder is armed for an org and an idea that the sanitiser keeps whole, a
host is given one with no epic key yet, and a report fits. -/
def BuilderEvent.Within (epicBuilders : EpicBuilders) : BuilderEvent → Prop
  | .arm _ siteKey q _ _ => Short 200 siteKey ∧ q.idea.length16 ≤ 8000
  | .drive id lapsed pick _ => ∀ r, epicBuilders.get? id = some r → dispatches r lapsed = true →
      ∀ host, pick = some host → Short 200 host ∧ read r .epicKey = none
  | .report id hostKey q _ => ∀ r, epicBuilders.get? id = some r →
      read r .host = some (.str hostKey) → q.Fits r
  | .clear _ => True

def AllWithin (ideaMax : ℕ) : EpicBuilders → List BuilderEvent → Prop
  | _, [] => True
  | epicBuilders, e :: es =>
    e.Within epicBuilders ∧ AllWithin ideaMax (epicBuilderStep ideaMax epicBuilders e) es

def BuildersFixed (epicBuilders : EpicBuilders) : Prop :=
  ∀ id r, epicBuilders.get? id = some r → BuilderFixed r

variable {epicBuilders : EpicBuilders}

theorem BuildersFixed.adjust (h : BuildersFixed epicBuilders)
    (id : JsString) {f : Json → Json}
    (hf : ∀ r, epicBuilders.get? id = some r → BuilderFixed r → BuilderFixed (f r)) :
    BuildersFixed (epicBuilders.adjust id f) := by
  intro k r hr
  rw [get?_adjust] at hr
  split_ifs at hr with hk
  · obtain ⟨r', hr', rfl⟩ := map_eq_some_iff.mp hr
    exact hf r' (hk ▸ hr') (h k r' hr')
  · exact h k r hr

theorem BuildersFixed.step
    (h : BuildersFixed epicBuilders) {e : BuilderEvent} (he : e.Within epicBuilders) :
    BuildersFixed (epicBuilderStep ideaMax epicBuilders e) := by
  cases e with
  | arm random siteKey q now evicted =>
    intro k r hr
    rw [epicBuilderStep] at hr
    cases hrun : requestBuilder ideaMax (hexId random) siteKey q now with
    | none =>
      rw [hrun] at hr
      exact h k r hr
    | some run =>
      rw [hrun] at hr
      rw [get?_filterKeys] at hr
      split_ifs at hr
      rw [get?_upsert] at hr
      split_ifs at hr
      · rw [← some.inj hr]
        exact requestBuilder_fixed he.1 he.2 hrun
      · exact h k r hr
  | clear id =>
    intro k r hr
    rw [epicBuilderStep, get?_erase] at hr
    split_ifs at hr
    exact h k r hr
  | drive id lapsed pick now =>
    exact h.adjust id fun r hr hfixed => hfixed.driven lapsed now fun hd => he r hr hd
  | report id hostKey q now =>
    exact h.adjust id fun r hr hfixed => hfixed.advanced hostKey now fun hhost => he r hr hhost

theorem buildersFixed_run {events : List BuilderEvent}
    (h : BuildersFixed epicBuilders) (hevents : AllWithin ideaMax epicBuilders events) :
    BuildersFixed (events.foldl (epicBuilderStep ideaMax) epicBuilders) := by
  induction events generalizing epicBuilders with
  | nil => exact h
  | cons e events ih => exact ih (h.step hevents.1) hevents.2

/-- The echo of a live record is the record: on every run of the epic runs, and on every run of the
builders that leaves the sanitiser's order alone. -/
theorem live_records_fixed {runs : List RunEvent} (hruns : ∀ e ∈ runs, e.Within) {ideaMax : ℕ}
    {builders : List BuilderEvent} (hbuilders : AllWithin ideaMax OrdMap.empty builders) :
    (∀ key r now, (runs.foldl epicRunStep OrdMap.empty).get? key = some r →
      (sanitizeEpicRunRecord now r).map stringify = some (stringify r)) ∧
    ∀ id r now, (builders.foldl (epicBuilderStep ideaMax) OrdMap.empty).get? id = some r →
      (sanitizeEpicBuilderRecord now r).map stringify = some (stringify r) := by
  constructor
  · intro key r now hr
    rw [sanitizeEpicRunRecord_fixed (allFixed_run hruns key r hr)]
    rfl
  · intro id r now hr
    have hempty : BuildersFixed OrdMap.empty := fun id r hr => nomatch hr
    rw [sanitizeEpicBuilderRecord_fixed (buildersFixed_run hempty hbuilders id r hr)]
    rfl

/-! A builder whose host reports a failure, and the epic key only in its next failure. -/

def sampleNow : JsNumber := .ofInt 1

def sampleRequest : BuilderRequest :=
  { title := text "Title", idea := text "Idea", repo := none, targetHost := none }

def dispatched : List BuilderEvent :=
  [.arm 7 (text "org") sampleRequest sampleNow [], .drive (hexId 7) false (some (text "h")) sampleNow]

def failedTwice : List BuilderEvent := dispatched ++
  [.report (hexId 7) (text "h") ⟨text "failed", none, some (text "boom")⟩ sampleNow,
    .report (hexId 7) (text "h") ⟨text "failed", some (text "E-9"), some (text "boom")⟩ sampleNow]

theorem echo_differs : ∃ r,
    (failedTwice.foldl (epicBuilderStep 8000) OrdMap.empty).get? (hexId 7) = some r ∧
      (sanitizeEpicBuilderRecord sampleNow r).map stringify ≠ some (stringify r) := by
  refine ⟨_, rfl, ?_⟩
  decide +kernel

def created : List BuilderEvent := dispatched ++
  [.report (hexId 7) (text "h") ⟨text "creating", some (text "E-9"), none⟩ sampleNow]

theorem created_within : AllWithin 8000 OrdMap.empty created := by
  refine ⟨⟨⟨by decide, by decide⟩, by decide⟩, fun r hr _ host hhost => ?_, fun r hr _ hfailed => ?_, trivial⟩
  · rw [← some.inj hhost, ← some.inj hr]
    exact ⟨⟨by decide, by decide⟩, by decide⟩
  · cases hfailed

/-- An epic run armed with no child on the board, paused, limited and driven. -/
def pausedRun : List RunEvent :=
  [.arm (text "org") (text "E") ⟨OrdMap.empty, fun _ he => absurd he not_mem_nil⟩ none sampleNow [],
    .pause (text "org") (text "E") true sampleNow,
    .limit (text "org") (text "E") (.num (.ofInt 2)) sampleNow,
    .drive (epicRunKey (text "org") (text "E"))
      ⟨OrdMap.empty, fun _ he => absurd he not_mem_nil⟩ sampleNow]

/-- And a builder armed, dispatched and advanced to an epic. -/
theorem live_records_fixed_sample :
    (∃ r, (pausedRun.foldl epicRunStep OrdMap.empty).get? (epicRunKey (text "org") (text "E")) =
        some r ∧ (sanitizeEpicRunRecord sampleNow r).map stringify = some (stringify r)) ∧
      ∃ r, (created.foldl (epicBuilderStep 8000) OrdMap.empty).get? (hexId 7) = some r ∧
        (sanitizeEpicBuilderRecord sampleNow r).map stringify = some (stringify r) := by
  have hwithin : ∀ e ∈ pausedRun, e.Within := by
    intro e he
    rcases mem_cons.mp he with rfl | he
    · exact ⟨⟨by decide, by decide⟩, ⟨by decide, by decide⟩⟩
    · rcases mem_cons.mp he with rfl | he
      · trivial
      · rcases mem_cons.mp he with rfl | he
        · trivial
        · rw [mem_singleton.mp he]
          trivial
  obtain ⟨hruns, hbuilders⟩ := live_records_fixed hwithin created_within
  have hsome : ((pausedRun.foldl epicRunStep OrdMap.empty).get?
      (epicRunKey (text "org") (text "E"))).isSome = true := rfl
  obtain ⟨r, hr⟩ := Option.isSome_iff_exists.mp hsome
  exact ⟨⟨r, hr, hruns _ r sampleNow hr⟩, ⟨_, rfl, hbuilders (hexId 7) _ sampleNow rfl⟩⟩

end Turma.EpicRun
