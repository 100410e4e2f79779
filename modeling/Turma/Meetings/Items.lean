import Turma.DailyBrief.Brief
import Turma.Lib.Sort
import Turma.Meetings.Text

/-! The work items proposed from a meeting: the whitelist of an item, and the budget of bytes a
row's items are held to by shortening their descriptions and quotes. -/

namespace Turma.Meetings

open Turma.Lib Turma.Lib.Units Turma.DailyBrief List Option

def MEETING_ITEMS_MAX : ℕ := 30

def MEETING_ITEMS_BYTES_MAX : ℕ := 64 * 1024

def MEETING_ERROR_MAX : ℕ := 300

/-! Items from outside: a text field that is no string is `none`, a list that is no array is empty,
and an element that is no object is `none`. -/

structure RawQuote where
  speaker : Option Units
  text : Option Units
  atMs : Option ℤ

structure RawReview where
  state : Option Units
  reviewedAt : Option ℤ
  project : Option Units
  issueType : Option Units
  edited : Bool
  cmdId : Option Units
  host : Option Units
  key : Option Units
  url : Option Units
  error : Option Units
  start : Bool
  session : Option Units
  sessionError : Option Units

structure RawItem where
  title : Option Units
  kind : Option Units
  description : Option Units
  suggestedAssignee : Option Units
  due : Option Units
  quotes : List (Option RawQuote)
  duplicateKeys : List (Option Units)
  repoGuess : Option Units
  review : Option RawReview

inductive ItemKind
  | task | bug | followup | decision
deriving DecidableEq

structure Quote where
  speaker : Units
  text : Units
  atMs : Option ℤ
deriving DecidableEq

inductive Session
  | waiting | queued
  | failed (error : Units)
deriving DecidableEq

inductive ReviewState
  | creating (cmdId host : Units) (start : Bool)
  | created (key : Units) (url : Option Units) (session : Option Session)
  | failed (error : Units)
  | rejected | logged
deriving DecidableEq

structure Review where
  state : ReviewState
  reviewedAt : ℤ
  project : Units
  issueType : Units
  edited : Bool
deriving DecidableEq

structure Item where
  id : Units
  kind : ItemKind
  title : Units
  description : Units
  suggestedAssignee : Units
  due : Units
  quotes : List Quote
  duplicateKeys : List Units
  repoGuess : Units
  review : Option Review
deriving DecidableEq

def letter (c : ℕ) : Bool := (65 ≤ c && c ≤ 90) || (97 ≤ c && c ≤ 122)

def digit (c : ℕ) : Bool := 48 ≤ c && c ≤ 57

/-- `/^[A-Za-z][A-Za-z0-9_]*-[0-9]+$/` or `/^[0-9]+$/`. -/
def isIssueKey (k : Units) : Bool :=
  let project := k.takeWhile (· ≠ 45)
  let number := k.drop (project.length + 1)
  (project.head?.any letter && project.all (fun c => letter c || digit c || c = 95) &&
    number ≠ [] && number.all digit) || (k ≠ [] && k.all digit)

def keyOk (k : Units) : Bool := k.length ≤ 64 && isIssueKey k

def orText (t : Units) (other : String) : Units := if t = [] then text other else t

def ItemKind.name : ItemKind → String
  | task => "task"
  | bug => "bug"
  | followup => "followup"
  | decision => "decision"

def kindOf (v : Option Units) : Option ItemKind :=
  [.task, .bug, .followup, .decision].find? fun k : ItemKind => v = some (text k.name)

def meetingMs (v : Option ℤ) : Option ℤ := v.filter fun n => 0 ≤ n ∧ n ≤ MAX_SAFE_INTEGER

def sessionOf (v : RawReview) : Session :=
  if v.session = some (text "queued") then .queued
  else if v.session = some (text "failed") then
    .failed (orText (meetingText v.sessionError MEETING_ERROR_MAX false)
      "the session could not be started")
  else .waiting

def codePoints : Units → List ℕ
  | [] => []
  | [c] => [c]
  | c :: d :: s =>
    if paired c (d :: s) = true then
      ((c - 0xD800) * 0x400 + (d - 0xDC00) + 0x10000) :: codePoints s
    else c :: codePoints (d :: s)

/-- `/^https?:\/\//iu`, and what follows it; the long s folds to an s. -/
def afterScheme : List ℕ → Option (List ℕ)
  | h :: t :: t' :: p :: s =>
    if h ∈ [72, 104] ∧ t ∈ [84, 116] ∧ t' ∈ [84, 116] ∧ p ∈ [80, 112] then
      let rest := if s.head?.any (· ∈ [83, 115, 0x17F]) = true then s.tail else s
      if [58, 47, 47] <+: rest then some (rest.drop 3) else none
    else none
  | _ => none

section

-- Unicode's control, format and default ignorable code points
variable (hidden : ℕ → Bool)

def meetingUrlOk (v : Units) : Bool :=
  v.length ≤ 500 &&
    (afterScheme (codePoints v)).any fun rest =>
      rest ≠ [] && rest.head? ≠ some 47 &&
        rest.all fun c => !whitespace c && !hidden c && c ∉ [34, 39, 96, 60, 62, 92]

def reviewStateOf (v : RawReview) : Option ReviewState :=
  if v.state = some (text "creating") then
    (v.cmdId.filter hexId).bind fun cmdId =>
      (v.host.filter hostOk).map fun host => .creating cmdId host v.start
  else if v.state = some (text "created") then
    (v.key.filter keyOk).map fun key =>
      .created key (v.url.filter (meetingUrlOk hidden)) (if v.start = true then some (sessionOf v) else none)
  else if v.state = some (text "failed") then
    some (.failed (orText (meetingText v.error MEETING_ERROR_MAX false)
      "the ticket could not be created"))
  else if v.state = some (text "rejected") then some .rejected
  else if v.state = some (text "logged") then some .logged
  else none

def sanitizeMeetingReview (v : RawReview) : Option Review :=
  (reviewStateOf hidden v).bind fun state =>
    (v.reviewedAt.bind fun n => dbTime (.num n)).map fun reviewedAt =>
      ⟨state, reviewedAt, meetingText v.project 100 false, meetingText v.issueType 100 false,
        v.edited⟩

def quoteOf (q : RawQuote) : Option Quote :=
  let text := meetingText q.text 500 false
  if text = [] then none else some ⟨meetingText q.speaker 100 false, text, meetingMs q.atMs⟩

def itemId (i : ℕ) : Units := text ("p" ++ toString (i + 1))

def sanitizeMeetingItem (v : RawItem) (i : ℕ) : Option Item :=
  let title := meetingText v.title 200 false
  if title = [] then none
  else
    (kindOf v.kind).map fun kind =>
      { id := itemId i
        kind := kind
        title := title
        description := meetingText v.description 4000 true
        suggestedAssignee := meetingText v.suggestedAssignee 100 false
        due := meetingText v.due 40 false
        quotes := ((v.quotes.take 20).filterMap fun q => q.bind quoteOf).take 5
        duplicateKeys := (v.duplicateKeys.filterMap fun k => k.filter keyOk).eraseDups.take 5
        repoGuess := meetingText v.repoGuess 200 false
        review := v.review.bind (sanitizeMeetingReview hidden) }

/-- The loop over the raw list, which stops where enough items are kept. -/
def gather : List (Option RawItem) → List Item → List Item
  | [], out => out
  | v :: list, out =>
    if MEETING_ITEMS_MAX ≤ out.length then out
    else
      match v.bind fun v => sanitizeMeetingItem hidden v out.length with
      | none => gather list out
      | some it => gather list (out ++ [it])

def whitelisted (list : List (Option RawItem)) : List Item :=
  gather hidden (list.take (MEETING_ITEMS_MAX * 2)) []

/-- The bytes of a JSON list or object whose members take these. -/
def listBytes (sizes : List ℕ) : ℕ := 2 + sizes.sum + (sizes.length - 1)

def member (key : String) (size : ℕ) : ℕ := key.length + 3 + size

def optionalMember (key : String) (t : Units) : List ℕ :=
  if t = [] then [] else [member key (jsonBytes t)]

def quoteBytes (q : Quote) : ℕ :=
  listBytes ([member "speaker" (jsonBytes q.speaker), member "text" (jsonBytes q.text)] ++
    (q.atMs.map fun n => member "atMs" (toString n).length).toList)

/-- An item without its review. -/
def itemBytes (it : Item) : ℕ :=
  listBytes ([member "id" (jsonBytes it.id), member "kind" (jsonBytes (text it.kind.name)),
      member "title" (jsonBytes it.title), member "description" (jsonBytes it.description)] ++
    optionalMember "suggestedAssignee" it.suggestedAssignee ++ optionalMember "due" it.due ++
    [member "quotes" (listBytes (it.quotes.map quoteBytes)),
      member "duplicateKeys" (listBytes (it.duplicateKeys.map jsonBytes))] ++
    optionalMember "repoGuess" it.repoGuess)

def meetingItemsBytes (items : List Item) : ℕ := listBytes (items.map itemBytes)

/-- An eighth of the cap, from 40 to 500. -/
def quoteCap (cap : ℕ) : ℕ := max 40 (min 500 (cap / 8))

def shrinkMeetingItem (it : Item) (cap : ℕ) : Item :=
  { it with
    description := meetingCut it.description cap
    quotes := it.quotes.map fun q => { q with text := meetingCut q.text (quoteCap cap) } }

def shrunk (items : List Item) (cap : ℕ) : List Item := items.map fun it => shrinkMeetingItem it cap

def inBudget (items : List Item) : Bool := meetingItemsBytes items ≤ MEETING_ITEMS_BYTES_MAX

/-- The bisection: the largest number from `lo` to `hi` that fits, `lo` where none does. -/
def bisect (fits : ℕ → Bool) (lo hi : ℕ) : ℕ :=
  if lo < hi then
    if fits ((lo + hi + 1) / 2) = true then bisect fits ((lo + hi + 1) / 2) hi
    else bisect fits lo ((lo + hi + 1) / 2 - 1)
  else lo
termination_by hi - lo
decreasing_by all_goals omega

/-- Items are dropped from the end, `n` of them at most. -/
def popOver : ℕ → List Item → List Item
  | 0, out => out
  | n + 1, out => if inBudget out = true then out else popOver n out.dropLast

def sanitizeMeetingItems (list : List (Option RawItem)) : List Item :=
  let out := whitelisted hidden list
  if inBudget out = true then out
  else
    let cut := shrunk out (bisect (fun cap => inBudget (shrunk out cap)) 1 4000)
    popOver cut.length cut

end

def Review.Kept (hidden : ℕ → Bool) (r : Review) : Prop :=
  Time r.reviewedAt ∧ Clean false 100 r.project ∧ Clean false 100 r.issueType ∧
    match r.state with
    | .creating cmdId host _ => hexId cmdId = true ∧ hostOk host = true
    | .created key url session => keyOk key = true ∧ (∀ u ∈ url, meetingUrlOk hidden u = true) ∧
        ∀ e, session = some (.failed e) → e ≠ [] ∧ Clean false MEETING_ERROR_MAX e
    | .failed error => error ≠ [] ∧ Clean false MEETING_ERROR_MAX error
    | .rejected => True
    | .logged => True

structure Quote.Kept (q : Quote) : Prop where
  speaker : Clean false 100 q.speaker
  text : Clean false 500 q.text
  some : q.text ≠ []
  atMs : ∀ n ∈ q.atMs, 0 ≤ n ∧ n ≤ MAX_SAFE_INTEGER

structure Item.Kept (hidden : ℕ → Bool) (it : Item) (i : ℕ) : Prop where
  id : it.id = itemId i
  title : Clean false 200 it.title
  titled : it.title ≠ []
  description : Clean true 4000 it.description
  suggestedAssignee : Clean false 100 it.suggestedAssignee
  due : Clean false 40 it.due
  quotes : ∀ q ∈ it.quotes, q.Kept
  fewQuotes : it.quotes.length ≤ 5
  keys : ∀ k ∈ it.duplicateKeys, keyOk k = true
  distinct : it.duplicateKeys.Nodup
  fewKeys : it.duplicateKeys.length ≤ 5
  repoGuess : Clean false 200 it.repoGuess
  review : ∀ r ∈ it.review, r.Kept hidden

theorem orText_clean {v : Option Units} {other : String} (hne : text other ≠ [])
    (hother : meetingText (some (text other)) MEETING_ERROR_MAX false = text other) :
    orText (meetingText v MEETING_ERROR_MAX false) other ≠ [] ∧
      Clean false MEETING_ERROR_MAX (orText (meetingText v MEETING_ERROR_MAX false) other) := by
  rw [orText]
  split_ifs with h
  · refine ⟨hne, ?_⟩
    rw [← hother]
    exact meetingText_clean _ _ _
  · exact ⟨h, meetingText_clean _ _ _⟩

theorem noTicket_fixed : meetingText (some (text "the ticket could not be created"))
    MEETING_ERROR_MAX false = text "the ticket could not be created" := by
  decide +kernel

theorem noSession_fixed : meetingText (some (text "the session could not be started"))
    MEETING_ERROR_MAX false = text "the session could not be started" := by
  decide +kernel

variable {v : RawReview}

section

variable {hidden : ℕ → Bool}

theorem review_kept {r : Review} (h : sanitizeMeetingReview hidden v = some r) :
    r.Kept hidden := by
  obtain ⟨state, hstate, h⟩ := bind_eq_some_iff.mp h
  obtain ⟨reviewedAt, hat, rfl⟩ := map_eq_some_iff.mp h
  obtain ⟨n, -, htime⟩ := bind_eq_some_iff.mp hat
  refine ⟨dbTime_time htime, meetingText_clean _ _ _, meetingText_clean _ _ _, ?_⟩
  rw [reviewStateOf] at hstate
  split_ifs at hstate
  · obtain ⟨cmdId, hcmd, hstate⟩ := bind_eq_some_iff.mp hstate
    obtain ⟨host, hhost, rfl⟩ := map_eq_some_iff.mp hstate
    exact ⟨(filter_eq_some_iff.mp hcmd).2, (filter_eq_some_iff.mp hhost).2⟩
  · obtain ⟨key, hkey, rfl⟩ := map_eq_some_iff.mp hstate
    refine ⟨(filter_eq_some_iff.mp hkey).2,
      fun u hu => (filter_eq_some_iff.mp hu).2, fun e he => ?_⟩
    have hsession : sessionOf v = .failed e := Option.some.inj he
    rw [sessionOf] at hsession
    split_ifs at hsession
    rw [← Session.failed.inj hsession]
    exact orText_clean (by decide) noSession_fixed
  · obtain ⟨key, hkey, rfl⟩ := map_eq_some_iff.mp hstate
    exact ⟨(filter_eq_some_iff.mp hkey).2,
      fun u hu => (filter_eq_some_iff.mp hu).2, fun e he => nomatch he⟩
  · cases hstate
    exact orText_clean (by decide) noTicket_fixed
  · cases hstate
    trivial
  · cases hstate
    trivial

theorem quote_kept {v : RawQuote} {q : Quote} (h : quoteOf v = some q) : q.Kept := by
  rw [quoteOf] at h
  split_ifs at h with hne
  cases h
  exact ⟨meetingText_clean _ _ _, meetingText_clean _ _ _, hne, fun n hn =>
    of_decide_eq_true (filter_eq_some_iff.mp hn).2⟩

theorem item_kept {v : RawItem} {i : ℕ} {it : Item} (h : sanitizeMeetingItem hidden v i = some it) :
    it.Kept hidden i := by
  rw [sanitizeMeetingItem] at h
  split_ifs at h with hne
  obtain ⟨kind, -, rfl⟩ := map_eq_some_iff.mp h
  refine ⟨rfl, meetingText_clean _ _ _, hne, meetingText_clean _ _ _, meetingText_clean _ _ _,
    meetingText_clean _ _ _, fun q hq => ?_, length_take_le _ _, fun k hk => ?_, ?_,
    length_take_le _ _, meetingText_clean _ _ _, fun r hr => ?_⟩
  · obtain ⟨v, -, hv⟩ := mem_filterMap.mp (mem_of_mem_take hq)
    obtain ⟨q', -, hq'⟩ := bind_eq_some_iff.mp hv
    exact quote_kept hq'
  · have hmem := mem_eraseDups.mp (mem_of_mem_take hk)
    obtain ⟨v, -, hv⟩ := mem_filterMap.mp hmem
    exact (filter_eq_some_iff.mp hv).2
  · exact (nodup_eraseDups _).sublist (take_sublist _ _)
  · obtain ⟨v, -, hv⟩ := bind_eq_some_iff.mp hr
    exact review_kept hv

def optionalText (t : Units) : Option Units := if t = [] then none else some t

def Quote.raw (q : Quote) : RawQuote := ⟨optionalText q.speaker, some q.text, q.atMs⟩

def Session.raw : Session → Units × Option Units
  | waiting => (text "waiting", none)
  | queued => (text "queued", none)
  | failed error => (text "failed", some error)

def Review.raw (r : Review) : RawReview :=
  let common : RawReview := ⟨none, some r.reviewedAt, optionalText r.project, optionalText r.issueType,
    r.edited, none, none, none, none, none, false, none, none⟩
  match r.state with
  | .creating cmdId host start =>
    { common with
      state := some (text "creating"), cmdId := some cmdId, host := some host, start := start }
  | .created key url session =>
    { common with
      state := some (text "created"), key := some key, url := url, start := session.isSome
      session := session.map fun s => s.raw.1, sessionError := session.bind fun s => s.raw.2 }
  | .failed error => { common with state := some (text "failed"), error := some error }
  | .rejected => { common with state := some (text "rejected") }
  | .logged => { common with state := some (text "logged") }

def Item.raw (it : Item) : RawItem where
  title := some it.title
  kind := some (text it.kind.name)
  description := some it.description
  suggestedAssignee := optionalText it.suggestedAssignee
  due := optionalText it.due
  quotes := it.quotes.map fun q => some q.raw
  duplicateKeys := it.duplicateKeys.map some
  repoGuess := optionalText it.repoGuess
  review := it.review.map Review.raw

theorem meetingText_optional {multiline : Bool} {max : ℕ} {t : Units} (h : Clean multiline max t) :
    meetingText (optionalText t) max multiline = t := by
  rw [optionalText]
  split_ifs with hnil
  · rw [hnil] at h ⊢
    rw [meetingText_none]
    exact meetingText_fixed h
  · exact meetingText_fixed h

theorem filter_self {α : Type*} {p : α → Bool} {o : Option α} (h : ∀ x ∈ o, p x = true) :
    o.filter p = o := by
  cases o with
  | none => rfl
  | some x => rw [filter_some, if_pos (h x rfl)]

theorem orText_self {t : Units} {other : String} (h : t ≠ []) : orText t other = t := if_neg h

theorem session_raw {s : Session} (h : ∀ e, s = .failed e → e ≠ [] ∧ Clean false MEETING_ERROR_MAX e)
    (hsession : v.session = some s.raw.1) (herror : v.sessionError = s.raw.2) :
    sessionOf v = s := by
  cases s with
  | waiting =>
    rw [sessionOf, hsession]
    rfl
  | queued =>
    rw [sessionOf, hsession]
    rfl
  | failed e =>
    obtain ⟨hne, hclean⟩ := h e rfl
    have hname : (Session.failed e).raw.1 = text "failed" := rfl
    have htext : (Session.failed e).raw.2 = some e := rfl
    rw [sessionOf, hsession, herror, hname, htext, if_neg (by decide), if_pos rfl,
      meetingText_fixed hclean, orText_self hne]

theorem state_creating {cmdId host : Units} (hs : v.state = some (text "creating"))
    (hcmd : v.cmdId = some cmdId) (hhost : v.host = some host) (hid : hexId cmdId = true)
    (hok : hostOk host = true) : reviewStateOf hidden v = some (.creating cmdId host v.start) := by
  rw [reviewStateOf, if_pos hs, hcmd, hhost, filter_some, if_pos hid, filter_some,
    if_pos hok]
  rfl

theorem state_created {key : Units} (hs : v.state = some (text "created"))
    (hkey : v.key = some key) (hok : keyOk key = true)
    (hurl : ∀ u ∈ v.url, meetingUrlOk hidden u = true) : reviewStateOf hidden v =
      some (.created key v.url (if v.start = true then some (sessionOf v) else none)) := by
  rw [reviewStateOf, hs, if_neg (by decide), if_pos rfl, hkey, filter_some, if_pos hok,
    filter_self hurl]
  rfl

theorem state_failed {error : Units} (hs : v.state = some (text "failed"))
    (herror : v.error = some error) (hne : error ≠ []) (hclean : Clean false MEETING_ERROR_MAX error) :
    reviewStateOf hidden v = some (.failed error) := by
  rw [reviewStateOf, hs, if_neg (by decide), if_neg (by decide), if_pos rfl, herror,
    meetingText_fixed hclean, orText_self hne]

theorem state_rejected (hs : v.state = some (text "rejected")) :
    reviewStateOf hidden v = some .rejected := by
  rw [reviewStateOf, hs, if_neg (by decide), if_neg (by decide), if_neg (by decide), if_pos rfl]

theorem state_logged (hs : v.state = some (text "logged")) :
    reviewStateOf hidden v = some .logged := by
  rw [reviewStateOf, hs, if_neg (by decide), if_neg (by decide), if_neg (by decide),
    if_neg (by decide), if_pos rfl]

theorem review_raw {r : Review} (h : r.Kept hidden) : sanitizeMeetingReview hidden r.raw = some r := by
  obtain ⟨state, reviewedAt, project, issueType, edited⟩ := r
  obtain ⟨htime, hproject, htype, hstate⟩ := h
  have hcommon : ∀ v : RawReview, v.reviewedAt = some reviewedAt → v.project = optionalText project →
      v.issueType = optionalText issueType → v.edited = edited →
        reviewStateOf hidden v = some state →
          sanitizeMeetingReview hidden v = some ⟨state, reviewedAt, project, issueType, edited⟩ := by
    intro v hat hp ht he hs
    rw [sanitizeMeetingReview, hs, bind_some, hat, bind_some, dbTime_num htime, hp, ht,
      he, meetingText_optional hproject, meetingText_optional htype]
    rfl
  cases state with
  | creating cmdId host start =>
    exact hcommon _ rfl rfl rfl rfl (state_creating rfl rfl rfl hstate.1 hstate.2)
  | created key url session =>
    obtain ⟨hkey, hurl, hsession⟩ := hstate
    refine hcommon _ rfl rfl rfl rfl ((state_created rfl rfl hkey hurl).trans ?_)
    cases session with
    | none => rfl
    | some s =>
      have hs := session_raw (fun e he => hsession e (by rw [he])) (v := Review.raw
        ⟨.created key url (some s), reviewedAt, project, issueType, edited⟩) rfl rfl
      rw [hs]
      rfl
  | failed error => exact hcommon _ rfl rfl rfl rfl (state_failed rfl rfl hstate.1 hstate.2)
  | rejected => exact hcommon _ rfl rfl rfl rfl (state_rejected rfl)
  | logged => exact hcommon _ rfl rfl rfl rfl (state_logged rfl)

theorem quote_raw {q : Quote} (h : q.Kept) : quoteOf q.raw = some q := by
  rw [quoteOf, Quote.raw]
  rw [meetingText_fixed h.text, meetingText_optional h.speaker, if_neg h.some, meetingMs,
    filter_self fun n hn => decide_eq_true (h.atMs n hn)]

theorem kindOf_name (k : ItemKind) : kindOf (some (text k.name)) = some k := by
  cases k <;> decide

/-- A kept item is kept as it is. -/
theorem item_raw {it : Item} {i : ℕ} (h : it.Kept hidden i) :
    sanitizeMeetingItem hidden it.raw i = some it := by
  have hquotes : ((it.quotes.map fun q => some q.raw).take 20).filterMap
      (fun q => q.bind quoteOf) = it.quotes := by
    rw [take_of_length_le (by rw [length_map]; exact h.fewQuotes.trans (by decide)),
      filterMap_map]
    conv_rhs => rw [← filterMap_some (l := it.quotes)]
    exact filterMap_congr fun q hq => quote_raw (h.quotes q hq)
  have hkeys : (it.duplicateKeys.map some).filterMap (fun k => k.filter keyOk) = it.duplicateKeys := by
    rw [filterMap_map]
    conv_rhs => rw [← filterMap_some (l := it.duplicateKeys)]
    refine filterMap_congr fun k hk => ?_
    rw [Function.comp_apply, filter_some, if_pos (h.keys k hk)]
  have hreview : (it.review.map Review.raw).bind (sanitizeMeetingReview hidden) = it.review := by
    cases hr : it.review with
    | none => rfl
    | some r => exact review_raw (h.review r hr)
  rw [sanitizeMeetingItem, Item.raw]
  rw [meetingText_fixed h.title, if_neg h.titled, kindOf_name, map_some, hquotes, hkeys, hreview,
    meetingText_fixed h.description, meetingText_optional h.suggestedAssignee,
    meetingText_optional h.due, meetingText_optional h.repoGuess,
    take_of_length_le h.fewQuotes, eraseDups_of_nodup h.distinct,
    take_of_length_le h.fewKeys, ← h.id]

end

end Turma.Meetings
