import Mathlib.Data.List.Nodup
import Turma.DshTranscript.Readable
import Turma.Lib.ToNumber

/-! What a projected transcript is: one chain of entries, in which each call of a tool has its result
and a delegation has the launch that stands for it. -/

namespace Turma.DshTranscript

open Turma.Lib List

open Turma.QwenGuard (Str Str.lit strip)

def Entry.blocks (e : Entry) : List Block :=
  match e.message.content with
  | .inl bs => bs
  | .inr _ => []

def toolUses (es : List Entry) : List (Option Str × Str) :=
  es.flatMap fun e => e.blocks.filterMap Block.toolUse?

def toolResults (es : List Entry) : List (Option Str) :=
  es.flatMap fun e => e.blocks.filterMap Block.toolResult?

/-- Each entry has the one before it for its parent, and the first of them has `parent`. -/
def Chained : Option Str → List Entry → Prop
  | _, [] => True
  | parent, e :: es => e.parentUuid = parent ∧ Chained (some e.uuid) es

/-- The parent of what comes after these entries. -/
def endOf (parent : Option Str) (es : List Entry) : Option Str :=
  es.foldl (fun _ e => some e.uuid) parent

variable (parent : Option Str) (es es' : List Entry)

theorem chained_append :
    Chained parent (es ++ es') ↔ Chained parent es ∧ Chained (endOf parent es) es' := by
  induction es generalizing parent with
  | nil => simp [Chained, endOf]
  | cons e es ih => simp only [cons_append, Chained, ih, endOf, foldl_cons, and_assoc]

theorem endOf_append :
    endOf parent (es ++ es') = endOf (endOf parent es) es' := by
  simp [endOf]

/-- A launch: the call of a tool, and at once its result. -/
def Launch (out : List Entry) : Prop :=
  ∃ a r id name, out = [a, r] ∧ a.type = .assistant ∧ r.type = .user ∧
    toolUses [a] = [(some id, name)] ∧ toolResults [a] = [] ∧
    toolUses [r] = [] ∧ toolResults [r] = [some id]

section

variable (P : Python)

def Delegates (event : Dict) (id : Str) : Prop :=
  kindOf event = .assistantMessage ∧ id ≠ [] ∧
    ∃ name ∈ delegationToolNames, (some id, name) ∈ callsOf P event

def Answers (event : Dict) (id : Str) : Prop :=
  kindOf event = .toolResult ∧ answered P event = some id

/-- A delegation of this id has been called for, and no result for it has come since. -/
def Pending (events : List Value) (id : Str) : Prop :=
  ∃ before event after, events = before ++ .dict event :: after ∧ Delegates P event id ∧
    ∀ later, .dict later ∈ after → ¬Answers P later id

/-- What one event may be projected to, after the events `before`. -/
def Projects (before : List Value) (event : Dict) (out : List Entry) : Prop :=
  match kindOf event with
  | .assistantMessage =>
    toolUses out = (callsOf P event).filter (fun c => !delegationToolNames.contains c.2) ∧
      toolResults out = []
  | .toolResult =>
    (∃ id, answered P event = some id ∧ Pending P before id) ∧ out = [] ∨
      (¬∃ id, answered P event = some id ∧ Pending P before id) ∧
        ∃ e, out = [e] ∧ toolUses out = [] ∧ toolResults out = [answered P event]
  | .subagentStart | .workflowRunStart =>
    out = [] ∨ Launch out
  | _ => toolUses out = [] ∧ toolResults out = []

variable (ctx : Context)

/-- The transcript of a log: it is there, its entries have uuids of their own and make one chain; and
whatever part of the log is projected, the entries of its next event come after those of that part,
and are what the event may be projected to. -/
def Projected (events : List Value) : Prop :=
  ∃ entries, projectLog P ctx events = .ok entries ∧ (entries.map Entry.uuid).Nodup ∧
    Chained none entries ∧
    ∀ before event after, events = before ++ event :: after → ∃ es out rest,
      projectLog P ctx before = .ok es ∧ projectLog P ctx (before ++ [event]) = .ok (es ++ out) ∧
      entries = es ++ out ++ rest ∧
      match event with
      | .dict event => Projects P before event out
      | _ => out = []

/-- The `seq` of an event that is an object. -/
def seqOf : Value → Option Value
  | .dict event => some (Dict.get event "seq")
  | _ => none

/-- The events that are objects have integers for their `seq`, no two of them the same. -/
def Numbered (events : List Value) : Prop :=
  ∃ seqs : List ℤ, seqs.Nodup ∧ events.filterMap seqOf = seqs.map .int

end

theorem mem_decimal {n : ℤ} {c : CodePoint} (h : c ∈ decimal n) :
    c = .scalar '-' ∨ ∃ d : Char, d.isDigit = true ∧ c = .scalar d := by
  rw [decimal, mem_append, mem_map] at h
  rcases h with hsign | ⟨d, hd, rfl⟩
  · split_ifs at hsign
    · exact Or.inl (mem_singleton.mp hsign)
    · simp at hsign
  · exact Or.inr ⟨d, Nat.isDigit_of_mem_toDigits (by decide) (by decide) hd, rfl⟩

theorem decimal_inj {n m : ℤ} (h : decimal n = decimal m) : n = m := by
  have hdigits {a b : ℕ} (hab : (Nat.toDigits 10 a).map CodePoint.scalar =
      (Nat.toDigits 10 b).map .scalar) : a = b := by
    have ha := digits_toDigits a
    rw [hab, digits_toDigits] at ha
    exact (Option.some.inj ha).symm
  have hminus (a b : ℕ) : Str.lit "-" ++ (Nat.toDigits 10 a).map .scalar ≠
      (Nat.toDigits 10 b).map .scalar := by
    intro hab
    have hmem : CodePoint.scalar '-' ∈ (Nat.toDigits 10 b).map CodePoint.scalar := by
      rw [← hab]
      exact mem_append_left _ (by decide)
    obtain ⟨d, hd, heq⟩ := mem_map.mp hmem
    have hdigit := Nat.isDigit_of_mem_toDigits (by decide) (by decide) hd
    rw [CodePoint.scalar.inj heq] at hdigit
    cases hdigit
  rw [decimal, decimal] at h
  split_ifs at h with hn hm hm
  · have habs := hdigits (append_cancel_left h)
    omega
  · exact absurd h (hminus _ _)
  · exact absurd h.symm (hminus _ _)
  · have habs := hdigits h
    omega

variable {data : Value} {events : List Value} {event : Dict} {e : Entry} {message : Message}

section

variable (P : Python) (ctx : Context)

/-- The uuid of an entry, by the text of its event's `seq` and its place among the event's own. -/
def uuidAt (seqText : Str) (i : ℕ) : Str :=
  P.uuid5 (ctx.sessionId ++ Str.lit ":" ++ seqText ++ Str.lit ":" ++ decimal i)

theorem uuidAt_inj {P : Python} {ctx : Context} (hP : Function.Injective P.uuid5) {n m : ℤ}
    {i j : ℕ} (h : uuidAt P ctx (decimal n) i = uuidAt P ctx (decimal m) j) : n = m ∧ i = j := by
  have hcolon (k : ℤ) : CodePoint.scalar ':' ∉ decimal k := by
    intro hmem
    rcases mem_decimal hmem with heq | ⟨d, hd, heq⟩
    · cases heq
    · rw [← CodePoint.scalar.inj heq] at hd
      cases hd
  have htexts := hP h
  simp only [append_assoc] at htexts
  have htail := append_cancel_left (append_cancel_left htexts)
  obtain ⟨hseq, -, hindex⟩ :=
    (append_cons_inj_of_notMem (hcolon _) (hcolon _)).mp htail
  refine ⟨decimal_inj hseq, ?_⟩
  exact_mod_cast decimal_inj hindex

/-- What a feed does to the chain: its entries follow on it, under the uuids of the event. -/
structure Step (s s' : State) (seq : Value) (out : List Entry) : Prop where
  chained : Chained s.parent out
  parent : s'.parent = endOf s.parent out
  uuids : out.map Entry.uuid = (List.range out.length).map (uuidAt P ctx (text P seq))
  converts : out ≠ [] → Converts P seq

variable {P ctx} {s s' : State} {seq : Value} {ts : Str} {out : List Entry}

theorem Step.none (h : s'.parent = s.parent) : Step P ctx s s' seq [] :=
  ⟨trivial, h, rfl, fun h => absurd rfl h⟩

theorem envelope_spec {type : Role} {i : ℕ}
    (h : envelope P ctx s type seq i ts message = .ok e) :
    Converts P seq ∧ e.uuid = uuidAt P ctx (text P seq) i ∧ e.parentUuid = s.parent ∧
      e.type = type ∧ e.message = message := by
  simp only [envelope, mkUuid, bind_ok] at h
  obtain ⟨u, ⟨t, ht, hu⟩, he⟩ := h
  obtain rfl := Except.ok.inj hu
  obtain rfl := Except.ok.inj he
  rw [← text_eq ht]
  exact ⟨⟨t, ht⟩, rfl, rfl, rfl, rfl⟩

theorem Step.one (hconverts : Converts P seq)
    (huuid : e.uuid = uuidAt P ctx (text P seq) 0) (hparent : e.parentUuid = s.parent)
    (hend : s'.parent = some e.uuid) : Step P ctx s s' seq [e] :=
  ⟨⟨hparent, trivial⟩, hend, by simp [huuid], fun _ => hconverts⟩

theorem toolUses_one (e : Entry) : toolUses [e] = e.blocks.filterMap Block.toolUse? := by
  simp [toolUses]

theorem toolResults_one (e : Entry) : toolResults [e] = e.blocks.filterMap Block.toolResult? := by
  simp [toolResults]

/-- An event with one entry, under a message of its own. -/
theorem emit_spec {type : Role}
    (h : (envelope P ctx s type seq 0 ts message >>= fun e => pure (emit s e)) =
      .ok (s', out)) :
    ∃ e, out = [e] ∧ e.message = message ∧ Step P ctx s s' seq out ∧
      s'.skipCalls = s.skipCalls := by
  obtain ⟨e, he, hr⟩ := bind_ok.mp h
  obtain ⟨hconverts, huuid, hparent, -, hmessage⟩ := envelope_spec he
  cases hr
  exact ⟨e, rfl, hmessage, Step.one hconverts huuid hparent rfl, rfl⟩

/-- What carries no call and no result of a tool. -/
def Quiet (out : List Entry) : Prop := toolUses out = [] ∧ toolResults out = []

theorem quiet_nil : Quiet [] := ⟨rfl, rfl⟩

theorem quiet_texts {blocks : List Block} (he : e.message.content = .inl blocks)
    (h : ∀ blk ∈ blocks, blk.toolUse? = none ∧ blk.toolResult? = none) : Quiet [e] := by
  rw [Quiet, toolUses_one, toolResults_one, Entry.blocks, he]
  exact ⟨filterMap_eq_nil_iff.mpr fun blk hblk => (h blk hblk).1,
    filterMap_eq_nil_iff.mpr fun blk hblk => (h blk hblk).2⟩

theorem quiet_plain {t : Str} (he : e.message.content = .inr t) : Quiet [e] := by
  rw [Quiet, toolUses_one, toolResults_one, Entry.blocks, he]
  exact ⟨rfl, rfl⟩

theorem userMessage_spec (h : userMessage P ctx s data seq ts = .ok (s', out)) :
    Step P ctx s s' seq out ∧ s'.skipCalls = s.skipCalls ∧ Quiet out := by
  obtain ⟨blocks, hblocks, hr⟩ := bind_ok.mp h
  split_ifs at hr
  · cases hr
    exact ⟨Step.none rfl, rfl, quiet_nil⟩
  · obtain ⟨e, rfl, hmessage, hstep, hskip⟩ := emit_spec hr
    exact ⟨hstep, hskip, quiet_texts (by rw [hmessage]; rfl) (contentToTextBlocks_spec hblocks).2⟩

theorem turnEnd_spec (h : turnEnd P ctx s data seq ts = .ok (s', out)) :
    Step P ctx s s' seq out ∧ s'.skipCalls = s.skipCalls ∧ Quiet out := by
  rw [turnEnd] at h
  split_ifs at h
  · cases h
    exact ⟨Step.none rfl, rfl, quiet_nil⟩
  · obtain ⟨e, rfl, hmessage, hstep, hskip⟩ := emit_spec h
    exact ⟨hstep, hskip, quiet_plain (by rw [hmessage]; rfl)⟩

theorem taskNotification_spec {taskId status : Str}
    (h : taskNotification P ctx s seq ts taskId status = .ok (s', out)) :
    Step P ctx s s' seq out ∧ s'.skipCalls = s.skipCalls ∧ Quiet out := by
  obtain ⟨e, rfl, hmessage, hstep, hskip⟩ := emit_spec h
  exact ⟨hstep, hskip, quiet_plain (by rw [hmessage]; rfl)⟩

theorem subagentEnd_spec (h : subagentEnd P ctx s data seq ts = .ok (s', out)) :
    Step P ctx s s' seq out ∧ s'.skipCalls = s.skipCalls ∧ Quiet out := by
  obtain ⟨child, -, hr⟩ := bind_ok.mp h
  dsimp only at hr
  split_ifs at hr
  · cases hr
    exact ⟨Step.none rfl, rfl, quiet_nil⟩
  · obtain ⟨reason, -, hr⟩ := bind_ok.mp hr
    exact taskNotification_spec hr

theorem workflowRunEnd_spec
    (h : workflowRunEnd P ctx s data seq ts = .ok (s', out)) :
    Step P ctx s s' seq out ∧ s'.skipCalls = s.skipCalls ∧ Quiet out := by
  obtain ⟨runId, -, hr⟩ := bind_ok.mp h
  split_ifs at hr
  · cases hr
    exact ⟨Step.none rfl, rfl, quiet_nil⟩
  · obtain ⟨reason, -, hr⟩ := bind_ok.mp hr
    exact taskNotification_spec hr

theorem launchPair_spec {name resultText handle : Str} {input tur : Dict}
    (h : launchPair P ctx s seq name input resultText handle tur ts = .ok (s', out)) :
    Step P ctx s s' seq out ∧ s'.skipCalls = s.skipCalls ∧ Launch out := by
  obtain ⟨t, -, hr⟩ := bind_ok.mp h
  obtain ⟨a, ha, hr⟩ := bind_ok.mp hr
  obtain ⟨r, hres, hr⟩ := bind_ok.mp hr
  obtain ⟨hconverts, huuid, hparent, htype, hmessage⟩ := envelope_spec ha
  obtain ⟨-, huuid', hparent', htype', hmessage'⟩ := envelope_spec hres
  cases hr
  refine ⟨⟨⟨hparent, hparent', trivial⟩, rfl, ?_, fun _ => hconverts⟩, rfl,
    a, { r with toolUseResult := some tur }, Str.lit "dsh-" ++ handle, name, rfl, htype, htype',
    ?_, ?_, ?_, ?_⟩
  · simp [huuid, huuid', range_succ]
  · rw [toolUses_one, Entry.blocks, hmessage]
    rfl
  · rw [toolResults_one, Entry.blocks, hmessage]
    rfl
  · rw [toolUses_one, Entry.blocks, hmessage']
    rfl
  · rw [toolResults_one, Entry.blocks, hmessage']
    rfl

theorem subagentStart_spec (h : subagentStart P ctx s data seq ts = .ok (s', out)) :
    Step P ctx s s' seq out ∧ s'.skipCalls = s.skipCalls ∧ (out = [] ∨ Launch out) := by
  obtain ⟨child, -, hr⟩ := bind_ok.mp h
  dsimp only at hr
  split_ifs at hr
  · cases hr
    exact ⟨Step.none rfl, rfl, Or.inl rfl⟩
  · obtain ⟨label, -, hr⟩ := bind_ok.mp hr
    obtain ⟨hstep, hskip, hlaunch⟩ := launchPair_spec hr
    exact ⟨hstep, hskip, Or.inr hlaunch⟩

theorem workflowRunStart_spec
    (h : workflowRunStart P ctx s data seq ts = .ok (s', out)) :
    Step P ctx s s' seq out ∧ s'.skipCalls = s.skipCalls ∧ (out = [] ∨ Launch out) := by
  obtain ⟨runId, -, hr⟩ := bind_ok.mp h
  split_ifs at hr
  · cases hr
    exact ⟨Step.none rfl, rfl, Or.inl rfl⟩
  · obtain ⟨name, -, hr⟩ := bind_ok.mp hr
    obtain ⟨hstep, hskip, hlaunch⟩ := launchPair_spec hr
    exact ⟨hstep, hskip, Or.inr hlaunch⟩

/-- A result is dropped where its call is skipped, which then is so no longer; any other is shown
under its own id. -/
theorem toolResult_spec (msg : Dict)
    (hmsg : (data.asDict.get "message").asDict = msg)
    (h : toolResult P ctx s data seq ts = .ok (s', out)) :
    Step P ctx s s' seq out ∧
      (∀ id, id ∈ s'.skipCalls ↔ id ∈ s.skipCalls ∧ idText P (resultCall msg) ≠ some id) ∧
      ((∃ id, idText P (resultCall msg) = some id ∧ id ∈ s.skipCalls) ∧ out = [] ∨
        (¬∃ id, idText P (resultCall msg) = some id ∧ id ∈ s.skipCalls) ∧
          ∃ e, out = [e] ∧ toolUses out = [] ∧
            toolResults out = [idText P (resultCall msg)]) := by
  rw [toolResult, hmsg] at h
  obtain ⟨callId, hcall, hr⟩ := bind_ok.mp h
  obtain ⟨-, rfl⟩ := textIf_ok.mp hcall
  split at hr
  · rename_i id hid
    rw [Option.filter_eq_some_iff] at hid
    have hmem : id ∈ s.skipCalls := by simpa using hid.2
    cases hr
    refine ⟨Step.none rfl, fun i => ?_, Or.inl ⟨⟨id, hid.1, hmem⟩, rfl⟩⟩
    rw [hid.1, mem_filter, decide_eq_true_eq, Ne, Ne, Option.some.injEq, eq_comm (a := id)]
  · rename_i hnone
    have hno : ¬∃ id, idText P (resultCall msg) = some id ∧ id ∈ s.skipCalls := by
      rintro ⟨id, hid, hmem⟩
      rw [hid] at hnone
      simp [hmem] at hnone
    obtain ⟨inner, -, hr⟩ := bind_ok.mp hr
    obtain ⟨e, rfl, hmessage, hstep, hskip⟩ := emit_spec hr
    refine ⟨hstep, fun i => ?_, Or.inr ⟨hno, e, rfl, ?_, ?_⟩⟩
    · rw [hskip]
      exact (and_iff_left_of_imp fun hi hid => hno ⟨i, hid, hi⟩).symm
    · rw [toolUses_one, Entry.blocks, hmessage]
      rfl
    · rw [toolResults_one, Entry.blocks, hmessage]
      rfl

/-- The calls that are kept are those that do not delegate. -/
theorem toolUse_kept (blocks : List Block) :
    (blocks.filter fun b => !b.delegates).filterMap Block.toolUse? =
      (blocks.filterMap Block.toolUse?).filter fun c => !delegationToolNames.contains c.2 := by
  induction blocks with
  | nil => rfl
  | cons b blocks ih =>
    cases b with
    | toolUse id name input =>
      have hdelegates : (Block.toolUse id name input).delegates =
          delegationToolNames.contains name := rfl
      have huse : (Block.toolUse id name input).toolUse? = some (id, name) := rfl
      rw [filter_cons, filterMap_cons_some huse, filter_cons, hdelegates]
      split_ifs
      · rw [filterMap_cons_some huse, ih]
      · exact ih
    | _ =>
      rw [filter_cons_of_pos rfl, filterMap_cons_none rfl, filterMap_cons_none rfl,
        ih]

/-- The ids that a message adds to the skipped ones are those it delegates by. -/
theorem mem_skip {blocks : List Block} {id : Str} :
    id ∈ (s.skip blocks).skipCalls ↔
      (id ≠ [] ∧ ∃ name ∈ delegationToolNames, (some id, name) ∈ blocks.filterMap Block.toolUse?) ∨
        id ∈ s.skipCalls := by
  rw [State.skip, mem_append]
  refine or_congr ?_ Iff.rfl
  simp only [mem_filterMap, mem_filter]
  constructor
  · rintro ⟨b, ⟨hb, hdelegates⟩, hid⟩
    cases b with
    | toolUse i name input =>
      obtain ⟨rfl, hne⟩ := Option.filter_eq_some_iff.mp hid
      exact ⟨by simpa using hne, name, by simpa [Block.delegates] using hdelegates, _, hb, rfl⟩
    | _ => simp [Block.delegates] at hdelegates
  · rintro ⟨hne, name, hname, b, hb, huse⟩
    cases b with
    | toolUse i name' input =>
      cases huse
      exact ⟨_, ⟨hb, by simpa [Block.delegates] using hname⟩, by simp [Block.callId?, hne]⟩
    | _ => simp [Block.toolUse?] at huse

theorem assistantMessage_spec (msg : Dict)
    (hmsg : (data.asDict.get "message").asDict = msg)
    (h : assistantMessage P ctx s data seq ts = .ok (s', out)) :
    Step P ctx s s' seq out ∧
      (∀ id, id ∈ s'.skipCalls ↔ (id ≠ [] ∧ ∃ name ∈ delegationToolNames,
        (some id, name) ∈ callsIn P (msg.get "content").elements) ∨ id ∈ s.skipCalls) ∧
      toolUses out = (callsIn P (msg.get "content").elements).filter
        (fun c => !delegationToolNames.contains c.2) ∧ toolResults out = [] := by
  rw [assistantMessage, hmsg] at h
  obtain ⟨blocks, hblocks, hr⟩ := bind_ok.mp h
  have hcalls := assistantContent_calls hblocks
  have hresults : ∀ blk ∈ blocks, blk.toolResult? = none := by
    intro blk hblk
    obtain ⟨b, o, -, ho, hmem⟩ := (mem_eachBlock hblocks).mp hblk
    exact (assistantBlock_spec ho).2.1 blk hmem
  rw [← hcalls, ← toolUse_kept]
  dsimp only at hr
  split_ifs at hr with hempty
  · cases hr
    rw [List.isEmpty_iff] at hempty
    rw [hempty]
    exact ⟨Step.none rfl, fun id => mem_skip, rfl, rfl⟩
  · obtain ⟨seqText, -, hr⟩ := bind_ok.mp hr
    obtain ⟨id, -, hr⟩ := bind_ok.mp hr
    obtain ⟨model, -, hr⟩ := bind_ok.mp hr
    obtain ⟨e, he, hr⟩ := bind_ok.mp hr
    obtain ⟨hconverts, huuid, hparent, -, hmessage⟩ := envelope_spec he
    cases hr
    refine ⟨Step.one hconverts huuid hparent rfl, fun id => mem_skip, ?_, ?_⟩
    · rw [toolUses_one, Entry.blocks, hmessage]
    · rw [toolResults_one, Entry.blocks, hmessage]
      exact filterMap_eq_nil_iff.mpr fun blk hblk => hresults blk (mem_of_mem_filter hblk)

theorem pending_snoc (before : List Value) (event : Dict) (id : Str) :
    Pending P (before ++ [.dict event]) id ↔
      Delegates P event id ∨ Pending P before id ∧ ¬Answers P event id := by
  constructor
  · rintro ⟨pre, call, post, heq, hcall, hlater⟩
    rcases eq_nil_or_concat post with rfl | ⟨post, last, rfl⟩
    · obtain ⟨-, hlast⟩ := append_inj' heq rfl
      obtain rfl := Value.dict.inj (List.cons.inj hlast).1
      exact Or.inl hcall
    · rw [concat_eq_append, ← cons_append, ← append_assoc] at heq
      obtain ⟨hpre, hlast⟩ := append_inj' heq rfl
      obtain rfl := (List.cons.inj hlast).1
      refine Or.inr ⟨⟨pre, call, post, hpre, hcall, fun later h => hlater later ?_⟩,
        hlater event ?_⟩
      · rw [concat_eq_append]
        exact mem_append_left _ h
      · rw [concat_eq_append]
        exact mem_append_right _ (mem_singleton_self _)
  · rintro (hcall | ⟨⟨pre, call, post, rfl, hcall, hlater⟩, hnot⟩)
    · exact ⟨before, event, [], rfl, hcall, by simp⟩
    · refine ⟨pre, call, post ++ [.dict event], by simp, hcall, fun later h => ?_⟩
      rcases mem_append.mp h with h | h
      · exact hlater later h
      · obtain rfl := Value.dict.inj (mem_singleton.mp h)
        exact hnot

/-- What is not an object is projected to nothing and leaves what is pending. -/
theorem pending_junk {before : List Value} {event : Value} (h : ∀ d, event ≠ .dict d) (id : Str) :
    Pending P (before ++ [event]) id ↔ Pending P before id := by
  constructor
  · rintro ⟨pre, call, post, heq, hcall, hlater⟩
    rcases eq_nil_or_concat post with rfl | ⟨post, last, rfl⟩
    · obtain ⟨-, hlast⟩ := append_inj' heq rfl
      exact absurd (List.cons.inj hlast).1 (h call)
    · rw [concat_eq_append, ← cons_append, ← append_assoc] at heq
      obtain ⟨hpre, -⟩ := append_inj' heq rfl
      refine ⟨pre, call, post, hpre, hcall, fun later hmem => hlater later ?_⟩
      rw [concat_eq_append]
      exact mem_append_left _ hmem
  · rintro ⟨pre, call, post, rfl, hcall, hlater⟩
    refine ⟨pre, call, post ++ [event], by simp, hcall, fun later hmem => ?_⟩
    rcases mem_append.mp hmem with hmem | hmem
    · exact hlater later hmem
    · exact absurd (mem_singleton.mp hmem).symm (h later)

theorem not_answers (h : kindOf event ≠ .toolResult) (id : Str) :
    ¬Answers P event id :=
  fun ha => h ha.1

theorem not_delegates (h : kindOf event ≠ .assistantMessage) (id : Str) :
    ¬Delegates P event id :=
  fun hd => h hd.1

/-- A feed of an object: what it is projected to, its place in the chain, and what is skipped after
it. -/
theorem feed_spec {before : List Value}
    (hskip : ∀ id, id ∈ s.skipCalls ↔ Pending P before id)
    (h : feed P ctx s (.dict event) = .ok (s', out)) :
    Step P ctx s s' (event.get "seq") out ∧ Projects P before event out ∧
      ∀ id, id ∈ s'.skipCalls ↔ Pending P (before ++ [.dict event]) id := by
  have hkeep (hkind : kindOf event ≠ .assistantMessage) (hkind' : kindOf event ≠ .toolResult)
      (heq : s'.skipCalls = s.skipCalls) (id : Str) :
      id ∈ s'.skipCalls ↔ Pending P (before ++ [.dict event]) id := by
    rw [heq, hskip, pending_snoc]
    simp [not_delegates hkind, not_answers hkind']
  rw [feed] at h
  rw [Projects]
  cases hkind : kindOf event with
  | userMessage =>
    rw [hkind] at h
    obtain ⟨hstep, heq, hquiet⟩ := userMessage_spec h
    exact ⟨hstep, hquiet, hkeep (by rw [hkind]; decide) (by rw [hkind]; decide) heq⟩
  | assistantMessage =>
    rw [hkind] at h
    obtain ⟨hstep, hmem, huses, hresults⟩ := assistantMessage_spec _ rfl h
    refine ⟨hstep, ⟨huses, hresults⟩, fun id => ?_⟩
    have hanswers : ¬Answers P event id := not_answers (by rw [hkind]; decide) id
    rw [hmem, hskip, pending_snoc, Delegates, and_iff_left hanswers]
    exact or_congr (and_iff_right hkind).symm Iff.rfl
  | toolResult =>
    rw [hkind] at h
    obtain ⟨hstep, hmem, hcases⟩ := toolResult_spec _ rfl h
    simp only [hskip] at hcases
    refine ⟨hstep, hcases, fun id => ?_⟩
    have hdelegates : ¬Delegates P event id := not_delegates (by rw [hkind]; decide) id
    rw [hmem, hskip, pending_snoc, or_iff_right hdelegates, Answers]
    exact and_congr_right fun _ => not_congr (and_iff_right hkind).symm
  | turnEnd =>
    rw [hkind] at h
    obtain ⟨hstep, heq, hquiet⟩ := turnEnd_spec h
    exact ⟨hstep, hquiet, hkeep (by rw [hkind]; decide) (by rw [hkind]; decide) heq⟩
  | subagentStart =>
    rw [hkind] at h
    obtain ⟨hstep, heq, hlaunch⟩ := subagentStart_spec h
    exact ⟨hstep, hlaunch, hkeep (by rw [hkind]; decide) (by rw [hkind]; decide) heq⟩
  | subagentEnd =>
    rw [hkind] at h
    obtain ⟨hstep, heq, hquiet⟩ := subagentEnd_spec h
    exact ⟨hstep, hquiet, hkeep (by rw [hkind]; decide) (by rw [hkind]; decide) heq⟩
  | workflowRunStart =>
    rw [hkind] at h
    obtain ⟨hstep, heq, hlaunch⟩ := workflowRunStart_spec h
    exact ⟨hstep, hlaunch, hkeep (by rw [hkind]; decide) (by rw [hkind]; decide) heq⟩
  | workflowRunEnd =>
    rw [hkind] at h
    obtain ⟨hstep, heq, hquiet⟩ := workflowRunEnd_spec h
    exact ⟨hstep, hquiet, hkeep (by rw [hkind]; decide) (by rw [hkind]; decide) heq⟩
  | other =>
    rw [hkind] at h
    cases h
    exact ⟨Step.none rfl, quiet_nil, hkeep (by rw [hkind]; decide) (by rw [hkind]; decide) rfl⟩

theorem feed_junk {event : Value} (h : ∀ d, event ≠ .dict d) :
    feed P ctx s event = .ok (s, []) := by
  cases event with
  | dict d => exact absurd rfl (h d)
  | _ => rfl

theorem feedAll_append (s : State) (events more : List Value) :
    feedAll P ctx s (events ++ more) = (do
      let now ← feedAll P ctx s events
      let rest ← feedAll P ctx now.1 more
      return (rest.1, now.2 ++ rest.2)) := by
  induction events generalizing s with
  | nil =>
    rw [nil_append]
    exact (bind_pure (feedAll P ctx s more)).symm
  | cons e events ih => simp [feedAll, ih, bind_assoc]

theorem feedAll_snoc (s : State) (events : List Value) (event : Value) :
    feedAll P ctx s (events ++ [event]) = (do
      let now ← feedAll P ctx s events
      let last ← feed P ctx now.1 event
      return (last.1, now.2 ++ last.2)) := by
  rw [feedAll_append]
  refine bind_congr fun now => ?_
  rw [feedAll]
  cases feed P ctx now.1 event with
  | error f => rfl
  | ok r => simp [feedAll, bind, Except.bind, pure, Except.pure]

theorem projectLog_ok {entries : List Entry} :
    projectLog P ctx events = .ok entries ↔
      ∃ s, feedAll P ctx .fresh events = .ok (s, entries) := by
  rw [projectLog, bind_ok]
  constructor
  · rintro ⟨⟨s, es⟩, h, heq⟩
    cases heq
    exact ⟨s, h⟩
  · rintro ⟨s, h⟩
    exact ⟨_, h, rfl⟩

/-- After any log that is projected, what is skipped is what is pending, and the entries are one
chain up to the parent of the next. -/
theorem run_spec (h : feedAll P ctx .fresh events = .ok (s, out)) :
    (∀ id, id ∈ s.skipCalls ↔ Pending P events id) ∧ Chained none out ∧
      s.parent = endOf none out := by
  induction events using List.reverseRecOn generalizing s out with
  | nil =>
    cases h
    refine ⟨fun id => iff_of_false (by simp [State.fresh]) ?_, trivial, rfl⟩
    rintro ⟨before, event, after, heq, -⟩
    simp at heq
  | append_singleton events event ih =>
    rw [feedAll_snoc] at h
    obtain ⟨⟨s₁, es⟩, hes, h⟩ := bind_ok.mp h
    obtain ⟨⟨s₂, last⟩, hlast, h⟩ := bind_ok.mp h
    cases h
    obtain ⟨hskip, hchained, hparent⟩ := ih hes
    by_cases hdict : ∃ d, event = .dict d
    · obtain ⟨d, rfl⟩ := hdict
      obtain ⟨hstep, -, hskip'⟩ := feed_spec hskip hlast
      refine ⟨hskip', ?_, ?_⟩
      · rw [chained_append, ← hparent]
        exact ⟨hchained, hstep.chained⟩
      · rw [endOf_append, ← hparent]
        exact hstep.parent
    · push Not at hdict
      rw [feed_junk hdict] at hlast
      cases hlast
      refine ⟨fun id => (hskip id).trans (pending_junk hdict id).symm, ?_, ?_⟩
      · simpa using hchained
      · simpa using hparent

/-- Where every event can be read, the whole log is projected. -/
theorem run_total
    (h : ∀ before event after, events = before ++ .dict event :: after →
      Readable P (Pending P before) event) : Runs (feedAll P ctx .fresh events) := by
  induction events using List.reverseRecOn with
  | nil => exact runs_pure _
  | append_singleton events event ih =>
    obtain ⟨⟨s, es⟩, hes⟩ := ih fun before e after heq =>
      h before e (after ++ [event]) (by rw [heq, append_assoc, cons_append])
    rw [feedAll_snoc, runs_bind]
    refine ⟨_, hes, ?_⟩
    have hlast : Runs (feed P ctx s event) := by
      by_cases hdict : ∃ d, event = .dict d
      · obtain ⟨d, rfl⟩ := hdict
        exact (feed_runs (run_spec hes).1).mpr (h events d [] rfl)
      · push Not at hdict
        exact ⟨_, feed_junk hdict⟩
    obtain ⟨r, hr⟩ := hlast
    exact runs_bind.mpr ⟨r, hr, runs_pure _⟩

theorem Numbered.snoc
    (h : Numbered (events ++ [.dict event])) :
    Numbered events ∧ ∃ n, event.get "seq" = .int n ∧
      ∀ d, .dict d ∈ events → ∃ m, Dict.get d "seq" = .int m ∧ m ≠ n := by
  obtain ⟨seqs, hnodup, heq⟩ := h
  have hseq : seqOf (.dict event) = some (event.get "seq") := rfl
  rw [filterMap_append, filterMap_cons_some hseq, filterMap_nil] at heq
  obtain ⟨seqs', lasts, rfl, hinit, hlast⟩ := append_eq_map_iff.mp heq
  obtain ⟨n, rfl, hn⟩ : ∃ n, lasts = [n] ∧ event.get "seq" = .int n := by
    cases lasts with
    | nil => simp at hlast
    | cons n lasts =>
      simp only [map_cons, List.cons.injEq, map_eq_nil_iff] at hlast
      exact ⟨n, by rw [hlast.2], hlast.1.symm⟩
  refine ⟨⟨seqs', (nodup_append.mp hnodup).1, hinit.symm⟩, n, hn, fun d hd => ?_⟩
  have hmem : Dict.get d "seq" ∈ seqs'.map Value.int := by
    rw [hinit]
    exact mem_filterMap.mpr ⟨_, hd, rfl⟩
  obtain ⟨m, hm, hseq⟩ := mem_map.mp hmem
  exact ⟨m, hseq.symm, (nodup_append.mp hnodup).2.2 m hm n (mem_singleton_self n)⟩

theorem text_int {n : ℤ} (h : Converts P (.int n)) : text P (.int n) = decimal n := by
  obtain ⟨t, ht⟩ := h
  rw [text_eq ht]
  rw [pyStr] at ht
  split_ifs at ht
  exact (Except.ok.inj ht).symm

/-- The uuids of a log's entries are those of its events, each by its own `seq`; no two are the
same. -/
theorem run_uuids (hP : Function.Injective P.uuid5) (hnum : Numbered events)
    (h : feedAll P ctx .fresh events = .ok (s, out)) :
    (out.map Entry.uuid).Nodup ∧ ∀ u ∈ out.map Entry.uuid, ∃ d m i, .dict d ∈ events ∧
      Dict.get d "seq" = .int m ∧ u = uuidAt P ctx (decimal m) i := by
  induction events using List.reverseRecOn generalizing s out with
  | nil =>
    cases h
    simp
  | append_singleton events event ih =>
    rw [feedAll_snoc] at h
    obtain ⟨⟨s₁, es⟩, hes, h⟩ := bind_ok.mp h
    obtain ⟨⟨s₂, last⟩, hlast, h⟩ := bind_ok.mp h
    cases h
    by_cases hdict : ∃ d, event = .dict d
    · obtain ⟨d, rfl⟩ := hdict
      obtain ⟨hbefore, n, hn, hother⟩ := hnum.snoc
      obtain ⟨hnodup, huuids⟩ := ih hbefore hes
      obtain ⟨hstep, -, -⟩ := feed_spec (run_spec hes).1 hlast
      have hown : last.map Entry.uuid =
          (List.range last.length).map (uuidAt P ctx (decimal n)) := by
        rw [hstep.uuids, hn]
        by_cases hnil : last = []
        · rw [hnil]
          rfl
        · have hconverts := hstep.converts hnil
          rw [hn] at hconverts
          rw [text_int hconverts]
      rw [map_append, hown]
      refine ⟨nodup_append.mpr ⟨hnodup, ?_, ?_⟩, ?_⟩
      · exact nodup_range.map fun i j hij => (uuidAt_inj hP hij).2
      · intro u hu v hv huv
        obtain ⟨d', m, i, hd', hm, rfl⟩ := huuids u hu
        obtain ⟨j, -, rfl⟩ := mem_map.mp hv
        obtain ⟨m', hm', hne⟩ := hother d' hd'
        rw [hm] at hm'
        exact hne ((Value.int.inj hm').symm.trans (uuidAt_inj hP huv).1)
      · intro u hu
        rcases mem_append.mp hu with hu | hu
        · obtain ⟨d', m, i, hd', hm, heq⟩ := huuids u hu
          exact ⟨d', m, i, mem_append_left _ hd', hm, heq⟩
        · obtain ⟨j, -, rfl⟩ := mem_map.mp hu
          exact ⟨d, n, j, by simp, hn, rfl⟩
    · push Not at hdict
      rw [feed_junk hdict] at hlast
      cases hlast
      have hbefore : Numbered events := by
        obtain ⟨seqs, hnodup, heq⟩ := hnum
        refine ⟨seqs, hnodup, ?_⟩
        rw [← heq, filterMap_append, filterMap_cons_none, filterMap_nil,
          append_nil]
        cases event with
        | dict d => exact absurd rfl (hdict d)
        | _ => rfl
      obtain ⟨hnodup, huuids⟩ := ih hbefore hes
      rw [append_nil]
      refine ⟨hnodup, fun u hu => ?_⟩
      obtain ⟨d', m, i, hd', hm, heq⟩ := huuids u hu
      exact ⟨d', m, i, mem_append_left _ hd', hm, heq⟩

/-- A log is read to its end exactly where no event of it makes a conversion that raises. -/
theorem feedAll_runs {P : Python} {ctx : Context} {events : List Value} :
    Runs (feedAll P ctx .fresh events) ↔ ∀ before event after,
      events = before ++ .dict event :: after → Readable P (Pending P before) event := by
  refine ⟨?_, run_total⟩
  rintro ⟨r, hall⟩ before event after rfl
  rw [← singleton_append, ← append_assoc, feedAll_append] at hall
  obtain ⟨⟨s₂, es₂⟩, hnext, -⟩ := bind_ok.mp hall
  rw [feedAll_snoc] at hnext
  obtain ⟨⟨s₁, es₁⟩, hbefore, hlast⟩ := bind_ok.mp hnext
  obtain ⟨r', hr', -⟩ := bind_ok.mp hlast
  exact (feed_runs (run_spec hbefore).1).mp ⟨r', hr'⟩

/-- The projection of a log is one chain of entries, in which calls, results and launches are as
they should be, exactly where no event of the log makes a conversion that raises. -/
theorem projected_iff {P : Python} {ctx : Context} {events : List Value}
    (hP : Function.Injective P.uuid5) (hnum : Numbered events) :
    Projected P ctx events ↔ ∀ before event after, events = before ++ .dict event :: after →
      Readable P (Pending P before) event := by
  constructor
  · rintro ⟨entries, -, -, -, heach⟩ before event after heq
    obtain ⟨es, out, -, -, hnext, -, -⟩ := heach before (.dict event) after heq
    obtain ⟨s, hs⟩ := projectLog_ok.mp hnext
    exact feedAll_runs.mp ⟨_, hs⟩ before event [] rfl
  · intro h
    obtain ⟨⟨s, entries⟩, hall⟩ : Runs (feedAll P ctx .fresh events) := feedAll_runs.mpr h
    refine ⟨entries, projectLog_ok.mpr ⟨s, hall⟩, (run_uuids hP hnum hall).1, (run_spec hall).2.1,
      ?_⟩
    rintro before event after rfl
    rw [← singleton_append, ← append_assoc, feedAll_append] at hall
    obtain ⟨⟨s₁, es₁⟩, hnext, hall⟩ := bind_ok.mp hall
    obtain ⟨⟨s₂, rest⟩, -, hall⟩ := bind_ok.mp hall
    cases hall
    have hsplit := hnext
    rw [feedAll_snoc] at hsplit
    obtain ⟨⟨s₀, es⟩, hbefore, hsplit⟩ := bind_ok.mp hsplit
    obtain ⟨⟨s₁', out⟩, hlast, hsplit⟩ := bind_ok.mp hsplit
    cases hsplit
    refine ⟨es, out, rest, projectLog_ok.mpr ⟨_, hbefore⟩, projectLog_ok.mpr ⟨_, hnext⟩, rfl, ?_⟩
    cases event with
    | dict d => exact (feed_spec (run_spec hbefore).1 hlast).2.1
    | _ =>
      cases hlast
      rfl

end

/-- A Python whose `json.loads` gives up past a thousand open lists. -/
def shallowPython : Python where
  repr _ := .ok (Str.lit "{}")
  floatText _ := Str.lit "0.0"
  intOfStr _ := none
  timeText _ := none
  loads t :=
    if 1000 < (t.takeWhile fun c => decide (c = .scalar '[')).length then .error .recursionError
    else .ok (.dict [])
  uuid5 := id

def dshContext : Context := ⟨Str.lit "s", Str.lit "dsh", none, none⟩

def lit (s : String) : Value := .str (Str.lit s)

def object (ms : List (String × Value)) : Value := .dict (ms.map fun e => (Str.lit e.1, e.2))

def callEvent (name : String) (arguments : Str) : Dict :=
  [(Str.lit "type", lit "assistant/message"), (Str.lit "seq", .int 7),
    (Str.lit "data", object [("message", object [("content", .list [object
      [("type", lit "tool-call"), ("id", lit "c1"), ("name", lit name),
        ("arguments", .str arguments)]])])])]

theorem numbered_callEvent (name : String) (arguments : Str) :
    Numbered [.dict (callEvent name arguments)] :=
  ⟨[7], nodup_singleton 7, rfl⟩

def logEvent (type : String) (seq : ℤ) (data : List (String × Value)) : Value :=
  .dict [(Str.lit "type", lit type), (Str.lit "seq", .int seq), (Str.lit "data", object data)]

/-- A call and its result, then a delegation with the launch that stands for it; the result of the
delegation is passed over. -/
def delegatingLog : List Value :=
  [.dict (callEvent "bash" (Str.lit "{}")),
    logEvent "tool/result" 8 [("message", object [("content", .list [object
      [("toolCallId", lit "c1"), ("content", lit "done")]])])],
    logEvent "assistant/message" 9 [("message", object [("content", .list [object
      [("type", lit "tool-call"), ("id", lit "c2"), ("name", lit "subagent")]])])],
    logEvent "turma/subagent-start" 10 [("childId", lit "k1"), ("label", lit "search")],
    logEvent "tool/result" 11 [("message", object [("content", .list [object
      [("toolCallId", lit "c2"), ("content", lit "found")]])])]]

theorem projected_iff_delegation :
    (∃ entries, projectLog shallowPython dshContext delegatingLog = .ok entries ∧
      entries.length = 4) ∧ Projected shallowPython dshContext delegatingLog := by
  have hruns : Runs (feedAll shallowPython dshContext .fresh delegatingLog) := ⟨_, rfl⟩
  refine ⟨⟨_, rfl, rfl⟩, (projected_iff Function.injective_id ⟨[7, 8, 9, 10, 11], by decide, rfl⟩).mpr
    (feedAll_runs.mp hruns)⟩

/-- The arguments of one call open a hundred thousand lists: nothing of the log is projected. -/
theorem projected_iff_nested :
    ¬∀ (P : Python) (ctx : Context) (events : List Value), Function.Injective P.uuid5 →
      Numbered events → Projected P ctx events := by
  intro hall
  have hnested := hall shallowPython dshContext
    [.dict (callEvent "bash" (List.replicate 100000 (.scalar '[')))] Function.injective_id
    (numbered_callEvent _ _)
  obtain ⟨entries, hlog, -⟩ := hnested
  obtain ⟨s, hs⟩ := projectLog_ok.mp hlog
  obtain ⟨r, hr, -⟩ := bind_ok.mp hs
  have hfresh : feedAll shallowPython dshContext .fresh [] = .ok (.fresh, []) := rfl
  have hreadable := (feed_runs (run_spec hfresh).1).mp ⟨r, hr⟩
  have hcall := hreadable.1 _ (mem_singleton_self _)
  refine hcall.1 _ rfl ?_
  have hopen : (List.replicate 100000 (CodePoint.scalar '[')).takeWhile
      (fun c => decide (c = .scalar '[')) = List.replicate 100000 (.scalar '[') :=
    takeWhile_eq_self_iff.mpr fun c hc => by simpa using eq_of_mem_replicate hc
  rw [shallowPython]
  dsimp only
  rw [if_pos]
  rw [hopen, length_replicate]
  decide

end Turma.DshTranscript
