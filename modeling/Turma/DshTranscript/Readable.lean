import Mathlib.Tactic.Push
import Turma.DshTranscript.Projector

/-! Which events can be read: what each of them says, the conversions that its projection makes, and
that it raises exactly where one of these does. -/

namespace Turma.DshTranscript

open Turma.Lib List

open Turma.QwenGuard (Str Str.lit strip)

section

variable (P : Python)

/-- `str(v)`, where it can be had. -/
def text (v : Value) : Str :=
  match pyStr P v with
  | .ok s => s
  | .error _ => []

def idText (v : Value) : Option Str := if v.truthy = true then some (text P v) else none

def messageOf (event : Dict) : Dict := ((event.get "data").asDict.get "message").asDict

def isCall (b : Dict) : Bool := (b.get "type").isText "tool-call"

def callOf (b : Dict) : Option Str × Str :=
  (idText P (b.get "id"), toolName (text P (b.get "name").orEmpty))

def callsIn : List Value → List (Option Str × Str)
  | [] => []
  | .dict b :: bs => if isCall b = true then callOf P b :: callsIn bs else callsIn bs
  | _ :: bs => callsIn bs

def callsOf (event : Dict) : List (Option Str × Str) :=
  callsIn P ((messageOf event).get "content").elements

def answered (event : Dict) : Option Str := idText P (resultCall (messageOf event))

/-- `str` does not raise. -/
def Converts (v : Value) : Prop := ∃ s, pyStr P v = .ok s

/-- `str` does not raise, where it is called on a truthy value only. -/
def ConvertsIf (v : Value) : Prop := v.truthy = true → Converts P v

def TextReadable (b : Dict) : Prop :=
  (b.get "type").isText "text" = true ∨ (b.get "type").isText "reasoning" = true →
    Converts P (b.get "text").orEmpty

/-- The arguments do not nest past the recursion limit, and the name and the id convert. -/
def CallReadable (b : Dict) : Prop :=
  (∀ t, b.get "arguments" = .str t → P.loads t ≠ .error .recursionError) ∧
    Converts P (b.get "name").orEmpty ∧ ConvertsIf P (b.get "id")

def TextsReadable (content : Value) : Prop :=
  ∀ b, .dict b ∈ content.elements → TextReadable P b

def Shown (b : Dict) : Prop :=
  (b.get "type").isText "text" = true ∨ (b.get "type").isText "reasoning" = true ∨
    (b.get "type").isText "image" = true ∨ ∃ t, b.get "text" = .str t

def HasText (content : Value) : Prop :=
  (∃ t, content = .str t ∧ t ≠ []) ∨ ∃ b, .dict b ∈ content.elements ∧ Shown b

def Kept (b : Dict) : Prop :=
  if isCall b = true then (callOf P b).2 ∉ delegationToolNames else Shown b

/-- No conversion that the event's projection makes raises: of the texts it shows, of its calls, of
the ids and names it carries and, where it has an entry, of its `seq`. -/
def Readable (pending : Str → Prop) (event : Dict) : Prop :=
  let data := (event.get "data").asDict
  let seq := event.get "seq"
  match kindOf event with
  | .userMessage =>
    TextsReadable P (data.get "content") ∧ (HasText (data.get "content") → Converts P seq)
  | .assistantMessage =>
    let msg := messageOf event
    (∀ b, .dict b ∈ (msg.get "content").elements →
      if isCall b = true then CallReadable P b else TextReadable P b) ∧
    ((∃ b, .dict b ∈ (msg.get "content").elements ∧ Kept P b) →
      Converts P seq ∧ ConvertsIf P (msg.get "id") ∧
        ConvertsIf P ((msg.get "source").asDict.get "model"))
  | .toolResult =>
    let msg := messageOf event
    ConvertsIf P (resultCall msg) ∧
      ((∃ id, answered P event = some id ∧ pending id) ∨
        TextsReadable P ((resultBlock msg).get "content") ∧ Converts P seq)
  | .turnEnd => cancelled (event.get "data") = true → Converts P seq
  | .subagentStart =>
    Converts P (childOf (event.get "data")) ∧
      (validId (strip (text P (childOf (event.get "data")))) = true →
        Converts P (data.get "label").orEmpty ∧ Converts P seq)
  | .subagentEnd =>
    Converts P (childOf (event.get "data")) ∧
      (validId (strip (text P (childOf (event.get "data")))) = true →
        Converts P (data.get "stopReason").orEmpty ∧ Converts P seq)
  | .workflowRunStart =>
    Converts P (data.get "runId").orEmpty ∧
      (shapedRunId (strip (text P (data.get "runId").orEmpty)) ≠ [] →
        Converts P (data.get "name").orEmpty ∧ Converts P seq)
  | .workflowRunEnd =>
    Converts P (data.get "runId").orEmpty ∧
      (shapedRunId (strip (text P (data.get "runId").orEmpty)) ≠ [] →
        Converts P (data.get "stopReason").orEmpty ∧ Converts P seq)
  | .other => True

end

section

variable {P : Python}

theorem bind_ok {α β : Type} {x : Except Fault α} {f : α → Except Fault β} {b : β} :
    (x >>= f) = .ok b ↔ ∃ a, x = .ok a ∧ f a = .ok b := by
  cases x <;> simp [bind, Except.bind]

def Runs {α : Type} (x : Except Fault α) : Prop := ∃ a, x = .ok a

theorem runs_pure {α : Type} (a : α) : Runs (pure a) := ⟨a, rfl⟩

theorem runs_bind {α β : Type} {x : Except Fault α} {f : α → Except Fault β} :
    Runs (x >>= f) ↔ ∃ a, x = .ok a ∧ Runs (f a) := by
  cases x <;> simp [Runs, bind, Except.bind]

/-- An early return is no fault. -/
theorem runs_unless {α : Type} {c : Prop} [Decidable c] {a : α} {x : Except Fault α} :
    Runs (if c then pure a else x) ↔ (¬c → Runs x) := by
  by_cases hc : c
  · simp [hc, runs_pure]
  · simp [hc]

theorem text_eq {v : Value} {t : Str} (h : pyStr P v = .ok t) : text P v = t := by
  rw [text, h]

theorem converts_iff {v : Value} : Converts P v ↔ pyStr P v = .ok (text P v) :=
  ⟨fun ⟨_, h⟩ => by rw [text_eq h, h], fun h => ⟨_, h⟩⟩

theorem textIf_ok {v : Value} {o : Option Str} :
    textIf P v = .ok o ↔ ConvertsIf P v ∧ o = idText P v := by
  rw [textIf, ConvertsIf, idText]
  by_cases hv : v.truthy = true
  · simp only [hv, if_true, true_implies, bind_ok, converts_iff]
    constructor
    · rintro ⟨t, ht, ho⟩
      rw [text_eq ht]
      exact ⟨ht, (Except.ok.inj ho).symm⟩
    · rintro ⟨ht, rfl⟩
      exact ⟨_, ht, rfl⟩
  · simp only [hv, Bool.false_eq_true, if_false, Except.ok.injEq, false_implies, true_and]
    exact eq_comm

theorem toolInput_runs {args : Value} :
    Runs (toolInput P args) ↔
      ∀ t, args = .str t → P.loads t ≠ .error .recursionError := by
  cases args with
  | str t =>
    simp only [toolInput, Value.str.injEq, forall_eq']
    cases P.loads t with
    | ok v => exact ⟨fun _ => by simp, fun _ => ⟨_, rfl⟩⟩
    | error f =>
      cases f with
      | valueError => exact ⟨fun _ => by simp, fun _ => ⟨_, rfl⟩⟩
      | recursionError =>
        refine ⟨?_, fun h => absurd rfl h⟩
        rintro ⟨inp, h⟩
        cases h
  | _ => exact ⟨fun _ => by simp, fun _ => ⟨_, rfl⟩⟩

theorem toolUseBlock_runs {b : Dict} :
    Runs (toolUseBlock P b) ↔ CallReadable P b := by
  rw [CallReadable, ← toolInput_runs]
  simp only [Runs, toolUseBlock, bind_ok, textIf_ok]
  constructor
  · rintro ⟨blk, inp, hinp, name, hname, id, ⟨hid, -⟩, -⟩
    exact ⟨⟨inp, hinp⟩, ⟨name, hname⟩, hid⟩
  · rintro ⟨⟨inp, hinp⟩, ⟨name, hname⟩, hid⟩
    exact ⟨_, inp, hinp, name, hname, _, ⟨hid, rfl⟩, rfl⟩

theorem toolUseBlock_eq {b : Dict} {blk : Block} (h : toolUseBlock P b = .ok blk) :
    ∃ inp, blk = .toolUse (callOf P b).1 (callOf P b).2 inp := by
  simp only [toolUseBlock, bind_ok, textIf_ok] at h
  obtain ⟨inp, -, name, hname, id, ⟨-, rfl⟩, hblk⟩ := h
  refine ⟨inp, (Except.ok.inj hblk).symm.trans ?_⟩
  rw [callOf, text_eq hname]

def Block.toolUse? : Block → Option (Option Str × Str)
  | .toolUse id name _ => some (id, name)
  | _ => none

def Block.toolResult? : Block → Option (Option Str)
  | .toolResult id _ _ => some id
  | _ => none

theorem eachBlock_runs {f : Dict → Except Fault (List Block)} {bs : List Value} :
    Runs (eachBlock f bs) ↔ ∀ b, .dict b ∈ bs → Runs (f b) := by
  induction bs with
  | nil => simp [eachBlock, Runs]
  | cons v bs ih =>
    cases v with
    | dict b =>
      simp only [Runs, eachBlock, bind_ok, mem_cons, Value.dict.injEq]
      constructor
      · rintro ⟨out, o, ho, rest, hrest, -⟩ b' (rfl | hb')
        · exact ⟨o, ho⟩
        · exact ih.mp ⟨rest, hrest⟩ b' hb'
      · intro hall
        obtain ⟨o, ho⟩ := hall b (Or.inl rfl)
        obtain ⟨rest, hrest⟩ := ih.mpr fun b' hb' => hall b' (Or.inr hb')
        exact ⟨_, o, ho, rest, hrest, rfl⟩
    | _ =>
      simp only [eachBlock, mem_cons, reduceCtorEq, false_or]
      exact ih

theorem mem_eachBlock {f : Dict → Except Fault (List Block)} {bs : List Value} {out : List Block}
    (h : eachBlock f bs = .ok out) {blk : Block} :
    blk ∈ out ↔ ∃ b o, .dict b ∈ bs ∧ f b = .ok o ∧ blk ∈ o := by
  induction bs generalizing out with
  | nil =>
    obtain rfl := Except.ok.inj h
    simp
  | cons v bs ih =>
    cases v with
    | dict b =>
      simp only [eachBlock, bind_ok] at h
      obtain ⟨o, ho, rest, hrest, hout⟩ := h
      obtain rfl := Except.ok.inj hout
      simp only [mem_append, ih hrest, mem_cons, Value.dict.injEq]
      constructor
      · rintro (hblk | ⟨b', o', hb', ho', hblk⟩)
        · exact ⟨b, o, Or.inl rfl, ho, hblk⟩
        · exact ⟨b', o', Or.inr hb', ho', hblk⟩
      · rintro ⟨b', o', rfl | hb', ho', hblk⟩
        · rw [ho] at ho'
          obtain rfl := Except.ok.inj ho'
          exact Or.inl hblk
        · exact Or.inr ⟨b', o', hb', ho', hblk⟩
    | _ =>
      simp only [ih h, mem_cons, reduceCtorEq, false_or]

theorem textBlock_runs {b : Dict} : Runs (textBlock P b) ↔ TextReadable P b := by
  rw [textBlock, TextReadable]
  by_cases htext : (b.get "type").isText "text" = true
  · simp only [Runs, htext, if_true, true_or, true_implies, bind_ok]
    exact ⟨fun ⟨_, t, ht, _⟩ => ⟨t, ht⟩, fun ⟨t, ht⟩ => ⟨_, t, ht, rfl⟩⟩
  by_cases hreasoning : (b.get "type").isText "reasoning" = true
  · simp only [Runs, htext, hreasoning, if_true, or_true, true_implies, bind_ok, Bool.false_eq_true,
      if_false]
    exact ⟨fun ⟨_, t, ht, _⟩ => ⟨t, ht⟩, fun ⟨t, ht⟩ => ⟨_, t, ht, rfl⟩⟩
  simp only [htext, hreasoning, if_false, or_self, false_implies, iff_true, Bool.false_eq_true]
  split_ifs
  · exact ⟨_, rfl⟩
  · split <;> exact ⟨_, rfl⟩

/-- A block for a text is no call and no result, and there is one exactly where it is shown. -/
theorem textBlock_spec {b : Dict} {o : List Block} (h : textBlock P b = .ok o) :
    (o ≠ [] ↔ Shown b) ∧ ∀ blk ∈ o, blk.toolUse? = none ∧ blk.toolResult? = none ∧
      blk.delegates = false := by
  rw [textBlock] at h
  split_ifs at h with htext hreasoning himage
  · obtain ⟨t, -, ho⟩ := bind_ok.mp h
    obtain rfl := Except.ok.inj ho
    exact ⟨by simp [Shown, htext], by simp [Block.toolUse?, Block.toolResult?, Block.delegates]⟩
  · obtain ⟨t, -, ho⟩ := bind_ok.mp h
    obtain rfl := Except.ok.inj ho
    exact ⟨by simp [Shown, hreasoning],
      by simp [Block.toolUse?, Block.toolResult?, Block.delegates]⟩
  · obtain rfl := Except.ok.inj h
    exact ⟨by simp [Shown, himage], by simp [Block.toolUse?, Block.toolResult?, Block.delegates]⟩
  · split at h
    · rename_i t ht
      obtain rfl := Except.ok.inj h
      exact ⟨by simp [Shown, ht], by simp [Block.toolUse?, Block.toolResult?, Block.delegates]⟩
    · rename_i hno
      obtain rfl := Except.ok.inj h
      refine ⟨?_, by simp⟩
      simp only [ne_eq, not_true_eq_false, false_iff]
      rintro (h' | h' | h' | ⟨t, ht⟩)
      · exact htext h'
      · exact hreasoning h'
      · exact himage h'
      · exact hno t ht

theorem contentToTextBlocks_runs {content : Value} :
    Runs (contentToTextBlocks P content) ↔ TextsReadable P content := by
  have hlist : Runs (eachBlock (textBlock P) content.elements) ↔
      TextsReadable P content :=
    eachBlock_runs.trans (forall_congr' fun b => imp_congr_right fun _ => textBlock_runs)
  cases content with
  | str t => exact ⟨fun _ b hb => by simp [Value.elements] at hb, fun _ => ⟨_, rfl⟩⟩
  | _ => exact hlist

theorem contentToTextBlocks_spec {content : Value} {o : List Block}
    (h : contentToTextBlocks P content = .ok o) :
    (o ≠ [] ↔ HasText content) ∧ ∀ blk ∈ o, blk.toolUse? = none ∧ blk.toolResult? = none := by
  have hlist (h : eachBlock (textBlock P) content.elements = .ok o)
      (hstr : ∀ t, content ≠ .str t) : (o ≠ [] ↔ HasText content) ∧
      ∀ blk ∈ o, blk.toolUse? = none ∧ blk.toolResult? = none := by
    constructor
    · rw [Ne, eq_nil_iff_forall_not_mem, HasText]
      push Not
      simp only [mem_eachBlock h]
      constructor
      · rintro ⟨blk, b, ob, hb, hob, hblk⟩
        exact Or.inr ⟨b, hb, (textBlock_spec hob).1.mp (ne_nil_of_mem hblk)⟩
      · rintro (⟨t, ht, -⟩ | ⟨b, hb, hshown⟩)
        · exact absurd ht (hstr t)
        · obtain ⟨ob, hob⟩ := eachBlock_runs.mp ⟨o, h⟩ b hb
          obtain ⟨blk, hblk⟩ := exists_mem_of_ne_nil _ ((textBlock_spec hob).1.mpr hshown)
          exact ⟨blk, b, ob, hb, hob, hblk⟩
    · intro blk hblk
      obtain ⟨b, ob, -, hob, hmem⟩ := (mem_eachBlock h).mp hblk
      have hspec := (textBlock_spec hob).2 blk hmem
      exact ⟨hspec.1, hspec.2.1⟩
  cases content with
  | str t =>
    obtain rfl := Except.ok.inj h
    by_cases ht : t = []
    · simp [ht, HasText, Value.elements]
    · simp [ht, HasText, Block.toolUse?, Block.toolResult?]
  | _ => exact hlist h (by simp)

theorem assistantBlock_runs {b : Dict} :
    Runs (assistantBlock P b) ↔
      if isCall b = true then CallReadable P b else TextReadable P b := by
  rw [assistantBlock, isCall]
  split_ifs with hcall
  · rw [← toolUseBlock_runs, runs_bind]
    exact exists_congr fun blk => and_iff_left (runs_pure _)
  · exact textBlock_runs

/-- A call becomes its own block, under its own id and name; the rest are texts. -/
theorem assistantBlock_spec {b : Dict} {o : List Block} (h : assistantBlock P b = .ok o) :
    o.filterMap Block.toolUse? = (if isCall b = true then [callOf P b] else []) ∧
      (∀ blk ∈ o, blk.toolResult? = none) ∧
      ((∃ blk ∈ o, blk.delegates = false) ↔ Kept P b) := by
  rw [assistantBlock] at h
  rw [Kept, isCall]
  split_ifs at h ⊢ with hcall
  · simp only [bind_ok] at h
    obtain ⟨blk, hblk, ho⟩ := h
    obtain rfl := Except.ok.inj ho
    obtain ⟨inp, rfl⟩ := toolUseBlock_eq hblk
    simp [Block.toolUse?, Block.toolResult?, Block.delegates]
  · obtain ⟨hshown, htexts⟩ := textBlock_spec h
    refine ⟨?_, fun blk hblk => (htexts blk hblk).2.1, ?_⟩
    · rw [filterMap_eq_nil_iff]
      exact fun blk hblk => (htexts blk hblk).1
    · rw [← hshown, Ne, eq_nil_iff_forall_not_mem]
      push Not
      exact exists_congr fun blk => and_iff_left_of_imp fun hblk => (htexts blk hblk).2.2

theorem assistantContent_calls {bs : List Value} {out : List Block}
    (h : eachBlock (assistantBlock P) bs = .ok out) :
    out.filterMap Block.toolUse? = callsIn P bs := by
  induction bs generalizing out with
  | nil =>
    obtain rfl := Except.ok.inj h
    rfl
  | cons v bs ih =>
    cases v with
    | dict b =>
      simp only [eachBlock, bind_ok] at h
      obtain ⟨o, ho, rest, hrest, hout⟩ := h
      obtain rfl := Except.ok.inj hout
      rw [filterMap_append, (assistantBlock_spec ho).1, ih hrest, callsIn]
      split_ifs <;> rfl
    | _ =>
      rw [ih h, callsIn]
      exact fun b hb => by cases hb

variable {ctx : Context} {s : State} {seq : Value} {ts : Str}

theorem envelope_ok {type : Role} {i : ℕ} {message : Message} :
    (∃ e, envelope P ctx s type seq i ts message = .ok e) ↔ Converts P seq := by
  simp only [envelope, mkUuid, bind_ok]
  constructor
  · rintro ⟨e, u, ⟨t, ht, -⟩, -⟩
    exact ⟨t, ht⟩
  · rintro ⟨t, ht⟩
    exact ⟨_, _, ⟨t, ht, rfl⟩, rfl⟩

/-- An event with one entry raises for its `seq` alone. -/
theorem runs_emit {type : Role} {i : ℕ} {message : Message} {β : Type} {f : Entry → β} :
    Runs (envelope P ctx s type seq i ts message >>= fun e => pure (f e)) ↔ Converts P seq := by
  rw [runs_bind]
  exact (exists_congr fun e => and_iff_left (runs_pure _)).trans envelope_ok

theorem userMessage_runs {data : Value} :
    Runs (userMessage P ctx s data seq ts) ↔
      TextsReadable P (data.asDict.get "content") ∧
        (HasText (data.asDict.get "content") → Converts P seq) := by
  rw [userMessage, runs_bind, ← contentToTextBlocks_runs]
  simp only [runs_unless, runs_emit, List.isEmpty_iff]
  constructor
  · rintro ⟨blocks, hblocks, hseq⟩
    exact ⟨⟨blocks, hblocks⟩, fun htext => hseq ((contentToTextBlocks_spec hblocks).1.mpr htext)⟩
  · rintro ⟨⟨blocks, hblocks⟩, hseq⟩
    exact ⟨blocks, hblocks, fun hne => hseq ((contentToTextBlocks_spec hblocks).1.mp hne)⟩

theorem turnEnd_runs {data : Value} :
    Runs (turnEnd P ctx s data seq ts) ↔ (cancelled data = true → Converts P seq) := by
  rw [turnEnd, runs_unless, runs_emit, Bool.not_eq_false]

theorem toolResult_runs {data : Value} (msg : Dict)
    (hmsg : (data.asDict.get "message").asDict = msg) :
    Runs (toolResult P ctx s data seq ts) ↔
      ConvertsIf P (resultCall msg) ∧
        ((∃ id, idText P (resultCall msg) = some id ∧ id ∈ s.skipCalls) ∨
          TextsReadable P ((resultBlock msg).get "content") ∧ Converts P seq) := by
  rw [toolResult, hmsg, runs_bind]
  simp only [textIf_ok]
  rw [← contentToTextBlocks_runs]
  constructor
  · rintro ⟨callId, ⟨hcall, rfl⟩, hr⟩
    refine ⟨hcall, ?_⟩
    split at hr
    · rename_i id hid
      rw [Option.filter_eq_some_iff] at hid
      exact Or.inl ⟨id, hid.1, by simpa using hid.2⟩
    · obtain ⟨inner, hinner, hseq⟩ := runs_bind.mp hr
      exact Or.inr ⟨⟨inner, hinner⟩, runs_emit.mp hseq⟩
  · rintro ⟨hcall, hcases⟩
    refine ⟨_, ⟨hcall, rfl⟩, ?_⟩
    split
    · exact runs_pure _
    · rename_i hnone
      rcases hcases with ⟨id, hid, hmem⟩ | ⟨⟨inner, hinner⟩, hseq⟩
      · rw [hid] at hnone
        simp [hmem] at hnone
      · exact runs_bind.mpr ⟨inner, hinner, runs_emit.mpr hseq⟩

theorem launchPair_runs {name resultText handle : Str} {input tur : Dict} :
    Runs (launchPair P ctx s seq name input resultText handle tur ts) ↔ Converts P seq := by
  simp only [launchPair, runs_bind]
  constructor
  · rintro ⟨t, ht, -⟩
    exact ⟨t, ht⟩
  · rintro ⟨t, ht⟩
    obtain ⟨a, ha⟩ := envelope_ok.mpr (⟨t, ht⟩ : Converts P seq)
    obtain ⟨r, hr⟩ := envelope_ok.mpr (⟨t, ht⟩ : Converts P seq)
    exact ⟨t, ht, a, ha, r, hr, runs_pure _⟩

theorem taskNotification_runs {taskId status : Str} :
    Runs (taskNotification P ctx s seq ts taskId status) ↔ Converts P seq := by
  rw [taskNotification, runs_emit]

theorem runs_text {v : Value} {β : Type} {f : Str → Except Fault β} :
    Runs (pyStr P v >>= f) ↔ Converts P v ∧ Runs (f (text P v)) := by
  rw [runs_bind]
  constructor
  · rintro ⟨t, ht, hf⟩
    rw [text_eq ht]
    exact ⟨⟨t, ht⟩, hf⟩
  · rintro ⟨hv, hf⟩
    exact ⟨_, converts_iff.mp hv, hf⟩

theorem runs_textIf {v : Value} {β : Type} {f : Option Str → Except Fault β} :
    Runs (textIf P v >>= f) ↔ ConvertsIf P v ∧ Runs (f (idText P v)) := by
  rw [runs_bind]
  simp only [textIf_ok]
  constructor
  · rintro ⟨o, ⟨hv, rfl⟩, hf⟩
    exact ⟨hv, hf⟩
  · rintro ⟨hv, hf⟩
    exact ⟨_, ⟨hv, rfl⟩, hf⟩

theorem runs_runId {v : Value} {β : Type} {f : Str → Except Fault β} :
    Runs (workflowRunId P v >>= f) ↔
      Converts P v.orEmpty ∧ Runs (f (shapedRunId (strip (text P v.orEmpty)))) := by
  rw [workflowRunId, bind_assoc, runs_text]
  rfl

theorem subagentStart_runs {data : Value} :
    Runs (subagentStart P ctx s data seq ts) ↔ Converts P (childOf data) ∧
      (validId (strip (text P (childOf data))) = true →
        Converts P (data.asDict.get "label").orEmpty ∧ Converts P seq) := by
  simp only [subagentStart, runs_text, runs_unless, launchPair_runs, Bool.not_eq_false]

theorem subagentEnd_runs {data : Value} :
    Runs (subagentEnd P ctx s data seq ts) ↔ Converts P (childOf data) ∧
      (validId (strip (text P (childOf data))) = true →
        Converts P (data.asDict.get "stopReason").orEmpty ∧ Converts P seq) := by
  simp only [subagentEnd, runs_text, runs_unless, taskNotification_runs, Bool.not_eq_false]

theorem workflowRunStart_runs {data : Value} :
    Runs (workflowRunStart P ctx s data seq ts) ↔
      Converts P (data.asDict.get "runId").orEmpty ∧
        (shapedRunId (strip (text P (data.asDict.get "runId").orEmpty)) ≠ [] →
          Converts P (data.asDict.get "name").orEmpty ∧ Converts P seq) := by
  simp only [workflowRunStart, runs_runId, runs_text, runs_unless, launchPair_runs, ne_eq]

theorem workflowRunEnd_runs {data : Value} :
    Runs (workflowRunEnd P ctx s data seq ts) ↔
      Converts P (data.asDict.get "runId").orEmpty ∧
        (shapedRunId (strip (text P (data.asDict.get "runId").orEmpty)) ≠ [] →
          Converts P (data.asDict.get "stopReason").orEmpty ∧ Converts P seq) := by
  simp only [workflowRunEnd, runs_runId, runs_text, runs_unless, taskNotification_runs, ne_eq]

/-- A block is kept exactly where its element has one to keep. -/
theorem kept_ne_nil {content : Value} {blocks : List Block}
    (h : assistantContent P content = .ok blocks) :
    (blocks.filter fun b => !b.delegates) ≠ [] ↔ ∃ b, .dict b ∈ content.elements ∧ Kept P b := by
  rw [Ne, eq_nil_iff_forall_not_mem]
  push Not
  simp only [mem_filter, Bool.not_eq_true', mem_eachBlock h]
  constructor
  · rintro ⟨blk, ⟨b, o, hb, ho, hblk⟩, hkept⟩
    exact ⟨b, hb, (assistantBlock_spec ho).2.2.mp ⟨blk, hblk, hkept⟩⟩
  · rintro ⟨b, hb, hkept⟩
    obtain ⟨o, ho⟩ := eachBlock_runs.mp ⟨blocks, h⟩ b hb
    obtain ⟨blk, hblk, hdelegates⟩ := (assistantBlock_spec ho).2.2.mpr hkept
    exact ⟨blk, ⟨b, o, hb, ho, hblk⟩, hdelegates⟩

theorem assistantMessage_runs {data : Value} (msg : Dict)
    (hmsg : (data.asDict.get "message").asDict = msg) :
    Runs (assistantMessage P ctx s data seq ts) ↔
      (∀ b, .dict b ∈ (msg.get "content").elements →
        if isCall b = true then CallReadable P b else TextReadable P b) ∧
      ((∃ b, .dict b ∈ (msg.get "content").elements ∧ Kept P b) →
        Converts P seq ∧ ConvertsIf P (msg.get "id") ∧
          ConvertsIf P ((msg.get "source").asDict.get "model")) := by
  have hcontent : Runs (assistantContent P (msg.get "content")) ↔
      ∀ b, .dict b ∈ (msg.get "content").elements →
        if isCall b = true then CallReadable P b else TextReadable P b :=
    eachBlock_runs.trans (forall_congr' fun b => imp_congr_right fun _ => assistantBlock_runs)
  rw [← hcontent, assistantMessage, hmsg, runs_bind]
  simp only [runs_unless, runs_text, runs_textIf, runs_emit, List.isEmpty_iff]
  constructor
  · rintro ⟨blocks, hblocks, hseq⟩
    refine ⟨⟨blocks, hblocks⟩, fun hkept => ?_⟩
    obtain ⟨hconverts, hid, hmodel, -⟩ := hseq ((kept_ne_nil hblocks).mpr hkept)
    exact ⟨hconverts, hid, hmodel⟩
  · rintro ⟨⟨blocks, hblocks⟩, hseq⟩
    refine ⟨blocks, hblocks, fun hne => ?_⟩
    obtain ⟨hconverts, hid, hmodel⟩ := hseq ((kept_ne_nil hblocks).mp hne)
    exact ⟨hconverts, hid, hmodel, hconverts⟩

/-- A feed raises exactly where a conversion that it makes does. -/
theorem feed_runs {event : Dict} {pending : Str → Prop}
    (hskip : ∀ id, id ∈ s.skipCalls ↔ pending id) :
    Runs (feed P ctx s (.dict event)) ↔ Readable P pending event := by
  rw [feed, Readable]
  cases kindOf event with
  | userMessage => exact userMessage_runs
  | assistantMessage => exact assistantMessage_runs _ rfl
  | toolResult =>
    simp only [← hskip]
    exact toolResult_runs _ rfl
  | turnEnd => exact turnEnd_runs
  | subagentStart => exact subagentStart_runs
  | subagentEnd => exact subagentEnd_runs
  | workflowRunStart => exact workflowRunStart_runs
  | workflowRunEnd => exact workflowRunEnd_runs
  | other => exact iff_true_intro (runs_pure _)

end

end Turma.DshTranscript
