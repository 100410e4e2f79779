import Turma.QwenGuard.Shim

/-! When the shim lets a call through. Every fault is a deny, so what gets through has passed each
check that was made; which checks are made of a file tool depends on the paths taken from its
arguments, and an argument that is no usable string is passed over. -/

namespace Turma.QwenGuard

open Turma.Lib List
open Option hiding or_assoc

def Allowed (o : Outcome) : Prop := o.denied = none ∧ o.exit = 0

instance (o : Outcome) : Decidable (Allowed o) := inferInstanceAs (Decidable (_ ∧ _))

section

variable (H : Host)

/-- A hook's output is blank, or it can be read and decides something else than deny. -/
def Undenied (out : Str) : Prop :=
  strip out = [] ∨ ∃ v ms hs, H.loads (strip out) = .ok v ∧ v.orElse (.dict []) = .dict ms ∧
    (Dict.get ms "hookSpecificOutput").orElse (.dict []) = .dict hs ∧
    Dict.get hs "permissionDecision" ≠ .str (Str.lit "deny")

def RanClean (cfg : Config) (script : Value) (toolName : Str) (toolInput : Str × Str)
    (cwd sessionId : Value) (args : List Str) : Prop :=
  ∃ c t proc, payloadCwd H cwd = .ok c ∧ timeoutOf cfg = .ok t ∧
    H.run (hookCall cfg script toolName toolInput c sessionId args t) = .ok proc ∧
    proc.returncode = 0 ∧ Undenied H proc.stdout

/-- A target of a write passes the file guard, where there is one, and matches no rule. -/
def WriteCleared (cfg : Config) (ev : Dict) (tgt : Str) : Prop :=
  ∃ real literal, resolveTarget H tgt (ev.get "cwd") = .ok (some real) ∧
    literalTarget H tgt (ev.get "cwd") = .ok literal ∧
    ((cfg.raw.get "fileguardScript").truthy = true → RanClean H cfg (cfg.raw.get "fileguardScript")
      (Str.lit "Write") (Str.lit "file_path", real) (ev.get "cwd") (eventSession ev) []) ∧
    matchesTarget literal (some real) cfg.denyWriteRe = false

/-- A target of a read is carved out, or it matches no rule. -/
def ReadCleared (cfg : Config) (ev : Dict) (tgt : Str) : Prop :=
  ∃ real literal, resolveTarget H tgt (ev.get "cwd") = .ok (some real) ∧
    literalTarget H tgt (ev.get "cwd") = .ok literal ∧
    (matchesAny real cfg.allowReadRe = true ∨
      matchesTarget literal (some real) cfg.denyReadRe = false)

/-- The arguments that name paths: each the string it is, or none where it is no usable string. A
`paths` that is no list is none. -/
def pathArguments (args : Dict) : List (Option Str) :=
  (pathKeys.filter args.has).map (fun k => (args.get k).usable) ++
    if args.has "paths" then
      match args.get "paths" with
      | .list vs => vs.map Value.usable
      | _ => [none]
    else []

/-- A path was taken, and every argument that names one is a usable string and has passed. -/
def FilesCleared (args : Dict) (cleared : Str → Prop) : Prop :=
  targetPaths args ≠ [] ∧ ∀ a ∈ pathArguments args, ∃ p, a = some p ∧ cleared p

def LetThrough (path : Option Str) : Prop :=
  ∃ cfg ev, loadConfig H path = .ok cfg ∧ readEvent H = .ok ev ∧
    match classify H (eventName ev) (eventArgs ev) with
    | .shell command => ∃ c, command = .str c ∧ RanClean H cfg (cfg.raw.get "guardScript")
        (Str.lit "Bash") (Str.lit "command", c) (ev.get "cwd") (eventSession ev) (guardArgs cfg)
    | .write _ => FilesCleared (asDict (eventArgs ev)) (WriteCleared H cfg ev)
    | .read _ => FilesCleared (asDict (eventArgs ev)) (ReadCleared H cfg ev)
    | .other => True

/-- No path is taken from the call, or an argument that names one is passed over, and the paths that
are taken pass. -/
def PassedOver (args : Dict) (cleared : Str → Prop) : Prop :=
  (targetPaths args = [] ∨ none ∈ pathArguments args) ∧ ∀ t ∈ targetPaths args, cleared t

def SlipsBy (path : Option Str) : Prop :=
  ∃ cfg ev, loadConfig H path = .ok cfg ∧ readEvent H = .ok ev ∧
    match classify H (eventName ev) (eventArgs ev) with
    | .write _ => PassedOver (asDict (eventArgs ev)) (WriteCleared H cfg ev)
    | .read _ => PassedOver (asDict (eventArgs ev)) (ReadCleared H cfg ev)
    | _ => False

end

variable {t : Str} {v : Value}

theorem usable_eq_some : v.usable = some t ↔ t ≠ [] ∧ v = .str t := by
  unfold Value.usable
  split
  · rename_i s
    rw [Value.str.injEq]
    split_ifs with h
    · constructor
      · rintro ⟨⟩
      · rintro ⟨ht, rfl⟩
        exact absurd h ht
    · constructor
      · intro ht
        cases ht
        exact ⟨h, rfl⟩
      · rintro ⟨-, rfl⟩
        rfl
  · rename_i hv
    constructor
    · rintro ⟨⟩
    · rintro ⟨-, rfl⟩
      exact absurd rfl (hv t)

theorem mem_addPath {out : List Str} :
    t ∈ addPath out v ↔ t ∈ out ∨ v.usable = some t := by
  rw [usable_eq_some]
  unfold addPath
  split
  · rename_i s
    rw [Value.str.injEq]
    split_ifs with h
    · constructor
      · exact Or.inl
      · rintro (ht | ⟨ht, rfl⟩)
        · exact ht
        · exact h.resolve_left ht
    · obtain ⟨hs, -⟩ := not_or.mp h
      rw [mem_append, mem_singleton]
      constructor
      · rintro (ht | rfl)
        · exact Or.inl ht
        · exact Or.inr ⟨hs, rfl⟩
      · rintro (ht | ⟨-, rfl⟩)
        · exact Or.inl ht
        · exact Or.inr rfl
  · rename_i hv
    constructor
    · exact Or.inl
    · rintro (ht | ⟨-, rfl⟩)
      · exact ht
      · exact absurd rfl (hv t)

theorem mem_foldl_addPath {vs : List Value} {out : List Str} :
    t ∈ vs.foldl addPath out ↔ t ∈ out ∨ some t ∈ vs.map Value.usable := by
  induction vs generalizing out with
  | nil => simp
  | cons v vs ih =>
    rw [foldl_cons, ih, mem_addPath, map_cons, mem_cons, or_assoc,
      eq_comm (a := some t)]

/-- An argument that is missing reads as `None`. -/
theorem Dict.get_of_not_has {d : Dict} {k : String} (h : d.has k = false) : d.get k = .none := by
  have hfind : (d.find? fun e => e.1 == Str.lit k) = none := by
    rw [find?_eq_none]
    intro e he
    rw [Dict.has, List.any_eq_false] at h
    exact h e he
  rw [Dict.get, hfind]

theorem Dict.has_of_usable {d : Dict} {k : String} (h : (d.get k).usable = some t) :
    d.has k = true := by
  by_contra hk
  rw [Dict.get_of_not_has (Bool.eq_false_iff.mpr hk)] at h
  exact some_ne_none t h.symm

variable {args : Dict}

/-- What is taken are the usable strings. -/
theorem mem_targetPaths :
    t ∈ targetPaths args ↔ some t ∈ pathArguments args := by
  have hscalar : t ∈ pathKeys.foldl (fun out k => addPath out (args.get k)) [] ↔
      some t ∈ (pathKeys.filter args.has).map fun k => (args.get k).usable := by
    rw [← foldl_map (f := args.get) (g := addPath), mem_foldl_addPath]
    simp only [not_mem_nil, false_or, List.mem_map, mem_filter]
    constructor
    · rintro ⟨v, ⟨k, hk, rfl⟩, hv⟩
      exact ⟨k, ⟨hk, Dict.has_of_usable hv⟩, hv⟩
    · rintro ⟨k, ⟨hk, -⟩, hv⟩
      exact ⟨args.get k, ⟨k, hk, rfl⟩, hv⟩
  unfold targetPaths pathArguments
  rw [mem_append, ← hscalar]
  cases hpaths : args.has "paths" with
  | false =>
    rw [Dict.get_of_not_has hpaths, if_neg Bool.false_ne_true]
    simp only [not_mem_nil, or_false]
  | true =>
    rw [if_pos rfl]
    cases args.get "paths" with
    | list vs => exact mem_foldl_addPath
    | none | bool | num | str | dict => simp only [mem_singleton, reduceCtorEq, or_false]

theorem targetPaths_ne_nil (h : t ∈ targetPaths args) : t ≠ [] := by
  have husable : ∃ v : Value, v.usable = some t := by
    rcases mem_append.mp (mem_targetPaths.mp h) with hk | hp
    · obtain ⟨k, -, hk⟩ := List.mem_map.mp hk
      exact ⟨_, hk⟩
    · split_ifs at hp
      · split at hp
        · obtain ⟨v, -, hv⟩ := List.mem_map.mp hp
          exact ⟨v, hv⟩
        · exact absurd (mem_singleton.mp hp) (some_ne_none t)
      · exact absurd hp not_mem_nil
  obtain ⟨v, hv⟩ := husable
  exact (usable_eq_some.mp hv).1

variable {cfg : Config} {script : Value} {cwd sessionId : Value}
  {reason : Str → Except Fault (Option Str)} {path : Option Str} {toolInput : Str × Str} {ev : Dict}

section

variable (H : Host)

theorem decisionOf_eq_none {out : Str} : decisionOf H script out = .ok none ↔
    ∃ v ms hs, H.loads out = .ok v ∧ v.orElse (.dict []) = .dict ms ∧
      (Dict.get ms "hookSpecificOutput").orElse (.dict []) = .dict hs ∧
      Dict.get hs "permissionDecision" ≠ .str (Str.lit "deny") := by
  unfold decisionOf
  cases hv : H.loads out with
  | error e => cases e <;> simp
  | ok v =>
    simp only [Except.ok.injEq, exists_and_left, exists_eq_left']
    cases hm : v.orElse (.dict []) with
    | dict ms =>
      simp only [Value.dict.injEq, exists_eq_left']
      cases hh : (Dict.get ms "hookSpecificOutput").orElse (.dict []) with
      | dict hs =>
        simp only [Value.dict.injEq, exists_eq_left']
        cases hd : Dict.get hs "permissionDecision" with
        | str d =>
          dsimp only
          rw [Ne, Value.str.injEq]
          split_ifs with hdeny <;> simp [hdeny]
        | none | bool | num | list | dict => simp
      | none | bool | num | str | list => simp
    | none | bool | num | str | list => simp

theorem procOutcome_eq_none {proc : Except Fault Proc} :
    procOutcome H script proc = .ok none ↔
      ∃ p, proc = .ok p ∧ p.returncode = 0 ∧ Undenied H p.stdout := by
  unfold procOutcome Undenied
  cases proc with
  | error e => cases e <;> simp
  | ok p =>
    simp only [Except.ok.injEq, exists_eq_left']
    split_ifs with hcode hblank
    · simp [hcode]
    · simp [not_not.mp hcode, hblank]
    · rw [decisionOf_eq_none]
      simp [not_not.mp hcode, hblank]

/-- A hook lets a call through when there is none, or when it ran, exited 0 and did not decide
deny. -/
theorem runHook_eq_none {toolName : Str}
    {args : List Str} :
    runHook H cfg script toolName toolInput cwd sessionId args = .ok none ↔
      (script.truthy = true → RanClean H cfg script toolName toolInput cwd sessionId args) := by
  unfold runHook RanClean
  cases hs : script.truthy with
  | false => simp
  | true =>
    simp only [Bool.not_true, Bool.false_eq_true, if_false, forall_const]
    cases hc : payloadCwd H cwd with
    | error e => simp
    | ok c =>
      cases ht : timeoutOf cfg with
      | error e => simp
      | ok t =>
        rw [procOutcome_eq_none]
        simp

/-- A reason is never empty. -/
theorem pyStr_ne_nil (hv : v.truthy = true) : pyStr H v ≠ [] := by
  cases v with
  | str s => simpa [Value.truthy, pyStr] using hv
  | none | bool | num | list | dict => exact (H.strOf _).2

theorem orElse_truthy {a b : Value} (hb : b.truthy = true) : (a.orElse b).truthy = true := by
  unfold Value.orElse
  split_ifs with ha
  · exact ha
  · exact hb

theorem decisionOf_ne_nil {out : Str} :
    decisionOf H script out ≠ .ok (some []) := by
  have hdefault : (Value.str (Str.lit "denied by Turma safety guard")).truthy = true := by decide
  unfold decisionOf
  intro h
  split at h
  · exact nomatch h
  · exact nomatch h
  · exact nomatch h
  · split at h
    · split at h
      · split at h
        · split_ifs at h
          · exact pyStr_ne_nil H (orElse_truthy hdefault) (some.inj (Except.ok.inj h))
          · exact nomatch h
        · exact nomatch h
      · exact nomatch h
    · exact nomatch h

theorem runHook_ne_nil {toolName : Str}
    {args : List Str} :
    runHook H cfg script toolName toolInput cwd sessionId args ≠ .ok (some []) := by
  unfold runHook procOutcome
  intro h
  split_ifs at h
  · exact nomatch h
  · split at h
    · exact nomatch h
    · split at h
      · exact nomatch h
      · split at h
        · exact nomatch h
        · exact nomatch h
        · exact nomatch h
        · split_ifs at h
          · exact nomatch h
          · exact decisionOf_ne_nil H h

theorem resolveTarget_ne_none {p : Str} {cwd : Value} (hp : p ≠ []) :
    resolveTarget H p cwd ≠ .ok none := by
  unfold resolveTarget
  rw [if_neg hp]
  intro h
  split at h
  · exact nomatch h
  · split at h <;> exact nomatch h

theorem denyWriteReason_ne_nil (t : Str) : denyWriteReason t ≠ [] := by
  have hlit : Str.lit "Writing " ≠ [] := by decide
  intro h
  rw [denyWriteReason, append_assoc] at h
  exact hlit (append_eq_nil_iff.mp h).1

theorem denyReadReason_ne_nil (t : Str) : denyReadReason t ≠ [] := by
  have hlit : Str.lit "Reading " ≠ [] := by decide
  intro h
  rw [denyReadReason, append_assoc] at h
  exact hlit (append_eq_nil_iff.mp h).1

theorem writeReason_eq_none (ht : t ≠ []) :
    writeReason H cfg (ev.get "cwd") (eventSession ev) t = .ok none ↔ WriteCleared H cfg ev t := by
  unfold writeReason WriteCleared
  cases hr : resolveTarget H t (ev.get "cwd") with
  | error e => simp
  | ok r =>
    cases r with
    | none => exact absurd hr (resolveTarget_ne_none H ht)
    | some real =>
      cases hl : literalTarget H t (ev.get "cwd") with
      | error e => simp
      | ok literal =>
        simp only [Except.ok.injEq, some.injEq, exists_and_left, exists_eq_left',
          ← runHook_eq_none]
        cases hrun : runHook H cfg (cfg.raw.get "fileguardScript") (Str.lit "Write")
            (Str.lit "file_path", real) (ev.get "cwd") (eventSession ev) [] with
        | error e => simp
        | ok reason =>
          cases reason with
          | none => cases matchesTarget literal (some real) cfg.denyWriteRe <;> simp
          | some msg =>
            have hmsg : msg ≠ [] := fun h => runHook_ne_nil H (h ▸ hrun)
            simp [hmsg]

theorem readReason_eq_none (ht : t ≠ []) :
    readReason H cfg (ev.get "cwd") t = .ok none ↔ ReadCleared H cfg ev t := by
  unfold readReason ReadCleared
  cases hr : resolveTarget H t (ev.get "cwd") with
  | error e => simp
  | ok r =>
    cases r with
    | none => exact absurd hr (resolveTarget_ne_none H ht)
    | some real =>
      cases hl : literalTarget H t (ev.get "cwd") with
      | error e => simp
      | ok literal =>
        simp only [Except.ok.injEq, some.injEq, exists_and_left, exists_eq_left']
        cases matchesAny real cfg.allowReadRe <;>
          cases matchesTarget literal (some real) cfg.denyReadRe <;> simp

theorem writeReason_ne_nil :
    writeReason H cfg cwd sessionId t ≠ .ok (some []) := by
  unfold writeReason
  intro h
  split at h
  · exact nomatch h
  · exact nomatch h
  · split at h
    · exact nomatch h
    · split at h
      · exact nomatch h
      · split_ifs at h with hreason
        · exact hreason.2 (Except.ok.inj h)
        · exact denyWriteReason_ne_nil _ (some.inj (Except.ok.inj h))
        · exact nomatch h

theorem readReason_ne_nil {cwd : Value} :
    readReason H cfg cwd t ≠ .ok (some []) := by
  unfold readReason
  intro h
  split at h
  · exact nomatch h
  · exact nomatch h
  · split at h
    · exact nomatch h
    · split_ifs at h
      · exact nomatch h
      · exact denyReadReason_ne_nil _ (some.inj (Except.ok.inj h))
      · exact nomatch h

theorem firstReason_eq_none {ts : List Str} :
    firstReason reason ts = .ok none ↔ ∀ t ∈ ts, reason t = .ok none := by
  induction ts with
  | nil => simp [firstReason]
  | cons t ts ih =>
    rw [firstReason, forall_mem_cons, ← ih]
    cases hr : reason t with
    | error e => simp
    | ok r => cases r <;> simp

theorem firstReason_ne_nil
    (h : ∀ t, reason t ≠ .ok (some [])) (ts : List Str) :
    firstReason reason ts ≠ .ok (some []) := by
  induction ts with
  | nil => exact fun hf => nomatch hf
  | cons t ts ih =>
    rw [firstReason]
    cases hr : reason t with
    | error e => exact fun hf => nomatch hf
    | ok r =>
      cases r with
      | none => exact ih
      | some msg =>
        have hne := h t
        rw [hr] at hne
        exact hne

theorem decideShell_eq_none {command : Value} :
    decideShell H cfg command (ev.get "cwd") (eventSession ev) = .ok none ↔
      ∃ c, command = .str c ∧ (cfg.raw.get "guardScript").truthy = true ∧
        RanClean H cfg (cfg.raw.get "guardScript") (Str.lit "Bash") (Str.lit "command", c)
          (ev.get "cwd") (eventSession ev) (guardArgs cfg) := by
  unfold decideShell
  dsimp only
  cases hs : (cfg.raw.get "guardScript").truthy with
  | false => simp
  | true =>
    rw [Bool.not_true, if_neg Bool.false_ne_true]
    cases command with
    | str c =>
      rw [runHook_eq_none, hs]
      simp
    | none | bool | num | list | dict => simp

theorem decide_ne_nil (cfg : Config) (ev : Dict) : decide H cfg ev ≠ .ok (some []) := by
  unfold decide decideShell
  intro h
  split at h
  · dsimp only at h
    split_ifs at h
    · split at h
      · exact runHook_ne_nil H h
      · exact nomatch h
  · exact firstReason_ne_nil (fun t => writeReason_ne_nil H) _ h
  · exact firstReason_ne_nil (fun t => readReason_ne_nil H) _ h
  · exact nomatch h

theorem judge_ok {r : Option Str} : judge H path = .ok r ↔
    ∃ cfg ev, loadConfig H path = .ok cfg ∧ readEvent H = .ok ev ∧ decide H cfg ev = .ok r := by
  unfold judge
  cases loadConfig H path with
  | error e => simp
  | ok cfg => cases readEvent H <;> simp

/-- A call gets through when the `try` block ends without a reason, and only then. -/
theorem allowed_iff : Allowed (main H path) ↔ judge H path = .ok none := by
  unfold main Allowed
  cases hj : judge H path with
  | error e => simp
  | ok r =>
    cases r with
    | none => simp
    | some msg =>
      have hmsg : msg ≠ [] := by
        rintro rfl
        obtain ⟨cfg, ev, -, -, hd⟩ := (judge_ok H).mp hj
        exact decide_ne_nil H cfg ev hd
      simp [hmsg]

/-- What does not get through prints a deny. -/
theorem denied_of_not_allowed (h : ¬ Allowed (main H path)) :
    (main H path).denied ≠ none := by
  unfold Allowed main at h
  unfold main
  cases hj : judge H path with
  | error e => simp
  | ok r =>
    rw [hj] at h
    cases r with
    | none => simp at h
    | some msg =>
      dsimp only at h ⊢
      split_ifs at h ⊢ with hmsg
      · simp at h
      · simp

/-- The targets of a file tool are the paths taken from its arguments. -/
theorem classify_targets {name args : Value} {ts : List Str}
    (h : classify H name args = .write ts ∨ classify H name args = .read ts) :
    ts = targetPaths (asDict args) := by
  unfold classify at h
  dsimp only at h
  split_ifs at h <;> simp_all

/-- A file tool gets through when all that was taken passes. -/
theorem filesCleared_iff {cleared : Str → Prop} :
    ((∀ t ∈ targetPaths args, cleared t) → FilesCleared args cleared) ↔
      ¬ PassedOver args cleared := by
  constructor
  · rintro h ⟨hpassed, hall⟩
    obtain ⟨hne, hargs⟩ := h hall
    rcases hpassed with hnil | hnone
    · exact hne hnil
    · obtain ⟨p, hp, -⟩ := hargs none hnone
      exact some_ne_none p hp.symm
  · intro h hall
    have hpassed := fun hp => h ⟨hp, hall⟩
    refine ⟨fun hnil => hpassed (Or.inl hnil), fun a ha => ?_⟩
    cases a with
    | none => exact absurd (Or.inr ha) hpassed
    | some p => exact ⟨p, rfl, hall p (mem_targetPaths.mpr ha)⟩

/-- The shim fails closed exactly when no file tool is called with arguments that name no path or
that it passes over, with all that it does take passing. -/
theorem main_fails_closed_iff (path : Option Str) :
    ((Allowed (main H path) → LetThrough H path) ∧
      (¬ Allowed (main H path) → (main H path).denied ≠ none)) ↔ ¬ SlipsBy H path := by
  rw [and_iff_left (denied_of_not_allowed H), allowed_iff, judge_ok]
  cases hc : loadConfig H path with
  | error e => simp [SlipsBy, hc]
  | ok cfg =>
    cases he : readEvent H with
    | error e => simp [SlipsBy, he]
    | ok ev =>
      have hthrough : LetThrough H path ↔ match classify H (eventName ev) (eventArgs ev) with
          | .shell command => ∃ c, command = .str c ∧ RanClean H cfg (cfg.raw.get "guardScript")
              (Str.lit "Bash") (Str.lit "command", c) (ev.get "cwd") (eventSession ev)
              (guardArgs cfg)
          | .write _ => FilesCleared (asDict (eventArgs ev)) (WriteCleared H cfg ev)
          | .read _ => FilesCleared (asDict (eventArgs ev)) (ReadCleared H cfg ev)
          | .other => True := by
        simp [LetThrough, hc, he]
      have hslips : SlipsBy H path ↔ match classify H (eventName ev) (eventArgs ev) with
          | .write _ => PassedOver (asDict (eventArgs ev)) (WriteCleared H cfg ev)
          | .read _ => PassedOver (asDict (eventArgs ev)) (ReadCleared H cfg ev)
          | _ => False := by
        simp [SlipsBy, hc, he]
      have hdecide : (∃ cfg' ev', (Except.ok cfg : Except Fault Config) = .ok cfg' ∧
          (Except.ok ev : Except Fault Dict) = .ok ev' ∧ decide H cfg' ev' = .ok none) ↔
            decide H cfg ev = .ok none := by
        simp
      rw [hthrough, hslips, hdecide, decide]
      cases hk : classify H (eventName ev) (eventArgs ev) with
      | shell command =>
        dsimp only
        rw [decideShell_eq_none]
        simp only [not_false_eq_true, iff_true]
        rintro ⟨c, hcmd, -, hran⟩
        exact ⟨c, hcmd, hran⟩
      | write ts =>
        obtain rfl := classify_targets H (Or.inl hk)
        dsimp only
        rw [firstReason_eq_none, ← filesCleared_iff]
        apply imp_congr_left
        exact forall₂_congr fun t ht => writeReason_eq_none H (targetPaths_ne_nil ht)
      | read ts =>
        obtain rfl := classify_targets H (Or.inr hk)
        dsimp only
        rw [firstReason_eq_none, ← filesCleared_iff]
        apply imp_congr_left
        exact forall₂_congr fun t ht => readReason_eq_none H (targetPaths_ne_nil ht)
      | other => simp

end

def listPathText : Str := Str.lit
  "\x7b\"tool_name\":\"write_file\",\"tool_input\":\x7b\"file_path\":[\"/root/.ssh/authorized_keys\"]\x7d\x7d"

def listPathEvent : Dict :=
  [(Str.lit "tool_name", .str (Str.lit "write_file")), (Str.lit "tool_input",
    .dict [(Str.lit "file_path", .list [.str (Str.lit "/root/.ssh/authorized_keys")])])]

def sshRules : Dict :=
  [(Str.lit "guardScript", .str (Str.lit "/opt/guard.py")),
    (Str.lit "denyWrite", .list [.str (Str.lit "/root/.ssh/**")])]

/-- A host with no link in its paths, whose hooks have nothing to say. -/
def plainHost : Host where
  lower := fun s => s
  strOf := fun _ => ⟨Str.lit "?", by decide⟩
  getcwd := .ok (Str.lit "/work")
  realpath := fun p => .ok (normpath p)
  run := fun _ => .ok ⟨0, []⟩
  loads := fun s =>
    if s = listPathText then .ok (.dict listPathEvent)
    else .error (.valueError (Str.lit "Expecting value"))
  load := fun p =>
    if p = Str.lit "/etc/guard.json" then .ok (.dict sshRules)
    else .error (.osError (Str.lit "No such file or directory"))
  stdin := .ok listPathText

/-- The write gets through, though no check was made and its one path is under a rule. -/
theorem nonString_path_allowed :
    ¬ ((Allowed (main plainHost (some (Str.lit "/etc/guard.json"))) →
        LetThrough plainHost (some (Str.lit "/etc/guard.json"))) ∧
      (¬ Allowed (main plainHost (some (Str.lit "/etc/guard.json"))) →
        (main plainHost (some (Str.lit "/etc/guard.json"))).denied ≠ none)) := by
  rintro ⟨hthrough, -⟩
  have hallowed : Allowed (main plainHost (some (Str.lit "/etc/guard.json"))) := by
    decide
  obtain ⟨cfg, ev, -, hev, hfiles⟩ := hthrough hallowed
  have hread : readEvent plainHost = .ok listPathEvent := by rfl
  obtain rfl := Except.ok.inj (hread.symm.trans hev)
  have hwrite : classify plainHost (eventName listPathEvent) (eventArgs listPathEvent) =
      .write [] := by rfl
  rw [hwrite] at hfiles
  exact hfiles.1 rfl

end Turma.QwenGuard
