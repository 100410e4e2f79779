import Turma.Archive.Apart
import Turma.Lib.SqlWhere

/-! Whose transcripts a caller may read: the scope of a read as JavaScript has it over one row, as
SQLite has it over a table, and as Postgres has it. -/

namespace Turma.Archive

open Turma.Lib Turma.Tenancy List Option JsString

structure Scope where
  tenant : Option JsString
  untenanted : Bool

def hostInScope (host : Option JsString) : Option Scope → Bool
  | none => true
  | some scope =>
    let t := tenantOfHost host
    if t ≠ [] then scope.tenant = some t else scope.untenanted

def tenantHostGlob : JsString :=
  ofString "*@" ++ (List.replicate 32 (ofString "[0-9a-f]")).flatten

/-- `@[0-9a-f]{32}$` -/
def tenantHostRe : List (CodePoint → Bool) :=
  (fun c => decide (c = .scalar '@')) :: List.replicate 32 isHex

def scopeSql (scope : Scope) (col : Option JsString) : Truth :=
  Truth.any <|
    (if scope.untenanted = true then [Truth.not (glob tenantHostGlob col)] else []) ++
    match scope.tenant with
    | some t => if isTenantId t = true then [glob (ofString "*@" ++ t) col] else []
    | none => []

def scopeWhere (scope : Scope) (col : Option JsString) : Truth :=
  Truth.any <|
    (if scope.untenanted = true then [notEndingIn tenantHostRe col] else []) ++
    match scope.tenant with
    | some t => if isTenantId t = true then [like (ofString "%@" ++ t) col] else []
    | none => []

/-- What `node:sqlite` and the functions of SQLite read of a text: up to the first U+0000. -/
def upToNul (s : JsString) : JsString := s.takeWhile fun c => decide (c ≠ .scalar (Char.ofNat 0))

def Mode.tabled : Mode → Row → Row
  | .sqlite, r => r
  | .pg, r => mirrorRow r

def Mode.queried : Mode → JsString → JsString
  | .sqlite => upToNul
  | .pg => dropNul

/-- The host of a row as `idxGetSession` reads it. -/
def Mode.host : Mode → JsString → JsString
  | .sqlite => upToNul
  | .pg => id

structure Query where
  repo : JsString
  host : JsString
  scope : Option Scope

/-- `col = ?`, where the query names a value. -/
def equals (wanted : JsString) (col : Option JsString) : List Truth :=
  if wanted = [] then [] else [col.map fun s => decide (s = wanted)]

def Query.clause (mode : Mode) (q : Query) (r : Row) : Truth :=
  let r := mode.tabled r
  Truth.all <| equals q.repo (text? r.data.repo) ++ equals q.host r.host ++
    match q.scope, mode with
    | none, _ => []
    | some scope, .sqlite => [scopeSql scope (r.host.map upToNul)]
    | some scope, .pg => [scopeWhere scope r.host]

/-- Postgres can still hold the rows of a purged tenant, which no answer shows. -/
def hidden (env : Env) (mode : Mode) (r : Row) : Bool :=
  match mode with
  | .sqlite => false
  | .pg => isTenantPurged env (tenantOfHost (mode.tabled r).host)

namespace State

variable (env : Env) (s : State)

def listArchive (q : Query) : List Row :=
  s.index.rows.values.filter fun r =>
    (q.clause s.index.mode r).keeps && !hidden env s.index.mode r

def searchArchive (hit : JsString → Bool) (q : Query) : List Row :=
  s.index.rows.values.filter fun r =>
    (Truth.and (some (hit r.transcriptId)) (q.clause s.index.mode r)).keeps &&
      !hidden env s.index.mode r

def scopedRow (id : JsString) (scope : Option Scope) : Option Row :=
  (s.index.get id).filter fun r => hostInScope (r.host.map s.index.mode.host) scope

def sessionRow (id : JsString) (scope : Option Scope) : Option Row := s.scopedRow id scope

/-- `getTranscript`: the row and the entries, none where the file is not there. -/
def getTranscript (id : JsString) (scope : Option Scope) : Option (Row × List Line) := do
  let row ← s.scopedRow id scope
  let relPath ← row.filePath
  return (row, s.linesAt relPath)

def rawDirOf (id : JsString) (scope : Option Scope) : Option JsString := do
  let row ← s.scopedRow id scope
  let relPath ← row.filePath
  rawDirFor relPath id

def listRawFiles (id : JsString) (scope : Option Scope) : Option (List (JsString × ℕ)) := do
  let row ← s.scopedRow id scope
  let relPath ← row.filePath
  let _ ← rawDirFor relPath id
  return (s.raw.entries.filter fun e => e.1.1 = relPath ∧ e.1.2.1 = id).map fun e =>
    (e.1.2.2, e.2.length)

def rawFileFor (id rel : JsString) (scope : Option Scope) : Option JsString := do
  let row ← s.scopedRow id scope
  let relPath ← row.filePath
  let full ← rawFilePath relPath id rel
  if (s.raw.get? (relPath, id, rel)).isSome = true then some full else none

end State

/-- Whether a scope covers the rows of a tenant; those of no tenant, where it is empty. -/
def Scope.Covers (scope : Scope) (tenant : JsString) : Prop :=
  if tenant = [] then scope.untenanted = true else scope.tenant = some tenant

instance (scope : Scope) (tenant : JsString) : Decidable (scope.Covers tenant) :=
  inferInstanceAs (Decidable (if tenant = [] then _ else _))

theorem hostInScope_some (host : Option JsString) (scope : Scope) :
    hostInScope host (some scope) = true ↔ scope.Covers (tenantOfHost host) := by
  rw [hostInScope, Scope.Covers]
  by_cases ht : tenantOfHost host = []
  · simp [ht]
  · simp [ht]

theorem tenantSuffix_eq (s : JsString) : tenantSuffix s = fits tenantHostRe s := by
  cases s with
  | nil => rfl
  | cons c hex => rw [tenantSuffix, tenantHostRe, fits, fits_replicate, Bool.and_assoc]

theorem isTenantId_eq (t : JsString) : isTenantId t = fits (List.replicate 32 isHex) t := by
  rw [isTenantId, tenantSuffix, fits_replicate, decide_eq_true rfl, Bool.true_and]

theorem hexSet_eq :
    GlobSet.has ⟨false, none, [(.scalar '0', .scalar '0'), (.scalar '0', .scalar '9'),
      (.scalar 'a', .scalar 'a'), (.scalar 'a', .scalar 'f')]⟩ = isHex := by
  funext c
  rw [Bool.eq_iff_iff]
  cases c with
  | scalar c =>
    have hcode (a b : Char) : a ≤ b ↔ a.toNat ≤ b.toNat := by
      rw [Char.le_def, UInt32.le_iff_toNat_le]
      rfl
    simp only [GlobSet.has, isHex, any_cons, any_nil, Bool.bne_false, Bool.or_eq_true,
      Bool.and_eq_true, decide_eq_true_eq, Bool.or_false]
    simp only [CodePoint.code, hcode, Char.reduceToNat]
    omega
  | lone u =>
    simp only [GlobSet.has, isHex, any_cons, any_nil, Bool.bne_false, Bool.or_eq_true,
      Bool.and_eq_true, decide_eq_true_eq, Bool.or_false]
    simp only [CodePoint.code, Char.reduceToNat, Bool.false_eq_true, iff_false]
    omega

theorem globSigns_hex (ps : JsString) :
    globSigns .outside (ofString "[0-9a-f]" ++ ps) = .one isHex :: globSigns .outside ps := by
  rw [← hexSet_eq]
  rfl

theorem globSigns_tenantHostGlob :
    globSigns .outside tenantHostGlob = .run :: tenantHostRe.map .one := by
  have hrepeat (n : ℕ) : globSigns .outside
      (List.replicate n (ofString "[0-9a-f]")).flatten =
        (List.replicate n isHex).map .one := by
    induction n with
    | zero => rfl
    | succ n ih =>
      rw [replicate_succ, flatten_cons, globSigns_hex, ih, replicate_succ,
        map_cons]
  rw [tenantHostRe, map_cons, ← hrepeat]
  rfl

variable {t : JsString}

theorem plain_of_isTenantId (h : isTenantId t = true) :
    ∀ c ∈ ofString "@" ++ t, Plain c := by
  rw [isTenantId_eq, fits_replicate, Bool.and_eq_true, List.all_eq_true] at h
  intro c hc hplain
  rcases mem_append.mp hc with hat | ht
  · obtain rfl : c = .scalar '@' := by simpa [ofString] using hat
    simp at hplain
  · have hhex := h.2 c ht
    simp only [mem_cons, not_mem_nil, or_false] at hplain
    rcases hplain with rfl | rfl | rfl | rfl | rfl | rfl <;> cases hhex

/-- A text ends in the signature of a tenant exactly when it has one. -/
theorem endsIn_tenantHostRe (s : JsString) :
    endsIn tenantHostRe s = decide (tenantOfHostKey s ≠ []) := by
  rw [endsIn_eq, ← tenantSuffix_eq, show tenantHostRe.length = 33 from rfl, tenantOfHostKey]
  split
  · rename_i hsuffix
    have hlength := tenantSuffix_length hsuffix
    rw [hsuffix, eq_comm, decide_eq_true_eq]
    intro hnil
    have hshort := congrArg List.length hnil
    rw [length_drop, hlength] at hshort
    simp at hshort
  · rename_i hsuffix
    simpa using hsuffix

/-- A text ends in `@t` exactly when it is of tenant `t`. -/
theorem endsIn_literal (h : isTenantId t = true) (s : JsString) :
    endsIn ((ofString "@" ++ t).map fun a c => decide (c = a)) s =
      decide (tenantOfHostKey s = t) := by
  have ht : tenantSuffix (.scalar '@' :: t) = true := h
  have hlength := tenantSuffix_length ht
  rw [endsIn_eq, fits_literal, length_map, decide_eq_decide,
    show ofString "@" ++ t = .scalar '@' :: t from rfl, hlength, tenantOfHostKey]
  constructor
  · intro heq
    rw [heq, if_pos ht]
    rfl
  · intro heq
    split at heq
    · rename_i hsuffix
      cases htail : s.drop (s.length - 33) with
      | nil => simp [htail, tenantSuffix] at hsuffix
      | cons c hex =>
        rw [htail] at heq hsuffix
        simp only [tenantSuffix, Bool.and_eq_true, decide_eq_true_eq] at hsuffix
        rw [← heq, hsuffix.1.1]
        rfl
    · rw [← heq] at hlength
      simp at hlength

theorem glob_tenant (h : isTenantId t = true) (s : JsString) :
    glob (ofString "*@" ++ t) (some s) = some (decide (tenantOfHostKey s = t)) := by
  have hsigns : globSigns .outside (ofString "*@" ++ t) =
      .run :: globSigns .outside (ofString "@" ++ t) := rfl
  rw [glob, map_some, hsigns, globSigns_plain (plain_of_isTenantId h), wildMatch_run_ones,
    endsIn_literal h]

theorem like_tenant (h : isTenantId t = true) (s : JsString) :
    like (ofString "%@" ++ t) (some s) = some (decide (tenantOfHostKey s = t)) := by
  have hsigns : likeSigns false (ofString "%@" ++ t) =
      .run :: likeSigns false (ofString "@" ++ t) := rfl
  rw [like, map_some, hsigns, likeSigns_plain (plain_of_isTenantId h), wildMatch_run_ones,
    endsIn_literal h]

theorem glob_tenantHost (s : JsString) :
    glob tenantHostGlob (some s) = some (decide (tenantOfHostKey s ≠ [])) := by
  rw [glob, map_some, globSigns_tenantHostGlob, wildMatch_run_ones, endsIn_tenantHostRe]

theorem isTenantId_tenantOfHostKey {s : JsString} (h : tenantOfHostKey s ≠ []) :
    isTenantId (tenantOfHostKey s) = true := by
  rw [tenantOfHostKey] at h ⊢
  split at h
  · rename_i hsuffix
    rw [if_pos hsuffix]
    cases htail : s.drop (s.length - 33) with
    | nil => simp [htail, tenantSuffix] at hsuffix
    | cons c hex =>
      rw [htail, tenantSuffix_eq, tenantHostRe, fits, Bool.and_eq_true] at hsuffix
      rw [drop_one, tail_cons, isTenantId_eq]
      exact hsuffix.2
  · exact absurd rfl h

variable (mode : Mode) (scope : Scope)

/-- The two parts of a scope, whichever way they are put. -/
theorem covers_parts (s : JsString) :
    scope.Covers (tenantOfHostKey s) ↔
      scope.untenanted = true ∧ tenantOfHostKey s = [] ∨
        ∃ t, scope.tenant = some t ∧ isTenantId t = true ∧ tenantOfHostKey s = t := by
  rw [Scope.Covers]
  by_cases hnone : tenantOfHostKey s = []
  · rw [if_pos hnone]
    constructor
    · exact fun h => Or.inl ⟨h, hnone⟩
    · rintro (⟨h, -⟩ | ⟨t, -, hid, heq⟩)
      · exact h
      · rw [← heq, hnone] at hid
        cases hid
  · rw [if_neg hnone]
    constructor
    · exact fun h => Or.inr ⟨_, h, isTenantId_tenantOfHostKey hnone, rfl⟩
    · rintro (⟨-, h⟩ | ⟨t, ht, -, heq⟩)
      · exact absurd h hnone
      · rw [ht, heq]

theorem keeps_parts (other : Truth) (named : JsString → Truth) :
    (Truth.any ((if scope.untenanted = true then [other] else []) ++
      match scope.tenant with
      | some t => if isTenantId t = true then [named t] else []
      | none => [])).keeps = true ↔
      scope.untenanted = true ∧ other.keeps = true ∨
        ∃ t, scope.tenant = some t ∧ isTenantId t = true ∧ (named t).keeps = true := by
  rw [Truth.keeps_any, any_append, Bool.or_eq_true]
  refine or_congr ?_ ?_
  · by_cases huntenanted : scope.untenanted = true <;> simp [huntenanted]
  · cases htenant : scope.tenant with
    | none => simp
    | some t =>
      simp only [Option.some.injEq, exists_eq_left']
      by_cases hid : isTenantId t = true <;> simp [hid]

theorem keeps_scopeSql (s : JsString) :
    (scopeSql scope (some s)).keeps = true ↔ scope.Covers (tenantOfHostKey s) := by
  rw [scopeSql, keeps_parts, covers_parts, glob_tenantHost]
  refine or_congr (by simp) (exists_congr fun t => and_congr_right fun _ => ?_)
  refine and_congr_right fun hid => ?_
  rw [glob_tenant hid, Truth.keeps_some, decide_eq_true_eq]

theorem keeps_scopeWhere (s : JsString) :
    (scopeWhere scope (some s)).keeps = true ↔ scope.Covers (tenantOfHostKey s) := by
  rw [scopeWhere, keeps_parts, covers_parts, notEndingIn, map_some, endsIn_tenantHostRe]
  refine or_congr (by simp) (exists_congr fun t => and_congr_right fun _ => ?_)
  refine and_congr_right fun hid => ?_
  rw [like_tenant hid, Truth.keeps_some, decide_eq_true_eq]

/-- Of a host that is not there no pattern is known to fit it, and none is known not to. -/
theorem keeps_null :
    ¬(scopeSql scope none).keeps = true ∧ ¬(scopeWhere scope none).keeps = true := by
  rw [scopeSql, scopeWhere, keeps_parts, keeps_parts]
  constructor
  · rintro (⟨-, h⟩ | ⟨t, -, -, h⟩) <;> exact absurd h (by simp [glob])
  · rintro (⟨-, h⟩ | ⟨t, -, -, h⟩) <;> exact absurd h (by simp [notEndingIn, like])

/-- Whether the texts of a host that the queries of a mode see and that its reads of one transcript
see are alike to a scope. -/
def Alike (mode : Mode) (scope : Scope) : Option JsString → Prop
  | none => scope.untenanted = false
  | some h => scope.Covers (tenantOfHostKey (mode.queried h)) ↔
      scope.Covers (tenantOfHostKey (mode.host h))

/-- Under a scope every read shows a row that it shows under none, or every read withholds it. -/
def OneRule (env : Env) (s : State) (id : JsString) (r : Row) (scope : Scope) : Prop :=
  ∃ shown : Bool,
    (∀ repo host, r ∈ s.listArchive env ⟨repo, host, some scope⟩ ↔
      shown = true ∧ r ∈ s.listArchive env ⟨repo, host, none⟩) ∧
    (∀ hit repo host, r ∈ s.searchArchive env hit ⟨repo, host, some scope⟩ ↔
      shown = true ∧ r ∈ s.searchArchive env hit ⟨repo, host, none⟩) ∧
    s.sessionRow id (some scope) = (if shown = true then s.sessionRow id none else none) ∧
    s.getTranscript id (some scope) = (if shown = true then s.getTranscript id none else none) ∧
    s.rawDirOf id (some scope) = (if shown = true then s.rawDirOf id none else none) ∧
    s.listRawFiles id (some scope) = (if shown = true then s.listRawFiles id none else none) ∧
    ∀ rel, s.rawFileFor id rel (some scope) =
      if shown = true then s.rawFileFor id rel none else none

/-- What the scope adds to a query: it keeps a row whose host is there and, as the query sees it, of
a tenant that the scope covers. -/
theorem keeps_scoped (repo host : JsString) (scope : Scope) (r : Row) :
    ((Query.mk repo host (some scope)).clause mode r).keeps = true ↔
      (∃ h, r.host = some h ∧ scope.Covers (tenantOfHostKey (mode.queried h))) ∧
        ((Query.mk repo host none).clause mode r).keeps = true := by
  simp only [Query.clause, Truth.keeps_all, all_append, Bool.and_eq_true]
  rw [and_comm]
  refine and_congr ?_ (by simp)
  cases mode with
  | sqlite =>
    cases hhost : r.host with
    | none => simp [Mode.tabled, hhost, (keeps_null scope).1]
    | some h => simp [Mode.tabled, hhost, keeps_scopeSql, Mode.queried]
  | pg =>
    cases hhost : r.host with
    | none => simp [Mode.tabled, mirrorRow, hhost, (keeps_null scope).2]
    | some h => simp [Mode.tabled, mirrorRow, hhost, keeps_scopeWhere, Mode.queried]

variable {r : Row}

theorem scopedRow_scope {s : State} {id : JsString} (h : s.index.get id = some r)
    (scope : Scope) :
    s.scopedRow id (some scope) =
      if hostInScope (r.host.map s.index.mode.host) (some scope) = true then s.scopedRow id none
      else none := by
  rw [State.scopedRow, State.scopedRow, h, filter_some, filter_some]
  simp [hostInScope]

/-- The reads of one transcript go by the scope alone. -/
theorem opened_scope {s : State} {id : JsString} (h : s.index.get id = some r)
    (scope : Scope) {shown : Bool}
    (hshown : shown = hostInScope (r.host.map s.index.mode.host) (some scope)) :
    s.sessionRow id (some scope) = (if shown = true then s.sessionRow id none else none) ∧
    s.getTranscript id (some scope) = (if shown = true then s.getTranscript id none else none) ∧
    s.rawDirOf id (some scope) = (if shown = true then s.rawDirOf id none else none) ∧
    s.listRawFiles id (some scope) = (if shown = true then s.listRawFiles id none else none) ∧
    ∀ rel, s.rawFileFor id rel (some scope) =
      if shown = true then s.rawFileFor id rel none else none := by
  simp only [State.sessionRow, State.getTranscript, State.rawDirOf, State.listRawFiles,
    State.rawFileFor, scopedRow_scope h, ← hshown]
  cases shown <;> simp

theorem mem_listArchive {env : Env} {s : State} (h : r ∈ s.index.rows.values) (q : Query) :
    r ∈ s.listArchive env q ↔
      (q.clause s.index.mode r).keeps = true ∧ hidden env s.index.mode r = false := by
  rw [State.listArchive, mem_filter, Bool.and_eq_true, Bool.not_eq_true']
  exact and_iff_right h

theorem mem_searchArchive {env : Env} {s : State} (h : r ∈ s.index.rows.values)
    (hit : JsString → Bool) (q : Query) :
    r ∈ s.searchArchive env hit q ↔
      hit r.transcriptId = true ∧ (q.clause s.index.mode r).keeps = true ∧
        hidden env s.index.mode r = false := by
  rw [State.searchArchive, mem_filter, Bool.and_eq_true, Bool.not_eq_true', Truth.keeps_and,
    Truth.keeps_some, Bool.and_eq_true, and_assoc]
  exact and_iff_right h

theorem covers_host (host : Option JsString) :
    hostInScope (host.map mode.host) (some scope) = true ↔
      match host with
      | none => scope.untenanted = true
      | some h => scope.Covers (tenantOfHostKey (mode.host h)) := by
  rw [hostInScope_some]
  cases host with
  | none => simp [Scope.Covers, tenantOfHost, tenantOfHostKey, tenantSuffix]
  | some h => rfl

/-- What the queries keep under the scope is what the reads of one transcript keep, exactly on a
host that is alike to both. -/
theorem alike_iff (host : Option JsString) :
    ((∃ h, host = some h ∧ scope.Covers (tenantOfHostKey (mode.queried h))) ↔
      hostInScope (host.map mode.host) (some scope) = true) ↔ Alike mode scope host := by
  rw [covers_host]
  cases host with
  | none => simp [Alike]
  | some h => simp [Alike]

/-- The reads have one rule for a row exactly where its host is alike to both kinds of them, or no
query shows it. -/
theorem one_rule_iff {env : Env} {s : State} {id : JsString} {r : Row}
    (h : s.index.get id = some r) (scope : Scope) :
    OneRule env s id r scope ↔
      hidden env s.index.mode r = true ∨ Alike s.index.mode scope r.host := by
  have hmem : r ∈ s.index.rows.values :=
    List.mem_map.mpr ⟨_, OrdMap.get?_eq_some.mp h, rfl⟩
  constructor
  · rintro ⟨shown, hlist, -, hsession, -⟩
    by_cases hhidden : hidden env s.index.mode r = true
    · exact Or.inl hhidden
    have hshown : hostInScope (r.host.map s.index.mode.host) (some scope) = true ↔
        shown = true := by
      rw [State.sessionRow, State.sessionRow, scopedRow_scope h] at hsession
      have hopen : s.scopedRow id none = some r := by
        rw [State.scopedRow, h, filter_some]
        rfl
      rw [hopen] at hsession
      generalize hostInScope (r.host.map s.index.mode.host) (some scope) = b at hsession ⊢
      cases shown <;> cases b <;> simp at hsession ⊢
    have hall := hlist [] []
    rw [mem_listArchive hmem, mem_listArchive hmem, keeps_scoped] at hall
    have hkept : ((Query.mk [] [] none).clause s.index.mode r).keeps = true := by
      simp [Query.clause, equals]
    rw [Bool.not_eq_true] at hhidden
    refine Or.inr ((alike_iff s.index.mode scope r.host).mp (Iff.trans ?_ hshown.symm))
    simpa [hkept, hhidden] using hall
  · intro hcases
    refine ⟨hostInScope (r.host.map s.index.mode.host) (some scope), ?_, ?_,
      opened_scope h scope rfl⟩
    · intro repo host
      rw [mem_listArchive hmem, mem_listArchive hmem, keeps_scoped]
      rcases hcases with hhidden | halike
      · simp [hhidden]
      · rw [(alike_iff s.index.mode scope r.host).mpr halike, and_assoc]
    · intro hit repo host
      rw [mem_searchArchive hmem, mem_searchArchive hmem, keeps_scoped]
      rcases hcases with hhidden | halike
      · simp [hhidden]
      · rw [(alike_iff s.index.mode scope r.host).mpr halike]
        tauto

/-- An index that is rebuilt from one file, whose sidecar names this host. -/
def rebuiltStore (host : Option JsString) : State :=
  let s := emptyStore .sqlite
  rebuildIndex openConfig quietEnv
    { s with
      files := s.files.upsert (ofString "r/x.jsonl") fun _ => []
      sidecars := s.sidecars.upsert (ofString "r/x.jsonl") fun _ =>
        ⟨ofString "t1", host, none, Meta.none, 0, 0, 0, none, false, false, none, none⟩ }

def rebuiltHost (host : Option JsString) : Row :=
  ⟨ofString "t1", host, none, Meta.none, 0, 0, 0, 0,
    some (ofString "r/x.jsonl"), none⟩

def tenantKey : JsString := ofString "lap@aaaaaaaaaaaaaaaaaaaaaaaaaaaaaaaa"

theorem one_rule_tenant :
    OneRule quietEnv (rebuiltStore (some tenantKey)) (ofString "t1")
      (rebuiltHost (some tenantKey)) ⟨none, true⟩ :=
  (one_rule_iff (by decide) _).mpr (Or.inr Iff.rfl)

/-- The sidecar of an older archive has no host: its transcript opens for the operators, and no list
of theirs shows it. -/
theorem one_rule_hostless :
    ¬∀ (env : Env) (s : State) (id : JsString) (r : Row) (scope : Scope),
      s.index.get id = some r → OneRule env s id r scope := by
  intro hall
  obtain ⟨shown, hlist, -, hsession, -⟩ := hall quietEnv (rebuiltStore none)
    (ofString "t1") (rebuiltHost none) ⟨none, true⟩ (by decide)
  have hopen : (rebuiltStore none).sessionRow (ofString "t1") (some ⟨none, true⟩) =
      some (rebuiltHost none) := by decide
  have hshown : shown = true := by
    cases shown
    · rw [hopen] at hsession
      simp at hsession
    · rfl
  have hbare : rebuiltHost none ∈
      (rebuiltStore none).listArchive quietEnv ⟨[], [], none⟩ := by decide
  have hscoped := (hlist [] []).mpr ⟨hshown, hbare⟩
  exact absurd hscoped (by decide)

end Turma.Archive
