import Turma.Archive.Apart

/-! Who may write into a transcript: what each call changes of its row, its file and its raw files,
and what a call that is refused leaves. -/

namespace Turma.Archive

open Turma.Lib Turma.Tenancy List Option OrdMap JsString

/-- Whether a row takes a chunk of a host with its org: from the host that it has, from another one
of that tenant with the org that it has, if it has one, and from any host where it has none. -/
def Takes (row : Option Row) (host org : JsString) : Prop :=
  ∀ r h, row = some r → r.host = some h → h ≠ [] → h = host ∨
    tenantOfHostKey h = tenantOfHostKey host ∧
      (r.siteKey = none ∨ org ≠ [] ∧ r.siteKey = some org)

variable {s : State} {env : Env} {c : Chunk}

theorem Gated.takes (h : Gated env s c) :
    Takes (s.index.get c.transcriptId) c.host (c.siteKey.slice metaTextMax) := by
  intro r host hrow hhost hne
  by_cases hsame : host = c.host
  · exact .inl hsame
  right
  have horg := h.org
  have htenant := h.tenant
  rw [hrow] at horg htenant
  simp only [orgGate, rePoint, tenantGate, bind_some, hhost, ne_eq, hne, not_false_iff,
    decide_true, Bool.true_and, hsame, Bool.not_true, Bool.false_or, Bool.or_eq_true,
    isNone_iff_eq_none, Bool.and_eq_true, decide_eq_true_eq, decide_false] at horg htenant
  refine ⟨htenant, ?_⟩
  rcases horg with hnone | ⟨horg, hsite⟩
  · exact .inl hnone
  · cases hkey : r.siteKey with
    | none => exact .inl rfl
    | some k =>
      rw [hkey, getD_some] at hsite
      exact .inr ⟨horg, congrArg some hsite⟩

/-- A tenant's suffix is what a `TEXT` column keeps, and nothing else becomes one there. -/
theorem tenantSuffix_toWellFormed (t : JsString) :
    tenantSuffix (JsString.toWellFormed t) = tenantSuffix t ∧
      (tenantSuffix t = true → JsString.toWellFormed t = t) := by
  cases t with
  | nil => exact ⟨rfl, fun _ => rfl⟩
  | cons c hex =>
    have hfirst : c.wellFormed = .scalar '@' ↔ c = .scalar '@' := by
      cases c with
      | scalar a => exact Iff.rfl
      | lone u =>
        exact ⟨fun h => absurd (CodePoint.scalar.inj h) (by decide), nofun⟩
    have hhex : (hex.map CodePoint.wellFormed).all isHex = hex.all isHex := by
      rw [List.all_map]
      congr 1
      funext c
      cases c <;> rfl
    constructor
    · simp only [JsString.toWellFormed, tenantSuffix, map_cons, length_map, hhex, hfirst]
    · intro h
      simp only [tenantSuffix, Bool.and_eq_true, decide_eq_true_eq, List.all_eq_true] at h
      refine toWellFormed_of_scalar fun c' hc' => ?_
      rcases mem_cons.mp hc' with rfl | hc'
      · exact ⟨_, h.1.1⟩
      · exact scalar_of_isHex (h.2 c' hc')

theorem tenantOfHostKey_text (mode : Mode) (host : JsString) :
    tenantOfHostKey (mode.text host) = tenantOfHostKey host := by
  cases mode with
  | pg => rfl
  | sqlite =>
    have htail : List.drop (List.length (JsString.toWellFormed host) - 33)
        (JsString.toWellFormed host) =
          JsString.toWellFormed (List.drop (List.length host - 33) host) := by
      simp only [JsString.toWellFormed, length_map, map_drop]
    obtain ⟨hsuffix, hkeep⟩ := tenantSuffix_toWellFormed (List.drop (List.length host - 33) host)
    simp only [tenantOfHostKey, Mode.text, htail, hsuffix]
    split
    · rename_i h
      rw [hkeep h]
    · rfl

structure Reaped (env : Env) (s s' : State) : Prop where
  index : s'.index = s.index
  files : ∀ p, s'.files.get? p = s.files.get? p ∨ inPurged env p = true ∧ s'.files.get? p = none
  sidecars : ∀ p, s'.sidecars.get? p = s.sidecars.get? p ∨
    inPurged env p = true ∧ s'.sidecars.get? p = none
  raw : ∀ k, s'.raw.get? k = s.raw.get? k ∨ inPurged env k.1 = true ∧ s'.raw.get? k = none

variable {C : Config}

/-- A call that left a transcript alone: the same rows, files, sidecars and raw files, but for the
files of purged tenants. -/
structure Unchanged (env : Env) (s s' : State) : Prop where
  rows : s'.index.rows = s.index.rows
  files : ∀ p, inPurged env p = false → s'.files.get? p = s.files.get? p
  sidecars : ∀ p, inPurged env p = false → s'.sidecars.get? p = s.sidecars.get? p
  raw : ∀ k, inPurged env k.1 = false → s'.raw.get? k = s.raw.get? k

theorem Reaped.unchanged {s s' : State} (h : Reaped env s s') : Unchanged env s s' where
  rows := by rw [h.index]
  files p hp := (h.files p).resolve_right fun hin => absurd (hp.symm.trans hin.1) (by simp)
  sidecars p hp := (h.sidecars p).resolve_right fun hin => absurd (hp.symm.trans hin.1) (by simp)
  raw k hk := (h.raw k).resolve_right fun hin => absurd (hk.symm.trans hin.1) (by simp)

theorem Reaped.checked {s s' s'' : State} (h : Reaped env s s')
    (hc : Checked s' s'') : s''.index.rows = s.index.rows ∧
      (∀ p, s''.linesAt p = s.linesAt p ∨ s''.linesAt p = []) ∧
      (∀ k, s''.raw.get? k = s.raw.get? k ∨ s''.raw.get? k = none) ∧ Unchanged env s s'' := by
  obtain ⟨_, _, _, rfl⟩ := hc
  refine ⟨by rw [← h.index], fun p => ?_, fun k => (h.raw k).imp_right And.right,
    ⟨by rw [← h.index], h.unchanged.files, h.unchanged.sidecars, h.unchanged.raw⟩⟩
  rcases h.files p with hp | ⟨-, hp⟩
  · exact .inl (by simp only [State.linesAt, hp])
  · exact .inr (by simp only [State.linesAt, hp, getD_none])

def Reowns (s : State) (e : Event) (id : JsString) : Prop :=
  (∃ i site host, e.2 = .restampOrg i site host ∧ s.index.mode.text i = id) ∨
    ∃ i host site, e.2 = .rekeyOwner i host site ∧ s.index.mode.text i = id

/-- The host of a row changes with its owner, or to that of a chunk that the row takes. -/
def HostGuarded (C : Config) (s : State) (e : Event) : Prop :=
  ∀ id r r', s.index.rows.get? id = some r → (step C s e).index.rows.get? id = some r' →
    r'.host = r.host ∨ Reowns s e id ∨ ∃ c, e.2 = .ingestChunk c ∧
      s.index.mode.text c.transcriptId = id ∧
      Takes (some r) c.host (c.siteKey.slice metaTextMax) ∧
      r'.host = some (s.index.mode.text c.host)

/-- The tenant of a row that has a host changes with its owner only. -/
def TenantGuarded (C : Config) (s : State) (e : Event) : Prop :=
  ∀ id r r' h, s.index.rows.get? id = some r → (step C s e).index.rows.get? id = some r' →
    r.host = some h → h ≠ [] → Reowns s e id ∨ tenantOfHost r'.host = tenantOfHostKey h

variable {e : Event}

theorem HostGuarded.tenant (h : HostGuarded C s e) :
    TenantGuarded C s e := by
  intro id r r' host hr hr' hhost hne
  rcases h id r r' hr hr' with hsame | hreowns | ⟨c, -, -, htakes, hnew⟩
  · right
    rw [hsame, hhost]
    rfl
  · exact .inl hreowns
  · right
    rw [hnew]
    change tenantOfHostKey (s.index.mode.text c.host) = _
    rw [tenantOfHostKey_text]
    rcases htakes r host rfl hhost hne with rfl | ⟨htenant, -⟩
    · rfl
    · exact htenant.symm

variable {blobs : List BlobOp} {ops : List IndexOp}

structure Purged (s s' : State) : Prop where
  rows : ∀ {id r}, s'.index.rows.get? id = some r → s.index.rows.get? id = some r
  files : ∀ p, s'.files.get? p = s.files.get? p ∨ s'.files.get? p = none
  raw : ∀ k, s'.raw.get? k = s.raw.get? k ∨ s'.raw.get? k = none

theorem Purged.trans {s s' s'' : State} (h : Purged s s') (h' : Purged s' s'') : Purged s s'' where
  rows hr := h.rows (h'.rows hr)
  files p := by
    rcases h'.files p with hp | hp
    · rw [hp]
      exact h.files p
    · exact .inr hp
  raw k := by
    rcases h'.raw k with hk | hk
    · rw [hk]
      exact h.raw k
    · exact .inr hk

def rawByte (host : String) (start : ℚ) : RawPush where
  host := ofString host
  transcriptId := ofString "t1"
  rel := ofString "main.jsonl"
  start := some start
  buf := [65]

end Turma.Archive
