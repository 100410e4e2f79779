import Turma.Archive.Apart
import Turma.Archive.Refile

/-! What the agent re-sends from a cursor that is behind the file: entries that the file holds are
not filed again, and when those past them all are. -/

namespace Turma.Archive

open Turma.Lib List JsString

variable {C : Config} {s s' : State} {id p : JsString}

inductive Resends (C : Config) (id p : JsString) : State → List (List Json) → State → Prop
  | done (s : State) : Resends C id p s [] s
  | aside {s s' s'' : State} {chunks : List (List Json)} : SameView id p s s' →
    Resends C id p s' chunks s'' → Resends C id p s chunks s''
  | chunk {env : Env} {s s' s'' : State} {c : Chunk} {endOffset : ℚ} {reply : ChunkReply}
    {chunks : List (List Json)} : c.transcriptId = id → Admitted C env s c p endOffset →
    SameView id p s (measured C env c.host s) → ingestChunk C env s c = (s', .ok reply) →
    Resends C id p s' chunks s'' → Resends C id p s (c.entries :: chunks) s''

/-- After the entries `pre`, of which the file holds `n` and more: the first chunk that goes past
these has nothing there with the key of an entry before the chunk. -/
def PastApart (n : ℕ) : List Json → List (List Json) → Prop
  | _, [] => True
  | pre, chunk :: chunks =>
    if pre.length + chunk.length ≤ n then PastApart n (pre ++ chunk) chunks
    else ∀ e ∈ chunk.drop (n - pre.length), entryKey e ∉ pre.map entryKey

/-- An admitted chunk goes to its file. -/
theorem ingestChunk_admitted {env : Env} {c : Chunk} {endOffset : ℚ}
    (h : Admitted C env s c p endOffset) :
    ingestChunk C env s c = storeChunk C env (measured C env c.host s)
      (s.index.get c.transcriptId) c ((normalizeMeta c.data).map orNull) endOffset p := by
  have hbounds : ¬(endOffset < cursorOf (s.index.get c.transcriptId) ∨
      maxTranscriptBytes < endOffset) := by
    rw [not_or, not_lt, not_lt]
    exact ⟨h.forward, h.bounded⟩
  rw [ingestChunk]
  simp only [h.org, h.tenant, h.live, h.clear, h.room, h.start, h.stop, ceilingRefuses_fst,
    reduceCtorEq, if_false, ne_eq, not_true_eq_false, if_neg hbounds]
  rw [show totalForCeiling C env (Tenancy.tenantOfHostKey c.host) s = measured C env c.host s from
    rfl, h.placed]

/-- One stored chunk of the transcript. -/
theorem chunk_view {env : Env} {c : Chunk} {endOffset : ℚ} {reply : ChunkReply}
    (hid : c.transcriptId = id) (hadm : Admitted C env s c p endOffset)
    (hview : SameView id p s (measured C env c.host s))
    (hrun : ingestChunk C env s c = (s', .ok reply)) (ht : Tabled s id) :
    (∃ new, s'.linesAt p = s.linesAt p ++ new ∧ Files new (appended s id p c.entries)) ∧
      (Suspicious s' id p ↔ Suspicious s id p ∧ appended s id p c.entries = []) ∧
      Tabled s' id := by
  subst hid
  rw [ingestChunk_admitted hadm, ← hview.row] at hrun
  have hsame : appended (measured C env c.host s) c.transcriptId p c.entries =
      appended s c.transcriptId p c.entries := by
    rw [appended, appended, hview.lines]
    exact if_congr hview.suspicious rfl rfl
  have hstore := storeChunk_view (hview.tabled ht) hrun
  rwa [hview.lines, hsame, hview.suspicious] at hstore

theorem appended_trusted (h : ¬Suspicious s id p) (entries : List Json) :
    appended s id p entries = entries := if_neg h

theorem Files.nil {lines : List Line} (h : Files lines []) : lines = [] := by
  cases h
  rfl

variable {chunks : List (List Json)}

/-- No more is filed than is sent. -/
theorem Resends.length_le (h : Resends C id p s chunks s')
    (ht : Tabled s id) :
    (s'.linesAt p).length ≤ (s.linesAt p).length + chunks.flatten.length := by
  induction h with
  | done => exact le_refl _
  | aside hview _ ih =>
    have hle := ih (hview.tabled ht)
    rwa [hview.lines] at hle
  | @chunk env s mid s'' c endOffset reply chunks hid hadm hview hrun _ ih =>
    obtain ⟨⟨new, hlines, hnew⟩, -, ht'⟩ := chunk_view hid hadm hview hrun ht
    have hle := ih ht'
    have hfew : new.length ≤ c.entries.length := by
      rw [hnew.length_eq, appended]
      split
      · exact (freshEntries_sublist _ _).length_le
      · exact le_refl _
    rw [hlines, length_append] at hle
    rw [flatten_cons, length_append]
    omega

/-- A cursor that is not suspect takes every chunk as it is. -/
theorem Resends.trusted (h : Resends C id p s chunks s')
    (ht : Tabled s id) (hs : ¬Suspicious s id p) {es : List Json} (hes : Files (s.linesAt p) es) :
    Files (s'.linesAt p) (es ++ chunks.flatten) := by
  induction h generalizing es with
  | done => simpa using hes
  | aside hview _ ih =>
    refine ih (hview.tabled ht) (fun hs' => hs (hview.suspicious.mp hs')) ?_
    rwa [hview.lines]
  | @chunk env s s' s'' c endOffset reply chunks hid hadm hview hrun _ ih =>
    obtain ⟨⟨new, hlines, hnew⟩, hsus, ht'⟩ := chunk_view hid hadm hview hrun ht
    rw [appended_trusted hs] at hnew
    have hfiles : Files (s'.linesAt p) (es ++ c.entries) :=
      hlines ▸ rel_append hes hnew
    rw [flatten_cons, ← append_assoc]
    exact ih ht' (fun hs' => hs (hsus.mp hs').1) hfiles

/-- What is new of a chunk after the entries `pre`, where the file holds `pre ++ mid`. -/
theorem fresh_past (pre mid new : List Json) :
    freshEntries ((pre ++ mid).map entryKey) (mid ++ new) =
      freshEntries (pre.map entryKey) new := by
  rw [map_append, freshEntries_perm perm_append_comm, freshEntries_append]

theorem fresh_within (pre chunk tail : List Json) :
    freshEntries ((pre ++ chunk ++ tail).map entryKey) chunk = [] := by
  have hperm : ((pre ++ chunk ++ tail).map entryKey).Perm
      (chunk.map entryKey ++ (pre ++ tail).map entryKey) := by
    rw [← map_append]
    refine Perm.map _ ?_
    rw [← append_assoc]
    exact perm_append_comm.append_right tail
  have hself := freshEntries_append chunk [] ((pre ++ tail).map entryKey)
  rw [append_nil] at hself
  rw [freshEntries_perm hperm, hself]
  rfl

theorem Resends.suspect (h : Resends C id p s chunks s')
    (ht : Tabled s id) (hs : Suspicious s id p) {source held pre : List Json}
    (hheld : Files (s.linesAt p) held) (hsource : held <+: source) (hpre : pre.length ≤ held.length)
    (hsent : pre ++ chunks.flatten <+: source) :
    (PastApart held.length pre chunks → Files (s'.linesAt p)
      (source.take (max held.length (pre ++ chunks.flatten).length))) ∧
    (¬PastApart held.length pre chunks →
      (s'.linesAt p).length < (pre ++ chunks.flatten).length) := by
  induction h generalizing pre with
  | done s =>
    refine ⟨fun _ => ?_, fun hno => absurd trivial hno⟩
    rw [flatten_nil, append_nil, max_eq_left hpre, ← prefix_iff_eq_take.mp hsource]
    exact hheld
  | aside hview _ ih =>
    refine ih (hview.tabled ht) (hview.suspicious.mpr hs) ?_ hpre hsent
    rwa [hview.lines]
  | @chunk env s mid s'' c endOffset reply chunks hid hadm hview hrun hrest ih =>
    obtain ⟨⟨new, hlines, hnew⟩, hsus, ht'⟩ := chunk_view hid hadm hview hrun ht
    have happ : appended s id p c.entries = freshEntries (held.map entryKey) c.entries := by
      rw [appended, if_pos hs, hheld.keys]
    rw [happ] at hnew hsus
    rw [flatten_cons, ← append_assoc] at hsent ⊢
    have hstep : pre ++ c.entries <+: source := (prefix_append _ _).trans hsent
    rw [PastApart]
    split
    · -- the file holds all of this chunk
      rename_i hwithin
      rw [← length_append] at hwithin
      obtain ⟨tail, htail⟩ := prefix_of_prefix_length_le hstep hsource hwithin
      have hnone : freshEntries (held.map entryKey) c.entries = [] := by
        rw [← htail]
        exact fresh_within pre c.entries tail
      rw [hnone] at hnew hsus
      rw [hnew.nil, append_nil] at hlines
      exact ih ht' (hsus.mpr ⟨hs, rfl⟩) (hlines ▸ hheld) hwithin hsent
    · -- the first one past the end of the file
      rename_i hpast
      have hfrom : pre <+: held :=
        prefix_of_prefix_length_le ((prefix_append _ _).trans hstep) hsource hpre
      obtain ⟨mid', hmid⟩ := hfrom
      have hreach : pre ++ mid' <+: pre ++ c.entries := by
        rw [hmid]
        refine prefix_of_prefix_length_le hsource hstep ?_
        rw [length_append]
        omega
      obtain ⟨past, hpastEq⟩ := (prefix_append_right_inj pre).mp hreach
      have hcount : held.length = pre.length + mid'.length := by
        rw [← hmid, length_append]
      have hdrop : c.entries.drop (held.length - pre.length) = past := by
        rw [← hpastEq, hcount, Nat.add_sub_cancel_left, drop_left]
      have hfresh : freshEntries (held.map entryKey) c.entries =
          freshEntries (pre.map entryKey) past := by
        rw [← hmid, ← hpastEq]
        exact fresh_past pre mid' past
      have hgoes : past ≠ [] := by
        rintro rfl
        rw [append_nil] at hpastEq
        rw [← hpastEq] at hpast
        omega
      rw [hfresh] at hnew hsus
      rw [hdrop]
      constructor
      · intro hapart
        have hall := freshEntries_eq_self.mpr hapart
        rw [hall] at hnew hsus
        have hfiles : Files (s.linesAt p ++ new) (held ++ past) := rel_append hheld hnew
        rw [← hlines, ← hmid, append_assoc, hpastEq] at hfiles
        have hend := hrest.trusted ht' (fun hs' => hgoes (hsus.mp hs').2) hfiles
        have hlong : held.length ≤ (pre ++ c.entries ++ chunks.flatten).length := by
          rw [length_append, length_append]
          omega
        rw [max_eq_right hlong, ← prefix_iff_eq_take.mp hsent]
        exact hend
      · intro hshared
        have hshort : (freshEntries (pre.map entryKey) past).length < past.length := by
          have hsub := freshEntries_sublist (pre.map entryKey) past
          refine lt_of_le_of_ne hsub.length_le fun heq => hshared ?_
          exact freshEntries_eq_self.mp (hsub.eq_of_length heq)
        have hle := hrest.length_le ht'
        have hheldLen := hheld.length_eq
        have hnewLen := hnew.length_eq
        have hpastLen : c.entries.length = mid'.length + past.length := by
          rw [← hpastEq, length_append]
        rw [hlines, length_append] at hle
        rw [length_append, length_append]
        omega

/-- The file ends with each entry of the source as often as the source has it exactly where the
chunk that goes past its end is apart from what comes before the chunk. -/
theorem resend_exact {chunks : List (List Json)} {source held pre : List Json}
    (hrun : Resends C id p s chunks s') (ht : Tabled s id) (hs : Suspicious s id p)
    (hheld : Files (s.linesAt p) held) (hsource : held <+: source) (hpre : pre.length ≤ held.length)
    (hsent : pre ++ chunks.flatten <+: source) :
    (∃ lines, lines.Perm (s'.linesAt p) ∧
      Files lines (source.take (max held.length (pre ++ chunks.flatten).length))) ↔
        PastApart held.length pre chunks := by
  obtain ⟨happ, hshort⟩ := hrun.suspect ht hs hheld hsource hpre hsent
  constructor
  · rintro ⟨lines, hperm, hfiles⟩
    by_contra hno
    have hlt := hshort hno
    have hlen := hfiles.length_eq
    have hall := hsent.length_le
    rw [hperm.length_eq, length_take] at hlen
    omega
  · exact fun hapart => ⟨_, .refl _, happ hapart⟩

def sentEntry (uuid text : String) : Json :=
  .obj (JsonMembers.ofList [(ofString "uuid", .str (ofString uuid)),
    (ofString "role", .str (ofString "user")),
    (ofString "text", .str (ofString text))])

def sentChunk (start stop : ℚ) (entries : List Json) : Chunk :=
  { blankChunk "one" with startOffset := some start, endOffset := some stop, entries := entries }

def sentPath : JsString := ofString "r/undated__one__h__t1.jsonl"

/-- A store whose file has an entry more than its row knows: the hub went down between the append
and the commit. -/
def behindStore : State :=
  let s := (ingestChunk openConfig quietEnv (emptyStore .sqlite)
    (sentChunk 0 5 [sentEntry "u" "x"])).1
  { s with files := s.files.upsert sentPath fun old =>
      old.getD [] ++ [⟨recordOf (sentEntry "v" "y"), ofString "t1"⟩] }

theorem admitted_behind :
    Admitted openConfig quietEnv behindStore (sentChunk 5 15 []) sentPath 15 :=
  ⟨⟨by decide, by decide, by decide, by decide⟩,
    by decide, by decide, rfl, by decide, by decide,
    by decide⟩

theorem sameView_behind : SameView (ofString "t1") sentPath behindStore
    (measured openConfig quietEnv (ofString "h") behindStore) :=
  ⟨by decide, by decide, by decide, by decide, by decide⟩

theorem suspicious_behind : Suspicious behindStore (ofString "t1") sentPath := by
  decide

theorem tabled_behind : Tabled behindStore (ofString "t1") := by
  intro _ row hrow v hv
  have hall : (behindStore.index.get (ofString "t1")).all
      (fun row => row.data.values.all bindable) = true := by decide
  rw [hrow] at hall
  exact all_eq_true.mp hall v hv

theorem files_behind :
    Files (behindStore.linesAt sentPath) [sentEntry "u" "x", sentEntry "v" "y"] :=
  .cons (.inl (by decide)) (.cons (.inl (by decide)) .nil)

/-- The chunk after the first entry, with `e` as its last one, as it is taken. -/
theorem resends_behind {e : Json}
    (h : (ingestChunk openConfig quietEnv behindStore
      (sentChunk 5 15 [sentEntry "v" "y", e])).2 = .ok ⟨15, false, false⟩) :
    Resends openConfig (ofString "t1") sentPath behindStore [[sentEntry "v" "y", e]]
      (ingestChunk openConfig quietEnv behindStore (sentChunk 5 15 [sentEntry "v" "y", e])).1 := by
  have hadm := admitted_behind
  exact .chunk (c := sentChunk 5 15 [sentEntry "v" "y", e]) rfl
    ⟨⟨hadm.org, hadm.tenant, hadm.live, hadm.clear⟩, hadm.room, hadm.start, hadm.stop,
      hadm.forward, hadm.bounded, hadm.placed⟩ sameView_behind (by rw [← h]) (.done _)

theorem resend_exact_new :
    ∃ lines, lines.Perm ((ingestChunk openConfig quietEnv behindStore
        (sentChunk 5 15 [sentEntry "v" "y", sentEntry "w" "z"])).1.linesAt sentPath) ∧
      Files lines [sentEntry "u" "x", sentEntry "v" "y", sentEntry "w" "z"] :=
  have hpast : PastApart 2 [sentEntry "u" "x"] [[sentEntry "v" "y", sentEntry "w" "z"]] := by
    rw [PastApart, if_neg (by decide)]
    decide
  (resend_exact (resends_behind (by decide)) tabled_behind suspicious_behind files_behind
    ⟨[sentEntry "w" "z"], rfl⟩ (by decide) (prefix_refl _)).mpr hpast

/-- An entry after the end of the file that shares its key with one before the cursor is taken for
that one, and is lost. -/
theorem resend_drops :
    ¬ ∀ (C : Config) (s s' : State) (id p : JsString) (chunks : List (List Json))
      (source held pre : List Json), Resends C id p s chunks s' → Tabled s id →
      Suspicious s id p → Files (s.linesAt p) held → held <+: source → pre.length ≤ held.length →
      pre ++ chunks.flatten <+: source →
      ∃ lines, lines.Perm (s'.linesAt p) ∧
        Files lines (source.take (max held.length (pre ++ chunks.flatten).length)) := by
  intro h
  obtain ⟨lines, hperm, hfiles⟩ := h openConfig behindStore _ (ofString "t1") sentPath
    [[sentEntry "v" "y", sentEntry "u" "z"]]
    [sentEntry "u" "x", sentEntry "v" "y", sentEntry "u" "z"]
    [sentEntry "u" "x", sentEntry "v" "y"] [sentEntry "u" "x"]
    (resends_behind (by decide)) tabled_behind suspicious_behind files_behind
    ⟨[sentEntry "u" "z"], rfl⟩ (by decide) (prefix_refl _)
  have hlen := hperm.length_eq.symm.trans hfiles.length_eq
  exact absurd hlen (by decide)

end Turma.Archive
