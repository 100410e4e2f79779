import Turma.Archive.Ingest
import Turma.Lib.JsCut

/-! The names that the archive gives: every one it tries for a canonical file is plain, and no two
raw files have one path. -/

namespace Turma.Archive

open Turma.Lib Turma.Tenancy List JsString

abbrev PlainName (s : JsString) : Prop := s.allIn nameChar = true

/-- A path as the archive makes it: a file in a folder, at the top or in a tenant's partition. -/
structure Canonical (p : JsString) : Prop where
  shape : ∃ repo name, PlainName repo ∧ PlainName name ∧ repo ≠ [] ∧
    (p = repo ++ slash :: name ∨
      ∃ tenant, tenantSuffix (.scalar '@' :: tenant) = true ∧
        p = .scalar '@' :: tenant ++ slash :: (repo ++ slash :: name))

variable {f : Char → Bool}

theorem allIn_of_sublist {s t : JsString} (h : s.Sublist t)
    (ht : t.allIn f = true) : s.allIn f = true := by
  rw [JsString.allIn, all_eq_true] at ht ⊢
  exact fun c hc => ht c (h.subset hc)

@[simp] theorem allIn_append {s t : JsString} :
    JsString.allIn f (s ++ t) = (s.allIn f && JsString.allIn f t) := all_append

variable {s : JsString}

@[simp] theorem allIn_cons {c : CodePoint} :
    JsString.allIn f (c :: s) = (c.isIn f && JsString.allIn f s) := all_cons

theorem nameChar_of_slugChar {c : Char} (h : slugChar c = true) : nameChar c = true := by
  simp only [slugChar, nameChar, asciiAlnum, Bool.or_eq_true] at *
  tauto

theorem dashRuns_allIn (inRun : Bool) (s : JsString) : (dashRuns inRun s).allIn slugChar = true := by
  induction s generalizing inRun with
  | nil => rfl
  | cons c s ih =>
    rw [dashRuns]
    split
    · rename_i hc
      simp [hc, ih]
    · split
      · exact ih true
      · simp only [allIn_cons, ih true]
        decide

variable {lower : JsString → JsString}

theorem plain_slugify {s fallback : JsString}
    (h : PlainName fallback) : PlainName (slugify lower s fallback) := by
  have hslug : JsString.allIn slugChar
      (((dashRuns false (lower s.trim)).stripEnds slugEdge).take 60) = true :=
    allIn_of_sublist ((take_sublist _ _).trans (JsString.stripEnds_sublist _ _)) (dashRuns_allIn _ _)
  rw [slugify]
  split
  · exact h
  · rw [PlainName, JsString.allIn, all_eq_true]
    intro c hc
    have hin := all_eq_true.mp hslug c hc
    cases c with
    | scalar c => exact nameChar_of_slugChar hin
    | lone u => exact absurd hin (by simp [CodePoint.isIn])

theorem slugify_ne_nil {s fallback : JsString} (h : fallback ≠ []) :
    slugify lower s fallback ≠ [] := by
  rw [slugify]
  split
  · exact h
  · assumption

theorem plain_shortId (id : JsString) : PlainName (shortId id) := by
  rw [shortId]
  split
  · decide
  · rw [PlainName, JsString.allIn, all_eq_true]
    intro c hc
    have hin := (mem_filter.mp (mem_of_mem_take hc)).2
    cases c with
    | scalar c => simp_all [CodePoint.isIn, nameChar]
    | lone u => exact absurd hin (by simp [CodePoint.isIn])

/-- The folder, the name without its ending, and the partition, of a new transcript's file. -/
theorem archiveRelPath_shape (lower : JsString → JsString) (id : JsString) (m : NameParts) :
    ∃ repo stem, PlainName repo ∧ PlainName stem ∧ repo ≠ [] ∧
      archiveRelPath lower id m = (if tenantOfHostKey m.host = [] then []
        else .scalar '@' :: tenantOfHostKey m.host ++ [slash]) ++
          (repo ++ slash :: (stem ++ ofString ".jsonl")) := by
  refine ⟨repoFolder lower m,
    slugify lower (if ((m.endedTs <|> m.createdAt).getD []).slice 10 = [] then
        ofString "undated" else ((m.endedTs <|> m.createdAt).getD []).slice 10)
      (ofString "undated") ++ ofString "__" ++
      slugify lower (m.summary.getD []) (ofString "session") ++ ofString "__" ++
      slugify lower m.host (ofString "host") ++ ofString "__" ++ shortId id,
    plain_slugify (by decide), ?_, slugify_ne_nil (by decide), ?_⟩
  · have h1 : PlainName (ofString "__") := by decide
    simp only [PlainName, allIn_append, Bool.and_eq_true] at *
    exact ⟨⟨⟨⟨⟨⟨plain_slugify (by decide), h1⟩, plain_slugify (by decide)⟩, h1⟩,
      plain_slugify (by decide)⟩, h1⟩, plain_shortId id⟩
  · simp only [archiveRelPath]
    split <;> simp [append_assoc]

theorem tenantSuffix_of_tenantOfHostKey {key : JsString} (h : tenantOfHostKey key ≠ []) :
    tenantSuffix (.scalar '@' :: tenantOfHostKey key) = true := by
  simp only [tenantOfHostKey] at *
  split at h
  · rename_i hs
    rw [if_pos hs]
    generalize key.drop (key.length - 33) = tail at *
    cases tail with
    | nil => simp [tenantSuffix] at hs
    | cons c hex =>
      simp only [tenantSuffix, Bool.and_eq_true, decide_eq_true_eq, drop_succ_cons,
        drop_zero] at *
      exact ⟨⟨trivial, hs.1.2⟩, hs.2⟩
  · exact absurd rfl h

def partitionOf (host : JsString) : JsString :=
  if tenantOfHostKey host = [] then [] else .scalar '@' :: tenantOfHostKey host ++ [slash]

theorem canonical_partition (host : JsString) {repo name : JsString} (hrepo : PlainName repo)
    (hname : PlainName name) (hne : repo ≠ []) :
    Canonical (partitionOf host ++ (repo ++ slash :: name)) := by
  refine ⟨repo, name, hrepo, hname, hne, ?_⟩
  rw [partitionOf]
  by_cases ht : tenantOfHostKey host = []
  · exact .inl (by simp [ht])
  · exact .inr ⟨_, tenantSuffix_of_tenantOfHostKey ht, by simp [ht]⟩

theorem plain_digits (n : ℕ) : PlainName ((Nat.toDigits 10 n).map .scalar) := by
  rw [PlainName, JsString.allIn, all_map, all_eq_true]
  intro c hc
  have hdigit := Nat.isDigit_of_mem_toDigits (by omega) (by omega) hc
  simp only [Char.isDigit, Bool.and_eq_true, decide_eq_true_eq] at hdigit
  simp only [Function.comp, CodePoint.isIn, nameChar, asciiAlnum, Bool.or_eq_true,
    Bool.and_eq_true, decide_eq_true_eq]
  exact .inl (.inl (.inl (.inr ⟨hdigit.1, hdigit.2⟩)))

theorem plain_append {a b : JsString} (ha : PlainName a) (hb : PlainName b) : PlainName (a ++ b) := by
  simp only [PlainName, allIn_append, Bool.and_eq_true] at *
  exact ⟨ha, hb⟩

variable {p : JsString} {m : NameParts} {C : Config}

/-- Every name that is tried is a plain one in a folder, in the partition of the host. -/
theorem candidate_shape {id : JsString}
    (h : p ∈ candidates C id m) : ∃ repo name, PlainName repo ∧ PlainName name ∧ repo ≠ [] ∧
      p = partitionOf m.host ++ (repo ++ slash :: name) := by
  obtain ⟨repo, stem, hrepo, hstem, hne, hbase⟩ := archiveRelPath_shape C.lower id m
  change _ = partitionOf m.host ++ _ at hbase
  have hending : PlainName (ofString ".jsonl") := by decide
  have hdash : ∀ rest, PlainName rest → PlainName (.scalar '-' :: rest) := by
    intro rest hrest
    simp only [PlainName, allIn_cons, Bool.and_eq_true] at *
    exact ⟨by decide, hrest⟩
  -- the ending is six characters long
  have htake : (archiveRelPath C.lower id m).take ((archiveRelPath C.lower id m).length - 6) =
      partitionOf m.host ++ (repo ++ slash :: stem) := by
    rw [hbase]
    have hsix : (ofString ".jsonl").length = 6 := by decide
    rw [show partitionOf m.host ++ (repo ++ slash :: (stem ++ ofString ".jsonl")) =
      (partitionOf m.host ++ (repo ++ slash :: stem)) ++ ofString ".jsonl" by simp]
    rw [length_append, hsix, Nat.add_sub_cancel, take_left]
  have hbeside : ∀ rest, PlainName rest → ∃ repo name, PlainName repo ∧ PlainName name ∧ repo ≠ [] ∧
      (archiveRelPath C.lower id m).take ((archiveRelPath C.lower id m).length - 6) ++ rest =
        partitionOf m.host ++ (repo ++ slash :: name) := by
    intro rest hrest
    refine ⟨repo, stem ++ rest, hrepo, plain_append hstem hrest, hne, ?_⟩
    rw [htake]
    simp
  have hslug : PlainName (slugify C.lower id (ofString "x")) := plain_slugify (by decide)
  rw [candidates] at h
  simp only [mem_append, mem_cons, mem_map, numbered] at h
  rcases h with (rfl | ⟨n, -, rfl⟩) | rfl | ⟨n, -, rfl⟩
  · exact ⟨repo, _, hrepo, plain_append hstem hending, hne, hbase⟩
  · rw [append_assoc]
    exact hbeside _ (plain_append (hdash _ (plain_digits n)) hending)
  · rw [append_assoc]
    exact hbeside _ (plain_append (hdash _ hslug) hending)
  · simp only [append_assoc, cons_append]
    exact hbeside _ (hdash _ (plain_append hslug (hdash _ (plain_append (plain_digits n) hending))))

theorem canonical_of_mem_candidates {id : JsString}
    (h : p ∈ candidates C id m) : Canonical p := by
  obtain ⟨repo, name, hrepo, hname, hne, rfl⟩ := candidate_shape h
  exact canonical_partition m.host hrepo hname hne

theorem canonical_of_resolve {env : Env} {s : State} {id : JsString}
    (h : resolveNewRelPath C env s id m = some p) : Canonical p :=
  canonical_of_mem_candidates (mem_of_find?_eq_some h)

theorem toWellFormed_of_scalar (h : ∀ c ∈ s, ∃ a, c = .scalar a) :
    s.toWellFormed = s := by
  induction s with
  | nil => rfl
  | cons c s ih =>
    obtain ⟨a, rfl⟩ := h c (by simp)
    have ih' := ih fun c' hc' => h c' (by simp [hc'])
    exact congrArg (CodePoint.scalar a :: ·) ih'

theorem scalar_of_allIn (h : s.allIn f = true) :
    ∀ c ∈ s, ∃ a, c = .scalar a := by
  intro c hc
  have hin := all_eq_true.mp h c hc
  cases c with
  | scalar a => exact ⟨a, rfl⟩
  | lone u => exact absurd hin (by simp [CodePoint.isIn])

theorem scalar_of_isHex {c : CodePoint} (h : isHex c = true) : ∃ a, c = .scalar a := by
  cases c with
  | scalar a => exact ⟨a, rfl⟩
  | lone u => exact absurd h (by simp [isHex])

theorem hex_of_tenantSuffix {tenant : JsString} (h : tenantSuffix (.scalar '@' :: tenant) = true) :
    ∀ c ∈ tenant, isHex c = true := by
  simp only [tenantSuffix, Bool.and_eq_true, all_eq_true] at h
  exact h.2

theorem Canonical.toWellFormed (h : Canonical p) : p.toWellFormed = p := by
  obtain ⟨repo, name, hrepo, hname, -, hp⟩ := h.shape
  have hfile : ∀ c ∈ repo ++ slash :: name, ∃ a, c = .scalar a := by
    intro c hc
    rcases mem_append.mp hc with hc | hc
    · exact scalar_of_allIn hrepo c hc
    · rcases mem_cons.mp hc with rfl | hc
      · exact ⟨_, rfl⟩
      · exact scalar_of_allIn hname c hc
  apply toWellFormed_of_scalar
  rcases hp with rfl | ⟨tenant, ht, rfl⟩
  · exact hfile
  · intro c hc
    rcases mem_append.mp hc with hc | hc
    · rcases mem_cons.mp hc with rfl | hc
      · exact ⟨_, rfl⟩
      · exact scalar_of_isHex (hex_of_tenantSuffix ht c hc)
    · rcases mem_cons.mp hc with rfl | hc
      · exact ⟨_, rfl⟩
      · exact hfile c hc

def Below (rest : JsString) : Prop :=
  rest ≠ [] ∧ ∀ c ∈ rest.splitOn slash,
    c ≠ [] ∧ c ≠ ofString "." ∧ c ≠ ofString ".."

end Turma.Archive
