import Turma.ArchiveMirror.Mirror

/-! What a step leaves of the passes and the `GET`s on their way: numbers are given out once, and
what has been given up stays so. -/

namespace Turma.ArchiveMirror

open Turma.Lib OrdMap

namespace Mirror

/-- The `GET`s of `s'` that `s` knew are those of `s`, and none is taken up again. -/
structure Follows (s s' : Mirror) : Prop where
  run : s.hydrateRun ≤ s'.hydrateRun
  seq : s.tmpSeq ≤ s'.tmpSeq
  gets : ∀ id g', id ≤ s.tmpSeq → s'.gets.get? id = some g' → ∃ g, s.gets.get? id = some g ∧
    g'.key = g.key ∧ g'.owner = g.owner ∧ (g.abandoned = true → g'.abandoned = true)

variable {s s' : Mirror}

theorem Follows.of_eq (hrun : s'.hydrateRun = s.hydrateRun) (hseq : s'.tmpSeq = s.tmpSeq)
    (hgets : s'.gets = s.gets) : Follows s s' :=
  ⟨hrun.ge, hseq.ge, fun _ g' _ hg => ⟨g', hgets ▸ hg, rfl, rfl, id⟩⟩

theorem Follows.refl (s : Mirror) : Follows s s := Follows.of_eq rfl rfl rfl

theorem Follows.trans {s'' : Mirror} (h : Follows s s') (h' : Follows s' s'') : Follows s s'' := by
  refine ⟨h.run.trans h'.run, h.seq.trans h'.seq, fun id g'' hid hg'' => ?_⟩
  obtain ⟨g', hg', hkey', howner', hgiven'⟩ := h'.gets id g'' (hid.trans h.seq) hg''
  obtain ⟨g, hg, hkey, howner, hgiven⟩ := h.gets id g' hid hg'
  exact ⟨g, hg, hkey'.trans hkey, howner'.trans howner, fun h => hgiven' (hgiven h)⟩

/-- What comes before has to do with neither. -/
theorem Follows.after {s'' : Mirror} (h : Follows s' s'') (hrun : s'.hydrateRun = s.hydrateRun)
    (hseq : s'.tmpSeq = s.tmpSeq) (hgets : s'.gets = s.gets) : Follows s s'' :=
  (Follows.of_eq hrun hseq hgets).trans h

theorem follows_startGet (s : Mirror) (key : Key) (owner : Owner) :
    Follows s (s.startGet key owner) := by
  refine ⟨le_refl _, Nat.le_succ _, fun id g' hid hg' => ?_⟩
  rw [startGet, get?_upsert, if_neg (by omega)] at hg'
  exact ⟨g', hg', rfl, rfl, fun h => h⟩

theorem follows_startGets (keys : List Key) (owner : Owner) (s : Mirror) :
    Follows s (s.startGets keys owner) := by
  induction keys generalizing s with
  | nil => exact Follows.refl s
  | cons key keys ih => exact (follows_startGet s key owner).trans (ih _)

theorem follows_dropGet (s : Mirror) (id : ℕ) : Follows s (s.dropGet id) := by
  refine ⟨le_refl _, le_refl _, fun id' g' _ hg' => ?_⟩
  rw [dropGet, get?_erase] at hg'
  split_ifs at hg'
  exact ⟨g', hg', rfl, rfl, fun h => h⟩

/-- A `GET` that goes on, or is given up. -/
theorem follows_setGet {id : ℕ} {g g' : Get} (hg : s.gets.get? id = some g) (hkey : g'.key = g.key)
    (howner : g'.owner = g.owner) (hgiven : g.abandoned = true → g'.abandoned = true) :
    Follows s (s.setGet id g') := by
  refine ⟨le_refl _, le_refl _, fun id' g'' _ hg'' => ?_⟩
  rw [setGet, get?_upsert] at hg''
  split_ifs at hg'' with hid
  · rw [hid, ← Option.some.inj hg'']
    exact ⟨g, hg, hkey, howner, hgiven⟩
  · exact ⟨g'', hg'', rfl, rfl, fun h => h⟩

theorem follows_yieldWake (s : Mirror) : Follows s s.yieldWake := by
  refine ⟨le_refl _, le_refl _, fun id g' _ hg' => ?_⟩
  rw [yieldWake, get?_mapValues, Option.map_eq_some_iff] at hg'
  obtain ⟨g, hg, rfl⟩ := hg'
  refine ⟨g, hg, ?_, ?_, fun h => ?_⟩
  · split_ifs <;> rfl
  · split_ifs <;> rfl
  · split_ifs
    · rfl
    · exact h

theorem follows_nextDownload (s : Mirror) (run : ℕ) : Follows s (s.nextDownload run) := by
  unfold nextDownload
  split
  · exact (follows_startGet _ _ _).after rfl rfl rfl
  · exact Follows.refl s

theorem follows_fetchGroup (group : List Key) (s : Mirror) (r : Retry) :
    Follows s (s.fetchGroup r group) := by
  induction group generalizing r with
  | nil => exact Follows.of_eq rfl rfl rfl
  | cons key rest ih =>
    rw [fetchGroup]
    split_ifs
    · exact Follows.of_eq rfl rfl rfl
    · exact ih _
    · exact (follows_startGet _ _ _).after rfl rfl rfl

theorem follows_nextGroup (s : Mirror) (r : Retry) : Follows s (s.nextGroup r) := by
  unfold nextGroup
  split
  · exact Follows.of_eq rfl rfl rfl
  · split_ifs
    · exact Follows.of_eq rfl rfl rfl
    · exact follows_fetchGroup _ s _

theorem follows_answered {id : ℕ} {g : Get} (hg : s.gets.get? id = some g) (a : Answer) :
    Follows s (s.answered id g a) := by
  unfold answered
  split_ifs
  · cases a <;> exact (follows_dropGet s id).trans (Follows.of_eq rfl rfl rfl)
  · exact follows_dropGet s id
  · exact follows_setGet hg rfl rfl fun h => h

theorem follows_proceedPass (s : Mirror) (run : ℕ) (key : Key) (a : Answer) :
    Follows s (s.proceedPass run key a) := by
  unfold proceedPass
  split_ifs
  · exact Follows.refl s
  · cases a <;> exact (follows_nextDownload _ run).after rfl rfl rfl

theorem follows_proceedRetry (s : Mirror) (key : Key) (a : Answer) :
    Follows s (s.proceedRetry key a) := by
  unfold proceedRetry
  cases s.retrying with
  | none => exact Follows.refl s
  | some r => cases a <;> exact (follows_fetchGroup _ _ _).after rfl rfl rfl

/-- A drain has nothing to do with passes and `GET`s. -/
theorem follows_drainOnce (batch : List Key) (s : Mirror) : Follows s (s.drainOnce batch) := by
  induction batch generalizing s with
  | nil => exact Follows.of_eq rfl rfl rfl
  | cons key batch ih =>
    rw [drainOnce]
    split_ifs
    · exact ih s
    · exact (ih _).after rfl rfl rfl
    · exact Follows.of_eq rfl rfl rfl

theorem follows_step (s : Mirror) (e : Event) : Follows s (s.step e) := by
  cases e with
  | hydrate getDeadlineMs =>
    dsimp only [step, hydrate]
    split_ifs
    · exact Follows.of_eq rfl rfl rfl
    have hbegun : Follows s { s with gated := true, hydrating := true, hydrateRun := s.hydrateRun + 1 } :=
      ⟨Nat.le_succ _, le_refl _, fun _ g' _ hg => ⟨g', hg, rfl, rfl, fun h => h⟩⟩
    cases s.retrying with
    | none => exact hbegun.trans (Follows.of_eq rfl rfl rfl)
    | some r => exact hbegun.trans ((follows_yieldWake _).trans (Follows.of_eq rfl rfl rfl))
  | resumed run =>
    dsimp only [step, resumed]
    split
    · split_ifs <;> exact Follows.of_eq rfl rfl rfl
    · exact Follows.refl s
  | list run listing =>
    dsimp only [step, list]
    split <;> exact Follows.of_eq rfl rfl rfl
  | listed run ok =>
    dsimp only [step, listed]
    split
    · split_ifs
      · exact Follows.of_eq rfl rfl rfl
      · exact Follows.of_eq rfl rfl rfl
      · split
        · exact Follows.refl s
        · exact (follows_startGets _ _ _).after rfl rfl rfl
    · exact Follows.refl s
  | finish run =>
    dsimp only [step, finish]
    split
    · split_ifs <;> exact Follows.of_eq rfl rfl rfl
    · exact Follows.refl s
  | abandon =>
    exact ⟨Nat.le_succ _, le_refl _, fun _ g' _ hg => ⟨g', hg, rfl, rfl, fun h => h⟩⟩
  | retryBlocked getDeadlineMs =>
    dsimp only [step, retryBlocked]
    split_ifs
    · exact Follows.refl s
    · exact (follows_fetchGroup _ _ _).after rfl rfl rfl
  | settle ok =>
    dsimp only [step, settle]
    cases s.retrying with
    | none => exact Follows.refl s
    | some r =>
      dsimp only
      split_ifs
      · exact Follows.refl s
      · exact follows_nextGroup s r
      · exact (follows_nextGroup _ r).after rfl rfl rfl
      · exact Follows.of_eq rfl rfl rfl
  | retryEnd =>
    dsimp only [step, retryEnd]
    split_ifs <;> exact Follows.of_eq rfl rfl rfl
  | fetchRaw key =>
    dsimp only [step, fetchRaw]
    split_ifs
    · exact Follows.refl s
    · exact follows_startGet s key .raw
  | read id object =>
    dsimp only [step, read]
    cases hg : s.gets.get? id with
    | none => exact Follows.refl s
    | some g =>
      dsimp only
      split_ifs
      · exact follows_setGet hg rfl rfl fun h => h
      · exact Follows.refl s
  | answer id =>
    dsimp only [step, answer]
    cases hg : s.gets.get? id with
    | none => exact Follows.refl s
    | some g =>
      dsimp only
      split
      · exact follows_answered hg _
      · next size _ _ =>
        split_ifs
        · have hg' : (s.rename g.key size).gets.get? id = some g := hg
          exact (follows_answered hg' .wrote).after rfl rfl rfl
        · exact follows_answered hg _
      · exact Follows.refl s
  | fails id message =>
    dsimp only [step, fails]
    cases hg : s.gets.get? id with
    | none => exact Follows.refl s
    | some g =>
      dsimp only
      split_ifs
      · exact follows_answered hg _
      · exact Follows.refl s
  | proceed id =>
    dsimp only [step, proceed]
    cases s.gets.get? id with
    | none => exact Follows.refl s
    | some g =>
      dsimp only
      split
      · exact (follows_dropGet s id).trans (follows_proceedPass _ _ _ _)
      · exact (follows_dropGet s id).trans (follows_proceedRetry _ _ _)
      · exact Follows.refl s
  | deadline id =>
    dsimp only [step, deadline]
    cases hg : s.gets.get? id with
    | none => exact Follows.refl s
    | some g =>
      dsimp only
      split_ifs
      · exact Follows.refl s
      have hgiven : Follows s (s.setGet id g.givenUp) :=
        follows_setGet hg rfl rfl fun _ => rfl
      cases howner : g.owner with
      | pass run =>
        dsimp only
        split_ifs
        · exact Follows.refl s
        · exact hgiven.trans ((follows_nextDownload _ run).after rfl rfl rfl)
      | retry =>
        cases s.retrying with
        | none => exact Follows.refl s
        | some r => exact hgiven.trans ((follows_fetchGroup _ _ _).after rfl rfl rfl)
      | raw => exact Follows.refl s
  | note key => exact Follows.of_eq rfl rfl rfl
  | ingest key bytes =>
    dsimp only [step, ingest]
    split_ifs <;> exact Follows.of_eq rfl rfl rfl
  | openGate =>
    dsimp only [step, openGate]
    split_ifs <;> exact Follows.of_eq rfl rfl rfl
  | drain isLeader =>
    dsimp only [step, drainNow]
    split_ifs
    · exact Follows.refl s
    · exact follows_drainOnce _ s
  | putReads => exact Follows.of_eq rfl rfl rfl
  | putDone ok =>
    dsimp only [step, putDone]
    split
    · exact follows_drainOnce _ s
    · split_ifs
      · exact follows_drainOnce _ s
      · exact (follows_drainOnce _ _).after rfl rfl rfl
    · split_ifs
      · exact Follows.refl s
      · exact (follows_drainOnce _ _).after rfl rfl rfl
    · exact Follows.refl s

theorem follows_run (s : Mirror) (evs : List Event) : Follows s (run step s evs) := by
  induction evs generalizing s with
  | nil => exact Follows.refl s
  | cons e evs ih => exact (follows_step s e).trans (ih _)

end Mirror

end Turma.ArchiveMirror
