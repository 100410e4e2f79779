import Turma.ArchiveMirror.Given
import Turma.ArchiveMirror.Standing

/-! What a pass or a `GET` that was given up still does, and how a key is unblocked by a pass over
the blocked ones. -/

namespace Turma.ArchiveMirror

open Turma.Lib List Option OrdMap

variable {g : Get} {e : Event} {r : Retry} {key : Key}

namespace Mirror

/-- No file is renamed into place, and none of the three sets changes. -/
structure Untouched (s s' : Mirror) : Prop where
  disk : s'.disk = s.disk
  blocked : s'.blocked = s.blocked
  pending : s'.pending = s.pending
  hydrated : s'.hydrated = s.hydrated

def OfGet (id : ℕ) : Event → Prop
  | .read id' _ | .answer id' | .fails id' _ | .proceed id' | .deadline id' => id' = id
  | _ => False

def Owned (s : Mirror) (owner : Owner) (e : Event) : Prop :=
  ∃ id g, s.gets.get? id = some g ∧ g.owner = owner ∧ OfGet id e

/-- The event is a continuation of this hydrate pass or of one of its `GET`s. -/
def OfPass (s : Mirror) (run : ℕ) (e : Event) : Prop :=
  (match e with
    | .resumed run' | .list run' _ | .listed run' _ | .finish run' => run' = run
    | _ => False) ∨ Owned s (.pass run) e

/-- The event is a continuation of the pass over the blocked keys or of one of its `GET`s. -/
def OfRetry (s : Mirror) (e : Event) : Prop :=
  (match e with
    | .retryBlocked _ | .settle _ | .retryEnd => True
    | _ => False) ∨ Owned s .retry e

/-- The step gives the `GET` up: its deadline passes before it has come to anything, or a hydrate
begins while a pass over the blocked keys waits for it. -/
def GivesUp (s : Mirror) (id : ℕ) (e : Event) : Prop :=
  ∃ g, s.gets.get? id = some g ∧ g.answer = none ∧
    (e = .deadline id ∧ g.owner ≠ .raw ∨
      (∃ getDeadlineMs, e = .hydrate getDeadlineMs) ∧ s.hydrating = false ∧ g.owner = .retry)

def Dead (s : Mirror) (id : ℕ) : Prop :=
  id ≤ s.tmpSeq ∧ ∀ g, s.gets.get? id = some g →
    g.abandoned = true ∨ ∃ run, g.owner = .pass run ∧ run < s.hydrateRun

variable {s s' : Mirror}

theorem Untouched.refl (s : Mirror) : Untouched s s := ⟨rfl, rfl, rfl, rfl⟩

theorem Dead.follows {id : ℕ} (h : Dead s id) (hfollows : Follows s s') : Dead s' id := by
  refine ⟨h.1.trans hfollows.seq, fun g' hg' => ?_⟩
  obtain ⟨g, hg, _, howner, hgiven⟩ := hfollows.gets id g' h.1 hg'
  rcases h.2 g hg with habandoned | ⟨run, hpass, hrun⟩
  · exact Or.inl (hgiven habandoned)
  · exact Or.inr ⟨run, howner.trans hpass, hrun.trans_le hfollows.run⟩

theorem dead_setGet {id : ℕ} (hid : id ≤ s.tmpSeq) : Dead (s.setGet id g.givenUp) id := by
  refine ⟨hid, fun g' hg' => Or.inl ?_⟩
  rw [setGet, get?_upsert, if_pos rfl] at hg'
  rw [← some.inj hg']
  rfl

theorem dead_deadline (h : Inv s) {id : ℕ} (hg : s.gets.get? id = some g)
    (hnone : g.answer = none) (hraw : g.owner ≠ .raw) : Dead (s.deadline id) id := by
  have hok := h.gets id g hg
  have hsame : g.abandoned = true ∨ (∃ run, g.owner = .pass run ∧ run < s.hydrateRun) → Dead s id := by
    refine fun hdead => ⟨hok.seq, fun g' hg' => ?_⟩
    rw [← some.inj (hg.symm.trans hg')]
    exact hdead
  have hset : Dead (s.setGet id g.givenUp) id := dead_setGet hok.seq
  unfold deadline
  rw [hg]
  dsimp only
  split_ifs with hover
  · exact hsame (Or.inl (hover.resolve_right (by simp [hnone])))
  have hfalse := Bool.eq_false_of_not_eq_true (not_or.mp hover).1
  cases howner : g.owner with
  | pass run =>
    dsimp only
    split_ifs with hstale
    · have hne : run ≠ s.hydrateRun := of_decide_eq_true hstale
      exact hsame (Or.inr ⟨run, howner, lt_of_le_of_ne (hok.path run howner).2 hne⟩)
    · exact hset.follows ((follows_nextDownload _ run).after rfl rfl rfl)
  | retry =>
    obtain ⟨⟨r, hr, _⟩, _⟩ := hok.retry howner hfalse
    rw [hr]
    exact hset.follows ((follows_fetchGroup _ _ _).after rfl rfl rfl)
  | raw => exact absurd howner hraw

theorem dead_hydrate (h : Inv s) {id : ℕ} (hg : s.gets.get? id = some g)
    (hnone : g.answer = none) (hhyd : s.hydrating = false) (howner : g.owner = .retry)
    (getDeadlineMs : ℕ) : Dead (s.hydrate getDeadlineMs) id := by
  have hok := h.gets id g hg
  unfold hydrate
  rw [if_neg (by simp [hhyd])]
  split
  · next hretrying =>
    -- without a pass over the blocked keys, all its GETs are given up
    have hclear : s.Clear := h.clear_of_ended fun r hr => absurd (hretrying.symm.trans hr) (by simp)
    refine ⟨hok.seq, fun g' hg' => Or.inl ?_⟩
    obtain rfl := some.inj (hg.symm.trans hg')
    exact hclear id _ hg howner
  · refine ⟨hok.seq, fun g' hg' => Or.inl ?_⟩
    have hg' : s.yieldWake.gets.get? id = some g' := hg'
    rw [yieldWake, get?_mapValues, hg, map_some] at hg'
    rw [← some.inj hg']
    by_cases hgiven : g.abandoned = true
    · split_ifs
      · rfl
      · exact hgiven
    · rw [if_pos (by simp [yields, howner, hnone, hgiven])]
      rfl

theorem GivesUp.dead (h : Inv s) {id : ℕ} (hgives : GivesUp s id e) :
    Dead (s.step e) id := by
  obtain ⟨g, hg, hnone, ⟨rfl, hraw⟩ | ⟨⟨getDeadlineMs, rfl⟩, hhyd, howner⟩⟩ := hgives
  · exact dead_deadline h hg hnone hraw
  · exact dead_hydrate h hg hnone hhyd howner getDeadlineMs

theorem untouched_answered {id : ℕ} (hraw : g.owner ≠ .raw) (a : Answer) :
    Untouched s (s.answered id g a) := by
  unfold answered
  rw [if_neg hraw]
  split_ifs <;> exact ⟨rfl, rfl, rfl, rfl⟩

theorem Dead.untouched (h : Inv s) {id : ℕ} (hdead : Dead s id) (he : OfGet id e) :
    Untouched s (s.step e) := by
  -- a GET that is not there has nothing to go on with
  cases hg : s.gets.get? id with
  | none =>
    cases e <;> simp only [OfGet] at he
    all_goals
      subst he
      simp only [step, read, answer, fails, proceed, deadline, hg]
      exact Untouched.refl s
  | some g =>
    have hok := h.gets id g hg
    have hgone := hdead.2 g hg
    have hraw : g.owner ≠ .raw := by
      rcases hgone with hgiven | ⟨run, howner, _⟩
      · exact (hok.quiet hgiven).1
      · rw [howner]
        simp
    have hunwanted : s.stillWanted g = false := by
      unfold stillWanted
      rcases hgone with hgiven | ⟨run, howner, hrun⟩
      · cases howner : g.owner with
        | pass run => simp [hgiven]
        | retry => simp [hgiven]
        | raw => exact absurd howner hraw
      · rw [howner]
        simp [stale, hrun.ne]
    cases e <;> simp only [OfGet] at he
    all_goals
      subst he
      dsimp only [step]
    case read id object =>
      unfold read
      rw [hg]
      dsimp only
      split_ifs <;> exact ⟨rfl, rfl, rfl, rfl⟩
    case answer id =>
      unfold answer
      rw [hg]
      dsimp only
      split
      · exact untouched_answered hraw _
      · rw [if_neg (by simp [hunwanted])]
        exact untouched_answered hraw _
      · exact Untouched.refl s
    case fails id message =>
      unfold fails
      rw [hg]
      dsimp only
      split_ifs
      · exact untouched_answered hraw _
      · exact Untouched.refl s
    case proceed id =>
      unfold proceed
      rw [hg]
      dsimp only
      split
      · next a run ha howner =>
        rcases hgone with hgiven | ⟨run', howner', hrun⟩
        · exact absurd ((hok.quiet hgiven).2.symm.trans ha) (by simp)
        · obtain rfl := Owner.pass.inj (howner.symm.trans howner')
          have hstale : (s.dropGet id).stale run = true := decide_eq_true hrun.ne
          unfold proceedPass
          rw [if_pos hstale]
          exact ⟨rfl, rfl, rfl, rfl⟩
      · next a ha howner =>
        rcases hgone with hgiven | ⟨run, howner', _⟩
        · exact absurd ((hok.quiet hgiven).2.symm.trans ha) (by simp)
        · exact absurd (howner.symm.trans howner') (by simp)
      · exact Untouched.refl s
    case deadline id =>
      unfold deadline
      rw [hg]
      dsimp only
      split_ifs with hover
      · exact Untouched.refl s
      rcases hgone with hgiven | ⟨run, howner, hrun⟩
      · exact absurd (Or.inl hgiven) hover
      · rw [howner]
        have hstale : s.stale run = true := decide_eq_true hrun.ne
        dsimp only
        rw [if_pos hstale]
        exact Untouched.refl s

/-- A pass that is no longer current. -/
theorem untouched_pass (h : Inv s) {run : ℕ} (hrun : run < s.hydrateRun)
    (he : OfPass s run e) : Untouched s (s.step e) := by
  have hstale : s.stale run = true := decide_eq_true hrun.ne
  rcases he with he | ⟨id, g, hg, howner, he⟩
  · cases e <;> simp only at he
    all_goals
      subst he
      dsimp only [step, resumed, list, listed, finish]
    all_goals
      split
      · first
        | rw [if_pos hstale]; exact ⟨rfl, rfl, rfl, rfl⟩
        | exact ⟨rfl, rfl, rfl, rfl⟩
      · exact Untouched.refl s
  · have hdead : Dead s id := by
      refine ⟨(h.gets id g hg).seq, fun g' hg' => Or.inr ⟨run, ?_, hrun⟩⟩
      rw [← some.inj (hg.symm.trans hg')]
      exact howner
    exact hdead.untouched h he

/-! What a pass over the blocked keys knows of a download, it knows from an answer of the store. -/

def Came (a : Option Answer) : Prop := a = some .wrote ∨ a = some .gone

/-- `Q` holds of each key that a `GET` of the pass over the blocked keys has come to something for. -/
structure Known (Q : Key → Prop) (s : Mirror) : Prop where
  gets : ∀ id g, s.gets.get? id = some g → g.owner = .retry → Came g.answer → Q g.key
  done : ∀ r, s.retrying = some r → ∀ e ∈ r.done, Came e.2 → Q e.1

variable {Q : Key → Prop}

theorem not_came_none : ¬ Came none := by simp [Came]

theorem Known.of_eq (h : Known Q s) (hgets : s'.gets = s.gets) (hretrying : s'.retrying = s.retrying) :
    Known Q s' :=
  ⟨hgets ▸ h.gets, hretrying ▸ h.done⟩

theorem Known.startGet (h : Known Q s) (key : Key) (owner : Owner) : Known Q (s.startGet key owner) := by
  refine ⟨fun id g hg howner hcame => ?_, h.done⟩
  rw [Mirror.startGet, get?_upsert] at hg
  split_ifs at hg
  · rw [← some.inj hg] at hcame
    exact absurd hcame not_came_none
  · exact h.gets id g hg howner hcame

theorem Known.startGets (keys : List Key) (owner : Owner) (h : Known Q s) :
    Known Q (s.startGets keys owner) := by
  induction keys generalizing s with
  | nil => exact h
  | cons key keys ih => exact ih (h.startGet key owner)

theorem Known.dropGet (h : Known Q s) (id : ℕ) : Known Q (s.dropGet id) :=
  ⟨fun id' g hg => h.gets id' g (get?_dropGet hg).2, h.done⟩

theorem Known.setGet (h : Known Q s) {id : ℕ}
    (hg : g.owner = .retry → Came g.answer → Q g.key) : Known Q (s.setGet id g) := by
  refine ⟨fun id' g' hg' howner hcame => ?_, h.done⟩
  rw [Mirror.setGet, get?_upsert] at hg'
  split_ifs at hg'
  · rw [← some.inj hg'] at howner hcame ⊢
    exact hg howner hcame
  · exact h.gets id' g' hg' howner hcame

theorem Known.setRetry (h : Known Q s) (hr : ∀ e ∈ r.done, Came e.2 → Q e.1) :
    Known Q { s with retrying := some r } :=
  ⟨h.gets, fun _ hr' => some.inj hr' ▸ hr⟩

theorem Known.fetchGroup (h : Known Q s) (group : List Key)
    (hr : ∀ e ∈ r.done, Came e.2 → Q e.1) : Known Q (s.fetchGroup r group) := by
  induction group generalizing r with
  | nil => exact h.setRetry hr
  | cons key rest ih =>
    rw [Mirror.fetchGroup]
    split_ifs
    · exact h.setRetry hr
    · refine ih fun e he hcame => ?_
      rcases mem_append.mp he with he | he
      · exact hr e he hcame
      · rw [mem_singleton.mp he] at hcame
        exact absurd hcame not_came_none
    · have hset : Known Q { s with retrying := some { r with rest := rest, phase := .fetching } } :=
        h.setRetry hr
      exact hset.startGet key .retry

theorem Known.nextGroup (h : Known Q s) (hr : ∀ e ∈ r.done, Came e.2 → Q e.1) :
    Known Q (s.nextGroup r) := by
  unfold Mirror.nextGroup
  split
  · exact h.setRetry hr
  · split_ifs
    · exact h.setRetry hr
    · exact h.fetchGroup _ fun e he => absurd he (by simp)

theorem Known.nextDownload (h : Known Q s) (run : ℕ) : Known Q (s.nextDownload run) := by
  unfold Mirror.nextDownload
  split
  · next getDeadlineMs key rest _ =>
    have hset : Known Q { s with passes := s.passes.upsert run fun _ => ⟨getDeadlineMs, .downloading rest⟩ } :=
      h.of_eq rfl rfl
    exact hset.startGet key (.pass run)
  · exact h

theorem Known.yieldWake (h : Known Q s) : Known Q s.yieldWake := by
  refine ⟨fun id g' hg' => ?_, fun r' hr' => ?_⟩
  · rw [Mirror.yieldWake, get?_mapValues, map_eq_some_iff] at hg'
    obtain ⟨g, hg, rfl⟩ := hg'
    split_ifs
    · exact h.gets id g hg
    · exact h.gets id g hg
  · rw [Mirror.yieldWake, map_eq_some_iff] at hr'
    obtain ⟨r, hr, rfl⟩ := hr'
    split_ifs
    · exact h.done r hr
    · exact h.done r hr

theorem Known.answered (h : Known Q s) {id : ℕ} {a : Answer}
    (hg : g.owner = .retry → Came (some a) → Q g.key) : Known Q (s.answered id g a) := by
  unfold Mirror.answered
  split_ifs
  · cases a <;> exact (h.dropGet id).of_eq rfl rfl
  · exact h.dropGet id
  · exact h.setGet hg

theorem Known.proceedPass (h : Known Q s) (run : ℕ) (key : Key) (a : Answer) :
    Known Q (s.proceedPass run key a) := by
  unfold Mirror.proceedPass
  split_ifs
  · exact h
  · have hblock : ∀ reason, Known Q (s.block key reason) := fun _ => h.of_eq rfl rfl
    have hunblock : Known Q (s.unblock key) := h.of_eq rfl rfl
    cases a with
    | failed message => exact (hblock _).nextDownload run
    | wrote => exact hunblock.nextDownload run
    | gone => exact hunblock.nextDownload run
    | discarded => exact hunblock.nextDownload run

theorem Known.proceedRetry (h : Known Q s) {a : Answer} (ha : Came (some a) → Q key) :
    Known Q (s.proceedRetry key a) := by
  unfold Mirror.proceedRetry
  split
  · next r hr =>
    have hblock : ∀ reason, Known Q (s.block key reason) := fun _ => h.of_eq rfl rfl
    have hs : Known Q { s with getDeadline := s.getDeadline.erase key } := h.of_eq rfl rfl
    have hdone : ∀ e ∈ r.done ++ [(key, some a)], Came e.2 → Q e.1 := by
      intro e he
      rcases mem_append.mp he with he | he
      · exact h.done r hr e he
      · rw [mem_singleton.mp he]
        exact ha
    cases a with
    | failed message => exact (hblock _).fetchGroup _ (h.done r hr)
    | wrote => exact hs.fetchGroup (r := { r with done := r.done ++ [(key, some .wrote)] }) _ hdone
    | gone => exact hs.fetchGroup (r := { r with done := r.done ++ [(key, some .gone)] }) _ hdone
    | discarded => exact hs.fetchGroup (r := { r with done := r.done ++ [(key, some .discarded)] }) _ hdone
  · exact h

theorem drainOnce_known (batch : List Key) (s : Mirror) :
    (s.drainOnce batch).gets = s.gets ∧ (s.drainOnce batch).retrying = s.retrying := by
  have hwork := work_drainOnce batch s
  simp only [work, Prod.mk.injEq] at hwork
  exact ⟨hwork.2.2.2.2.2.1, hwork.2.2.2.2.1⟩

/-- Only an answer of the store adds to what is known. -/
theorem known_step (h : Known Q s) (e : Event)
    (hanswer : ∀ id g, e = .answer id → s.gets.get? id = some g → g.owner = .retry →
      (g.object = some none ∨
        ∃ size, (s.step e).disk = Function.update s.disk g.key (some size)) → Q g.key) :
    Known Q (s.step e) := by
  cases e with
  | hydrate getDeadlineMs =>
    dsimp only [Mirror.step, Mirror.hydrate]
    split_ifs
    · exact h.of_eq rfl rfl
    split
    · exact h.of_eq rfl rfl
    · exact h.yieldWake.of_eq rfl rfl
  | resumed run =>
    dsimp only [Mirror.step, Mirror.resumed]
    split
    · split_ifs <;> exact h.of_eq rfl rfl
    · exact h
  | list run listing =>
    dsimp only [Mirror.step, Mirror.list]
    split <;> exact h.of_eq rfl rfl
  | listed run ok =>
    dsimp only [Mirror.step, Mirror.listed]
    split
    · next getDeadlineMs read _ =>
      split_ifs
      · exact h.of_eq rfl rfl
      · exact h.of_eq rfl rfl
      · cases read with
        | none => exact h
        | some listing => exact Known.startGets _ _ (h.of_eq rfl rfl)
    · exact h
  | finish run =>
    dsimp only [Mirror.step, Mirror.finish]
    split
    · split_ifs <;> exact h.of_eq rfl rfl
    · exact h
  | abandon => exact h.of_eq rfl rfl
  | retryBlocked getDeadlineMs =>
    dsimp only [Mirror.step, Mirror.retryBlocked]
    split_ifs
    · exact h
    · have hs : Known Q { s with getDeadline := s.getDeadline.filterKeys fun key => key ∈ s.blocked.keys } :=
        h.of_eq rfl rfl
      exact hs.fetchGroup _ fun e he => absurd he (by simp)
  | settle ok =>
    dsimp only [Mirror.step, Mirror.settle]
    split
    · next r hr =>
      split_ifs
      · exact h
      · exact h.nextGroup (h.done r hr)
      · have hs : Known Q { s with blocked := s.blocked.filterKeys fun key => key ∉ r.done.map Prod.fst } :=
          h.of_eq rfl rfl
        exact hs.nextGroup (h.done r hr)
      · exact h.setRetry (h.done r hr)
    · exact h
  | retryEnd =>
    dsimp only [Mirror.step, Mirror.retryEnd]
    split_ifs
    · exact ⟨h.gets, fun r hr => absurd hr (by simp)⟩
    · exact h
  | fetchRaw key =>
    dsimp only [Mirror.step, Mirror.fetchRaw]
    split_ifs
    · exact h
    · exact h.startGet key .raw
  | read id object =>
    dsimp only [Mirror.step, Mirror.read]
    cases hg : s.gets.get? id with
    | none => exact h
    | some g =>
      dsimp only
      split_ifs
      · exact h.setGet (h.gets id g hg)
      · exact h
  | answer id =>
    dsimp only [Mirror.step, Mirror.answer] at hanswer ⊢
    cases hg : s.gets.get? id with
    | none => exact h
    | some g =>
      have hcame := fun howner => hanswer id g rfl hg howner
      rw [hg] at hcame
      dsimp only at hcame ⊢
      split
      · next hobject _ => exact h.answered fun howner _ => hcame howner (Or.inl hobject)
      · next size hobject hnone =>
        split_ifs with hwanted
        · have hrename : Known Q (s.rename g.key size) := h.of_eq rfl rfl
          refine hrename.answered fun howner _ => hcame howner (Or.inr ⟨size, ?_⟩)
          simp only [hobject, hnone, hwanted, if_true]
          unfold Mirror.answered
          rw [if_neg (by simp [howner])]
          split_ifs <;> rfl
        · exact h.answered fun _ hcame => absurd hcame (by simp [Came])
      · exact h
  | fails id message =>
    dsimp only [Mirror.step, Mirror.fails]
    cases hg : s.gets.get? id with
    | none => exact h
    | some g =>
      dsimp only
      split_ifs
      · exact h.answered fun _ hcame => absurd hcame (by simp [Came])
      · exact h
  | proceed id =>
    dsimp only [Mirror.step, Mirror.proceed]
    cases hg : s.gets.get? id with
    | none => exact h
    | some g =>
      dsimp only
      split
      · exact (h.dropGet id).proceedPass _ _ _
      · next a ha howner =>
        refine (h.dropGet id).proceedRetry fun hcame => h.gets id g hg howner ?_
        rw [ha]
        exact hcame
      · exact h
  | deadline id =>
    dsimp only [Mirror.step, Mirror.deadline]
    cases hg : s.gets.get? id with
    | none => exact h
    | some g =>
      dsimp only
      split_ifs
      · exact h
      have hset : Known Q (s.setGet id g.givenUp) := h.setGet (h.gets id g hg)
      split
      · split_ifs
        · exact h
        · refine Known.nextDownload ?_ _
          exact hset.of_eq rfl rfl
      · split
        · next r hr =>
          refine Known.fetchGroup ?_ _ (h.done r hr)
          exact hset.of_eq rfl rfl
        · exact h
      · exact h
  | note key => exact h.of_eq rfl rfl
  | ingest key bytes =>
    dsimp only [Mirror.step, Mirror.ingest]
    split_ifs <;> exact h.of_eq rfl rfl
  | openGate =>
    dsimp only [Mirror.step, Mirror.openGate]
    split_ifs <;> exact h.of_eq rfl rfl
  | drain isLeader =>
    dsimp only [Mirror.step, Mirror.drainNow]
    split_ifs
    · exact h
    · exact h.of_eq (drainOnce_known _ s).1 (drainOnce_known _ s).2
  | putReads => exact h.of_eq rfl rfl
  | putDone ok =>
    have hdrain : ∀ key batch, Known Q ((s.note key).drainOnce batch) := fun key batch =>
      h.of_eq (drainOnce_known batch (s.note key)).1 (drainOnce_known batch (s.note key)).2
    have hdrop : ∀ batch, Known Q (s.drainOnce batch) := fun batch =>
      h.of_eq (drainOnce_known batch s).1 (drainOnce_known batch s).2
    dsimp only [Mirror.step, Mirror.putDone]
    split
    · exact hdrop _
    · split_ifs
      · exact hdrop _
      · exact hdrain _ _
    · split_ifs
      · exact h
      · exact hdrain _ _
    · exact h

/-- In this run the store has answered a `GET` of the pass over the blocked keys for `key`: its file
was renamed into place, or there is no object. The pass has been at work ever since. -/
def Landed (disk : Key → Option ℕ) (evs : List Event) (key : Key) : Prop :=
  ∃ before id after g, evs = before ++ .answer id :: after ∧
    (run step (init disk) before).gets.get? id = some g ∧ g.owner = .retry ∧ g.key = key ∧
    (g.object = some none ∨ ∃ size, ((run step (init disk) before).step (.answer id)).disk =
      Function.update (run step (init disk) before).disk key (some size)) ∧
    Throughout step (fun s => s.retrying.isSome = true) (run step (init disk) before)
      (.answer id :: after)

variable {disk : Key → Option ℕ} {evs : List Event}

/-- While the pass is at work, what it knows stays known. -/
theorem Landed.concat (h : Landed disk evs key)
    (hretrying : (run step (init disk) (evs ++ [e])).retrying.isSome = true) :
    Landed disk (evs ++ [e]) key := by
  obtain ⟨before, id, after, g, rfl, hg, howner, hkey, hcame, hwork⟩ := h
  refine ⟨before, id, after ++ [e], g, by simp, hg, howner, hkey, hcame, ?_⟩
  refine Throughout.concat step hwork ?_
  rw [append_assoc, run_append] at hretrying
  exact hretrying

theorem answer_retrying (s : Mirror) (id : ℕ) : (s.answer id).retrying = s.retrying := by
  have hanswered : ∀ (s : Mirror) g a, (s.answered id g a).retrying = s.retrying := by
    intro s g a
    unfold answered
    split_ifs
    · cases a <;> rfl
    · rfl
    · rfl
  unfold answer
  cases s.gets.get? id with
  | none => rfl
  | some g =>
    dsimp only
    split
    · exact hanswered s g _
    · split_ifs
      · exact hanswered _ g _
      · exact hanswered s g _
    · rfl

theorem known_landed (disk : Key → Option ℕ) (evs : List Event) :
    Known (Landed disk evs) (run step (init disk) evs) := by
  induction evs using List.reverseRecOn with
  | nil => exact ⟨fun _ _ h => absurd h (by simp [init]), fun _ h => absurd h (by simp [init])⟩
  | append_singleton evs e ih =>
    have hinv := inv_run (inv_init disk) evs
    have hinv' := inv_run (inv_init disk) (evs ++ [e])
    by_cases hretrying : (run step (init disk) (evs ++ [e])).retrying.isSome = true
    · have hmono : Known (Landed disk (evs ++ [e])) (run step (init disk) evs) :=
        ⟨fun id g hg howner hcame => (ih.gets id g hg howner hcame).concat hretrying,
          fun r hr x hx hcame => (ih.done r hr x hx hcame).concat hretrying⟩
      rw [run_append] at hretrying ⊢
      refine known_step hmono e fun id g he hg howner hcame => ?_
      subst he
      refine ⟨evs, id, [], g, rfl, hg, howner, rfl, hcame, ?_⟩
      refine throughout_cons step |>.mpr ⟨?_, throughout_nil step |>.mpr hretrying⟩
      rw [← answer_retrying _ id]
      exact hretrying
    · rw [not_isSome_iff_eq_none] at hretrying
      refine ⟨fun id g hg howner hcame => ?_, fun r hr => absurd (hretrying.symm.trans hr) (by simp)⟩
      -- an answered GET shows that the pass is at work
      have hok := hinv'.gets id g hg
      by_cases hgiven : g.abandoned = true
      · rw [(hok.quiet hgiven).2] at hcame
        exact absurd hcame not_came_none
      · obtain ⟨r, hr, _⟩ := (hok.retry howner (Bool.eq_false_of_not_eq_true hgiven)).1
        exact absurd (hretrying.symm.trans hr) (by simp)

theorem blocked_fetchGroup (group : List Key) (s : Mirror) (r : Retry) :
    (s.fetchGroup r group).blocked = s.blocked := by
  induction group generalizing r with
  | nil => rfl
  | cons key rest ih =>
    rw [fetchGroup]
    split_ifs
    · rfl
    · exact ih _
    · rfl

theorem blocked_nextGroup (s : Mirror) (r : Retry) : (s.nextGroup r).blocked = s.blocked := by
  unfold nextGroup
  split
  · rfl
  · split_ifs
    · rfl
    · exact blocked_fetchGroup _ s _

/-- A key leaves the blocked ones as its group is settled, and it has come to something. -/
theorem unblocks (h : Inv s) (he : OfRetry s e) (hkey : key ∈ s.blocked.keys)
    (hgone : key ∉ (s.step e).blocked.keys) :
    e = .settle true ∧ ∃ r, s.retrying = some r ∧ ∃ a, (key, a) ∈ r.done ∧ Came a := by
  have hmore : ∀ {s' : Mirror}, s'.blocked = s.blocked → key ∈ s'.blocked.keys := fun heq => heq ▸ hkey
  have hblock : ∀ key' reason, key ∈ (s.block key' reason).blocked.keys := fun _ _ =>
    mem_keys_upsert.mpr (Or.inr hkey)
  rcases he with he | ⟨id, g, hg, howner, he⟩
  · cases e <;> simp only at he
    case retryBlocked getDeadlineMs =>
      refine absurd (hmore ?_) hgone
      dsimp only [step, retryBlocked]
      split_ifs
      · rfl
      · exact blocked_fetchGroup _ _ _
    case retryEnd =>
      refine absurd (hmore ?_) hgone
      dsimp only [step, retryEnd]
      split_ifs <;> rfl
    case settle ok =>
      dsimp only [step, settle] at hgone
      cases hr : s.retrying with
      | none =>
        rw [hr] at hgone
        exact absurd hkey hgone
      | some r =>
        rw [hr] at hgone
        dsimp only at hgone
        split_ifs at hgone with hphase hdone hok
        · exact absurd hkey hgone
        · exact absurd (hmore (blocked_nextGroup s r)) hgone
        · refine ⟨by rw [hok], r, rfl, ?_⟩
          rw [blocked_nextGroup] at hgone
          have hmem : key ∈ r.done.map Prod.fst := by
            by_contra hnot
            exact hgone (mem_keys_filterKeys.mpr ⟨decide_eq_true hnot, hkey⟩)
          obtain ⟨x, hx, rfl⟩ := List.mem_map.mp hmem
          have hne : r.phase ≠ .ended := by
            rw [not_not.mp hphase]
            simp
          exact ⟨x.2, hx, (h.retry r hr hne).done x hx⟩
        · exact absurd hkey hgone
  · have hanswered : ∀ (s' : Mirror) a, (s'.answered id g a).blocked = s'.blocked := by
      intro s' a
      unfold answered
      rw [if_neg (by simp [howner])]
      split_ifs <;> rfl
    refine absurd ?_ hgone
    cases e <;> simp only [OfGet] at he
    all_goals
      subst he
      dsimp only [step]
    case read id object =>
      unfold read
      rw [hg]
      dsimp only
      split_ifs <;> exact hkey
    case answer id =>
      unfold answer
      rw [hg]
      dsimp only
      split
      · exact hmore (hanswered s _)
      · split_ifs
        · exact hmore (hanswered _ _)
        · exact hmore (hanswered s _)
      · exact hkey
    case fails id message =>
      unfold fails
      rw [hg]
      dsimp only
      split_ifs
      · exact hmore (hanswered s _)
      · exact hkey
    case proceed id =>
      unfold proceed
      rw [hg]
      dsimp only
      split
      · next howner' => exact absurd (howner.symm.trans howner') (by simp)
      · unfold proceedRetry
        split
        · split
          · rw [blocked_fetchGroup]
            exact hblock _ _
          · rw [blocked_fetchGroup]
            exact hkey
        · exact hkey
      · exact hkey
    case deadline id =>
      unfold deadline
      rw [hg]
      dsimp only
      split_ifs
      · exact hkey
      · rw [howner]
        dsimp only
        split
        · rw [blocked_fetchGroup]
          exact hblock _ _
        · exact hkey

/-- A hydrate pass that was abandoned, and a `GET` that was given up, change no file and none of the
sets any more. When a listing is classified no `GET` of a pass over the blocked keys may land, and
such a pass unblocks a key only in the step in which its group is settled, once its download has
landed or the object was found gone. -/
theorem late_download_never_lands (disk : Key → Option ℕ) (evs : List Event) :
    let s := Lib.run step (init disk) evs
    (∀ run ≤ s.hydrateRun, ∀ later e, OfPass (Lib.run step (s.step .abandon) later) run e →
      Untouched (Lib.run step (s.step .abandon) later) ((Lib.run step (s.step .abandon) later).step e)) ∧
    (∀ id given, GivesUp s id given → ∀ later e, OfGet id e →
      Untouched (Lib.run step (s.step given) later) ((Lib.run step (s.step given) later).step e)) ∧
    (∀ run getDeadlineMs listing, s.passes.get? run = some ⟨getDeadlineMs, .listing (some listing)⟩ →
      s.stale run = false → (∀ r, s.retrying = some r → r.phase = .ended) ∧
        ∀ id g, s.gets.get? id = some g → g.owner = .retry → ∀ later e, OfGet id e →
          Untouched (Lib.run step s later) ((Lib.run step s later).step e)) ∧
    ∀ e key, OfRetry s e → key ∈ s.blocked.keys → key ∉ (s.step e).blocked.keys →
      e = .settle true ∧ Landed disk evs key := by
  intro s
  have h : Inv s := inv_run (inv_init disk) evs
  refine ⟨fun run hrun later e he => ?_, fun id given hgives later e he => ?_,
    fun run getDeadlineMs listing hp hstale => ?_, fun e key he hkey hgone => ?_⟩
  · have hlater : (s.step .abandon).hydrateRun ≤ (Lib.run step (s.step .abandon) later).hydrateRun :=
      (follows_run _ later).run
    exact untouched_pass (inv_run (h.step .abandon) later) ((Nat.lt_succ_of_le hrun).trans_le hlater) he
  · have hdead : Dead (s.step given) id := hgives.dead h
    exact (hdead.follows (follows_run _ later)).untouched (inv_run (h.step given) later) he
  · have hcurrent : run = s.hydrateRun := not_stale.mp (by simp [hstale])
    have hended := h.endedAt (hcurrent ▸ hp) (by simp)
    refine ⟨hended, fun id g hg howner later e he => ?_⟩
    have hdead : Dead s id := by
      refine ⟨(h.gets id g hg).seq, fun g' hg' => Or.inl ?_⟩
      obtain rfl := some.inj (hg.symm.trans hg')
      exact h.clear_of_ended hended id g hg howner
    exact (hdead.follows (follows_run s later)).untouched (inv_run h later) he
  · obtain ⟨rfl, r, hr, a, hdone, hcame⟩ := unblocks h he hkey hgone
    exact ⟨rfl, (known_landed disk evs).done r hr (key, a) hdone hcame⟩

end Mirror

end Turma.ArchiveMirror
