import Turma.NameToken.Steps

/-! An answered revoke is permanent: the generation it answered stays in the store and in the
memory of every replica that has it. -/

namespace Turma.NameToken

open Turma.Lib List JsString

variable {ρ : Type} [DecidableEq ρ] {C : Cluster ρ} {P : Past} {s : State ρ} {e : Event ρ} {r : ρ}

theorem answers_grow (C : Cluster ρ) (s : State ρ) (e : Event ρ) :
    s.answers <+: (step C s e).answers := by
  have hsame : s.answers <+: s.answers := prefix_refl _
  cases e with
  | merge i =>
    simp only [step, State.mergeStep]
    split
    · exact hsame
    split
    · split
      · exact prefix_append _ _
      · exact hsame
    · exact hsame
  | answer i =>
    simp only [step, State.answerStep]
    split
    · exact hsame
    split
    · exact prefix_append _ _
    · split
      · exact hsame
      · exact prefix_append _ _
    · exact hsame
  | fail i =>
    simp only [step, State.failStep]
    split
    · exact hsame
    · exact prefix_append _ _
  | read | swap | undo | deliver | bootRead | boot | seed =>
    simp only [step, State.readStep, State.swapStep, State.undoStep, State.deliverStep,
      State.bootStep, State.seedStep]
    repeat' split
    all_goals exact hsame
  | request | lostUndo | restart | lostSeed => exact hsame

variable {evs : List (Event ρ)}

theorem revoked_mono {x : Stamp × ℕ} (h : x ∈ s.revoked) :
    x ∈ (run (step C) s evs).revoked := by
  induction evs generalizing s with
  | nil => exact h
  | cons e evs ih =>
    refine ih ?_
    exact ((answers_grow C s e).sublist.filterMap _).subset h

theorem gen_applyExternal (m : Gens) (raw : Option Gens) (host : Host) :
    nameTokenGen m host ≤ nameTokenGen (applyExternal m raw) host := by
  rw [applyExternal]
  split
  · exact le_rfl
  · rw [gen_merge]
    exact le_max_left _ _

variable {host : Host}

theorem gen_update {f : ρ → Gens} {m : Gens} (r' : ρ)
    (h : nameTokenGen (f r') host ≤ nameTokenGen m host) :
    nameTokenGen (f r) host ≤ nameTokenGen (Function.update f r' m r) host := by
  by_cases hr : r = r'
  · subst hr
    simpa using h
  · simp [Function.update_of_ne hr]

/-- A replica's memory only rises while it runs. -/
theorem mirror_step (C : Cluster ρ) (s : State ρ) (host : Host) (he : e ≠ .restart r) :
    nameTokenGen (s.mirror r) host ≤ nameTokenGen ((step C s e).mirror r) host := by
  cases e with
  | answer i =>
    simp only [step, State.answerStep]
    split
    · exact le_rfl
    split
    · refine gen_update _ ?_
      rw [gen_merge]
      exact le_max_left _ _
    · split <;> exact le_rfl
    · exact le_rfl
  | deliver r' i =>
    simp only [step, State.deliverStep]
    split
    · exact le_rfl
    · exact gen_update _ (gen_applyExternal _ _ _)
  | boot r' =>
    simp only [step, State.bootStep]
    split
    · exact le_rfl
    · exact gen_update _ (gen_applyExternal _ _ _)
    · exact le_rfl
  | restart r' =>
    have hr : r ≠ r' := fun h => he (by rw [h])
    simp [step, State.restartStep, Function.update_of_ne hr]
  | read | merge | swap | fail | undo | bootRead | seed =>
    simp only [step, State.readStep, State.mergeStep, State.swapStep, State.failStep,
      State.undoStep, State.seedStep, State.reply]
    repeat' split
    all_goals exact le_rfl
  | request | lostUndo | lostSeed => exact le_rfl

theorem mirror_run (host : Host) (h : .restart r ∉ evs) :
    nameTokenGen (s.mirror r) host ≤ nameTokenGen ((run (step C) s evs).mirror r) host := by
  induction evs generalizing s with
  | nil => exact le_rfl
  | cons e evs ih =>
    have he : e ≠ .restart r := fun heq => h (heq ▸ mem_cons_self)
    exact (mirror_step C s host he).trans (ih fun hmem => h (.tail _ hmem))

/-- A generation falls only from what a failed revoke swapped in to what its swap replaced. -/
theorem storeGen_step (h : s.Sound C P) (he : Meets C s e)
    (hfall : (step C s e).storeGen host < s.storeGen host) :
    ∃ i u, e = .undo i ∧ s.undos[i]? = some u ∧
      s.storeGen host = nameTokenGen u.attempt.next host ∧
      (step C s e).storeGen host = nameTokenGen (coerceNameTokenGens u.attempt.stored) host := by
  cases e with
  | swap i =>
    simp only [step, State.swapStep] at hfall
    split at hfall
    · exact absurd hfall (lt_irrefl _)
    rename_i b c d hsplit
    split at hfall
    · rename_i a hphase hlast
      split at hfall
      · rename_i hsame
        have ha := (h.calls c (mem_middle (splitAt?_eq hsplit))).attempt a hlast
        have hle : (known s.store).gen host ≤ (known (some a.next)).gen host := by
          rw [known_of_sameValue hsame, known_of_clean ha.clean]
          exact ha.le host
        exact absurd hfall (Nat.not_lt.mpr hle)
      · exact absurd hfall (lt_irrefl _)
    · exact absurd hfall (lt_irrefl _)
  | undo i =>
    simp only [step, State.undoStep] at hfall ⊢
    cases hu : s.undos[i]? with
    | none => simp [splitAt?, hu] at hfall
    | some u =>
      simp only [splitAt?, hu, Option.map_some] at hfall ⊢
      by_cases hsame : sameValue s.store (some u.attempt.next) = true
      · rw [if_pos hsame] at hfall ⊢
        have hclean := (h.undos u (mem_of_getElem? hu)).attempt.clean
        refine ⟨i, u, rfl, hu, ?_, ?_⟩
        · show (known s.store).gen host = (view u.attempt.next).gen host
          rw [known_of_sameValue hsame, known_of_clean hclean]
        · show (known (some (coerceNameTokenGens u.attempt.stored))).gen host = _
          rw [known_coerce]
          rfl
      · rw [if_neg hsame] at hfall
        exact absurd hfall (lt_irrefl _)
  | seed i =>
    have hzero : s.storeGen host = 0 := by
      rw [State.storeGen, show s.store = none from he]
      rfl
    omega
  | read i =>
    simp only [step, State.readStep] at hfall
    repeat' split at hfall
    all_goals exact absurd hfall (lt_irrefl _)
  | merge i =>
    simp only [step, State.mergeStep] at hfall
    repeat' split at hfall
    all_goals exact absurd hfall (lt_irrefl _)
  | answer i =>
    simp only [step, State.answerStep] at hfall
    repeat' split at hfall
    all_goals exact absurd hfall (lt_irrefl _)
  | fail i =>
    simp only [step, State.failStep] at hfall
    split at hfall <;> exact absurd hfall (lt_irrefl _)
  | deliver r i =>
    simp only [step, State.deliverStep] at hfall
    split at hfall <;> exact absurd hfall (lt_irrefl _)
  | bootRead r =>
    simp only [step] at hfall
    split at hfall <;> exact absurd hfall (lt_irrefl _)
  | boot r =>
    simp only [step, State.bootStep] at hfall
    split at hfall <;> exact absurd hfall (lt_irrefl _)
  | request | lostUndo | restart | lostSeed => exact absurd hfall (lt_irrefl _)

/-- What a booting replica read reaches `g`, or its memory does once the load is done. -/
def Loaded (r : ρ) (host : Host) (g : ℕ) (s : State ρ) : Prop :=
  (∃ raw, s.boot r = .got raw ∧ g ≤ nameTokenGen (coerceNameTokenGens raw) host) ∨
    (s.boot r = .done ∧ g ≤ nameTokenGen (s.mirror r) host)

theorem gen_le_applyExternal (m : Gens) (raw : Option Gens) (host : Host) :
    nameTokenGen (coerceNameTokenGens raw) host ≤ nameTokenGen (applyExternal m raw) host := by
  rw [applyExternal]
  split
  · rename_i hsame
    refine le_of_eq ?_
    have hentries : ownEntries (coerceNameTokenGens raw) = ownEntries m :=
      Option.some.inj (of_decide_eq_true hsame)
    rw [nameTokenGen_eq, nameTokenGen_eq, get?_of_ownEntries hentries]
  · rw [gen_merge]
    exact le_max_right _ _

theorem boot_update {f : ρ → Boot} {b : Boot} {r r' : ρ} (h : r ≠ r') :
    Function.update f r' b r = f r := Function.update_of_ne h b f

theorem loaded_step {g : ℕ} (h : Loaded r host g s) (he : e ≠ .restart r) :
    Loaded r host g (step C s e) := by
  have hmirror := mirror_step C s host he
  have hkeep : (step C s e).boot r = s.boot r → Loaded r host g (step C s e) := by
    intro hboot
    rcases h with ⟨raw, hraw, hle⟩ | ⟨hdone, hle⟩
    · exact Or.inl ⟨raw, hboot.trans hraw, hle⟩
    · exact Or.inr ⟨hboot.trans hdone, hle.trans hmirror⟩
  cases e with
  | boot r' =>
    by_cases hr : r = r'
    · subst hr
      rcases h with ⟨raw, hraw, hle⟩ | ⟨hdone, -⟩
      · refine Or.inr ?_
        simp only [step, State.bootStep, hraw]
        cases raw with
        | none => exact ⟨by simp, le_trans hle (Nat.zero_le _)⟩
        | some raw =>
          refine ⟨by simp, hle.trans ?_⟩
          simpa using gen_le_applyExternal (s.mirror r) (some raw) host
      · refine hkeep ?_
        simp only [step, State.bootStep, hdone]
    · refine hkeep ?_
      simp only [step, State.bootStep]
      split <;> first | exact boot_update hr | rfl
  | bootRead r' =>
    refine hkeep ?_
    simp only [step]
    split
    · rename_i hreading
      refine boot_update fun hr => ?_
      subst hr
      rcases h with ⟨raw, hraw, -⟩ | ⟨hdone, -⟩
      · exact absurd (hreading.symm.trans hraw) (by simp)
      · exact absurd (hreading.symm.trans hdone) (by simp)
    · rfl
  | restart r' =>
    refine hkeep (boot_update fun hr => he ?_)
    rw [hr]
  | read | merge | swap | answer | fail | undo | deliver | seed =>
    refine hkeep ?_
    simp only [step, State.readStep, State.mergeStep, State.swapStep, State.answerStep,
      State.failStep, State.undoStep, State.deliverStep, State.seedStep, State.reply]
    repeat' split
    all_goals rfl
  | request | lostUndo | lostSeed => exact hkeep rfl

theorem loaded_run {g : ℕ} (h : Loaded r host g s)
    (hr : .restart r ∉ evs) : Loaded r host g (run (step C) s evs) := by
  induction evs generalizing s with
  | nil => exact h
  | cons e evs ih =>
    have he : e ≠ .restart r := fun heq => hr (heq ▸ mem_cons_self)
    exact ih (loaded_step h he) fun hmem => hr (.tail _ hmem)

/-- As long as no two revokes of a host carry the same time and no booting replica publishes over a
stored value: the store and every running replica keep the generations they have answered or seen, a
replica that restarts has the answered ones again with its load, each is answered once, and a revoke
takes back only what it raised itself. -/
theorem revoke_permanent (C : Cluster ρ) (evs evs' : List (Event ρ))
    (h : Along (step C) (Meets C) (State.start C) (evs ++ evs')) :
    let s := run (step C) (State.start C) evs
    let s' := run (step C) s evs'
    (∀ x ∈ s.revoked, x.2 ≤ s'.storeGen x.1.1) ∧
    (∀ r, .restart r ∉ evs' → ∀ host,
      nameTokenGen (s.mirror r) host ≤ nameTokenGen (s'.mirror r) host) ∧
    (∀ r rest, evs' = .bootRead r :: rest → s.boot r = .reading → .restart r ∉ rest →
      s'.boot r = .done → ∀ x ∈ s.revoked, x.2 ≤ nameTokenGen (s'.mirror r) x.1.1) ∧
    (s'.revoked.map fun x => (x.1.1, x.2)).Nodup ∧
    ∀ e, Meets C s' e → ∀ host, (step C s' e).storeGen host < s'.storeGen host →
      ∃ i u, e = .undo i ∧ s'.undos[i]? = some u ∧
        s'.storeGen host = nameTokenGen u.attempt.next host ∧
        (step C s' e).storeGen host =
          nameTokenGen (coerceNameTokenGens u.attempt.stored) host := by
  intro s s'
  have hsound : ∀ evs, Along (step C) (Meets C) (State.start C) evs →
      ∃ P, (run (step C) (State.start C) evs).Sound C P := fun evs hevs =>
    run_inv (step C) (P := fun s => ∃ P, s.Sound C P) (fun s e ⟨P, hs⟩ he => sound_step hs e he)
      ⟨_, sound_start C⟩ hevs
  obtain ⟨P, hs⟩ := hsound evs ((along_append (step C)).mp h).1
  obtain ⟨Q, hs'⟩ := hsound _ h
  rw [run_append] at hs'
  refine ⟨fun x hx => hs'.le_storeGen (revoked_mono hx), fun r hr host => mirror_run host hr, ?_,
    hs'.revoked_nodup, fun e he host hfall => storeGen_step hs' he hfall⟩
  rintro r rest rfl hboot hr hdone x hx
  have hread : Loaded r x.1.1 x.2 (step C s (.bootRead r)) := by
    refine Or.inl ⟨s.store, ?_, hs.le_storeGen hx⟩
    simp [step, hboot]
  rcases loaded_run (C := C) hread hr with ⟨raw, hraw, -⟩ | ⟨-, hle⟩
  · exact absurd (hraw.symm.trans hdone) (by simp)
  · exact hle

def cluster : Cluster Bool := { file := fun _ => OrdMap.empty, first := none }

def box : Host := ofString "box"

def nas : Host := ofString "nas"

/-- One replica's swap times out and is undone, the other revokes, and the first restarts. -/
def revokes : List (Event Bool) :=
  [.request true box 1, .read 0, .merge 0, .swap 0, .request false nas 1, .fail 0, .undo 0, .read 0,
    .merge 0, .swap 0, .answer 0]

def restarts : List (Event Bool) := [.bootRead true, .boot true]

theorem revoke_permanent_restarts :
    ((nas, 1), 1) ∈ (run (step cluster) (State.start cluster) revokes).revoked ∧
      1 ≤ (run (step cluster) (run (step cluster) (State.start cluster) revokes) restarts).storeGen
        nas := by
  have hrevoked : ((nas, 1), 1) ∈ (run (step cluster) (State.start cluster) revokes).revoked := by
    decide
  refine ⟨hrevoked, ?_⟩
  exact (revoke_permanent cluster revokes restarts (by decide)).1 _ hrevoked

/-- Both replicas revoke a host in the same millisecond, and the one whose swap failed undoes the
other's. -/
def sameTime : List (Event Bool) :=
  [.request true box 1, .request false box 1, .read 0, .merge 0, .read 1, .merge 1, .fail 0,
    .swap 0, .answer 0, .undo 0]

theorem revoke_handed_back :
    ((box, 1), 1) ∈ (run (step cluster) (State.start cluster) sameTime).revoked ∧
      (run (step cluster) (State.start cluster) sameTime).storeGen box = 0 := by
  decide

end Turma.NameToken
