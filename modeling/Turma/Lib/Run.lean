import Mathlib.Tactic.Basic

/-! Runs of a deterministic step function over a list of events. The scheduler is the
list: an event that is not enabled leaves the state alone, so every list is a run. -/

namespace Turma.Lib

open List

variable {σ ε : Type*} (step : σ → ε → σ)

def run (s : σ) (evs : List ε) : σ := evs.foldl step s

def Along (ok : σ → ε → Prop) : σ → List ε → Prop
  | _, [] => True
  | s, e :: evs => ok s e ∧ Along ok (step s e) evs

instance decidableAlong {ok : σ → ε → Prop} [∀ s e, Decidable (ok s e)] :
    ∀ s evs, Decidable (Along step ok s evs)
  | _, [] => isTrue trivial
  | s, e :: evs => @instDecidableAnd _ _ _ (decidableAlong (step s e) evs)

@[simp] theorem run_nil (s : σ) : run step s [] = s := rfl

@[simp] theorem run_cons (s : σ) (e : ε) (evs : List ε) :
    run step s (e :: evs) = run step (step s e) evs := rfl

theorem run_append (s : σ) (evs evs' : List ε) :
    run step s (evs ++ evs') = run step (run step s evs) evs' :=
  foldl_append

variable {s : σ} {ok : σ → ε → Prop}

theorem along_append {evs evs' : List ε} :
    Along step ok s (evs ++ evs') ↔ Along step ok s evs ∧ Along step ok (run step s evs) evs' := by
  induction evs generalizing s with
  | nil => simp [Along]
  | cons e evs ih => simp only [cons_append, Along, run_cons, ih, and_assoc]

variable {evs : List ε}

theorem Along.mono {ok ok' : σ → ε → Prop} (h : ∀ s e, ok s e → ok' s e)
    (hs : Along step ok s evs) : Along step ok' s evs := by
  induction evs generalizing s with
  | nil => trivial
  | cons e evs ih => exact ⟨h _ _ hs.1, ih hs.2⟩

theorem Along.and {ok ok' : σ → ε → Prop} (h : Along step ok s evs)
    (h' : Along step ok' s evs) : Along step (fun s e => ok s e ∧ ok' s e) s evs := by
  induction evs generalizing s with
  | nil => trivial
  | cons e evs ih => exact ⟨⟨h.1, h'.1⟩, ih h.2 h'.2⟩

/-- Two conditions on the steps of a run that agree wherever an invariant holds, which the steps that
meet them keep. -/
theorem along_congr {ok ok' : σ → ε → Prop} {I : σ → Prop} (hiff : ∀ s e, I s → (ok s e ↔ ok' s e))
    (hkeep : ∀ s e, I s → ok' s e → I (step s e)) (hs : I s) :
    Along step ok s evs ↔ Along step ok' s evs := by
  induction evs generalizing s with
  | nil => exact Iff.rfl
  | cons e evs ih =>
    rw [Along, Along, hiff s e hs]
    exact and_congr_right fun hok => ih (hkeep s e hs hok)

/-- A condition on the events alone holds along the run when every event meets it. -/
theorem along_of_forall {p : ε → Prop} (h : ∀ e ∈ evs, p e) :
    Along step (fun _ e => p e) s evs := by
  induction evs generalizing s with
  | nil => trivial
  | cons e evs ih =>
    exact ⟨h e (by simp), ih fun e' he' => h e' (by simp [he'])⟩

variable {P : σ → Prop}

/-- The invariant rule: what every admitted step preserves holds at the end of the run. -/
theorem run_inv
    (hstep : ∀ s e, P s → ok s e → P (step s e))
    (hs : P s) (hok : Along step ok s evs) : P (run step s evs) := by
  induction evs generalizing s with
  | nil => exact hs
  | cons e evs ih => exact ih (hstep s e hs hok.1) hok.2

/-- The monotonicity rule: a preorder that every admitted step climbs relates the ends of
the run. `P` is an invariant the steps may use. -/
theorem run_rel {R : σ → σ → Prop}
    (hrefl : ∀ s, R s s) (htrans : ∀ a b c, R a b → R b c → R a c)
    (hstep : ∀ s e, P s → ok s e → P (step s e) ∧ R s (step s e))
    (hs : P s) (hok : Along step ok s evs) : R s (run step s evs) := by
  induction evs generalizing s with
  | nil => exact hrefl s
  | cons e evs ih =>
    obtain ⟨hp, hr⟩ := hstep s e hs hok.1
    exact htrans _ _ _ hr (ih hp hok.2)

/-- A property of every state of a run, the last one and those on the way. -/
def Throughout (P : σ → Prop) (s : σ) (evs : List ε) : Prop := ∀ p, p <+: evs → P (run step s p)

theorem throughout_nil : Throughout step P s [] ↔ P s := by
  constructor
  · intro h
    exact h [] (prefix_refl _)
  · intro h p hp
    rw [prefix_nil.mp hp]
    exact h

theorem throughout_cons {e : ε} :
    Throughout step P s (e :: evs) ↔ P s ∧ Throughout step P (step s e) evs := by
  constructor
  · intro h
    refine ⟨h [] List.nil_prefix, fun p hp => ?_⟩
    exact h (e :: p) (cons_prefix_cons.mpr ⟨rfl, hp⟩)
  · rintro ⟨h0, h⟩ p hp
    rcases p with _ | ⟨e', p⟩
    · exact h0
    · obtain ⟨rfl, hp'⟩ := cons_prefix_cons.mp hp
      exact h p hp'

theorem Throughout.concat {e : ε}
    (h : Throughout step P s evs) (he : P (run step s (evs ++ [e]))) :
    Throughout step P s (evs ++ [e]) := by
  intro p hp
  rcases prefix_concat_iff.mp hp with rfl | hp
  · exact he
  · exact h p hp

instance decidableThroughout {P : σ → Prop} [DecidablePred P] :
    ∀ s evs, Decidable (Throughout step P s evs)
  | s, [] => decidable_of_iff (P s) (throughout_nil step).symm
  | s, e :: evs =>
    @decidable_of_iff _ (P s ∧ Throughout step P (step s e) evs) (throughout_cons step).symm
      (@instDecidableAnd _ _ _ (decidableThroughout (step s e) evs))

/-- Both ends of every step of the run have the property. -/
theorem Throughout.along (h : Throughout step P s evs) :
    Along step (fun s e => P s ∧ P (step s e)) s evs := by
  induction evs generalizing s with
  | nil => trivial
  | cons e evs ih =>
    obtain ⟨h0, h⟩ := (throughout_cons step).mp h
    exact ⟨⟨h0, h [] List.nil_prefix⟩, ih h⟩

/-- A property holds throughout a run exactly when its steps meet `ok`, where `ok` is what
a step must meet to keep it. `I` is an invariant the steps may use. -/
theorem throughout_iff_along {P I : σ → Prop} (hI : ∀ s, I s → P s)
    (hkeep : ∀ s e, I s → ok s e → I (step s e))
    (hneed : ∀ s e, I s → P (step s e) → ok s e) (hs : I s) :
    Throughout step P s evs ↔ Along step ok s evs := by
  induction evs generalizing s with
  | nil => exact (throughout_nil step).trans ⟨fun _ => trivial, fun _ => hI s hs⟩
  | cons e evs ih =>
    rw [throughout_cons, Along]
    constructor
    · rintro ⟨-, h⟩
      have hok : ok s e := hneed s e hs (h [] List.nil_prefix)
      exact ⟨hok, (ih (hkeep s e hs hok)).mp h⟩
    · rintro ⟨hok, h⟩
      exact ⟨hI s hs, (ih (hkeep s e hs hok)).mpr h⟩

/-- A view `v` of the state that only some events touch sees just those, while an invariant of
the run lasts. -/
theorem run_view {τ : Type*} {I : σ → Prop} {v : σ → τ} {p : ε → Bool} {t : τ → ε → τ}
    (hinv : ∀ s e, I s → I (step s e))
    (hview : ∀ s e, I s → v (step s e) = if p e then t (v s) e else v s)
    (hs : I s) (evs : List ε) :
    v (run step s evs) = (evs.filter p).foldl t (v s) := by
  induction evs generalizing s with
  | nil => rfl
  | cons e evs ih =>
    rw [run_cons, ih (hinv s e hs), hview s e hs, filter_cons]
    split <;> rfl

end Turma.Lib

/-! Machines that answer every event, and the simulation rule for two of them. -/

namespace Turma.Lib

variable {σ τ ε ρ : Type*}

def outputs (step : σ → ε → σ × ρ) : σ → List ε → List ρ
  | _, [] => []
  | s, e :: evs => (step s e).2 :: outputs step (step s e).1 evs

def final (step : σ → ε → σ × ρ) (s : σ) (evs : List ε) : σ := run (fun s e => (step s e).1) s evs

/-- Related states that answer an admitted event alike and stay related answer a whole run
alike. -/
theorem outputs_eq {step : σ → ε → σ × ρ} {step' : τ → ε → τ × ρ} {R : σ → τ → Prop}
    (hstep : ∀ s t e, R s t → ok s e →
      (step s e).2 = (step' t e).2 ∧ R (step s e).1 (step' t e).1)
    {t : τ} (hs : R s t)
    (hok : Along (fun s e => (step s e).1) ok s evs) :
    outputs step s evs = outputs step' t evs ∧ R (final step s evs) (final step' t evs) := by
  induction evs generalizing s t with
  | nil => exact ⟨rfl, hs⟩
  | cons e evs ih =>
    obtain ⟨hanswer, hnext⟩ := hstep s t e hs hok.1
    obtain ⟨hanswers, hend⟩ := ih hnext hok.2
    exact ⟨by rw [outputs, outputs, hanswer, hanswers], hend⟩

end Turma.Lib
