import Turma.NameToken.Swaps

/-! What each step does to the invariant. -/

namespace Turma.NameToken

open Turma.Lib List

variable {ρ : Type} [DecidableEq ρ] {C : Cluster ρ} {P : Past} {s : State ρ} {c : Call ρ}
  {m : Gens} {r : ρ} {before after : List (Call ρ)} {i : ℕ}

theorem turn_eq (h : s.turn i = some (r, before, c, after)) : s.calls = before ++ c :: after := by
  unfold State.turn at h
  split at h
  · cases h
  rename_i b d e hsplit
  split at h
  · cases h
  split at h
  · cases h
  obtain ⟨-, rfl, rfl, rfl⟩ := by simpa using h
  exact splitAt?_eq hsplit

theorem State.Sound.setMirror (h : s.Sound C P) (hm : Clean m ∧ Shows C P (view m)) (r : ρ) :
    State.Sound C P { s with mirror := Function.update s.mirror r m } := by
  refine { h with mirror := fun r' => ?_ }
  by_cases hr : r' = r
  · subst hr
    simpa using hm
  · simpa [Function.update_of_ne hr] using h.mirror r'

theorem State.Sound.setBoot (h : s.Sound C P) {b : Boot}
    (hb : ∀ raw, b = .got raw → Shows C P (known raw)) (r : ρ) :
    State.Sound C P { s with boot := Function.update s.boot r b } := by
  refine { h with boot := fun r' raw hraw => ?_ }
  by_cases hr : r' = r
  · subst hr
    exact hb raw (by simpa using hraw)
  · exact h.boot r' raw (by simpa [Function.update_of_ne hr] using hraw)

theorem sound_request {host : Host} {now : ℤ} (h : s.Sound C P) (he : Meets C s (.request r host now)) :
    (step C s (.request r host now)).Sound C P := by
  obtain ⟨hnamed, hnew, hfirst, hfile⟩ := he
  have hold : ∀ y ∈ s.asked, y ∈ s.asked ++ [(host, now)] := fun y hy => mem_append_left _ hy
  have hperm : (step C s (.request r host now)).stamps.Perm ((host, now) :: s.stamps) := by
    simp only [State.stamps, step, map_append, append_assoc]
    exact perm_middle
  refine { h with calls := ?_, asked := ?_, shown := ?_, initial := ?_, distinct := ?_ }
  · intro d hd
    rcases mem_append.mp hd with hd | hd
    · exact h.calls d hd
    · obtain rfl := mem_singleton.mp hd
      refine ⟨hnamed, by simp, by simp, by simp, fun hx => ?_⟩
      exact absurd (h.shown _ hx) hnew
  · intro y hy
    rcases mem_cons.mp (hperm.mem_iff.mp hy) with rfl | hy
    · exact mem_append_right _ mem_cons_self
    · exact hold y (h.asked y hy)
  · exact fun y hy => hold y (h.shown y hy)
  · intro y hy
    rcases mem_append.mp hy with hy | hy
    · exact h.initial y hy
    · obtain rfl := mem_singleton.mp hy
      have hmark : ∀ m : Gens, stamped m host now = false → ¬ Marks (view m) (host, now) := by
        rintro m hm ⟨e, hget, hat⟩
        rw [stamped, show m.get? host = some e from hget, Option.any_some] at hm
        exact absurd hat (of_decide_eq_false hm)
      rintro (hinit | ⟨r', hinit⟩)
      · exact hmark _ hfirst hinit
      · exact hmark _ (hfile r') hinit
  · rw [hperm.nodup_iff]
    exact nodup_cons.mpr ⟨fun hmem => hnew (h.asked _ hmem), h.distinct⟩

theorem sound_read (h : s.Sound C P) (i : ℕ) : (s.readStep i).Sound C P := by
  unfold State.readStep
  split
  · exact h
  rename_i r b d e hturn
  have hcalls := turn_eq hturn
  split
  · rename_i hphase
    refine h.setCall hcalls rfl ((h.calls d (mem_middle hcalls)).move ?_ (by simp) ?_)
    · rw [hphase]
      simp
    · intro raw hraw
      obtain rfl := Phase.got.inj hraw
      exact h.shows_store
  · exact h

theorem sound_merge (h : s.Sound C P) (i : ℕ) (hraisable : s.raisable i = true) :
    (s.mergeStep i).Sound C P := by
  unfold State.mergeStep
  split
  · exact h
  rename_i r b d e hturn
  have hcalls := turn_eq hturn
  have hd := h.calls d (mem_middle hcalls)
  split
  · rename_i stored hphase
    split
    · have hrefuse := h.refuse hcalls (l := []) (by simp) (by simp) 409
        "too many hosts have a revoked name token; no room to record another"
      simpa [State.reply, tooManyHosts] using hrefuse
    · rename_i a ha
      have hsmall : nameTokenGen (mergeNameTokenGens (s.mirror r) (coerceNameTokenGens stored)) d.host <
          MAX_SAFE_INTEGER := by
        simp only [State.raisable, hturn, hphase, Bool.and_eq_true, decide_eq_true_eq] at hraisable
        rw [gen_merge]
        exact max_lt hraisable.1 hraisable.2
      have hsound := attempt_sound hd.named (h.mirror r) (hd.read stored hphase) hsmall ha
      refine h.setCall hcalls rfl ⟨hd.named, ?_, by simp, by simp, fun hx => ?_⟩
      · intro a' ha'
        obtain rfl := Option.some.inj ha'
        exact hsound
      · exact absurd (hphase.symm.trans (hd.applied hx).1) (by simp)
  · exact h

theorem sound_answer (h : s.Sound C P) (i : ℕ) : (s.answerStep i).Sound C P := by
  unfold State.answerStep
  split
  · exact h
  rename_i r b d e hturn
  have hcalls := turn_eq hturn
  have hd := h.calls d (mem_middle hcalls)
  split
  · rename_i a hphase hlast
    have ha := hd.attempt a hlast
    have hshows : Shows C P (view a.next) := by
      intro y hy
      rcases ha.next y hy with hy | hy | rfl
      · exact Or.inl hy
      · exact Or.inr hy
      · exact Or.inr (hd.won hphase)
    exact (sound_answered h hcalls hphase hlast).setMirror
      ⟨(h.mirror r).1.merge ha.clean, (h.mirror r).2.merge hshows⟩ r
  · rename_i a hphase hlast
    split
    · refine h.setCall hcalls rfl (hd.move ?_ (by simp) (by simp))
      rw [hphase]
      simp
    · have hrefuse := h.refuse hcalls (l := []) (by simp) (by simp) 503
        "the revoke could not be saved, so it was not applied — try again"
      simpa [State.reply, notSaved] using hrefuse
  · exact h

theorem sound_fail (h : s.Sound C P) (i : ℕ) : (s.failStep i).Sound C P := by
  unfold State.failStep
  split
  · exact h
  rename_i r b d e hturn
  have hcalls := turn_eq hturn
  have hd := h.calls d (mem_middle hcalls)
  refine h.refuse hcalls ?_ ?_ _ _
  · cases hlast : d.last <;> simp [Call.undo, hlast, Undo.stamp, Call.stamp]
  · intro u hu
    obtain ⟨a, ha, rfl⟩ := mem_map.mp hu
    have hlast : d.last = some a := by simpa using ha
    refine ⟨hd.attempt a hlast, fun hx => ?_⟩
    obtain ⟨-, a', ha', hswap⟩ := hd.applied hx
    obtain rfl := Option.some.inj (hlast.symm.trans ha')
    exact hswap

theorem sound_deliver (h : s.Sound C P) (r : ρ) (i : ℕ) : (s.deliverStep r i).Sound C P := by
  unfold State.deliverStep
  split
  · exact h
  rename_i v hv
  exact h.setMirror (applyExternal_sound (h.mirror r) (h.written v (mem_of_getElem? hv))) r

theorem sound_restart (h : s.Sound C P) (r : ρ) : (s.restartStep C r).Sound C P := by
  have hfile : Clean (coerceNameTokenGens (some (C.file r))) ∧
      Shows C P (view (coerceNameTokenGens (some (C.file r)))) :=
    ⟨clean_coerce _, fun x hx => Or.inl (Or.inr ⟨r, hx⟩)⟩
  have hbase := (h.setMirror hfile r).setBoot (b := .reading) (by simp) r
  have hstamp : ∀ c : Call ρ, (State.orphaned r c).stamp = c.stamp := by
    intro c
    unfold State.orphaned
    split <;> rfl
  have hstamps : (s.restartStep C r).stamps = s.stamps := by
    simp only [State.stamps, State.restartStep, map_map, Function.comp_def, hstamp]
    rfl
  refine { hbase with calls := ?_, asked := ?_, distinct := ?_ }
  · intro c hc
    obtain ⟨d, hd, rfl⟩ := mem_map.mp hc
    have hsound := h.calls d hd
    unfold State.orphaned
    split
    · exact ⟨hsound.named, hsound.attempt, hsound.read, hsound.won, hsound.applied⟩
    · exact hsound
  · rw [hstamps]
    exact h.asked
  · rw [hstamps]
    exact h.distinct

theorem sound_bootRead (h : s.Sound C P) (r : ρ) : (step C s (.bootRead r)).Sound C P := by
  simp only [step]
  split
  · refine h.setBoot (fun raw hraw => ?_) r
    obtain rfl := Boot.got.inj hraw
    exact h.shows_store
  · exact h

theorem sound_boot (h : s.Sound C P) (r : ρ) : (s.bootStep r).Sound C P := by
  unfold State.bootStep
  split
  · have hboot := h.setBoot (b := .done) (by simp) r
    refine { hboot with seeds := fun m hm => ?_ }
    split at hm
    · exact h.seeds m hm
    · rcases mem_append.mp hm with hm | hm
      · exact h.seeds m hm
      · obtain rfl := mem_singleton.mp hm
        rw [known_of_clean (h.mirror r).1]
        exact (h.mirror r).2
  · rename_i raw hraw
    have happly := applyExternal_sound (h.mirror r) (h.boot r _ hraw)
    exact (h.setBoot (b := .done) (by simp) r).setMirror happly r
  · exact h

theorem sound_step (h : s.Sound C P) (e : Event ρ) (he : Meets C s e) :
    ∃ Q, (step C s e).Sound C Q := by
  cases e with
  | request r host now => exact ⟨P, sound_request h he⟩
  | read i => exact ⟨P, sound_read h i⟩
  | merge i => exact ⟨P, sound_merge h i he⟩
  | swap i => exact sound_swap h i
  | answer i => exact ⟨P, sound_answer h i⟩
  | fail i => exact ⟨P, sound_fail h i⟩
  | undo i => exact sound_undo h i
  | lostUndo i => exact ⟨P, h.setUndos (eraseIdx_sublist _ _)⟩
  | deliver r i => exact ⟨P, sound_deliver h r i⟩
  | restart r => exact ⟨P, sound_restart h r⟩
  | bootRead r => exact ⟨P, sound_bootRead h r⟩
  | boot r => exact ⟨P, sound_boot h r⟩
  | seed i => exact sound_seed h he i
  | lostSeed i =>
    exact ⟨P, { h with seeds := fun m hm => h.seeds m ((eraseIdx_sublist _ _).subset hm) }⟩

end Turma.NameToken
