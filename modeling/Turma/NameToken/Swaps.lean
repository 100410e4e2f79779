import Turma.NameToken.Sound

/-! What the writes to the store do to the invariant: a swap that lands lies down on the others, an
undo that finds its own value takes its own swap off. -/

namespace Turma.NameToken

open Turma.Lib List

variable {ρ : Type} {C : Cluster ρ} {P Q : Past} {s t : State ρ} {c c' : Call ρ}
  {u : Undo} {a : Attempt} {m : Gens} {x : Stamp} {r : ρ} {before after : List (Call ρ)} {i : ℕ}
  {f : Swap Stamp View} {fs : List (Swap Stamp View)}

theorem splitAt?_eq {α : Type} {xs before after : List α} {y : α}
    (h : splitAt? xs i = some (before, y, after)) : xs = before ++ y :: after := by
  obtain ⟨z, hz, heq⟩ := Option.map_eq_some_iff.mp h
  obtain ⟨rfl, rfl, rfl⟩ := heq
  obtain ⟨hi, rfl⟩ := List.getElem?_eq_some_iff.mp hz
  rw [cons_getElem_drop_succ, take_append_drop]

theorem Call.Sound.past (h : c.Sound C P) (hsub : ∀ y ∈ P.shown, y ∈ Q.shown)
    (hstamp : c.stamp ∈ Q.shown → c.stamp ∈ P.shown)
    (hswap : ∀ a : Attempt, a.swap c.stamp ∈ P.swaps → a.swap c.stamp ∈ Q.swaps) : c.Sound C Q where
  named := h.named
  attempt a ha := (h.attempt a ha).mono hsub
  read raw hraw := (h.read raw hraw).mono hsub
  won hwon := hsub _ (h.won hwon)
  applied hx := by
    obtain ⟨hphase, a, ha, hmem⟩ := h.applied (hstamp hx)
    exact ⟨hphase, a, ha, hswap a hmem⟩

theorem Undo.Sound.past (h : u.Sound C P) (hsub : ∀ y ∈ P.shown, y ∈ Q.shown)
    (hstamp : u.stamp ∈ Q.shown → u.stamp ∈ P.shown)
    (hswap : u.attempt.swap u.stamp ∈ P.swaps → u.attempt.swap u.stamp ∈ Q.swaps) :
    u.Sound C Q where
  attempt := h.attempt.mono hsub
  applied hx := hswap (h.applied (hstamp hx))

/-- A call in another phase, which its stamp has not shown for. -/
theorem Call.Sound.move {phase : Phase} {tries : ℕ} (h : c.Sound C P)
    (hold : c.phase ≠ .swapped true) (hnew : phase ≠ .swapped true)
    (hread : ∀ raw, phase = .got raw → Shows C P (known raw)) :
    Call.Sound C P { c with phase := phase, tries := tries } where
  named := h.named
  attempt := h.attempt
  read := hread
  won hwon := absurd hwon hnew
  applied hx := absurd (h.applied hx).1 hold

/-- The stamps that are left come from those that were there. -/
theorem stamps_of_subperm (h : s.Sound C P) (hsub : t.stamps.Subperm s.stamps) :
    (∀ y ∈ t.stamps, y ∈ s.asked) ∧ t.stamps.Nodup := by
  refine ⟨fun y hy => h.asked y (hsub.subset hy), ?_⟩
  obtain ⟨l, hperm, hl⟩ := hsub
  exact hperm.nodup_iff.mp (h.distinct.sublist hl)

theorem State.Sound.setCall (h : s.Sound C P) (hcalls : s.calls = before ++ c :: after)
    (hstamp : c'.stamp = c.stamp) (hok : c'.Sound C P) :
    State.Sound C P { s with calls := before ++ c' :: after } := by
  have hstamps : State.stamps { s with calls := before ++ c' :: after } = s.stamps := by
    simp only [State.stamps, hcalls, map_append, map_cons, hstamp]
    rfl
  refine { h with calls := ?_, asked := ?_, distinct := ?_ }
  · intro d hd
    rcases mem_append.mp hd with hd | hd
    · exact h.calls d (by rw [hcalls]; exact mem_append_left _ hd)
    · rcases mem_cons.mp hd with rfl | hd
      · exact hok
      · exact h.calls d (by rw [hcalls]; exact mem_append_right _ (.tail _ hd))
  · rw [hstamps]
    exact h.asked
  · rw [hstamps]
    exact h.distinct

theorem mem_of_rest (hcalls : s.calls = before ++ c :: after) {d : Call ρ}
    (hd : d ∈ before ++ after) : d ∈ s.calls := by
  rw [hcalls]
  rcases mem_append.mp hd with hd | hd
  · exact mem_append_left _ hd
  · exact mem_append_right _ (.tail _ hd)

theorem mem_middle (hcalls : s.calls = before ++ c :: after) : c ∈ s.calls := by
  rw [hcalls]
  exact mem_append_right _ mem_cons_self

/-- The call leaves, with what undoes it if anything does. -/
theorem State.Sound.refuse (h : s.Sound C P) (hcalls : s.calls = before ++ c :: after)
    {l : List Undo} (hus : (l.map Undo.stamp).Sublist [c.stamp]) (hok : ∀ u ∈ l, u.Sound C P)
    (status : ℕ) (error : String) :
    State.Sound C P
      { s.reply c before after (.refused status error) with undos := s.undos ++ l } := by
  have hrevoked : State.revoked { s.reply c before after (.refused status error) with
      undos := s.undos ++ l } = s.revoked := by
    simp [State.revoked, State.reply]
  have hsub : List.Subperm (State.stamps { s.reply c before after (.refused status error) with
      undos := s.undos ++ l }) s.stamps := by
    have hperm : List.Perm (before.map Call.stamp ++ after.map Call.stamp ++
        (s.undos.map Undo.stamp ++ [c.stamp] ++ s.revoked.map Prod.fst)) s.stamps := by
      simp only [State.stamps, hcalls, map_append, map_cons, append_assoc]
      refine Perm.append_left _ ?_
      rw [← append_assoc, singleton_append, cons_append, ← append_assoc]
      exact perm_middle
    refine List.Subperm.trans (Sublist.subperm ?_) hperm.subperm
    rw [State.stamps, hrevoked]
    simp only [State.reply, map_append]
    exact (Sublist.refl _).append (((Sublist.refl _).append hus).append (Sublist.refl _))
  obtain ⟨hasked, hdistinct⟩ := stamps_of_subperm h hsub
  refine { h with calls := ?_, undos := ?_, revoked := ?_, asked := hasked, distinct := hdistinct }
  · exact fun d hd => h.calls d (mem_of_rest hcalls hd)
  · intro u hu
    rcases mem_append.mp hu with hu | hu
    · exact h.undos u hu
    · exact hok u hu
  · rw [hrevoked]
    exact h.revoked

/-- Fewer undos are left. -/
theorem State.Sound.setUndos (h : s.Sound C P) {us : List Undo} (hus : us.Sublist s.undos) :
    State.Sound C P { s with undos := us } := by
  obtain ⟨hasked, hdistinct⟩ := stamps_of_subperm (t := { s with undos := us }) h
    (((Sublist.refl _).append ((hus.map _).append (Sublist.refl _))).subperm)
  exact { h with
    undos := fun u hu => h.undos u (hus.subset hu), asked := hasked, distinct := hdistinct }

/-- A swap that lands. Its stamp is shown from now on. -/
theorem sound_landed (h : s.Sound C P) (hcalls : s.calls = before ++ c :: after)
    (hphase : c.phase = .swapping) (hlast : c.last = some a)
    (hsame : sameValue s.store a.stored = true) :
    State.Sound C ⟨P.base, a.swap c.stamp :: P.swaps, c.stamp :: P.shown⟩
      { s with
        store := some a.next, written := s.written ++ [a.next],
        calls := before ++ { c with phase := .swapped true } :: after } := by
  have hmem := mem_middle hcalls
  have hc := h.calls c hmem
  have ha := hc.attempt a hlast
  have hnew : c.stamp ∉ P.shown := fun hx => absurd (hphase.symm.trans (hc.applied hx).1) (by simp)
  have hunmarked : ∀ v, Shows C P v → ¬ Marks v c.stamp :=
    fun v hv => h.unmarked (stamp_mem hmem) hnew hv
  have hsub : ∀ y ∈ P.shown, y ∈ c.stamp :: P.shown := fun y hy => .tail _ hy
  have hnext : Shows C ⟨P.base, a.swap c.stamp :: P.swaps, c.stamp :: P.shown⟩ (view a.next) := by
    intro y hy
    rcases ha.next y hy with hy | hy | rfl
    · exact Or.inl hy
    · exact Or.inr (hsub y hy)
    · exact Or.inr mem_cons_self
  have hothers : ∀ d ∈ before ++ after, d.stamp ≠ c.stamp := by
    intro d hd heq
    have hnodup := h.distinct.sublist (sublist_append_left _ _)
    rw [hcalls, map_append, map_cons] at hnodup
    refine (nodup_cons.mp (perm_middle.nodup_iff.mp hnodup)).1 ?_
    rw [← map_append, ← heq]
    exact mem_map_of_mem hd
  have hpast : ∀ d ∈ before ++ after,
      d.Sound C ⟨P.base, a.swap c.stamp :: P.swaps, c.stamp :: P.shown⟩ := by
    intro d hd
    refine (h.calls d (mem_of_rest hcalls hd)).past hsub (fun hx => ?_) fun b hb =>
      .tail _ hb
    exact (mem_cons.mp hx).resolve_left (hothers d hd)
  have hstamps : State.stamps { s with
      store := some a.next, written := s.written ++ [a.next],
      calls := before ++ { c with phase := .swapped true } :: after } = s.stamps := by
    simp only [State.stamps, hcalls, map_append, map_cons]
    rfl
  constructor
  · refine h.stacked.push ?_ ha.marks (hunmarked _ h.base) fun g hg => hunmarked _ (h.shows g hg)
    rw [← h.store]
    exact (known_of_sameValue hsame).symm
  · intro f hf
    rcases mem_cons.mp hf with rfl | hf
    · exact ha.le
    · exact h.raises f hf
  · exact h.base.mono hsub
  · intro f hf
    rcases mem_cons.mp hf with rfl | hf
    · exact hnext
    · exact (h.shows f hf).mono hsub
  · exact known_of_clean ha.clean
  · exact fun h => by cases h
  · exact fun r => ⟨(h.mirror r).1, (h.mirror r).2.mono hsub⟩
  · exact fun r raw hraw => (h.boot r raw hraw).mono hsub
  · intro m hm
    rcases mem_append.mp hm with hm | hm
    · exact (h.written m hm).mono hsub
    · obtain rfl := mem_singleton.mp hm
      rw [known_of_clean ha.clean]
      exact hnext
  · exact fun m hm => (h.seeds m hm).mono hsub
  · intro d hd
    rcases mem_append.mp hd with hd | hd
    · exact hpast d (mem_append_left _ hd)
    · rcases mem_cons.mp hd with rfl | hd
      · refine ⟨hc.named, fun b hb => (hc.attempt b hb).mono hsub, by simp, ?_, ?_⟩
        · exact fun _ => mem_cons_self
        · exact fun _ => ⟨rfl, a, hlast, mem_cons_self⟩
      · exact hpast d (mem_append_right _ hd)
  · intro u hu
    refine (h.undos u hu).past hsub (fun hx => ?_) fun hb => .tail _ hb
    refine (mem_cons.mp hx).resolve_left fun heq => ?_
    have hdisjoint := (nodup_append.mp h.distinct).2.2
    exact hdisjoint _ (mem_map_of_mem hmem) _
      (mem_append_left _ (mem_map_of_mem hu)) heq.symm
  · intro y hy
    obtain ⟨f, hf, hrest⟩ := h.revoked y hy
    exact ⟨f, .tail _ hf, hrest⟩
  · rw [hstamps]
    exact h.asked
  · intro y hy
    rcases mem_cons.mp hy with rfl | hy
    · exact h.asked _ (stamp_mem hmem)
    · exact h.shown y hy
  · exact h.initial
  · rw [hstamps]
    exact h.distinct

theorem sound_swap (h : s.Sound C P) (i : ℕ) : ∃ Q, (s.swapStep i).Sound C Q := by
  unfold State.swapStep
  split
  · exact ⟨P, h⟩
  rename_i b d e hsplit
  have hcalls := splitAt?_eq hsplit
  split
  · rename_i a hphase hlast
    split
    · rename_i hsame
      exact ⟨_, sound_landed h hcalls hphase hlast hsame⟩
    · refine ⟨P, h.setCall hcalls rfl ((h.calls d (mem_middle hcalls)).move ?_ (by simp) (by simp))⟩
      rw [hphase]
      simp
  · exact ⟨P, h⟩

/-- A revoke answers with the generation its swap wrote. -/
theorem sound_answered (h : s.Sound C P) (hcalls : s.calls = before ++ c :: after)
    (hphase : c.phase = .swapped true) (hlast : c.last = some a) :
    State.Sound C P (s.reply c before after (.gen a.gen)) := by
  have hmem := mem_middle hcalls
  have hc := h.calls c hmem
  have ha := hc.attempt a hlast
  have hrevoked : (s.reply c before after (.gen a.gen)).revoked =
      s.revoked ++ [(c.stamp, a.gen)] := by
    simp [State.revoked, State.reply, Call.stamp]
  have hperm : (s.reply c before after (.gen a.gen)).stamps.Perm s.stamps := by
    rw [State.stamps, hrevoked]
    simp only [State.stamps, State.reply, hcalls, map_append, map_cons, map_nil,
      append_assoc]
    refine Perm.append_left _ ?_
    simp only [← append_assoc, cons_append]
    exact perm_append_singleton _ _
  obtain ⟨hasked, hdistinct⟩ := stamps_of_subperm h hperm.subperm
  refine { h with calls := ?_, revoked := ?_, asked := hasked, distinct := hdistinct }
  · exact fun d hd => h.calls d (mem_of_rest hcalls hd)
  · rw [hrevoked]
    intro y hy
    rcases mem_append.mp hy with hy | hy
    · exact h.revoked y hy
    · obtain rfl := mem_singleton.mp hy
      obtain ⟨-, a', ha', hswap⟩ := hc.applied (hc.won hphase)
      obtain rfl := Option.some.inj (hlast.symm.trans ha')
      refine ⟨_, hswap, rfl, ha.raises, ?_⟩
      show (Option.map Gen.gen (view a.next c.stamp.1)).getD 0 = a.gen
      rw [ha.entry]
      rfl

/-- The last swap is undone: the one an undo that finds its own value takes off. -/
theorem sound_undone {us : List Undo} {y : Stamp} (h : s.Sound C P) (hswaps : P.swaps = f :: fs)
    (htoken : f.token = y) (hy : y ∈ s.undos.map Undo.stamp)
    (hus : ∀ u ∈ us, u ∈ s.undos ∧ u.stamp ≠ y) (hsub : us.Sublist s.undos) {stored : Option Gens}
    (hstored : f.before = known stored) (hshows : Shows C P (known stored)) :
    State.Sound C ⟨P.base, fs, P.shown⟩
      { s with
        store := some (coerceNameTokenGens stored),
        written := s.written ++ [coerceNameTokenGens stored], undos := us } := by
  have hstacked := h.stacked
  rw [hswaps] at hstacked
  have hbelow : ∀ g ∈ fs, g ∈ P.swaps := fun g hg => by
    rw [hswaps]
    exact .tail _ hg
  have hkeep : ∀ g ∈ P.swaps, g.token ≠ y → g ∈ fs := by
    intro g hg hne
    rw [hswaps] at hg
    rcases mem_cons.mp hg with rfl | hg
    · exact absurd htoken hne
    · exact hg
  have hnodup := nodup_append.mp h.distinct
  obtain ⟨hasked, hdistinct⟩ := stamps_of_subperm (t := { s with
      store := some (coerceNameTokenGens stored),
      written := s.written ++ [coerceNameTokenGens stored], undos := us }) h
    (((Sublist.refl _).append ((hsub.map _).append (Sublist.refl _))).subperm)
  refine ⟨hstacked.tail, fun g hg => h.raises g (hbelow g hg), h.base,
    fun g hg => h.shows g (hbelow g hg), ?_, ?_, h.mirror, h.boot, ?_, h.seeds, ?_, ?_, ?_, hasked,
    h.shown, h.initial, hdistinct⟩
  · rw [known_coerce, ← hstored]
    exact hstacked.1
  · exact nofun
  · intro m hm
    rcases mem_append.mp hm with hm | hm
    · exact h.written m hm
    · obtain rfl := mem_singleton.mp hm
      rw [known_coerce]
      exact hshows
  · intro d hd
    refine (h.calls d hd).past (fun _ hx => hx) id fun a ha => hkeep _ ha fun heq => ?_
    exact hnodup.2.2 _ (mem_map_of_mem hd) _ (mem_append_left _ hy) heq
  · intro u hu
    obtain ⟨hu, hne⟩ := hus u hu
    exact (h.undos u hu).past (fun _ hx => hx) id fun ha => hkeep _ ha hne
  · intro z hz
    obtain ⟨g, hg, hgz, hrest⟩ := h.revoked z hz
    refine ⟨g, hkeep g hg fun heq => ?_, hgz, hrest⟩
    exact (nodup_append.mp hnodup.2.1).2.2 _ hy _ (mem_map_of_mem hz) (heq ▸ hgz)

theorem sound_undo (h : s.Sound C P) (i : ℕ) : ∃ Q, (s.undoStep i).Sound C Q := by
  unfold State.undoStep
  split
  · exact ⟨P, h⟩
  rename_i b u e hsplit
  have hundos := splitAt?_eq hsplit
  have hmem : u ∈ s.undos := by
    rw [hundos]
    exact mem_append_right _ mem_cons_self
  have hsub : (b ++ e).Sublist s.undos := by
    rw [hundos]
    exact (Sublist.refl b).append (sublist_cons_self u e)
  split
  · rename_i hsame
    have hu := h.undos u hmem
    -- the store holds the value the call wrote, so the call's swap is in effect, and on top
    have hstore : known s.store = view u.attempt.next := by
      rw [known_of_sameValue hsame, known_of_clean hu.attempt.clean]
    have hshown : u.stamp ∈ P.shown := by
      by_contra hnew
      refine h.unmarked (undo_stamp_mem hmem) hnew h.shows_store ?_
      rw [hstore]
      exact hu.attempt.marks
    have hswap := hu.applied hshown
    have hstacked := h.stacked
    have htop := h.store
    cases hswaps : P.swaps with
    | nil =>
      rw [hswaps] at hswap
      cases hswap
    | cons f fs =>
      rw [hswaps] at hswap hstacked htop
      have hf : u.attempt.swap u.stamp = f := hstacked.eq_head hswap (hstore.symm.trans htop)
      refine ⟨_, sound_undone h hswaps (hf ▸ rfl) (mem_map_of_mem hmem) (fun v hv => ?_) hsub
        (hf ▸ rfl) hu.attempt.stored⟩
      refine ⟨hsub.subset hv, fun heq => ?_⟩
      have hnodup := (nodup_append.mp (nodup_append.mp h.distinct).2.1).1
      rw [hundos, map_append, map_cons] at hnodup
      refine (nodup_cons.mp (perm_middle.nodup_iff.mp hnodup)).1 ?_
      rw [← map_append, ← heq]
      exact mem_map_of_mem hv
  · exact ⟨P, h.setUndos hsub⟩

/-- What is published on an empty store becomes its base. -/
theorem sound_seed (h : s.Sound C P) (habsent : s.store = none) (i : ℕ) :
    ∃ Q, (s.seedStep i).Sound C Q := by
  unfold State.seedStep
  split
  · exact ⟨P, h⟩
  rename_i b v e hsplit
  have hseeds := splitAt?_eq hsplit
  have hv : Shows C P (known (some v)) := by
    refine h.seeds v ?_
    rw [hseeds]
    exact mem_append_right _ mem_cons_self
  have hnil := h.absent habsent
  refine ⟨⟨known (some v), P.swaps, P.shown⟩, { h with
    stacked := ?_, base := hv, store := ?_, absent := fun _ => hnil, written := ?_, seeds := ?_, calls := ?_, undos := ?_ }⟩
  · rw [hnil]
    trivial
  · rw [hnil]
    rfl
  · intro m hm
    rcases mem_append.mp hm with hm | hm
    · exact h.written m hm
    · obtain rfl := mem_singleton.mp hm
      exact hv
  · intro m hm
    refine h.seeds m ?_
    rw [hseeds]
    rcases mem_append.mp hm with hm | hm
    · exact mem_append_left _ hm
    · exact mem_append_right _ (.tail _ hm)
  · exact fun c hc => (h.calls c hc).past (fun _ hx => hx) id fun _ ha => ha
  · exact fun u hu => (h.undos u hu).past (fun _ hx => hx) id fun ha => ha

end Turma.NameToken
