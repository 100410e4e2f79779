import Turma.ArchiveMirror.Mirror

/-! What holds of a mirror in every state: whose `GET`s are about, and that a pass over the blocked
keys and a hydrate pass are never at work together. -/

namespace Turma.ArchiveMirror

open Turma.Lib List Option OrdMap

/-- The keys that a pass over the blocked ones is to unblock, and those that it has before it. -/
def Retry.keys (r : Retry) : List Key := r.done.map Prod.fst ++ (r.rest ++ r.later.flatten)

variable {key : Key} {r : Retry} {s' : Mirror} {g : Get}

namespace Mirror

/-- The current hydrate pass has classified its listing and downloads. -/
def Downloading (s : Mirror) : Prop :=
  ∃ p rest, s.passes.get? s.hydrateRun = some p ∧ p.phase = .downloading rest

/-- The pass over the blocked keys waits for a `GET`. -/
def Fetching (s : Mirror) : Prop := ∃ r, s.retrying = some r ∧ r.phase = .fetching

structure GetOk (s : Mirror) (id : ℕ) (g : Get) : Prop where
  seq : id ≤ s.tmpSeq
  quiet : g.abandoned = true → g.owner ≠ .raw ∧ g.answer = none
  path : ∀ run, g.owner = .pass run → hasPath g.key = true ∧ run ≤ s.hydrateRun
  working : g.owner = .pass s.hydrateRun → g.abandoned = false → s.Downloading
  retry : g.owner = .retry → g.abandoned = false →
    s.Fetching ∧ g.key ∈ s.blocked.keys ∧ g.answer ≠ some .discarded ∧
      ∀ r, s.retrying = some r → g.key ∉ r.keys

/-- No `GET` of a pass over the blocked keys may still land. -/
def Clear (s : Mirror) : Prop :=
  ∀ id g, s.gets.get? id = some g → g.owner = .retry → g.abandoned = true

structure RetryOk (s : Mirror) (r : Retry) : Prop where
  held : ∀ key ∈ r.keys, key ∈ s.blocked.keys
  nodup : r.keys.Nodup
  done : ∀ e ∈ r.done, e.2 = some .wrote ∨ e.2 = some .gone

structure Inv (s : Mirror) : Prop where
  gets : ∀ id g, s.gets.get? id = some g → GetOk s id g
  one : ∀ id id' g g', s.gets.get? id = some g → s.gets.get? id' = some g' → g.owner = .retry →
    g'.owner = .retry → g.abandoned = false → g'.abandoned = false → id = id'
  run : ∀ run p, s.passes.get? run = some p → run ≤ s.hydrateRun
  current : s.hydrating = false → s.passes.get? s.hydrateRun = none
  paths : ∀ key ∈ s.blocked.keys, hasPath key = true
  rest : ∀ run p rest, s.passes.get? run = some p → p.phase = .downloading rest →
    ∀ key ∈ rest, hasPath key = true
  alone : ∀ r, s.retrying = some r → r.phase ≠ .ended → ∀ p, s.passes.get? s.hydrateRun = some p →
    p.phase = .waiting
  retry : ∀ r, s.retrying = some r → r.phase ≠ .ended → RetryOk s r

variable {s : Mirror}

theorem RetryOk.of_blocked {s' : Mirror} {r : Retry} (h : RetryOk s r) (hs : s'.blocked = s.blocked) :
    RetryOk s' r :=
  ⟨hs ▸ h.held, h.nodup, h.done⟩

theorem inv_init (disk : Key → Option ℕ) : Inv (init disk) where
  gets := fun _ _ h => absurd h (by simp [init])
  one := fun _ _ _ _ h => absurd h (by simp [init])
  run := fun _ _ h => absurd h (by simp [init])
  current := fun _ => rfl
  paths := fun _ h => absurd h (by simp [init, OrdMap.keys, OrdMap.empty])
  rest := fun _ _ _ h => absurd h (by simp [init])
  alone := fun _ h => absurd h (by simp [init])
  retry := fun _ h => absurd h (by simp [init])

/-- While a hydrate pass downloads, a pass over the blocked keys has ended. -/
theorem Inv.ended (h : Inv s) (hdown : s.Downloading) :
    ∀ r, s.retrying = some r → r.phase = .ended := by
  obtain ⟨p, rest, hp, hphase⟩ := hdown
  intro r hr
  by_contra hne
  rw [h.alone r hr hne p hp] at hphase
  cases hphase

theorem Inv.clear_of_not_fetching (h : Inv s) (hnot : ¬ s.Fetching) : s.Clear := by
  intro id g hg howner
  by_contra hgiven
  exact hnot ((h.gets id g hg).retry howner (Bool.eq_false_of_not_eq_true hgiven)).1

theorem Inv.clear_of_ended (h : Inv s) (hended : ∀ r, s.retrying = some r → r.phase = .ended) :
    s.Clear := by
  refine h.clear_of_not_fetching fun ⟨r, hr, hphase⟩ => ?_
  rw [hended r hr] at hphase
  cases hphase

theorem Inv.dropGet (h : Inv s) (id : ℕ) : Inv (s.dropGet id) := by
  have hold : ∀ id' g, (s.dropGet id).gets.get? id' = some g → s.gets.get? id' = some g := by
    intro id' g hg
    rw [Mirror.dropGet, get?_erase] at hg
    split_ifs at hg
    exact hg
  exact { h with
    gets := fun id' g hg =>
      have hok := h.gets id' g (hold id' g hg)
      ⟨hok.seq, hok.quiet, hok.path, hok.working, hok.retry⟩
    one := fun a b g g' hg hg' => h.one a b g g' (hold a g hg) (hold b g' hg')
    retry := fun r hr hne => (h.retry r hr hne).of_blocked rfl }

/-- A `GET` of a hydrate pass or a raw one. -/
theorem Inv.startGet (h : Inv s) {owner : Owner} (hretry : owner ≠ .retry)
    (hpass : ∀ run, owner = .pass run → hasPath key = true ∧ run ≤ s.hydrateRun)
    (hdown : owner = .pass s.hydrateRun → s.Downloading) : Inv (s.startGet key owner) := by
  have hget : ∀ id g, (s.startGet key owner).gets.get? id = some g →
      g = ⟨key, owner, false, none, none⟩ ∧ id = s.tmpSeq + 1 ∨ s.gets.get? id = some g := by
    intro id g hg
    rw [Mirror.startGet, get?_upsert] at hg
    split_ifs at hg with hid
    · exact Or.inl ⟨(some.inj hg).symm, hid⟩
    · exact Or.inr hg
  have hold : ∀ id g, (s.startGet key owner).gets.get? id = some g → g.owner = .retry →
      s.gets.get? id = some g := by
    intro id g hg howner
    refine (hget id g hg).resolve_left fun ⟨heq, _⟩ => hretry ?_
    rw [heq] at howner
    exact howner
  exact { h with
    gets := fun id g hg => by
      rcases hget id g hg with ⟨rfl, rfl⟩ | hg
      · exact ⟨le_refl _, nofun, hpass, fun howner _ => hdown howner,
          fun howner => absurd howner hretry⟩
      · have hok := h.gets id g hg
        exact ⟨hok.seq.trans (Nat.le_succ _), hok.quiet, hok.path, hok.working, hok.retry⟩
    one := fun a b g g' hg hg' howner howner' =>
      h.one a b g g' (hold a g hg howner) (hold b g' hg' howner') howner howner'
    retry := fun r hr hne => (h.retry r hr hne).of_blocked rfl }

theorem Inv.startGets (keys : List Key) {run : ℕ} (h : Inv s) (hrun : run ≤ s.hydrateRun)
    (hkeys : ∀ key ∈ keys, hasPath key = true) (hdown : run = s.hydrateRun → s.Downloading) :
    Inv (s.startGets keys (.pass run)) := by
  induction keys generalizing s with
  | nil => exact h
  | cons key keys ih =>
    refine ih (h.startGet (by simp) ?_ ?_) hrun (fun key' hkey => hkeys key' (by simp [hkey])) hdown
    · intro run' heq
      rw [← Owner.pass.inj heq]
      exact ⟨hkeys key (by simp), hrun⟩
    · exact fun heq => hdown (Owner.pass.inj heq)

/-- What the owner of a `GET`, or the store, does to it. -/
theorem Inv.setGet (h : Inv s) {id : ℕ} {g g' : Get} (hg : s.gets.get? id = some g)
    (hkey : g'.key = g.key) (howner : g'.owner = g.owner)
    (hgiven : g.abandoned = true → g'.abandoned = true)
    (hquiet : g'.abandoned = true → g'.owner ≠ .raw ∧ g'.answer = none)
    (hanswer : g'.owner = .retry → g'.abandoned = false → g'.answer ≠ some .discarded) :
    Inv (s.setGet id g') := by
  have hget : ∀ id' g'', (s.setGet id g').gets.get? id' = some g'' →
      g'' = g' ∧ id' = id ∨ s.gets.get? id' = some g'' := by
    intro id' g'' hg''
    rw [Mirror.setGet, get?_upsert] at hg''
    split_ifs at hg'' with hid
    · exact Or.inl ⟨(some.inj hg'').symm, hid⟩
    · exact Or.inr hg''
  have hheld : g'.abandoned = false → g.abandoned = false := fun hg' => by
    by_contra hne
    rw [hgiven (Bool.eq_true_of_not_eq_false hne)] at hg'
    cases hg'
  have hold : ∀ id' g'', (s.setGet id g').gets.get? id' = some g'' → g''.owner = .retry →
      g''.abandoned = false → ∃ g, s.gets.get? id' = some g ∧ g.owner = .retry ∧ g.abandoned = false := by
    intro id' g'' hg'' hretry hfalse
    rcases hget id' g'' hg'' with ⟨rfl, rfl⟩ | hg''
    · exact ⟨g, hg, howner ▸ hretry, hheld hfalse⟩
    · exact ⟨g'', hg'', hretry, hfalse⟩
  have hok := h.gets id g hg
  exact { h with
    gets := fun id' g'' hg'' => by
      rcases hget id' g'' hg'' with ⟨rfl, rfl⟩ | hg''
      · refine ⟨hok.seq, hquiet, ?_, ?_, ?_⟩
        · rw [hkey, howner]
          exact hok.path
        · rw [howner]
          exact fun hpass hfalse => hok.working hpass (hheld hfalse)
        · intro hretry hfalse
          have hold := hok.retry (howner ▸ hretry) (hheld hfalse)
          exact ⟨hold.1, hkey ▸ hold.2.1, hanswer hretry hfalse, hkey ▸ hold.2.2.2⟩
      · have hok := h.gets id' g'' hg''
        exact ⟨hok.seq, hok.quiet, hok.path, hok.working, hok.retry⟩
    one := fun a b _ _ ha hb hra hrb hfa hfb => by
      obtain ⟨ga, hga, hra, hfa⟩ := hold a _ ha hra hfa
      obtain ⟨gb, hgb, hrb, hfb⟩ := hold b _ hb hrb hfb
      exact h.one a b ga gb hga hgb hra hrb hfa hfb
    retry := fun r hr hne => (h.retry r hr hne).of_blocked rfl }

/-- A pass that is no longer current goes. -/
theorem Inv.dropStale (h : Inv s) {run : ℕ} (hrun : run ≠ s.hydrateRun) : Inv (s.dropPass run) := by
  have hold : ∀ run' p, (s.dropPass run).passes.get? run' = some p → s.passes.get? run' = some p := by
    intro run' p hp
    rw [Mirror.dropPass, get?_erase] at hp
    split_ifs at hp
    exact hp
  have hcurrent : (s.dropPass run).passes.get? s.hydrateRun = s.passes.get? s.hydrateRun := by
    rw [Mirror.dropPass, get?_erase, if_neg (Ne.symm hrun)]
  exact { h with
    gets := fun id g hg => by
      have hok := h.gets id g hg
      refine ⟨hok.seq, hok.quiet, hok.path, fun howner hfalse => ?_, hok.retry⟩
      obtain ⟨p, rest, hp, hphase⟩ := hok.working howner hfalse
      exact ⟨p, rest, hcurrent.trans hp, hphase⟩
    run := fun run' p hp => h.run run' p (hold run' p hp)
    current := fun hhyd => hcurrent.trans (h.current hhyd)
    rest := fun run' p rest hp => h.rest run' p rest (hold run' p hp)
    alone := fun r hr hne p hp => h.alone r hr hne p (hcurrent ▸ hp)
    retry := fun r hr hne => (h.retry r hr hne).of_blocked rfl }

/-- The current pass goes when it has nothing on its way. -/
theorem Inv.dropCurrent (h : Inv s)
    (hnone : ∀ id g, s.gets.get? id = some g → g.owner = .pass s.hydrateRun → g.abandoned = true)
    (hydrated : Bool) :
    Inv { s.dropPass s.hydrateRun with hydrated := hydrated, hydrating := false } := by
  have hold : ∀ run' p, (s.dropPass s.hydrateRun).passes.get? run' = some p →
      run' ≠ s.hydrateRun ∧ s.passes.get? run' = some p := by
    intro run' p hp
    rw [Mirror.dropPass, get?_erase] at hp
    split_ifs at hp with heq
    exact ⟨heq, hp⟩
  exact { h with
    gets := fun id g hg => by
      have hok := h.gets id g hg
      refine ⟨hok.seq, hok.quiet, hok.path, fun howner hfalse => ?_, hok.retry⟩
      rw [hnone id g hg howner] at hfalse
      cases hfalse
    run := fun run' p hp => h.run run' p (hold run' p hp).2
    current := fun _ => by
      rw [Mirror.dropPass, get?_erase, if_pos rfl]
    rest := fun run' p rest hp => h.rest run' p rest (hold run' p hp).2
    alone := fun r hr hne p hp => absurd rfl (hold _ p hp).1
    retry := fun r hr hne => (h.retry r hr hne).of_blocked rfl }

/-- A pass goes on to its next phase. -/
theorem Inv.setPass (h : Inv s) {run : ℕ} {p p' : Pass} (hp : s.passes.get? run = some p)
    (hcurrent : run = s.hydrateRun → (∀ rest, p.phase = .downloading rest →
      ∃ rest', p'.phase = .downloading rest') ∧ ∀ r, s.retrying = some r → r.phase = .ended)
    (hrest : ∀ rest, p'.phase = .downloading rest → ∀ key ∈ rest, hasPath key = true) :
    Inv { s with passes := s.passes.upsert run fun _ => p' } := by
  have hget : ∀ run', (s.passes.upsert run fun _ => p').get? run' =
      if run' = run then some p' else s.passes.get? run' := fun run' => get?_upsert _ _ _ _
  exact { h with
    gets := fun id g hg => by
      have hok := h.gets id g hg
      refine ⟨hok.seq, hok.quiet, hok.path, fun howner hfalse => ?_, hok.retry⟩
      obtain ⟨q, rest, hq, hphase⟩ := hok.working howner hfalse
      by_cases hrun : s.hydrateRun = run
      · rw [hrun, hp] at hq
        rw [← some.inj hq] at hphase
        obtain ⟨rest', hphase'⟩ := (hcurrent hrun.symm).1 rest hphase
        exact ⟨p', rest', (hget _).trans (if_pos hrun), hphase'⟩
      · exact ⟨q, rest, (hget _).trans ((if_neg hrun).trans hq), hphase⟩
    run := fun run' q hq => by
      rw [hget] at hq
      split_ifs at hq with hrun
      · rw [hrun]
        exact h.run run p hp
      · exact h.run run' q hq
    current := fun hhyd => by
      have hnone := h.current hhyd
      rw [hget]
      split_ifs with hrun
      · rw [hrun, hp] at hnone
        cases hnone
      · exact hnone
    rest := fun run' q rest hq hphase => by
      rw [hget] at hq
      split_ifs at hq with hrun
      · rw [← some.inj hq] at hphase
        exact hrest rest hphase
      · exact h.rest run' q rest hq hphase
    alone := fun r hr hne q hq => by
      rw [hget] at hq
      split_ifs at hq with hrun
      · exact absurd ((hcurrent hrun.symm).2 r hr) hne
      · exact h.alone r hr hne q hq
    retry := fun r hr hne => (h.retry r hr hne).of_blocked rfl }

theorem Inv.beginPass (h : Inv s) {p : Pass}
    (hphase : ∀ rest, p.phase ≠ .downloading rest)
    (halone : ∀ r, s.retrying = some r → r.phase ≠ .ended → p.phase = .waiting) :
    Inv { s with
      gated := true
      hydrating := true
      hydrateRun := s.hydrateRun + 1
      passes := s.passes.upsert (s.hydrateRun + 1) fun _ => p } := by
  have hget : ∀ run q, (s.passes.upsert (s.hydrateRun + 1) fun _ => p).get? run = some q →
      q = p ∨ run ≠ s.hydrateRun + 1 ∧ s.passes.get? run = some q := by
    intro run q hq
    rw [get?_upsert] at hq
    split_ifs at hq with hrun
    · exact Or.inl (some.inj hq).symm
    · exact Or.inr ⟨hrun, hq⟩
  exact { h with
    gets := fun id g hg => by
      have hok := h.gets id g hg
      refine ⟨hok.seq, hok.quiet, fun run howner => ?_, fun howner _ => ?_, hok.retry⟩
      · exact ⟨(hok.path run howner).1, (hok.path run howner).2.trans (Nat.le_succ _)⟩
      · exact absurd (hok.path _ howner).2 (Nat.not_succ_le_self _)
    run := fun run q hq => by
      rw [get?_upsert] at hq
      split_ifs at hq with hrun
      · exact hrun.le
      · exact (h.run run q hq).trans (Nat.le_succ _)
    current := nofun
    rest := fun run q rest hq hrest => by
      rcases hget run q hq with rfl | ⟨_, hq⟩
      · exact absurd hrest (hphase rest)
      · exact h.rest run q rest hq hrest
    alone := fun r hr hne q hq => by
      rcases hget _ q hq with rfl | ⟨hrun, _⟩
      · exact halone r hr hne
      · exact absurd rfl hrun
    retry := fun r hr hne => (h.retry r hr hne).of_blocked rfl }

theorem any_values {m : OrdMap ℕ Get} {p : Get → Bool} :
    m.values.any p = true ↔ ∃ id g, m.get? id = some g ∧ p g = true := by
  rw [List.any_eq_true]
  constructor
  · rintro ⟨g, hg, hp⟩
    obtain ⟨e, he, rfl⟩ := List.mem_map.mp hg
    exact ⟨e.1, e.2, get?_eq_some.mpr he, hp⟩
  · rintro ⟨id, g, hg, hp⟩
    exact ⟨g, List.mem_map.mpr ⟨(id, g), get?_eq_some.mp hg, rfl⟩, hp⟩

/-- A hydrate that begins cuts the `GET` of the retry pass short. -/
theorem Inv.yieldWake (h : Inv s) : Inv s.yieldWake := by
  have hget : ∀ id g', s.yieldWake.gets.get? id = some g' → ∃ g, s.gets.get? id = some g ∧
      g' = if yields g = true then g.givenUp else g := by
    intro id g' hg'
    rw [Mirror.yieldWake, get?_mapValues, map_eq_some_iff] at hg'
    obtain ⟨g, hg, rfl⟩ := hg'
    exact ⟨g, hg, rfl⟩
  have hheld : ∀ id g', s.yieldWake.gets.get? id = some g' → g'.abandoned = false →
      s.gets.get? id = some g' ∧ yields g' = false := by
    intro id g' hg' hfalse
    obtain ⟨g, hg, rfl⟩ := hget id g' hg'
    split_ifs at hfalse ⊢ with hyields
    · exact absurd hfalse (by simp [Get.givenUp])
    · exact ⟨hg, Bool.eq_false_of_not_eq_true hyields⟩
  have hretry : ∀ r', s.yieldWake.retrying = some r' → ∃ r, s.retrying = some r ∧
      r'.keys = r.keys ∧ r'.done = r.done ∧ (r'.phase ≠ .ended → r.phase ≠ .ended ∨
        s.gets.values.any yields = true) := by
    intro r' hr'
    rw [Mirror.yieldWake, map_eq_some_iff] at hr'
    obtain ⟨r, hr, rfl⟩ := hr'
    refine ⟨r, hr, ?_, ?_, ?_⟩
    · split_ifs <;> rfl
    · split_ifs <;> rfl
    · split_ifs with hany
      · exact fun _ => Or.inr hany
      · exact Or.inl
  -- a GET that is cut short shows that the pass was at work
  have hwork : ∀ r, s.retrying = some r → s.gets.values.any yields = true → r.phase ≠ .ended := by
    intro r hr hany
    obtain ⟨id, g, hg, hyields⟩ := any_values.mp hany
    simp only [yields, Bool.and_eq_true, decide_eq_true_eq, Bool.not_eq_true'] at hyields
    obtain ⟨r', hr', hphase⟩ := ((h.gets id g hg).retry hyields.1.1 hyields.1.2).1
    rw [hr] at hr'
    rw [some.inj hr', hphase]
    simp
  exact { h with
    gets := fun id g' hg' => by
      obtain ⟨g, hg, rfl⟩ := hget id g' hg'
      have hok := h.gets id g hg
      by_cases hyields : yields g = true
      · rw [if_pos hyields]
        simp only [yields, Bool.and_eq_true, decide_eq_true_eq, isNone_iff_eq_none] at hyields
        refine ⟨hok.seq, fun _ => ⟨?_, hyields.2⟩, hok.path, fun _ h => ?_, fun _ h => ?_⟩
        · show g.owner ≠ .raw
          rw [hyields.1.1]
          simp
        · exact absurd h (by simp [Get.givenUp])
        · exact absurd h (by simp [Get.givenUp])
      · rw [if_neg hyields]
        refine ⟨hok.seq, hok.quiet, hok.path, hok.working, fun howner hfalse => ?_⟩
        obtain ⟨⟨r, hr, hphase⟩, hkey, hanswer, hkeys⟩ := hok.retry howner hfalse
        have hnone : ¬ s.gets.values.any yields = true := by
          intro hany
          obtain ⟨id', g', hg', hyields'⟩ := any_values.mp hany
          have hyields'' := hyields'
          simp only [yields, Bool.and_eq_true, decide_eq_true_eq, Bool.not_eq_true'] at hyields''
          obtain rfl := h.one id id' g g' hg hg' howner hyields''.1.1 hfalse hyields''.1.2
          rw [hg] at hg'
          exact hyields (some.inj hg' ▸ hyields')
        refine ⟨⟨r, ?_, hphase⟩, hkey, hanswer, fun r' hr' => ?_⟩
        · rw [Mirror.yieldWake, hr, map_some, if_neg hnone]
        · obtain ⟨r, hr, heq, _⟩ := hretry r' hr'
          rw [heq]
          exact hkeys r hr
    one := fun a b g g' ha hb hra hrb hfa hfb =>
      h.one a b g g' (hheld a g ha hfa).1 (hheld b g' hb hfb).1 hra hrb hfa hfb
    alone := fun r' hr' hne p hp => by
      obtain ⟨r, hr, _, _, hphase⟩ := hretry r' hr'
      exact h.alone r hr ((hphase hne).elim id (hwork r hr)) p hp
    retry := fun r' hr' hne => by
      obtain ⟨r, hr, hkeys, hdone, hphase⟩ := hretry r' hr'
      have hok := h.retry r hr ((hphase hne).elim id (hwork r hr))
      refine ⟨?_, ?_, ?_⟩
      · rw [hkeys]
        exact hok.held
      · rw [hkeys]
        exact hok.nodup
      · rw [hdone]
        exact hok.done }

/-- The keys that are blocked change while no pass over them is at work. -/
theorem Inv.setBlocked (h : Inv s) (hended : ∀ r, s.retrying = some r → r.phase = .ended)
    {blocked : OrdMap Key Reason} (hpaths : ∀ key ∈ blocked.keys, hasPath key = true) :
    Inv { s with blocked := blocked } := by
  have hclear := h.clear_of_ended hended
  exact { h with
    gets := fun id g hg =>
      have hok := h.gets id g hg
      ⟨hok.seq, hok.quiet, hok.path, hok.working, fun howner hfalse =>
        absurd hfalse (by rw [hclear id g hg howner]; simp)⟩
    paths := hpaths
    retry := fun r hr hne => absurd (hended r hr) hne }

theorem Inv.blockEnded (h : Inv s) (hended : ∀ r, s.retrying = some r → r.phase = .ended)
    (hpath : hasPath key = true) (reason : Reason) : Inv (s.block key reason) := by
  refine h.setBlocked hended fun key' hkey' => ?_
  rcases mem_keys_upsert.mp hkey' with rfl | hkey'
  · exact hpath
  · exact h.paths key' hkey'

theorem Inv.unblockEnded (h : Inv s) (hended : ∀ r, s.retrying = some r → r.phase = .ended)
    (key : Key) : Inv (s.unblock key) :=
  h.setBlocked hended fun key' hkey' => h.paths key' (mem_keys_filterKeys.mp hkey').2

/-- A key that is blocked is blocked for another reason. -/
theorem Inv.blockAgain (h : Inv s) (hkey : key ∈ s.blocked.keys) (reason : Reason) :
    Inv (s.block key reason) := by
  have hkeys : ∀ key', key' ∈ s.blocked.keys → key' ∈ (s.block key reason).blocked.keys :=
    fun key' hkey' => mem_keys_upsert.mpr (Or.inr hkey')
  exact { h with
    gets := fun id g hg =>
      have hok := h.gets id g hg
      ⟨hok.seq, hok.quiet, hok.path, hok.working, fun howner hfalse =>
        have hretry := hok.retry howner hfalse
        ⟨hretry.1, hkeys _ hretry.2.1, hretry.2.2⟩⟩
    paths := fun key' hkey' => by
      rcases mem_keys_upsert.mp hkey' with rfl | hkey'
      · exact h.paths key' hkey
      · exact h.paths key' hkey'
    retry := fun r hr hne =>
      ⟨fun key' hkey' => hkeys key' ((h.retry r hr hne).held key' hkey'), (h.retry r hr hne).nodup,
        (h.retry r hr hne).done⟩ }

def Waiting (s : Mirror) : Prop := ∀ p, s.passes.get? s.hydrateRun = some p → p.phase = .waiting

theorem Inv.setRetry (h : Inv s) (hclear : s.Clear)
    (hwaiting : r.phase ≠ .ended → s.Waiting) (hretry : r.phase ≠ .ended → RetryOk s r) :
    Inv { s with retrying := some r } := by
  have hr : ∀ r', some r = some r' → r' = r := fun r' hr' => (some.inj hr').symm
  exact { h with
    gets := fun id g hg =>
      have hok := h.gets id g hg
      ⟨hok.seq, hok.quiet, hok.path, hok.working, fun howner hfalse =>
        absurd hfalse (by rw [hclear id g hg howner]; simp)⟩
    alone := fun r' hr' hne => by
      rw [hr r' hr'] at hne
      exact hwaiting hne
    retry := fun r' hr' hne => by
      rw [hr r' hr'] at hne ⊢
      exact ⟨(hretry hne).held, (hretry hne).nodup, (hretry hne).done⟩ }

/-- The pass asks for its next key. -/
theorem Inv.startRetryGet (h : Inv s) (hclear : s.Clear) (hfetching : s.Fetching)
    (hkey : key ∈ s.blocked.keys) (hkeys : ∀ r, s.retrying = some r → key ∉ r.keys) :
    Inv (s.startGet key .retry) := by
  have hget : ∀ id g, (s.startGet key .retry).gets.get? id = some g →
      g = ⟨key, .retry, false, none, none⟩ ∧ id = s.tmpSeq + 1 ∨ s.gets.get? id = some g := by
    intro id g hg
    rw [Mirror.startGet, get?_upsert] at hg
    split_ifs at hg with hid
    · exact Or.inl ⟨(some.inj hg).symm, hid⟩
    · exact Or.inr hg
  have honly : ∀ id g, (s.startGet key .retry).gets.get? id = some g → g.owner = .retry →
      g.abandoned = false → id = s.tmpSeq + 1 := by
    intro id g hg howner hfalse
    rcases hget id g hg with ⟨_, hid⟩ | hg
    · exact hid
    · rw [hclear id g hg howner] at hfalse
      cases hfalse
  exact { h with
    gets := fun id g hg => by
      rcases hget id g hg with ⟨rfl, rfl⟩ | hg
      · exact ⟨le_refl _, nofun, fun run h => absurd h (by simp),
          nofun, fun _ _ => ⟨hfetching, hkey, by simp, hkeys⟩⟩
      · have hok := h.gets id g hg
        exact ⟨hok.seq.trans (Nat.le_succ _), hok.quiet, hok.path, hok.working, hok.retry⟩
    one := fun a b g g' ha hb hra hrb hfa hfb =>
      (honly a g ha hra hfa).trans (honly b g' hb hrb hfb).symm
    retry := fun r hr hne => (h.retry r hr hne).of_blocked rfl }

/-- The loop over a group, from keys that are all blocked. -/
theorem Inv.fetchGroup (h : Inv s) (hclear : s.Clear) (hwaiting : s.Waiting)
    {group : List Key} (hretry : RetryOk s { r with rest := group }) : Inv (s.fetchGroup r group) := by
  cases group with
  | nil => exact h.setRetry hclear (fun _ => hwaiting) fun _ => ⟨hretry.held, hretry.nodup, hretry.done⟩
  | cons key rest =>
    have hblocked : key ∈ s.blocked.keys := hretry.held key (by simp [Retry.keys])
    have hsub : List.Sublist ({ r with rest := rest } : Retry).keys
        ({ r with rest := key :: rest } : Retry).keys :=
      (Sublist.refl _).append ((sublist_cons_self key rest).append (Sublist.refl _))
    rw [Mirror.fetchGroup]
    split_ifs with _ hpath
    · exact h.setRetry hclear (fun _ => hwaiting) fun _ => ⟨hretry.held, hretry.nodup, hretry.done⟩
    · rw [h.paths key hblocked] at hpath
      cases hpath
    · have hset : Inv { s with retrying := some { r with rest := rest, phase := .fetching } } :=
        h.setRetry hclear (fun _ => hwaiting) fun _ =>
          ⟨fun key' hkey' => hretry.held key' (hsub.mem hkey'), hretry.nodup.sublist hsub, hretry.done⟩
      refine hset.startRetryGet hclear ⟨_, rfl, rfl⟩ hblocked fun r' hr' => ?_
      obtain rfl := some.inj hr'
      have hnodup := hretry.nodup
      simp only [Retry.keys, cons_append] at hnodup ⊢
      rw [nodup_middle, nodup_cons] at hnodup
      exact hnodup.1

theorem fetchGroup_retrying (x : Option Retry) (group : List Key) (r : Retry) :
    fetchGroup { s with retrying := x } r group = s.fetchGroup r group := by
  induction group generalizing r with
  | nil => rfl
  | cons key rest ih =>
    rw [Mirror.fetchGroup, Mirror.fetchGroup]
    split_ifs
    · rfl
    · exact ih _
    · rfl

theorem nextGroup_retrying (x : Option Retry) (r : Retry) :
    nextGroup { s with retrying := x } r = s.nextGroup r := by
  unfold nextGroup
  cases r.later with
  | nil => rfl
  | cons group later =>
    split_ifs
    · rfl
    · exact fetchGroup_retrying x group _

theorem Inv.nextGroup (h : Inv s) (hclear : s.Clear) (hwaiting : s.Waiting)
    (hheld : ∀ key ∈ r.later.flatten, key ∈ s.blocked.keys) (hnodup : r.later.flatten.Nodup) :
    Inv (s.nextGroup r) := by
  unfold Mirror.nextGroup
  cases hlater : r.later with
  | nil => exact h.setRetry hclear (fun hne => absurd rfl hne) fun hne => absurd rfl hne
  | cons group later =>
    rw [hlater, flatten_cons] at hheld hnodup
    split_ifs
    · exact h.setRetry hclear (fun hne => absurd rfl hne) fun hne => absurd rfl hne
    · exact h.fetchGroup hclear hwaiting ⟨hheld, hnodup, fun e he => absurd he (by simp)⟩

theorem Inv.settle (h : Inv s) (ok : Bool) : Inv (s.settle ok) := by
  unfold Mirror.settle
  cases hr : s.retrying with
  | none => exact h
  | some r =>
    dsimp only
    split_ifs with hphase hdone hok
    · exact h
    · have hphase := not_not.mp hphase
      have hne : r.phase ≠ .ended := by rw [hphase]; simp
      have hretry := h.retry r hr hne
      have hkeys : r.keys = r.rest ++ r.later.flatten := by rw [Retry.keys, hdone]; rfl
      refine h.nextGroup (h.clear_of_not_fetching fun ⟨r', hr', hphase'⟩ => ?_) (h.alone r hr hne)
        (fun key hkey => hretry.held key (by rw [hkeys]; exact mem_append_right _ hkey)) ?_
      · rw [hr] at hr'
        rw [← some.inj hr', hphase] at hphase'
        cases hphase'
      · have hnodup := hretry.nodup
        rw [hkeys] at hnodup
        exact (nodup_append.mp hnodup).2.1
    · have hphase := not_not.mp hphase
      have hne : r.phase ≠ .ended := by rw [hphase]; simp
      have hretry := h.retry r hr hne
      have hclear : s.Clear := h.clear_of_not_fetching fun ⟨r', hr', hphase'⟩ => by
        rw [hr] at hr'
        rw [← some.inj hr', hphase] at hphase'
        cases hphase'
      have hnodup := hretry.nodup
      rw [Retry.keys, ← append_assoc, nodup_append] at hnodup
      -- the pass is as good as ended while its keys are unblocked
      have hrest : Inv { s with retrying := some { r with phase := .ended } } :=
        h.setRetry hclear (fun hne => absurd rfl hne) fun hne => absurd rfl hne
      have hopen : Inv { s with
          retrying := some { r with phase := .ended }
          blocked := s.blocked.filterKeys fun key => key ∉ r.done.map Prod.fst } :=
        hrest.setBlocked (fun r' hr' => by rw [← some.inj hr'])
          fun key hkey => h.paths key (mem_keys_filterKeys.mp hkey).2
      rw [← nextGroup_retrying (some { r with phase := .ended })]
      refine hopen.nextGroup hclear (h.alone r hr hne) (fun key hkey => ?_) hnodup.2.1
      refine mem_keys_filterKeys.mpr ⟨decide_eq_true fun hdone => ?_, hretry.held key ?_⟩
      · exact hnodup.2.2 key (mem_append_left _ hdone) key hkey rfl
      · exact mem_append_right _ (mem_append_right _ hkey)
    · have hphase := not_not.mp hphase
      refine h.setRetry (h.clear_of_not_fetching fun ⟨r', hr', hphase'⟩ => ?_)
        (fun hne => absurd rfl hne) fun hne => absurd rfl hne
      rw [hr] at hr'
      rw [← some.inj hr', hphase] at hphase'
      cases hphase'

theorem Inv.retryBlocked (h : Inv s) (getDeadlineMs : ℕ) : Inv (s.retryBlocked getDeadlineMs) := by
  unfold Mirror.retryBlocked
  split_ifs with hbusy
  · exact h
  rw [not_or, not_or, Bool.not_eq_true, isSome_iff_ne_none, not_not] at hbusy
  obtain ⟨hhyd, hnone, _⟩ := hbusy
  have hclear : s.Clear := h.clear_of_not_fetching fun ⟨r, hr, _⟩ => by
    rw [hnone] at hr
    cases hr
  have hwaiting : s.Waiting := fun p hp => by
    rw [h.current hhyd] at hp
    cases hp
  have hs : Inv { s with getDeadline := s.getDeadline.filterKeys fun key => key ∈ s.blocked.keys } :=
    { h with
      gets := fun id g hg =>
        have hok := h.gets id g hg
        ⟨hok.seq, hok.quiet, hok.path, hok.working, hok.retry⟩
      retry := fun r hr => absurd (hnone.symm.trans hr) (by simp) }
  generalize hd : (s.getDeadline.filterKeys fun key => key ∈ s.blocked.keys) = getDeadline at hs ⊢
  refine hs.fetchGroup hclear hwaiting ⟨fun key hkey => ?_, ?_, fun e he => absurd he (by simp)⟩
  · simp only [Retry.keys, retryGroups, map_nil, nil_append, flatten_cons,
      flatten_nil, append_nil, mem_append, mem_mergeSort, mem_filter] at hkey
    exact hkey.elim And.left And.left
  · simp only [Retry.keys, retryGroups, map_nil, nil_append, flatten_cons,
      flatten_nil, append_nil]
    refine nodup_append.mpr ⟨s.blocked.nodup.filter _, ?_, fun a ha b hb hab => ?_⟩
    · exact (mergeSort_perm _ _).nodup_iff.mpr (s.blocked.nodup.filter _)
    · rw [mem_mergeSort, mem_filter] at hb
      rw [mem_filter, hab, isNone_iff_eq_none] at ha
      rw [ha.2] at hb
      exact absurd hb.2 (by simp)

/-- The pass over the blocked keys goes on without the `GET` that it waited for. -/
theorem Inv.clear_of_one (h : Inv s) {id : ℕ} (hg : s.gets.get? id = some g)
    (howner : g.owner = .retry) (hfalse : g.abandoned = false)
    (hgets : ∀ id' g', s'.gets.get? id' = some g' → g'.owner = .retry → g'.abandoned = false →
      id' ≠ id ∧ s.gets.get? id' = some g') : s'.Clear := by
  intro id' g' hg' howner'
  by_contra hne
  have hfalse' := Bool.eq_false_of_not_eq_true hne
  obtain ⟨hid, hold⟩ := hgets id' g' hg' howner' hfalse'
  exact hid (h.one id' id g' g hold hg howner' howner hfalse' hfalse)

def work (s : Mirror) :=
  (s.hydrating, s.hydrateRun, s.passes, s.blocked, s.retrying, s.gets, s.tmpSeq)

theorem Inv.of_work (h : Inv s) (hwork : s'.work = s.work) : Inv s' := by
  cases s
  cases s'
  obtain ⟨rfl, rfl, rfl, rfl, rfl, rfl, rfl⟩ := hwork
  exact { h with
    gets := fun id g hg =>
      have hok := h.gets id g hg
      ⟨hok.seq, hok.quiet, hok.path, hok.working, hok.retry⟩
    retry := fun r hr hne => (h.retry r hr hne).of_blocked rfl }

theorem work_drainOnce (batch : List Key) (s : Mirror) : (s.drainOnce batch).work = s.work := by
  induction batch generalizing s with
  | nil => rfl
  | cons key batch ih =>
    rw [drainOnce]
    split_ifs
    · exact ih s
    · exact ih _
    · rfl

theorem Inv.endedAt (h : Inv s) {p : Pass} (hp : s.passes.get? s.hydrateRun = some p)
    (hphase : p.phase ≠ .waiting) : ∀ r, s.retrying = some r → r.phase = .ended := by
  intro r hr
  by_contra hne
  exact hphase (h.alone r hr hne p hp)

theorem Inv.hydrate (h : Inv s) (getDeadlineMs : ℕ) : Inv (s.hydrate getDeadlineMs) := by
  unfold Mirror.hydrate
  split_ifs
  · exact h.of_work rfl
  split
  · next hnone =>
    have hbegin := h.beginPass (p := ⟨getDeadlineMs, .listing none⟩) (fun rest => by simp)
      fun r hr => absurd (hnone.symm.trans hr) (by simp)
    exact hbegin
  · have hbegin := h.yieldWake.beginPass (p := ⟨getDeadlineMs, .waiting⟩) (fun rest => by simp)
      fun _ _ _ => rfl
    exact hbegin

theorem Inv.resumed (h : Inv s) (run : ℕ) : Inv (s.resumed run) := by
  unfold Mirror.resumed
  split
  · next getDeadlineMs hp =>
    split_ifs with hstale hended
    · exact h.dropStale (of_decide_eq_true hstale)
    · refine h.setPass hp (fun _ => ⟨fun rest hrest => absurd hrest (by simp), fun r hr => ?_⟩)
        fun rest hrest => absurd hrest (by simp)
      rw [hr] at hended
      exact of_decide_eq_true hended
    · exact h
  · exact h

theorem Inv.list (h : Inv s) (run : ℕ) (listing : Listing) : Inv (s.list run listing) := by
  unfold Mirror.list
  split
  · next getDeadlineMs hp =>
    refine h.setPass hp (fun hrun => ⟨fun rest hrest => absurd hrest (by simp), ?_⟩)
      fun rest hrest => absurd hrest (by simp)
    exact h.endedAt (hrun ▸ hp) (by simp)
  · exact h

/-- What is to be downloaded has a path, and no key is blocked by the listing. -/
theorem classify_paths (disk : Key → Option ℕ) (listedKeys : List Key) (acc : Sorting)
    (item : Key × ℕ) (key : Key) :
    (key ∈ (classify disk listedKeys acc item).downloads →
      key ∈ acc.downloads ∨ key = item.1 ∧ hasPath item.1 = true) ∧
    (key ∈ (classify disk listedKeys acc item).blocked.keys → key ∈ acc.blocked.keys) := by
  unfold classify
  by_cases hpath : hasPath item.1 = false
  · rw [if_pos hpath]
    exact ⟨Or.inl, fun hkey => hkey⟩
  rw [if_neg hpath]
  by_cases hfetch : fetches disk listedKeys acc item.1 item.2 = false
  · rw [if_pos hfetch]
    exact ⟨Or.inl, fun hkey => (mem_keys_filterKeys.mp hkey).2⟩
  rw [if_neg hfetch]
  by_cases hraw : isRaw item.1 = true
  · rw [if_pos hraw]
    exact ⟨Or.inl, fun hkey => hkey⟩
  · rw [if_neg hraw]
    refine ⟨fun hkey => (mem_append.mp hkey).imp_right fun hkey => ?_, fun hkey => hkey⟩
    exact ⟨mem_singleton.mp hkey, Bool.eq_true_of_not_eq_false hpath⟩

theorem foldl_classify_paths (disk : Key → Option ℕ) (listedKeys : List Key) (items : Listing)
    (acc : Sorting) (hdown : ∀ key ∈ acc.downloads, hasPath key = true)
    (hblocked : ∀ key ∈ acc.blocked.keys, hasPath key = true) :
    (∀ key ∈ (items.foldl (classify disk listedKeys) acc).downloads, hasPath key = true) ∧
      ∀ key ∈ (items.foldl (classify disk listedKeys) acc).blocked.keys, hasPath key = true := by
  induction items generalizing acc with
  | nil => exact ⟨hdown, hblocked⟩
  | cons item items ih =>
    refine ih _ (fun key hkey => ?_) fun key hkey => ?_
    · rcases (classify_paths disk listedKeys acc item key).1 hkey with hkey | ⟨rfl, hpath⟩
      · exact hdown key hkey
      · exact hpath
    · exact hblocked key ((classify_paths disk listedKeys acc item key).2 hkey)

theorem Inv.classifyAll (h : Inv s) {run getDeadlineMs : ℕ} {read : Option Listing} (listing : Listing)
    (hp : s.passes.get? run = some ⟨getDeadlineMs, .listing read⟩) (hrun : run = s.hydrateRun) :
    Inv (s.classifyAll run getDeadlineMs listing) := by
  have hended := h.endedAt (hrun ▸ hp) (by simp)
  obtain ⟨hdown, hblocked⟩ := foldl_classify_paths s.disk (listing.map Prod.fst) (ordered listing)
    ⟨[], s.blocked, OrdMap.empty, [], [], []⟩ (fun key hkey => absurd hkey (by simp)) h.paths
  have hpass : Inv { s with passes := s.passes.upsert run fun _ =>
      ⟨getDeadlineMs, .downloading ((s.sorted listing).downloads.drop hydrateConcurrency)⟩ } := by
    refine h.setPass hp (fun _ => ⟨fun rest hrest => absurd hrest (by simp), hended⟩)
      fun rest hrest key hkey => ?_
    rw [← Phase.downloading.inj hrest] at hkey
    exact hdown key (mem_of_mem_drop hkey)
  have hopen : Inv { s with
      passes := s.passes.upsert run fun _ =>
        ⟨getDeadlineMs, .downloading ((s.sorted listing).downloads.drop hydrateConcurrency)⟩
      blocked := (s.sorted listing).blocked.filterKeys fun key => key ∈ (s.sorted listing).listed } :=
    hpass.setBlocked hended fun key hkey => hblocked key (mem_keys_filterKeys.mp hkey).2
  refine Inv.startGets _ (hopen.of_work rfl) hrun.le
    (fun key hkey => hdown key (mem_of_mem_take hkey)) fun _ =>
      ⟨⟨getDeadlineMs, .downloading ((s.sorted listing).downloads.drop hydrateConcurrency)⟩, _, ?_, rfl⟩
  rw [hrun]
  exact (get?_upsert _ _ _ _).trans (if_pos rfl)

theorem not_stale {run : ℕ} : ¬ s.stale run = true ↔ run = s.hydrateRun := by simp [stale]

theorem Inv.listed (h : Inv s) (run : ℕ) (ok : Bool) : Inv (s.listed run ok) := by
  unfold Mirror.listed
  split
  · next getDeadlineMs read hp =>
    split_ifs with hstale hok
    · exact h.dropStale (of_decide_eq_true hstale)
    · obtain rfl := not_stale.mp hstale
      refine h.dropCurrent (fun id g hg howner => ?_) false
      by_contra hfalse
      obtain ⟨q, rest, hq, hphase⟩ :=
        (h.gets id g hg).working howner (Bool.eq_false_of_not_eq_true hfalse)
      rw [hp] at hq
      rw [← some.inj hq] at hphase
      cases hphase
    · cases read with
      | none => exact h
      | some listing => exact h.classifyAll listing hp (not_stale.mp hstale)
  · exact h

theorem Inv.finish (h : Inv s) (run : ℕ) : Inv (s.finish run) := by
  unfold Mirror.finish
  split
  · split_ifs with hstale hdone
    · exact h.dropStale (of_decide_eq_true hstale)
    · obtain rfl := not_stale.mp hstale
      refine h.dropCurrent (fun id g hg howner => ?_) true
      have hmem : g ∈ s.gets.values := List.mem_map.mpr ⟨(id, g), get?_eq_some.mp hg, rfl⟩
      have hall := List.all_eq_true.mp hdone.2 g hmem
      rw [howner] at hall
      simpa using hall
    · exact h
  · exact h

theorem Inv.abandon (h : Inv s) : Inv s.abandon := by
  have hnone : s.passes.get? (s.hydrateRun + 1) = none := by
    cases hp : s.passes.get? (s.hydrateRun + 1) with
    | none => rfl
    | some p => exact absurd (h.run _ p hp) (Nat.not_succ_le_self _)
  exact { h with
    gets := fun id g hg => by
      have hok := h.gets id g hg
      refine ⟨hok.seq, hok.quiet, fun run howner => ?_, fun howner _ => ?_, hok.retry⟩
      · exact ⟨(hok.path run howner).1, (hok.path run howner).2.trans (Nat.le_succ _)⟩
      · exact absurd (hok.path _ howner).2 (Nat.not_succ_le_self _)
    run := fun run p hp => (h.run run p hp).trans (Nat.le_succ _)
    current := fun _ => hnone
    alone := fun r hr hne p hp => absurd (hnone.symm.trans hp) (by simp)
    retry := fun r hr hne => (h.retry r hr hne).of_blocked rfl }

theorem Inv.retryEnd (h : Inv s) : Inv s.retryEnd := by
  unfold Mirror.retryEnd
  split_ifs with hended
  · have hclear : s.Clear := h.clear_of_ended fun r hr => by
      rw [hr] at hended
      exact of_decide_eq_true hended
    exact { h with
      gets := fun id g hg =>
        have hok := h.gets id g hg
        ⟨hok.seq, hok.quiet, hok.path, hok.working, fun howner hfalse =>
          absurd hfalse (by rw [hclear id g hg howner]; simp)⟩
      alone := fun r hr => absurd hr (by simp)
      retry := fun r hr => absurd hr (by simp) }
  · exact h

theorem Inv.nextDownload (h : Inv s) (run : ℕ) : Inv (s.nextDownload run) := by
  unfold Mirror.nextDownload
  split
  · next getDeadlineMs key rest hp =>
    have hpaths := h.rest run _ _ hp rfl
    have hdown : run = s.hydrateRun → s.Downloading := fun hrun => ⟨_, _, hrun ▸ hp, rfl⟩
    have hpass : Inv { s with passes := s.passes.upsert run fun _ => ⟨getDeadlineMs, .downloading rest⟩ } := by
      refine h.setPass hp (fun hrun => ⟨fun _ _ => ⟨rest, rfl⟩, h.ended (hdown hrun)⟩)
        fun rest' hrest key' hkey' => ?_
      rw [← Phase.downloading.inj hrest] at hkey'
      exact hpaths key' (.tail _ hkey')
    refine hpass.startGet (by simp) (fun run' heq => ?_) fun heq => ?_
    · rw [← Owner.pass.inj heq]
      exact ⟨hpaths key mem_cons_self, h.run run _ hp⟩
    · refine ⟨⟨getDeadlineMs, .downloading rest⟩, rest, ?_, rfl⟩
      rw [← Owner.pass.inj heq]
      exact (get?_upsert _ _ _ _).trans (if_pos rfl)
  · exact h

theorem Inv.fetchRaw (h : Inv s) (key : Key) : Inv (s.fetchRaw key) := by
  unfold Mirror.fetchRaw
  split_ifs
  · exact h
  · exact h.startGet (by simp) (fun run heq => absurd heq (by simp)) nofun

theorem Inv.read (h : Inv s) (id : ℕ) (object : Option ℕ) : Inv (s.read id object) := by
  unfold Mirror.read
  cases hg : s.gets.get? id with
  | none => exact h
  | some g =>
    dsimp only
    split_ifs with hnone
    · refine h.setGet hg rfl rfl (fun hgiven => hgiven) (h.gets id g hg).quiet fun _ _ => ?_
      rw [isNone_iff_eq_none.mp hnone.2]
      simp
    · exact h

theorem Inv.answered (h : Inv s) {id : ℕ} (hg : s.gets.get? id = some g) {a : Answer}
    (ha : g.owner = .retry → g.abandoned = false → a ≠ .discarded) : Inv (s.answered id g a) := by
  unfold Mirror.answered
  split_ifs with _ hgiven
  · cases a <;> exact (h.dropGet id).of_work rfl
  · exact h.dropGet id
  · refine h.setGet hg rfl rfl (fun hgiven => hgiven) (fun hg' => absurd hg' hgiven) fun howner hfalse => ?_
    exact fun heq => ha howner hfalse (some.inj heq)

theorem Inv.answer (h : Inv s) (id : ℕ) : Inv (s.answer id) := by
  unfold Mirror.answer
  cases hg : s.gets.get? id with
  | none => exact h
  | some g =>
    dsimp only
    split
    · exact h.answered hg fun _ _ => by simp
    · next size _ _ =>
      split_ifs with hwanted
      · have hrename : Inv (s.rename g.key size) := h.of_work rfl
        exact hrename.answered hg fun _ _ => by simp
      · -- a key that the retry pass asks for stays blocked, so the object is wanted
        refine h.answered hg fun howner hfalse => absurd ?_ hwanted
        obtain ⟨reason, hreason⟩ := OrdMap.mem_keys.mp ((h.gets id g hg).retry howner hfalse).2.1
        simp [stillWanted, howner, hfalse, hreason]
    · exact h

theorem Inv.fails (h : Inv s) (id : ℕ) (message : JsString) : Inv (s.fails id message) := by
  unfold Mirror.fails
  cases hg : s.gets.get? id with
  | none => exact h
  | some g =>
    dsimp only
    split_ifs
    · exact h.answered hg fun _ _ => by simp
    · exact h

/-- A worker of a hydrate pass goes on. -/
theorem Inv.proceedPass (h : Inv s) {run : ℕ} (hdown : run = s.hydrateRun → s.Downloading)
    (hpath : hasPath key = true) (a : Answer) : Inv (s.proceedPass run key a) := by
  unfold Mirror.proceedPass
  split_ifs with hstale
  · exact h
  have hended := h.ended (hdown (not_stale.mp hstale))
  cases a with
  | failed message => exact (h.blockEnded hended hpath _).nextDownload run
  | wrote => exact (h.unblockEnded hended key).nextDownload run
  | gone => exact (h.unblockEnded hended key).nextDownload run
  | discarded => exact (h.unblockEnded hended key).nextDownload run

theorem RetryOk.mono (h : RetryOk s r)
    (hkeys : ∀ key ∈ s.blocked.keys, key ∈ s'.blocked.keys) : RetryOk s' r :=
  ⟨fun key hkey => hkeys key (h.held key hkey), h.nodup, h.done⟩

/-- The pass over the blocked keys goes on to its next key. -/
theorem Inv.proceedRetry (h : Inv s) (hclear : s.Clear) (hfetching : s.Fetching)
    (hkey : key ∈ s.blocked.keys) (hkeys : ∀ r, s.retrying = some r → key ∉ r.keys) {a : Answer}
    (ha : a ≠ .discarded) : Inv (s.proceedRetry key a) := by
  obtain ⟨r, hr, hphase⟩ := hfetching
  have hne : r.phase ≠ .ended := by rw [hphase]; simp
  have hretry := h.retry r hr hne
  have hwaiting : s.Waiting := h.alone r hr hne
  -- the key joins those that are to be unblocked
  have hdone : ∀ b, b = some .wrote ∨ b = some .gone →
      RetryOk s { r with done := r.done ++ [(key, b)] } := by
    intro b hb
    have hmem : ∀ key', key' ∈ ({ r with done := r.done ++ [(key, b)] } : Retry).keys →
        key' = key ∨ key' ∈ r.keys := by
      intro key' hkey'
      simp only [Retry.keys, map_append, map_cons, map_nil, mem_append,
        mem_singleton] at hkey' ⊢
      tauto
    refine ⟨fun key' hkey' => ?_, ?_, fun e he => ?_⟩
    · rcases hmem key' hkey' with rfl | hkey'
      · exact hkey
      · exact hretry.held key' hkey'
    · simp only [Retry.keys, map_append, map_cons, map_nil, append_assoc,
        singleton_append]
      rw [nodup_middle, nodup_cons]
      exact ⟨hkeys r hr, hretry.nodup⟩
    · rcases mem_append.mp he with he | he
      · exact hretry.done e he
      · rw [mem_singleton.mp he]
        exact hb
  unfold Mirror.proceedRetry
  split
  · next r' hr' =>
    obtain rfl : r = r' := some.inj (hr.symm.trans hr')
    have hs : Inv { s with getDeadline := s.getDeadline.erase key } := h.of_work rfl
    cases a with
    | failed message =>
      refine (h.blockAgain hkey (.failed message)).fetchGroup hclear hwaiting (hretry.mono ?_)
      exact fun key' hkey' => mem_keys_upsert.mpr (Or.inr hkey')
    | wrote =>
      exact hs.fetchGroup (r := { r with done := r.done ++ [(key, some .wrote)] }) hclear hwaiting
        ((hdone _ (Or.inl rfl)).mono fun _ hkey => hkey)
    | gone =>
      exact hs.fetchGroup (r := { r with done := r.done ++ [(key, some .gone)] }) hclear hwaiting
        ((hdone _ (Or.inr rfl)).mono fun _ hkey => hkey)
    | discarded => exact absurd rfl ha
  · exact h

theorem get?_dropGet {id id' : ℕ} (hg : (s.dropGet id).gets.get? id' = some g) :
    id' ≠ id ∧ s.gets.get? id' = some g := by
  rw [dropGet, get?_erase] at hg
  split_ifs at hg with hid
  exact ⟨hid, hg⟩

theorem Inv.proceed (h : Inv s) (id : ℕ) : Inv (s.proceed id) := by
  unfold Mirror.proceed
  cases hg : s.gets.get? id with
  | none => exact h
  | some g =>
    have hok := h.gets id g hg
    have hgiven : ∀ a, g.answer = some a → g.abandoned = false := by
      intro a ha
      by_contra hne
      rw [(hok.quiet (Bool.eq_true_of_not_eq_false hne)).2] at ha
      cases ha
    dsimp only
    split
    · next a run ha howner =>
      refine (h.dropGet id).proceedPass (fun hrun => ?_) (hok.path run howner).1 a
      exact hok.working (hrun ▸ howner) (hgiven a ha)
    · next a ha howner =>
      obtain ⟨hfetching, hkey, hanswer, hkeys⟩ := hok.retry howner (hgiven a ha)
      refine (h.dropGet id).proceedRetry ?_ hfetching hkey hkeys fun heq => hanswer (heq ▸ ha)
      exact h.clear_of_one hg howner (hgiven a ha) fun _ _ hg' _ _ => get?_dropGet hg'
    · exact h

theorem Inv.deadline (h : Inv s) (id : ℕ) : Inv (s.deadline id) := by
  unfold Mirror.deadline
  cases hg : s.gets.get? id with
  | none => exact h
  | some g =>
    have hok := h.gets id g hg
    dsimp only
    split_ifs with hover
    · exact h
    obtain ⟨hfalse, hnone⟩ := not_or.mp hover
    have hfalse := Bool.eq_false_of_not_eq_true hfalse
    rw [isSome_iff_ne_none, not_not] at hnone
    have hset : g.owner ≠ .raw → Inv (s.setGet id g.givenUp) := fun hraw =>
      h.setGet hg rfl rfl (fun _ => rfl) (fun _ => ⟨hraw, hnone⟩) fun _ hfalse => absurd hfalse (by simp [Get.givenUp])
    cases howner : g.owner with
    | pass run =>
      dsimp only
      split_ifs with hstale
      · exact h
      have hset := hset (by rw [howner]; simp)
      obtain rfl := not_stale.mp hstale
      have hended := h.ended (hok.working howner hfalse)
      exact (hset.blockEnded hended (hok.path _ howner).1 _).nextDownload _
    | retry =>
      have hset := hset (by rw [howner]; simp)
      obtain ⟨⟨r, hr, hphase⟩, hkey, _⟩ := hok.retry howner hfalse
      have hne : r.phase ≠ .ended := by rw [hphase]; simp
      rw [hr]
      have hs : Inv { s.setGet id g.givenUp with
          getDeadline := s.getDeadline.upsert g.key fun _ =>
            min (s.deadlineOf r.getDeadlineMs g.key * 2) retryGetDeadlineMaxMs } := hset.of_work rfl
      refine (hs.blockAgain hkey _).fetchGroup ?_ (h.alone r hr hne) ((h.retry r hr hne).mono ?_)
      · refine h.clear_of_one hg howner hfalse fun id' g' hg' _ hfalse' => ?_
        have hg' : (s.gets.upsert id fun _ => g.givenUp).get? id' = some g' := hg'
        rw [get?_upsert] at hg'
        split_ifs at hg' with hid
        · rw [← some.inj hg'] at hfalse'
          exact absurd hfalse' (by simp [Get.givenUp])
        · exact ⟨hid, hg'⟩
      · exact fun key' hkey' => mem_keys_upsert.mpr (Or.inr hkey')
    | raw => exact h

theorem Inv.step (h : Inv s) (e : Event) : Inv (s.step e) := by
  cases e with
  | hydrate getDeadlineMs => exact h.hydrate getDeadlineMs
  | resumed run => exact h.resumed run
  | list run listing => exact h.list run listing
  | listed run ok => exact h.listed run ok
  | finish run => exact h.finish run
  | abandon => exact h.abandon
  | retryBlocked getDeadlineMs => exact h.retryBlocked getDeadlineMs
  | settle ok => exact h.settle ok
  | retryEnd => exact h.retryEnd
  | fetchRaw key => exact h.fetchRaw key
  | read id object => exact h.read id object
  | answer id => exact h.answer id
  | fails id message => exact h.fails id message
  | proceed id => exact h.proceed id
  | deadline id => exact h.deadline id
  | note key => exact h.of_work rfl
  | ingest key bytes =>
    dsimp only [Mirror.step, ingest]
    split_ifs
    · exact h
    · exact h.of_work rfl
  | openGate =>
    dsimp only [Mirror.step, openGate]
    split_ifs
    · exact h.of_work rfl
    · exact h
  | drain isLeader =>
    dsimp only [Mirror.step, drainNow]
    split_ifs
    · exact h
    · exact h.of_work (work_drainOnce _ s)
  | putReads => exact h.of_work rfl
  | putDone ok =>
    dsimp only [Mirror.step, putDone]
    split
    · exact h.of_work (work_drainOnce _ s)
    · split_ifs
      · exact h.of_work (work_drainOnce _ s)
      · exact h.of_work (work_drainOnce _ _)
    · split_ifs
      · exact h
      · exact h.of_work (work_drainOnce _ _)
    · exact h

theorem inv_run (h : Inv s) (evs : List Event) : Inv (run Mirror.step s evs) := by
  induction evs generalizing s with
  | nil => exact h
  | cons e evs ih => exact ih (h.step e)

end Mirror

end Turma.ArchiveMirror
