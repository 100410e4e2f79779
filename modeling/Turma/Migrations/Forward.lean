import Turma.Migrations.Replicas

/-! A move only goes forward at the leader, and what a leader has retired stays away. -/

namespace Turma.Migrations

open Turma.Lib List Option OrdMap

variable {ρ : Type} {s s' : State ρ} {e : Event ρ} {r r' : ρ} {id : Id} {n n' : Node}
  {m m' : Migration}

@[simp] theorem migrations_publish (n : Node) (leads : Bool) (changed : Option Id) :
    (n.publishMigrations leads changed).migrations = n.migrations := rfl

@[simp] theorem migrations_forget (n : Node) (id : Id) : (n.forget id).migrations = n.migrations :=
  rfl

@[simp] theorem migrations_retire (n : Node) (id : Id) :
    (n.retireMigration id).migrations = n.migrations.erase id := rfl

@[simp] theorem migrations_change (n : Node) (leads : Bool) (id : Id) (f : Migration → Migration) :
    (n.change leads id f).migrations = n.migrations.adjust id f := rfl

@[simp] theorem migrations_quiet (n : Node) (id : Id) (f : Migration → Migration) :
    (n.quiet id f).migrations = n.migrations.adjust id f := rfl

/-- From one map of a leader to the next, `ids` being the ids it has retired meanwhile: a record moves
forward or is retired, and none comes that `old` lists. -/
structure Forward (old : List Id) (ids : List Id) (a b : OrdMap Id Migration) : Prop where
  keeps : ∀ id m, a.get? id = some m → (∃ m', b.get? id = some m' ∧ Advances m m') ∨ id ∈ ids
  retires : ∀ id ∈ ids, b.get? id = none
  adds : ∀ id, a.get? id = none → b.get? id ≠ none → id ∉ old

variable {old ids : List Id} {a b : OrdMap Id Migration}

theorem Forward.refl (old : List Id) (a : OrdMap Id Migration) : Forward old [] a a where
  keeps id m h := Or.inl ⟨m, h, .refl m⟩
  retires := by simp
  adds id h h' := absurd h h'

theorem Forward.adjust (old : List Id) {f : Migration → Migration}
    (h : ∀ m, a.get? id = some m → Advances m (f m)) : Forward old [] a (a.adjust id f) where
  keeps k m hm := by
    rw [get?_adjust]
    by_cases hk : k = id
    · subst hk
      exact Or.inl ⟨f m, by simp [hm], h m hm⟩
    · exact Or.inl ⟨m, by simp [hk, hm], .refl m⟩
  retires := by simp
  adds k hk hk' := by
    rw [get?_adjust] at hk'
    split_ifs at hk' with heq
    · simp [hk] at hk'
    · exact absurd hk hk'

theorem Forward.erase (old : List Id) (id : Id) : Forward old [id] a (a.erase id) where
  keeps k m hm := by
    by_cases hk : k = id
    · exact Or.inr (by simp [hk])
    · exact Or.inl ⟨m, by rw [get?_erase, if_neg hk, hm], .refl m⟩
  retires k hk := by
    obtain rfl := mem_singleton.mp hk
    rw [get?_erase, if_pos rfl]
  adds k hk hk' := by
    rw [get?_erase] at hk'
    split_ifs at hk'
    · exact absurd rfl hk'
    · exact absurd hk hk'

/-- One more record, of an id that is new. -/
theorem Forward.insert {f : Option Migration → Migration} (h : Forward old ids a b)
    (ha : a.get? id = none) (hids : id ∉ ids) (hold : id ∉ old) : Forward old ids a (b.upsert id f) where
  keeps k m hm := by
    have hne : k ≠ id := by
      rintro rfl
      rw [ha] at hm
      cases hm
    rw [get?_upsert, if_neg hne]
    exact h.keeps k m hm
  retires k hk := by
    have hne : k ≠ id := fun heq => hids (by rw [← heq]; exact hk)
    rw [get?_upsert, if_neg hne]
    exact h.retires k hk
  adds k hk hk' := by
    by_cases heq : k = id
    · exact heq ▸ hold
    · rw [get?_upsert, if_neg heq] at hk'
      exact h.adds k hk hk'

theorem forward_evict (old : List Id) (n : Node) :
    Forward old n.evicted.toList n.migrations (n.evicted.elim n n.retireMigration).migrations := by
  cases n.evicted with
  | none => exact .refl old _
  | some id => exact .erase old id

theorem olderSettled_cases (o : Option (Id × Migration)) (y : Id × Migration) :
    olderSettled o y = some y ∨ olderSettled o y = o := by
  unfold olderSettled
  split
  · cases o with
    | none => exact Or.inl rfl
    | some z =>
      simp only
      split
      · exact Or.inl rfl
      · exact Or.inr rfl
  · exact Or.inr rfl

theorem mem_of_oldestSettled {ms : List (Id × Migration)} {x : Id × Migration}
    (h : oldestSettled ms = some x) : x ∈ ms := by
  have hfold : ∀ (ms : List (Id × Migration)) (o : Option (Id × Migration)),
      ms.foldl olderSettled o = some x → x ∈ ms ∨ o = some x := by
    intro ms
    induction ms with
    | nil => exact fun o ho => Or.inr ho
    | cons y ms ih =>
      intro o ho
      rcases ih _ ho with hmem | ho
      · exact Or.inl (mem_cons_of_mem y hmem)
      · rcases olderSettled_cases o y with heq | heq
        · obtain rfl := some.inj (heq.symm.trans ho)
          exact Or.inl mem_cons_self
        · exact Or.inr (heq.symm.trans ho)
  exact (hfold ms none h).resolve_right (by simp)

theorem evicted_held (h : n.evicted = some id) : n.migrations.get? id ≠ none := by
  unfold Node.evicted at h
  split_ifs at h
  obtain ⟨x, hx, rfl⟩ := map_eq_some_iff.mp h
  rw [get?_eq_some.mpr (mem_of_oldestSettled hx)]
  simp

theorem forward_start (n : Node) (leads restore : Bool) (transcriptId : Option JsString) (now : ℤ)
    (hid : n.migrations.get? id = none) (hold : id ∉ old) :
    Forward old n.evicted.toList n.migrations
      (n.start leads id restore transcriptId now).migrations := by
  refine (forward_evict old n).insert hid ?_ hold
  intro hmem
  exact evicted_held (mem_toList.mp hmem) hid

theorem forward_sweep (old : List Id) (n : Node) (fleet : Migration.Fleet) (now : ℤ) :
    Forward old ((n.migrations.get? id).bind fun m => if m.retires now then some id else none).toList
      n.migrations (n.sweep id fleet now).migrations := by
  unfold Node.sweep
  cases hm : n.migrations.get? id with
  | none => exact .refl old _
  | some m =>
    simp only [bind_some]
    by_cases hret : m.retires now = true
    · rw [if_pos hret, if_pos hret]
      exact .erase old id
    · rw [if_neg hret, if_neg hret]
      split
      · exact .refl old _
      · exact .adjust old fun m' _ => advances_advance m' fleet now

theorem forward_remote (n : Node) (value : Migration) (now : ℤ)
    (hold : n.migrations.get? id = none → n.retired.contains id = false → id ∉ old) :
    Forward old [] n.migrations (n.applyRemoteMigration true id value now).migrations := by
  simp only [Node.applyRemoteMigration, Bool.not_true, Bool.false_eq_true, if_false]
  cases hm : n.migrations.get? id with
  | none =>
    simp only
    split
    · exact .refl old _
    · rename_i hret
      exact (Forward.refl old _).insert hm (by simp) (hold hm (by simpa using hret))
  | some cur => exact .adjust old fun m' _ => advances_learn m' value now

theorem get?_hydrate (n : Node) (rows : OrdMap Id Migration) (id : Id) :
    (n.hydrateMigrations rows).migrations.get? id =
      match n.migrations.get? id with
      | some m => some m
      | none => (rows.get? id).map Migration.shared := by
  rw [Node.hydrateMigrations, get?_mergeWith]
  cases rows.get? id <;> cases n.migrations.get? id <;> rfl

theorem forward_hydrate (n : Node) (rows : OrdMap Id Migration)
    (hold : ∀ id v, rows.get? id = some v → n.migrations.get? id = none → id ∉ old) :
    Forward old [] n.migrations (n.hydrateMigrations rows).migrations where
  keeps id m hm := Or.inl ⟨m, by rw [get?_hydrate, hm], .refl m⟩
  retires := by simp
  adds id hid hid' := by
    rw [get?_hydrate, hid] at hid'
    obtain ⟨v, hv⟩ := ne_none_iff_exists'.mp hid'
    obtain ⟨v, hv, -⟩ := map_eq_some_iff.mp hv
    exact hold id v hv hid

/-- A step of the leader `r`. -/
structure Leads (s s' : State ρ) (r : ρ) : Prop where
  forward : ∃ ids, s'.gone = ids ++ s.gone ∧
    Forward s.gone ids (s.nodes r).migrations (s'.nodes r).migrations

theorem Leads.same (hnode : (s'.nodes r).migrations = (s.nodes r).migrations)
    (hgone : s'.gone = s.gone) : Leads s s' r :=
  ⟨[], hgone, by rw [hnode]; exact .refl _ _⟩

variable [DecidableEq ρ]

theorem migrations_onNode (s : State ρ) (r r' : ρ) (f : Node → Node) :
    ((s.onNode r' f).nodes r).migrations =
      if r = r' then (f (s.nodes r)).migrations else (s.nodes r).migrations := by
  by_cases h : r = r'
  · subst h
    simp [State.onNode]
  · simp [State.onNode, h]

/-- A step on some replica's map, which moves forward if the replica is the leader. -/
theorem Leads.onNode {f : Node → Node}
    (hf : r = r' → Forward s.gone [] (s.nodes r).migrations (f (s.nodes r)).migrations) :
    Leads s (s.onNode r' f) r := by
  refine ⟨[], rfl, ?_⟩
  rw [migrations_onNode]
  split
  · rename_i hr
    exact hf hr
  · exact .refl _ _

/-- The same, where the replica retires an id. -/
theorem Leads.noteGone {f : Node → Node} {o : Option Id} (h : s.leader = some r)
    (hf : r = r' → Forward s.gone o.toList (s.nodes r).migrations (f (s.nodes r)).migrations) :
    Leads s ((s.onNode r' f).noteGone r' o) r := by
  by_cases hr : r = r'
  · subst hr
    have hlead : (s.onNode r f).leads r = true := by simp [State.leads, State.onNode, h]
    rw [State.noteGone, if_pos hlead]
    refine ⟨o.toList, rfl, ?_⟩
    rw [migrations_onNode, if_pos rfl]
    exact hf rfl
  · have hlead : (s.onNode r' f).leads r' = false := by
      simp [State.leads, State.onNode, h, hr]
    rw [State.noteGone, hlead]
    exact .onNode fun heq => absurd heq hr

theorem Leads.handler {holds publishes : Migration → Bool} {f : Migration → Migration}
    (hf : r = r' → ∀ m, s.held r id = some m → holds m = true → Advances m (f m)) :
    Leads s (s.handler r' id holds f publishes) r := by
  unfold State.handler
  split
  · exact .same rfl rfl
  rename_i m hm
  split
  · rename_i hholds
    have hforward : r = r' → Forward s.gone [] (s.nodes r).migrations
        ((s.nodes r).migrations.adjust id f) := by
      rintro rfl
      refine .adjust _ fun m' hm' => ?_
      obtain rfl : m = m' := some.inj (hm.symm.trans hm')
      exact hf rfl m hm hholds
    split
    · exact .onNode hforward
    · exact .onNode hforward
  · exact .same rfl rfl

theorem leads_deliver (h : s.leader = some r) {i : ℕ} {now : ℤ}
    (hm : Meets s (.deliver r' i now)) : Leads s (s.deliver r' i now) r := by
  unfold State.deliver
  split
  · exact .same rfl rfl
  rename_i w hw
  split
  · refine .onNode fun hr => ?_
    subst hr
    have hlead : s.leads r = true := by simp [State.leads, h]
    rw [hlead]
    rcases w with ⟨k, _ | m⟩
    · exact .refl _ _
    · refine forward_remote { s.nodes r with inbox := (s.nodes r).inbox.eraseIdx i } m now
        fun hnone hret hgone => hm hlead ?_
      have hret' : k ∉ (s.nodes r).retired := by simpa using hret
      have hheld : s.held r k = none := hnone
      simp [BringsBack, hw, hheld, hret', hgone]
  · exact .same rfl rfl

theorem leads_step (h : s.leader = some r) (h' : (step s e).leader = some r) (hm : Meets s e) :
    Leads s (step s e) r := by
  have hlead : s.leads r = true := by simp [State.leads, h]
  cases e with
  | start r' k restore transcriptId now =>
    refine .noteGone h fun hr => ?_
    subst hr
    exact forward_start _ _ _ _ _ hm.1 hm.2
  | beginUpload r' k =>
    rw [step]
    refine .onNode fun _ => ?_
    exact .adjust _ fun m _ => .of_phase (phase_beginUpload m)
  | uploadEmpty r' k =>
    rw [step]
    exact .handler fun _ m _ _ => .of_phase rfl
  | uploadFailed r' k tooBig now =>
    rw [step]
    refine .handler fun hr m hheld hholds => ?_
    subst hr
    have hdone : m.phase ≠ .done := by
      intro hphase
      exact hm hlead (by simp [FailsDone, hheld, hholds, hphase])
    exact advances_fail hdone rfl
  | uploaded r' k spool size replica command now =>
    rw [step]
    exact .handler fun _ m _ _ => advances_uploaded m spool size replica command now
  | packed r' k spool size missing damaged command now =>
    rw [step]
    exact .handler fun _ m _ _ => advances_packed m spool size missing damaged command now
  | packFailed r' k error now =>
    rw [step]
    refine .handler fun hr m hheld hholds => ?_
    subst hr
    have hdone : m.phase ≠ .done := by
      intro hphase
      exact hm hlead (by simp [FailsDone, hheld, hholds, hphase])
    exact advances_fail hdone (by simp [Migration.packFailed])
  | detached r' k =>
    rw [step]
    refine .onNode fun _ => ?_
    exact .refl _ _
  | refuse r' k error =>
    rw [step]
    refine .onNode fun _ => ?_
    exact .adjust _ fun m _ => .of_phase (phase_refuse m error)
  | sweep r' k fleet now =>
    rw [step]
    split
    · refine .noteGone h fun hr => ?_
      subst hr
      exact forward_sweep _ _ fleet now
    · exact .same rfl rfl
  | lead r' =>
    have hnone : s.leader ≠ none := by simp [h]
    rw [step, if_neg hnone]
    exact .same rfl rfl
  | stepDown => exact absurd h' (by simp [step])
  | restart r' =>
    have hr : r ≠ r' := by
      rintro rfl
      simp [step, hlead] at h'
    refine .same ?_ rfl
    simp [step, hr]
  | scan r' i =>
    simp only [step]
    split
    · refine .onNode fun _ => ?_
      exact .refl _ _
    · exact .same rfl rfl
  | scanFailed r' i =>
    rw [step]
    refine .onNode fun _ => ?_
    exact .refl _ _
  | hydrate r' i =>
    simp only [step]
    split
    · rename_i rows hrows
      refine .onNode fun hr => ?_
      subst hr
      refine forward_hydrate { s.nodes r with scans := (s.nodes r).scans.eraseIdx i } rows
        fun k v hv hnone => ?_
      have hrow := hm hlead
      rw [hrows] at hrow
      have hk := hrow (k, v) (get?_eq_some.mp hv)
      rw [show s.held r k = none from hnone] at hk
      exact hk
    · exact .same rfl rfl
  | send r' =>
    simp only [step]
    split
    · exact .same rfl rfl
    · refine .same ?_ rfl
      show ((s.onNode r' _).nodes r).migrations = _
      rw [migrations_onNode]
      split <;> rfl
  | sendFailed r' =>
    rw [step]
    refine .onNode fun _ => ?_
    exact .refl _ _
  | expire k => exact .same rfl rfl
  | deliver r' i now => exact leads_deliver h hm
  | drop r' i =>
    rw [step]
    refine .onNode fun _ => ?_
    exact .refl _ _

/-- Nothing a leader has retired is in the map of the leader. -/
def Apart (s : State ρ) : Prop := ∀ r, s.leader = some r → ∀ id ∈ s.gone, s.held r id = none

theorem leader_step (h : (step s e).leader = some r) :
    s.leader = some r ∨ e = .lead r ∧ s.leader = none := by
  cases e with
  | lead r' =>
    by_cases hnone : s.leader = none
    · simp only [step, hnone, if_true, some.injEq] at h
      exact Or.inr ⟨by rw [h], hnone⟩
    · rw [step, if_neg hnone] at h
      exact Or.inl h
  | stepDown => exact absurd h (by simp [step])
  | restart r' =>
    simp only [step] at h
    split_ifs at h
    exact Or.inl h
  | start r' k restore transcriptId now =>
    simp only [step, State.noteGone] at h
    split at h <;> exact Or.inl h
  | sweep r' k fleet now =>
    simp only [step, State.noteGone] at h
    repeat' split at h
    all_goals exact Or.inl h
  | uploadEmpty | uploadFailed | uploaded | packed | packFailed =>
    simp only [step, State.handler] at h
    repeat' split at h
    all_goals exact Or.inl h
  | deliver r' i now =>
    simp only [step, State.deliver] at h
    repeat' split at h
    all_goals exact Or.inl h
  | scan | hydrate | send =>
    simp only [step] at h
    split at h <;> exact Or.inl h
  | beginUpload | detached | refuse | scanFailed | sendFailed | expire | drop => exact Or.inl h

theorem apart_step (hs : Apart s) (hm : Meets s e) : Apart (step s e) := by
  intro r hr id hid
  rcases leader_step hr with h | ⟨rfl, hnone⟩
  · obtain ⟨ids, hgone, hforward⟩ := leads_step h hr hm
    rw [hgone] at hid
    rcases mem_append.mp hid with hid | hid
    · exact hforward.retires id hid
    · by_contra hheld
      exact hforward.adds id (hs r h id hid) hheld hid
  · rw [step, if_pos hnone] at hid ⊢
    have hmap := migrations_onNode s r r fun n => { n with scans := n.scans ++ [.asked] }
    rw [if_pos rfl] at hmap
    simp only [State.held, hmap]
    exact hm hnone id hid

/-- While a replica leads, a record it holds goes forward, until it is retired. -/
theorem keeps_forward {evs : List (Event ρ)} (hs : Along step Meets s evs)
    (hlead : Throughout step (fun s => s.leader = some r) s evs)
    (hm : (∃ m', s.held r id = some m' ∧ Advances m m') ∨ id ∈ s.gone) :
    (∃ m', (run step s evs).held r id = some m' ∧ Advances m m') ∨ id ∈ (run step s evs).gone := by
  induction evs generalizing s with
  | nil => exact hm
  | cons e evs ih =>
    obtain ⟨h, hrest⟩ := (throughout_cons step).mp hlead
    refine ih hs.2 hrest ?_
    obtain ⟨ids, hgone, hforward⟩ := leads_step h (hrest [] List.nil_prefix) hs.1
    rw [hgone]
    rcases hm with ⟨m', hheld, hadv⟩ | hid
    · rcases hforward.keeps id m' hheld with ⟨m'', hheld', hadv'⟩ | hid
      · exact Or.inl ⟨m'', hheld', hadv.trans hadv'⟩
      · exact Or.inr (mem_append_left _ hid)
    · exact Or.inr (mem_append_right _ hid)

theorem hydrated {i : ℕ} {rows : OrdMap Id Migration} {v : Migration} (h : s.leader = some r)
    (hm : Meets s (.hydrate r i)) (hrows : (s.nodes r).scans[i]? = some (.answered rows))
    (hv : rows.get? id = some v) :
    ∃ m, (step s (.hydrate r i)).held r id = some m ∧
      migrationPhaseRank v.phase ≤ migrationPhaseRank m.phase := by
  have hrow := hm (by simp [State.leads, h])
  rw [hrows] at hrow
  have hrow := hrow (id, v) (get?_eq_some.mp hv)
  have hheld : (step s (.hydrate r i)).held r id =
      match s.held r id with
      | some m => some m
      | none => some v.shared := by
    simp only [step, hrows, State.held]
    rw [migrations_onNode, if_pos rfl, get?_hydrate, hv]
    rfl
  cases hin : s.held r id with
  | none => exact ⟨v.shared, by rw [hheld, hin], le_rfl⟩
  | some m =>
    rw [show s.held r (id, v).1 = some m from hin] at hrow
    exact ⟨m, by rw [hheld, hin], hrow⟩

/-- As long as a replica is promoted with nothing in its map that a leader retired, no such record
comes to a leader, what a leader has is not behind what its scan answers, and no late failure finds a
move done: at a leader every move goes forward, what was retired stays away, and a hydrated leader is
as far as the store was. -/
theorem moves_forward (es es' : List (Event ρ)) (h : Along step Meets State.start (es ++ es')) :
    let s := run step State.start es
    let s' := run step s es'
    (∀ r, Throughout step (fun s => s.leader = some r) s es' → ∀ id m m',
      s.held r id = some m → s'.held r id = some m' → Advances m m') ∧
    (∀ r, s'.leader = some r → ∀ id ∈ s'.gone, s'.held r id = none) ∧
    ∀ r i rows, s'.leader = some r → (s'.nodes r).scans[i]? = some (.answered rows) →
      Meets s' (.hydrate r i) → ∀ id v, rows.get? id = some v →
        ∃ m, (step s' (.hydrate r i)).held r id = some m ∧
          migrationPhaseRank v.phase ≤ migrationPhaseRank m.phase := by
  intro s s'
  have hapart : Apart s' := by
    have hrun := run_inv step (P := Apart) (fun _ _ hs he => apart_step hs he)
      (s := State.start) (fun _ hr => absurd hr (by simp [State.start])) h
    rwa [run_append] at hrun
  refine ⟨fun r hlead id m m' hm hm' => ?_, hapart, fun r i rows hr hrows hmeets id v hv =>
    hydrated hr hmeets hrows hv⟩
  have hend : s'.leader = some r := hlead es' (prefix_refl _)
  rcases keeps_forward ((along_append step).mp h).2 hlead (Or.inl ⟨m, hm, .refl m⟩) with
    ⟨m'', hm'', hadv⟩ | hgone
  · obtain rfl := some.inj (hm''.symm.trans hm')
    exact hadv
  · rw [hapart r hend id hgone] at hm'
    cases hm'

def move : Id := JsString.ofString "00ff00ff00ff00ff"

def idle : Migration.Fleet := ⟨none, none⟩

def begun : List (Event Bool) :=
  [.lead true, .start true move false none 0, .send true, .deliver false 0 0]

/-- The leader gives it up and forgets it, and once the other has heard of that it takes over. -/
def handedOver : List (Event Bool) :=
  begun ++ [.sweep true move idle 400000, .sweep true move idle 500000, .send true, .send true,
    .deliver false 0 0, .deliver false 0 0, .stepDown, .lead false]

theorem moves_forward_handed_over :
    move ∈ (run step State.start (handedOver ++ [])).gone ∧
      (run step State.start (handedOver ++ [])).held false move = none := by
  have hgone : move ∈ (run step State.start (handedOver ++ [])).gone := by decide
  refine ⟨hgone, ?_⟩
  rw [run_append] at hgone ⊢
  exact (moves_forward handedOver [] (by decide)).2.1 false (by decide) move hgone

/-- The leader gives the move up and forgets it, and the news is lost. -/
def forgotten : List (Event Bool) :=
  begun ++ [.sweep true move idle 400000, .sweep true move idle 500000, .stepDown, .lead false]

/-- The leader gives the move up, and its scan tells the replica that takes over of it. -/
def behind : List (Event Bool) :=
  begun ++ [.sweep true move idle 400000, .send true, .stepDown, .lead false, .scan false 1,
    .hydrate false 1]

/-- The upload to the leader stalls, and the other replica takes it. -/
def stalled : List (Event Bool) :=
  begun ++ [.deliver true 0 0, .beginUpload true move, .beginUpload false move,
    .uploaded false move [] 1 [] (some move) 1000, .send false, .deliver true 0 1000,
    .sweep true move ⟨some move, none⟩ 2000]

theorem moves_go_back :
    (move ∈ (run step State.start forgotten).gone ∧
      (run step State.start forgotten).leader = some false ∧
      (run step State.start forgotten).held false move ≠ none) ∧
    (((run step State.start behind).store.get? move).map (·.phase) = some .failed ∧
      (run step State.start behind).leader = some false ∧
      ((run step State.start behind).held false move).map (·.phase) = some .exporting) ∧
    ((run step State.start stalled).leader = some true ∧
      ((run step State.start stalled).held true move).map (·.phase) = some .done ∧
      ((step (run step State.start stalled) (.uploadFailed true move true 3000)).held true move).map
        (·.phase) = some .failed) := by
  decide

end Turma.Migrations
