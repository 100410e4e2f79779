import Turma.EpicRun.Runs

/-! A live run is what the sanitiser makes of it: every member holds what its own check lets through,
and the members stand in the sanitiser's order, after any sequence of operations. -/

namespace Turma.EpicRun

open Turma.Lib Turma.Lib.Json List Option OrdMap

def Kept (ss : List JsString) : Prop := ss.length ≤ EPIC_RUN_CHILDREN_MAX ∧ ∀ s ∈ ss, s ≠ []

/-- The keys that the sanitiser does not cut. -/
def Short (n : ℕ) (s : JsString) : Prop := s ≠ [] ∧ s.length16 ≤ n

def RunOk : RunField → Option Json → Prop
  | .epicKey, x => ∃ s, x = some (.str s) ∧ Short 64 s
  | .siteKey, x => ∃ s, x = some (.str s) ∧ Short 200 s
  | .state, x => ∃ s ∈ EPIC_RUN_STATES, x = some (.str s)
  | .children, x => ∃ ss, x = some (strings ss) ∧ Kept ss
  | .waves, x => ∃ ws : List (List JsString), x = some (wavesJson ws) ∧
      ws.length ≤ EPIC_RUN_CHILDREN_MAX ∧ ∀ w ∈ ws, w ≠ [] ∧ Kept w
  | .startedAt, x | .updatedAt, x => ∃ n, x = some (.num n)
  | .cycle, x | .doneChildren, x => x = none ∨ ∃ ss, ss ≠ [] ∧ Kept ss ∧ x = some (strings ss)
  | .paused, x => x = none ∨ x = some (.bool true)
  | .maxConcurrent, x => ∀ v, x = some v → validEpicRunLimit v = true

structure RunFixed (r : Json) : Prop where
  object : r.objectish = true
  order : r.memberKeys.Sublist (runFields.map RunField.name)
  ok : ∀ f, RunOk f (get r f)

theorem name_injective : RunField.name.Injective := by
  have hall : ∀ f ∈ runFields, ∀ g ∈ runFields, f.name = g.name → f = g := by decide
  intro f g
  exact hall f (by cases f <;> decide) g (by cases g <;> decide)

theorem mem_runFields (f : RunField) : f ∈ runFields := by cases f <;> decide

theorem names_nodup : (runFields.map RunField.name).Nodup := by decide

theorem listOf_strings (ss : List JsString) : listOf (some (strings ss)) = ss := by
  rw [strings, listOf, JsonElements.toList_ofList, filterMap_map]
  exact filterMap_some

variable {ss : List JsString}

theorem strList_strings (h : Kept ss) : strList (some (strings ss)) = ss := by
  rw [strList, listOf_strings, filter_eq_self.mpr fun s hs => by simpa using h.2 s hs,
    take_of_length_le h.1]

variable {ws : List (List JsString)}

theorem wavesOf_wavesJson (hlength : ws.length ≤ EPIC_RUN_CHILDREN_MAX)
    (h : ∀ w ∈ ws, w ≠ [] ∧ Kept w) : wavesOf (some (wavesJson ws)) = ws := by
  have hlists : ∀ w ∈ ws, strList (some (strings w)) = w := fun w hw => strList_strings (h w hw).2
  have hmap : (ws.map strings).map (fun w => strList (some w)) = ws := by
    rw [List.map_map]
    exact (map_congr_left hlists).trans (List.map_id ws)
  rw [wavesJson, wavesOf, JsonElements.toList_ofList,
    take_of_length_le (by rwa [length_map]), hmap]
  exact filter_eq_self.mpr fun w hw => by simpa using (h w hw).1

theorem nonempty_strings (h : ss ≠ []) : nonempty ss = some (strings ss) :=
  if_neg h

variable {r : Json}

theorem sanitizedRun_fixed (h : RunFixed r) (now : JsNumber) (f : RunField) :
    sanitizedRun now r f = get r f := by
  have hok := h.ok f
  cases f with
  | epicKey =>
    obtain ⟨s, hs, -, hlength⟩ := hok
    rw [sanitizedRun, hs]
    exact congrArg (fun s => some (Json.str s)) (JsString.slice_of_le hlength)
  | siteKey =>
    obtain ⟨s, hs, -, hlength⟩ := hok
    rw [sanitizedRun, hs]
    exact congrArg (fun s => some (Json.str s)) (JsString.slice_of_le hlength)
  | state =>
    obtain ⟨s, hmem, hs⟩ := hok
    rw [sanitizedRun, hs]
    exact congrArg some (if_pos hmem)
  | children =>
    obtain ⟨ss, hs, hkept⟩ := hok
    rw [sanitizedRun, hs, strList_strings hkept]
  | waves =>
    obtain ⟨ws, hs, hlength, hkept⟩ := hok
    rw [sanitizedRun, hs, wavesOf_wavesJson hlength hkept]
  | startedAt =>
    obtain ⟨n, hn⟩ := hok
    rw [sanitizedRun, hn]
    rfl
  | updatedAt =>
    obtain ⟨n, hn⟩ := hok
    rw [sanitizedRun, hn]
    rfl
  | cycle =>
    rcases hok with hnone | ⟨ss, hne, hkept, hs⟩
    · rw [sanitizedRun, hnone]
      rfl
    · rw [sanitizedRun, hs, strList_strings hkept, nonempty_strings hne]
  | doneChildren =>
    rcases hok with hnone | ⟨ss, hne, hkept, hs⟩
    · rw [sanitizedRun, hnone]
      rfl
    · rw [sanitizedRun, hs, strList_strings hkept, nonempty_strings hne]
  | paused =>
    rcases hok with hnone | hpaused
    · rw [sanitizedRun, hnone, if_neg (by simp)]
    · rw [sanitizedRun, hpaused, if_pos rfl]
  | maxConcurrent =>
    rw [sanitizedRun]
    cases hlimit : get r .maxConcurrent with
    | none => rfl
    | some v => exact filter_some_pos (hok v hlimit)

theorem named_of_short {n : ℕ} {x : Option Json} (h : ∃ s, x = some (.str s) ∧ Short n s) :
    named x = true := by
  obtain ⟨s, rfl, hs, -⟩ := h
  exact decide_eq_true hs

/-- The sanitiser returns a run that it could have made itself. -/
theorem sanitizeEpicRunRecord_fixed (h : RunFixed r) (now : JsNumber) :
    sanitizeEpicRunRecord now r = some r := by
  rw [sanitizeEpicRunRecord, if_pos ⟨h.object, named_of_short (h.ok .epicKey), named_of_short (h.ok .siteKey)⟩,
    funext (sanitizedRun_fixed h now)]
  exact congrArg some (eq_orderedObject h.object names_nodup h.order)

/-- What an operation writes under `fs` is checked there; the rest stays. -/
theorem RunFixed.edited {r r' : Json} (h : RunFixed r) (fs : List RunField)
    (hedits : Edits (fs.map RunField.name) r r') (hok : ∀ f ∈ fs, RunOk f (get r' f))
    (horder : r'.memberKeys.Sublist (runFields.map RunField.name)) : RunFixed r' := by
  refine ⟨hedits.object.trans h.object, horder, fun f => ?_⟩
  by_cases hf : f ∈ fs
  · exact hok f hf
  · have hother : f.name ∉ fs.map RunField.name := fun hmem => by
      obtain ⟨g, hg, hname⟩ := List.mem_map.mp hmem
      exact hf (name_injective hname ▸ hg)
    rw [get, hedits.other _ hother]
    exact h.ok f

theorem get_assign_self (h : r.objectish = true) (f : RunField) (v : Json) :
    get (assign r f v) f = some v := field_put_self h

/-- Writing a member that is there leaves the order as it is. -/
theorem RunFixed.assigned {r v : Json} (h : RunFixed r) {f : RunField} (hf : (get r f).isSome = true)
    (hv : RunOk f (some v)) : RunFixed (assign r f v) := by
  obtain ⟨x, hx⟩ := isSome_iff_exists.mp hf
  refine h.edited [f] (edits_put r f.name v) (fun g hg => ?_) ?_
  · rw [mem_singleton.mp hg, get_assign_self h.object]
    exact hv
  · rw [memberKeys_put_mem (mem_memberKeys hx)]
    exact h.order

theorem RunFixed.without (h : RunFixed r) {f : RunField} (hf : RunOk f none) :
    RunFixed (r.without f.name) := by
  refine h.edited [f] (edits_without r f.name) (fun g hg => ?_) ?_
  · rw [mem_singleton.mp hg, get, field_without_self]
    exact hf
  · rw [memberKeys_without]
    exact filter_sublist.trans h.order

theorem RunFixed.stamped (h : RunFixed r) (now : JsNumber) :
    RunFixed (assign r .updatedAt (.num now)) := by
  obtain ⟨n, hn⟩ := h.ok .updatedAt
  exact h.assigned (isSome_of_eq_some hn) ⟨now, rfl⟩

theorem RunFixed.stated (h : RunFixed r) {s : JsString} (hs : s ∈ EPIC_RUN_STATES) :
    RunFixed (assign r .state (.str s)) := by
  obtain ⟨s', -, hs'⟩ := h.ok .state
  exact h.assigned (isSome_of_eq_some hs') ⟨s, hs, rfl⟩

theorem field_reassign (r : Json) (f : RunField) (k : JsString) :
    (reassign r f).field k = r.field k := by
  unfold reassign
  cases hf : get r f with
  | none => rfl
  | some v =>
    by_cases hk : k = f.name
    · rw [hk]
      exact (field_put_self (by rw [objectish_without]; exact objectish_of_field hf)).trans hf.symm
    · exact (field_put_ne hk _ v).trans (field_without_ne hk r)

theorem objectish_reassign (r : Json) (f : RunField) : (reassign r f).objectish = r.objectish := by
  unfold reassign
  cases get r f with
  | none => rfl
  | some v => rw [objectish_put, objectish_without]

theorem filter_absent_key {v : Json} {k : JsString} (h : v.field k = none) :
    v.memberKeys.filter (fun k' => k' ≠ k) = v.memberKeys :=
  filter_eq_self.mpr fun _ hk => decide_eq_true fun heq =>
    not_mem_memberKeys h (heq ▸ hk)

theorem memberKeys_reassign (r : Json) (f : RunField) : ∃ last : List JsString,
    last.Sublist [f.name] ∧
      (reassign r f).memberKeys = (r.memberKeys.filter fun k => k ≠ f.name) ++ last := by
  unfold reassign
  cases hf : get r f with
  | none =>
    refine ⟨[], nil_sublist _, ?_⟩
    rw [append_nil]
    exact (filter_absent_key hf).symm
  | some v =>
    refine ⟨[f.name], Sublist.refl _, ?_⟩
    rw [memberKeys_put_new (by rw [objectish_without]; exact objectish_of_field hf)
      (not_mem_memberKeys (field_without_self r f.name)), memberKeys_without]

def front (r : Json) : List JsString :=
  (r.memberKeys.filter fun k => k ≠ RunField.name .paused).filter fun k =>
    k ≠ RunField.name .maxConcurrent

def frontFields : List JsString :=
  (runFields.filter fun f => f ≠ .paused ∧ f ≠ .maxConcurrent).map RunField.name

theorem edits_orderEpicRunKeys (r : Json) : Edits [] r (orderEpicRunKeys r) := by
  refine ⟨?_, fun k _ => ?_⟩
  · simp only [orderEpicRunKeys, foldl_cons, foldl_nil, objectish_reassign]
  · simp only [orderEpicRunKeys, foldl_cons, foldl_nil, field_reassign]

/-- The reordering puts a run in order whose members in front are. -/
theorem orderEpicRunKeys_order (h : (front r).Sublist frontFields) :
    (orderEpicRunKeys r).memberKeys.Sublist (runFields.map RunField.name) := by
  obtain ⟨paused, hpaused, hkeys⟩ := memberKeys_reassign r .paused
  obtain ⟨limit, hlimit, hkeys'⟩ := memberKeys_reassign (reassign r .paused) .maxConcurrent
  have hall : (orderEpicRunKeys r).memberKeys =
      front r ++ (paused.filter fun k => k ≠ RunField.name .maxConcurrent) ++ limit := by
    simp only [orderEpicRunKeys, foldl_cons, foldl_nil, hkeys', hkeys, filter_append,
      front]
  rw [hall, show runFields.map RunField.name =
    frontFields ++ [RunField.name .paused] ++ [RunField.name .maxConcurrent] from by decide]
  exact ((h.append (filter_sublist.trans hpaused))).append hlimit

theorem RunFixed.front (h : RunFixed r) : (front r).Sublist frontFields := by
  have hfront := (h.order.filter fun k => k ≠ RunField.name .paused).filter fun k =>
    k ≠ RunField.name .maxConcurrent
  exact hfront.trans (by decide)

theorem front_assign {r v : Json} (h : RunFixed r) {f : RunField}
    (hf : f = .doneChildren ∨ f = .paused) : (front (assign r f v)).Sublist frontFields := by
  cases hx : get r f with
  | some x =>
    rw [EpicRun.front, memberKeys_put_mem (mem_memberKeys hx)]
    exact h.front
  | none =>
    rw [EpicRun.front, memberKeys_put_new h.object (not_mem_memberKeys hx)]
    rcases hf with rfl | rfl
    · -- the new member stands behind all of the others in front
      have hfront : (EpicRun.front r).Sublist
          (frontFields.filter fun k => k ≠ RunField.name .doneChildren) := by
        have hsub := h.front.filter fun k => k ≠ RunField.name .doneChildren
        have hself : (EpicRun.front r).filter (fun k => k ≠ RunField.name .doneChildren) =
            EpicRun.front r :=
          filter_eq_self.mpr fun k hk => decide_eq_true fun heq =>
            not_mem_memberKeys hx (heq ▸ (mem_filter.mp (mem_filter.mp hk).1).1)
        rwa [hself] at hsub
      simp only [filter_append]
      exact (hfront.append (Sublist.refl [RunField.name .doneChildren])).trans (by decide)
    · simp only [filter_append]
      rw [show ([RunField.name .paused].filter fun k => k ≠ RunField.name .paused) = [] from by decide,
        filter_nil, append_nil]
      exact h.front

theorem front_without (h : RunFixed r) (k : JsString) :
    (front (r.without k)).Sublist frontFields := by
  rw [EpicRun.front, memberKeys_without]
  exact ((filter_sublist.filter _).filter _).trans h.front

/-- An edited run in order again. -/
theorem RunFixed.reordered {r r' : Json} (h : RunFixed r) (f : RunField)
    (hedits : Edits [f.name] r r') (hok : RunOk f (get r' f)) (hfront : (EpicRun.front r').Sublist frontFields) :
    RunFixed (orderEpicRunKeys r') := by
  have hall := hedits.trans (edits_orderEpicRunKeys r')
  refine h.edited [f] hall (fun g hg => ?_) (orderEpicRunKeys_order hfront)
  rw [mem_singleton.mp hg, get, (edits_orderEpicRunKeys r').other _ not_mem_nil]
  exact hok

theorem kept_filter (h : Kept ss) (p : JsString → Bool) : Kept (ss.filter p) :=
  ⟨(length_filter_le p ss).trans h.1, fun s hs => h.2 s (mem_filter.mp hs).1⟩

theorem RunFixed.children (h : RunFixed r) : Kept (listOf (get r .children)) := by
  obtain ⟨ss, hs, hkept⟩ := h.ok .children
  rw [hs, listOf_strings]
  exact hkept

theorem RunFixed.noted (h : RunFixed r) (rows : Rows) :
    RunFixed (noteEpicRunDoneChildren r rows).1 := by
  unfold noteEpicRunDoneChildren
  dsimp only
  split_ifs with hsame hempty
  · exact h
  · refine h.reordered .doneChildren (edits_put r _ _) ?_ (front_assign h (.inl rfl))
    rw [get_assign_self h.object]
    exact .inr ⟨_, hempty, kept_filter h.children _, rfl⟩
  · refine h.reordered .doneChildren (edits_without r _) ?_ (front_without h _)
    rw [get, field_without_self]
    exact .inl rfl

theorem RunFixed.advanced (h : RunFixed r) (rows : Rows) (now : JsNumber) :
    RunFixed (advanceEpicRunState r rows now) := by
  have hnoted := h.noted rows
  unfold advanceEpicRunState
  dsimp only
  split_ifs with hcycle hsame hsame hdone hsame
  · exact hnoted
  · obtain ⟨s, hs, hstate⟩ := hnoted.ok .state
    rw [hstate, getD_some]
    exact (hnoted.stated hs).stamped now
  · exact hnoted
  · exact (hnoted.stated (by decide)).stamped now
  · exact hnoted
  · exact (hnoted.stated (by decide)).stamped now

theorem RunFixed.driven (h : RunFixed r) (rows : Rows) (now : JsNumber) :
    RunFixed (driveEpicRun r rows now) := by
  unfold driveEpicRun
  split_ifs
  · exact h
  · exact h.noted rows
  · exact h.advanced rows now

theorem RunFixed.setPaused (h : RunFixed r) (want : Bool) (now : JsNumber) :
    RunFixed (setEpicRunPaused r want now) := by
  unfold setEpicRunPaused
  split_ifs
  · exact h
  · refine (h.reordered .paused (edits_put r _ _) ?_ (front_assign h (.inr rfl))).stamped now
    rw [get_assign_self h.object]
    exact .inr rfl
  · refine (h.reordered .paused (edits_without r _) ?_ (front_without h _)).stamped now
    rw [get, field_without_self]
    exact .inl rfl

theorem RunFixed.setLimit (h : RunFixed r) (limit : Json) (now : JsNumber) :
    RunFixed (setEpicRunLimit r limit now) := by
  unfold setEpicRunLimit
  dsimp only
  split_ifs with hvalid hsame hsame
  · exact h
  · refine RunFixed.stamped (h.edited [.maxConcurrent] (edits_put r _ limit) (fun f hf => ?_) ?_) now
    · rw [mem_singleton.mp hf, get_assign_self h.object]
      exact fun v hv => some.inj hv ▸ hvalid
    · cases hx : get r .maxConcurrent with
      | some x =>
        rw [memberKeys_put_mem (mem_memberKeys hx)]
        exact h.order
      | none =>
        refine sublist_put_last runFields.dropLast [] h.object h.order fun g hg => ?_
        rw [mem_singleton.mp hg]
        exact hx
  · exact h
  · exact RunFixed.stamped (h.without (f := .maxConcurrent) fun _ hv => absurd hv (by simp)) now

theorem RunFixed.completed (h : RunFixed r) (now : JsNumber) :
    RunFixed (completeEpicRun r now) := by
  unfold completeEpicRun
  split_ifs
  · exact h
  · exact (h.stated (by decide)).stamped now

theorem waveOf_sublist (blockers : JsString → List JsString) (placed remaining : List JsString) :
    (waveOf blockers placed remaining).Sublist remaining := filter_sublist

/-- The waves hold distinct keys of those that were to be placed, none of them twice. -/
theorem layer_spec (blockers : JsString → List JsString) (placed remaining : List JsString)
    (h : remaining.Nodup) : (layer blockers placed remaining).1.flatten.Nodup ∧
      (∀ k ∈ (layer blockers placed remaining).1.flatten, k ∈ remaining) ∧
      (layer blockers placed remaining).2.Sublist remaining := by
  fun_induction layer blockers placed remaining with
  | case1 placed remaining wave hwave => 
    exact ⟨nodup_nil, fun _ hk => absurd hk not_mem_nil, Sublist.refl _⟩
  | case2 placed remaining wave hwave rest ih =>
    have hsub : (unplaced (placed ++ wave) remaining).Sublist remaining := filter_sublist
    obtain ⟨hnodup, hmem, hcycle⟩ := ih (h.sublist hsub)
    refine ⟨?_, fun k hk => ?_, hcycle.trans hsub⟩
    · rw [flatten_cons]
      refine nodup_append.mpr ⟨h.sublist (waveOf_sublist ..), hnodup, fun a ha b hb hab => ?_⟩
      have hb' := (mem_filter.mp (hmem b hb)).2
      rw [decide_eq_true_eq] at hb'
      exact hb' (mem_append_right _ (hab ▸ ha))
    · rw [flatten_cons, mem_append] at hk
      rcases hk with hk | hk
      · exact (waveOf_sublist ..).subset hk
      · exact hsub.subset (hmem k hk)

theorem dedupe_nodup (ss : List JsString) : (dedupe ss).Nodup :=
  nodup_reverse.mpr (nodup_dedup _)

theorem mem_dedupe {s : JsString} : s ∈ dedupe ss ↔ s ∈ ss := by
  simp [dedupe]

theorem buildEpicWaves_spec (kids : List Row) : (buildEpicWaves kids).1.flatten.Nodup ∧
    (∀ k ∈ (buildEpicWaves kids).1.flatten, k ∈ kids.map Row.key) ∧
    (buildEpicWaves kids).2.Nodup := by
  obtain ⟨hnodup, hmem, hcycle⟩ := layer_spec
    (blockersOf kids (dedupe ((kids.map Row.key).filter fun k => k ≠ []))) []
    (dedupe ((kids.map Row.key).filter fun k => k ≠ [])) (dedupe_nodup _)
  refine ⟨hnodup, fun k hk => ?_, (dedupe_nodup _).sublist hcycle⟩
  exact (mem_filter.mp (mem_dedupe.mp (hmem k hk))).1

/-- Waves of distinct children, none of them empty. -/
def WavesIn (children : List JsString) (ws : List (List JsString)) : Prop :=
  (∀ w ∈ ws, w ≠ []) ∧ ws.flatten.Nodup ∧ ∀ k ∈ ws.flatten, k ∈ children

theorem length_le_flatten (h : ∀ w ∈ ws, w ≠ []) :
    ws.length ≤ ws.flatten.length := by
  induction ws with
  | nil => exact le_refl _
  | cons w ws ih =>
    have hw := length_pos_iff.mpr (h w (mem_cons_self ..))
    have hrest := ih fun w' hw' => h w' (.tail _ hw')
    rw [flatten_cons, length_append, length_cons]
    omega

theorem WavesIn.ok {children : List JsString} (h : WavesIn children ws)
    (hchildren : Kept children) : RunOk .waves (some (wavesJson ws)) := by
  obtain ⟨hne, hnodup, hmem⟩ := h
  have hlength : ws.flatten.length ≤ EPIC_RUN_CHILDREN_MAX :=
    (hnodup.subperm hmem).length_le.trans hchildren.1
  refine ⟨ws, rfl, (length_le_flatten hne).trans hlength, fun w hw => ⟨hne w hw, ?_, fun s hs => ?_⟩⟩
  · exact (sublist_flatten_of_mem hw).length_le.trans hlength
  · exact hchildren.2 s (hmem s (mem_flatten.mpr ⟨w, hw, hs⟩))

theorem flatten_filtered (ws : List (List JsString)) (p : JsString → Bool) :
    ((ws.map fun w => w.filter p).filter fun w => w ≠ []).flatten = ws.flatten.filter p := by
  induction ws with
  | nil => rfl
  | cons w ws ih =>
    rw [map_cons, flatten_cons, filter_append, ← ih]
    by_cases hw : w.filter p = []
    · rw [filter_cons_of_neg (by simpa using hw), hw, nil_append]
    · rw [filter_cons_of_pos (by simpa using hw), flatten_cons]

theorem onBoard_of_child {siteKey epicKey : JsString} {rows : Rows} {k : JsString}
    (h : k ∈ (epicChildRows siteKey epicKey rows).map Row.key) :
    (rows.map.get? (ticketQueueKey siteKey k)).isSome = true := by
  obtain ⟨row, hrow, rfl⟩ := List.mem_map.mp h
  obtain ⟨hvalue, hsite⟩ := mem_filter.mp hrow
  obtain ⟨e, he, rfl⟩ := List.mem_map.mp hvalue
  simp only [decide_eq_true_eq] at hsite
  have hkey := rows.keyed e he
  rw [hsite.1] at hkey
  have hget : rows.map.get? (ticketQueueKey siteKey e.2.key) = some e.2 := by
    rw [← hkey]
    exact get?_eq_some.mpr he
  exact isSome_of_eq_some hget

/-- What a run is rebuilt as is within the bounds of the sanitiser. -/
theorem planOf_ok (siteKey epicKey : JsString) (rows : Rows) (prev : Option Json) :
    Kept (planOf siteKey epicKey rows prev).children ∧
      WavesIn (planOf siteKey epicKey rows prev).children (planOf siteKey epicKey rows prev).waves ∧
      Kept (planOf siteKey epicKey rows prev).cycle ∧
      Kept (planOf siteKey epicKey rows prev).doneChildren := by
  obtain ⟨hnodup, hboard, hcycle⟩ := buildEpicWaves_spec (epicChildRows siteKey epicKey rows)
  unfold planOf
  dsimp only
  generalize hkept : ((listOf (prev.bind fun p => get p .children)).filter fun key =>
    decide ((rows.map.get? (ticketQueueKey siteKey key)).isSome = false)) = kept
  generalize hchildren : (dedupe (((epicChildRows siteKey epicKey rows).map Row.key ++ kept).filter
    fun c => c ≠ [])).take EPIC_RUN_CHILDREN_MAX = children
  have hchildrenKept : Kept children := by
    rw [← hchildren]
    refine ⟨length_take_le _ _, fun s hs => ?_⟩
    have hmem := (mem_filter.mp (mem_dedupe.mp (mem_of_mem_take hs))).2
    simpa using hmem
  have hwaves : WavesIn children (((buildEpicWaves (epicChildRows siteKey epicKey rows)).1.map fun w =>
      w.filter fun c => c ∈ children).filter fun w => w ≠ []) := by
    refine ⟨fun w hw => by simpa using (mem_filter.mp hw).2, ?_, fun k hk => ?_⟩
    · rw [flatten_filtered]
      exact hnodup.filter _
    · rw [flatten_filtered] at hk
      simpa using (mem_filter.mp hk).2
  refine ⟨hchildrenKept, ?_, ⟨?_, fun s hs => ?_⟩, kept_filter hchildrenKept _⟩
  · split_ifs with hempty
    · exact hwaves
    · -- a child that is kept stands on no row, so it stands in no wave
      have hset : ∀ k ∈ dedupe (kept.filter fun c => c ∈ children), k ∈ children ∧ k ∈ kept :=
        fun k hk => by
          have hmem := mem_filter.mp (mem_dedupe.mp hk)
          exact ⟨by simpa using hmem.2, hmem.1⟩
      have hflat : ∀ ws : List (List JsString), ws.flatten = (((buildEpicWaves
          (epicChildRows siteKey epicKey rows)).1.map fun w => w.filter fun c => c ∈ children).filter
            fun w => w ≠ []).flatten → (∀ w ∈ ws, w ≠ []) →
          ∀ xs, xs.flatten = dedupe (kept.filter fun c => c ∈ children) ++ ws.flatten →
            (∀ w ∈ xs, w ≠ []) → WavesIn children xs := by
        intro ws hws _ xs hxs hne
        refine ⟨hne, ?_, fun k hk => ?_⟩
        · rw [hxs]
          refine nodup_append.mpr ⟨dedupe_nodup _, hws ▸ hwaves.2.1, fun a ha b hb hab => ?_⟩
          rw [hws, flatten_filtered] at hb
          have hon := onBoard_of_child (hboard b (mem_filter.mp hb).1)
          have hoff := (hset a ha).2
          rw [← hkept] at hoff
          have hoff' := (mem_filter.mp hoff).2
          rw [decide_eq_true_eq, hab, hon] at hoff'
          exact nomatch hoff'
        · rw [hxs, mem_append] at hk
          rcases hk with hk | hk
          · exact (hset k hk).1
          · exact hwaves.2.2 k (hws ▸ hk)
      split
      · next w ws heq =>
        refine hflat (w :: ws) (congrArg List.flatten heq).symm (fun w' hw' => ?_) _ ?_ fun w' hw' => ?_
        · exact hwaves.1 w' (heq ▸ hw')
        · rw [flatten_cons, flatten_cons, append_assoc]
        · rcases mem_cons.mp hw' with rfl | hw'
          · exact fun h => hempty (append_eq_nil_iff.mp h).1
          · exact hwaves.1 w' (heq ▸ .tail _ hw')
      · next heq =>
        refine hflat [] (congrArg List.flatten heq).symm (fun w hw => nomatch hw) _ ?_ fun w hw => ?_
        · simp
        · rw [mem_singleton.mp hw]
          exact hempty
  · have hsub : ((buildEpicWaves (epicChildRows siteKey epicKey rows)).2.filter fun c =>
        decide (c ∈ children)) ⊆ children := fun c hc => by simpa using (mem_filter.mp hc).2
    exact ((hcycle.filter _).subperm hsub).length_le.trans hchildrenKept.1
  · exact hchildrenKept.2 s (by simpa using (mem_filter.mp hs).2)

theorem nonempty_ok (h : Kept ss) :
    nonempty ss = none ∨ ∃ ss', ss' ≠ [] ∧ Kept ss' ∧ nonempty ss = some (strings ss') := by
  by_cases hne : ss = []
  · exact .inl (if_pos hne)
  · exact .inr ⟨ss, hne, h, if_neg hne⟩

theorem timeOr_num (now : JsNumber) (x : Option Json) : ∃ n, timeOr now x = .num n := by
  unfold timeOr
  split
  · exact ⟨_, rfl⟩
  · exact ⟨now, rfl⟩

theorem armEpicRun_fixed {siteKey epicKey : JsString} (hsite : Short 200 siteKey)
    (hepic : Short 64 epicKey) (rows : Rows) (prev : Option Json) (opts : Option Json) (now : JsNumber) :
    RunFixed (armEpicRun siteKey epicKey rows prev opts now) := by
  unfold armEpicRun
  generalize (prev.map fun p => (noteEpicRunDoneChildren p rows).1) = prev
  obtain ⟨hchildren, hwaves, hcycle, hdone⟩ := planOf_ok siteKey epicKey rows prev
  refine ⟨rfl, memberKeys_orderedObject, fun f => ?_⟩
  rw [get, field_orderedObject name_injective (mem_runFields f)]
  cases f with
  | epicKey => exact ⟨epicKey, rfl, hepic⟩
  | siteKey => exact ⟨siteKey, rfl, hsite⟩
  | state =>
    refine ⟨_, ?_, rfl⟩
    unfold Plan.state
    split_ifs <;> decide
  | children => exact ⟨_, rfl, hchildren⟩
  | waves => exact hwaves.ok hchildren
  | startedAt =>
    obtain ⟨n, hn⟩ := timeOr_num now (prev.bind fun r => get r .startedAt)
    exact ⟨n, congrArg some hn⟩
  | updatedAt => exact ⟨now, rfl⟩
  | cycle => exact nonempty_ok hcycle
  | doneChildren => exact nonempty_ok hdone
  | paused =>
    rw [armed]
    split_ifs
    · exact .inr rfl
    · exact .inl rfl
  | maxConcurrent =>
    intro v hv
    exact (filter_eq_some_iff.mp hv).2

/-- An epic is armed under keys that the sanitiser keeps whole. -/
def RunEvent.Within : RunEvent → Prop
  | .arm siteKey epicKey _ _ _ _ => Short 200 siteKey ∧ Short 64 epicKey
  | _ => True

def AllFixed (epicRuns : EpicRuns) : Prop := ∀ k r, epicRuns.get? k = some r → RunFixed r

variable {epicRuns : EpicRuns}

theorem AllFixed.adjust (h : AllFixed epicRuns) (key : JsString)
    {f : Json → Json} (hf : ∀ r, RunFixed r → RunFixed (f r)) : AllFixed (epicRuns.adjust key f) := by
  intro k r hr
  rw [get?_adjust] at hr
  split_ifs at hr with hk
  · obtain ⟨r', hr', rfl⟩ := map_eq_some_iff.mp hr
    exact hf r' (h k r' hr')
  · exact h k r hr

theorem AllFixed.step (h : AllFixed epicRuns) {e : RunEvent} (he : e.Within) :
    AllFixed (epicRunStep epicRuns e) := by
  cases e with
  | arm siteKey epicKey rows opts now evicted =>
    intro k r hr
    rw [epicRunStep, get?_filterKeys] at hr
    split_ifs at hr with hkeep
    rw [get?_upsert] at hr
    split_ifs at hr with hk
    · rw [← some.inj hr]
      exact armEpicRun_fixed he.1 he.2 rows _ opts now
    · exact h k r hr
  | clear siteKey epicKey =>
    intro k r hr
    rw [epicRunStep, get?_erase] at hr
    split_ifs at hr with hk
    exact h k r hr
  | pause siteKey epicKey want now => exact h.adjust _ fun r hr => hr.setPaused want now
  | limit siteKey epicKey limit now => exact h.adjust _ fun r hr => hr.setLimit limit now
  | drive key rows now => exact h.adjust _ fun r hr => hr.driven rows now
  | complete key now => exact h.adjust _ fun r hr => hr.completed now

/-- Every run of the map is fixed after every sequence of events. -/
theorem allFixed_run {events : List RunEvent} (h : ∀ e ∈ events, e.Within) :
    AllFixed (events.foldl epicRunStep OrdMap.empty) := by
  induction events using List.reverseRecOn with
  | nil => exact fun k r hr => nomatch hr
  | append_singleton events e ih =>
    rw [foldl_append]
    exact (ih fun e' he' => h e' (mem_append_left _ he')).step
      (h e (mem_append_right _ (mem_singleton_self e)))

end Turma.EpicRun
