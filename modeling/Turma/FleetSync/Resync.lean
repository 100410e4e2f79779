import Turma.FleetSync.Kept

/-! A promotion re-sync never drops a queued command. -/

namespace Turma.FleetSync

open Turma.Lib List OrdMap

variable {ρ α κ : Type} {s : State ρ α κ} {r w : ρ} {h k : Host} {v : Write ρ α κ} {i : ℕ}

theorem safe_start (r : ρ) (h : Host) : Safe (State.start : State ρ α κ) r h where
  own := {
    kept := by simp [Node.slot, State.start]
    outbox := by simp [Node.slot, State.start]
    inbox := by simp [Node.slot, State.start]
    removed := by simp [Node.slot, State.start]
    last := by simp [Node.slot, State.start]
    store := Or.inr (Or.inr (Or.inr (by simp [State.start])))
    resync := by simp [Node.slot, State.start]
    rows := by simp [Node.slot, State.start] }
  toward w hw := {
    outbox := by simp [Node.slot, State.start]
    pending := by simp [Node.slot, State.start] }

theorem slot_setInbox (n : Node ρ α κ) (k h : Host) (vs : List (Write ρ α κ)) :
    Node.slot { n with inbox := Function.update n.inbox k vs } h =
      if h = k then { n.slot h with inbox := vs } else n.slot h := by
  by_cases hk : h = k
  · subst hk
    simp [Node.slot]
  · simp [Node.slot, hk]

variable [DecidableEq ρ]

theorem safe_change (hs : Safe s r h) (hupto : UpToDate s w k) {rest : α} {keep : κ → Bool}
    {new : Option κ} (hquiet : new ≠ none → Quiet s w k) :
    Safe (s.onNode w fun n => n.change k rest keep new) r h := by
  by_cases hk : h = k
  · subst hk
    have hslot : ∀ n : Node ρ α κ, (n.change h rest keep new).slot h = (n.slot h).change keep new :=
      fun n => by rw [slot_change, if_pos rfl]
    refine hs.onNode (fun hr => ?_) fun hr => ?_
    · subst hr
      rw [hslot]
      refine ⟨hs.own.change (fun hnew => (hquiet hnew).2.2) fun hnew => (hquiet hnew).2.1, ?_⟩
      intro w' hw'
      rw [show ((s.nodes r).change h rest keep new).mine h =
        ((s.nodes r).mine h).filter keep ++ new.toList by simp [Node.change]]
      cases hnew : new with
      | none =>
        refine (hs.toward w' hw').mono ?_
        simp
      | some c =>
        obtain ⟨hdirty, hremoved, hout⟩ := (hquiet (by simp [hnew])).1 w' hw'
        refine ⟨fun v hv => ?_, fun hp => ?_⟩
        · rw [show ((s.nodes w').slot h).outbox = [] from hout] at hv
          cases hv
        · simp [Node.slot, hdirty, hremoved] at hp
    · rw [hslot]
      exact (hs.toward w (Ne.symm hr)).change fun c hc => hupto r hr c hc
  · exact hs.elsewhere (by rw [slot_change, if_neg hk])

theorem safe_remove (hs : Safe s r h) (hupto : UpToDate s w k) :
    Safe (s.onNode w fun n => n.remove k) r h := by
  by_cases hk : h = k
  · subst hk
    have hslot : ∀ n : Node ρ α κ, (n.remove h).slot h = (n.slot h).remove :=
      fun n => by rw [slot_remove, if_pos rfl]
    refine hs.shrink (fun hr => ?_) ?_ fun hr => ?_
    · rw [hslot]
      exact hs.own.remove
    · simp [Node.remove]
    · rw [hslot]
      exact (hs.toward w (Ne.symm hr)).remove fun c hc => hupto r hr c hc
  · exact hs.elsewhere (by rw [slot_remove, if_neg hk])

theorem safe_flush (hs : Safe s r h) : Safe (s.onNode w fun n => n.flushAgentsToStore w) r h := by
  refine hs.shrink (fun hr => ?_) (List.Subset.refl _) fun hr => ?_
  · subst hr
    rw [slot_flush]
    exact hs.own.flushes
  · rw [slot_flush]
    exact (hs.toward w (Ne.symm hr)).flushes

theorem safe_resync (hs : Safe s r h) : Safe (s.onNode w fun n => n.beginResync w) r h := by
  have hslot : ∀ n : Node ρ α κ, (n.beginResync w).slot h =
      { (n.slot h).flush (n.flushes w h) with
        resyncs := (n.slot h).resyncs ++ [(n.localWriteGen h, none)] } := by
    intro n
    rw [← slot_flush]
    simp [Node.slot, Node.beginResync, Node.flushAgentsToStore]
  refine hs.shrink (fun hr => ?_) (List.Subset.refl _) fun hr => ?_
  · subst hr
    rw [hslot]
    exact hs.own.flushes.resyncing rfl rfl rfl
  · rw [hslot]
    exact (hs.toward w (Ne.symm hr)).flushes.of_eq (List.Subset.refl _) rfl rfl (List.Subset.refl _)

/-- The node of every replica once a write of `w` has landed. -/
theorem nodes_land (s : State ρ α κ) (w r : ρ) (k : Host) (v : Write ρ α κ) :
    (((s.settle w k).write k v).nodes r).slot h =
      if h = k then
        { (s.nodes r).slot h with
          outbox := if r = w then ((s.nodes r).outbox h).tail else (s.nodes r).outbox h
          inbox := (s.nodes r).inbox h ++ [v] }
      else (s.nodes r).slot h := by
  by_cases hr : r = w
  · subst hr
    by_cases hk : h = k
    · subst hk
      simp [State.settle, State.write, State.onNode, Node.slot]
    · simp [State.settle, State.write, State.onNode, Node.slot, hk]
  · by_cases hk : h = k
    · subst hk
      simp [State.settle, State.write, State.onNode, Node.slot, hr]
    · simp [State.settle, State.write, State.onNode, Node.slot, hr, hk]

theorem safe_land (hs : Safe s r h) : Safe (s.landStep w k) r h := by
  unfold State.landStep
  split
  · exact hs
  rename_i v rest hout
  have hmine : (((s.settle w k).write k v).nodes r).mine h = (s.nodes r).mine h := by
    have := congrArg Slot.mine (nodes_land (h := h) s w r k v)
    split at this <;> exact this
  have hbehind : ((s.settle w k).write k v).behind r h = if h = k then false else s.behind r h := rfl
  have hstore : ((s.settle w k).write k v).store.get? h =
      if h = k then v.record.elim none fun _ => some v else s.store.get? h := by
    show (v.record.elim (s.store.erase k) fun _ => s.store.upsert k fun _ => v).get? h = _
    cases v.record with
    | none => simp [get?_erase]
    | some a => simp [get?_upsert]
  by_cases hk : h = k
  · subst hk
    rw [if_pos rfl] at hbehind hstore
    refine ⟨?_, fun w' hw' => ?_⟩
    · rw [nodes_land, if_pos rfl, hbehind, hstore]
      by_cases hr : r = w
      · subst hr
        have hlanded := hs.own.landed (show ((s.nodes r).slot h).outbox = v :: rest from hout)
        simpa [hout, Node.slot] using hlanded
      · have hknown := (hs.toward w (Ne.symm hr)).outbox v (by
          rw [show ((s.nodes w).slot h).outbox = v :: rest from hout]
          exact mem_cons_self)
        have hcovers : Covers r ((s.nodes r).slot h).mine v :=
          ⟨fun heq => absurd (heq.symm.trans hknown.1) hr, fun _ => hknown.2⟩
        simpa [hr, Node.slot] using hs.own.heard hcovers
    · rw [nodes_land, if_pos rfl, hmine]
      refine (hs.toward w' hw').of_eq ?_ rfl rfl (List.Subset.refl _)
      simp only
      split
      · exact tail_subset _
      · exact List.Subset.refl _
  · rw [if_neg hk] at hbehind hstore
    refine ⟨?_, fun w' hw' => ?_⟩
    · rw [nodes_land, if_neg hk, hbehind, hstore]
      exact hs.own
    · rw [nodes_land, if_neg hk, hmine]
      exact hs.toward w' hw'

theorem safe_lose (hs : Safe s r h) : Safe (s.loseStep w k) r h := by
  unfold State.loseStep
  split
  · exact hs
  rename_i v rest hout
  have hslot : ∀ r', ((s.settle w k).nodes r').slot h =
      if r' = w ∧ h = k then { (s.nodes r').slot h with outbox := ((s.nodes r').outbox h).tail }
      else (s.nodes r').slot h := by
    intro r'
    by_cases hr : r' = w
    · subst hr
      by_cases hk : h = k
      · subst hk
        simp [State.settle, State.onNode, Node.slot]
      · simp [State.settle, State.onNode, Node.slot, hk]
    · simp [State.settle, State.onNode, hr]
  have hmine : ((s.settle w k).nodes r).mine h = (s.nodes r).mine h := by
    have := congrArg Slot.mine (hslot r)
    split at this <;> exact this
  refine ⟨?_, fun w' hw' => ?_⟩
  · show Own r (s.store.get? h) (if r = w ∧ h = k then true else s.behind r h)
      (((s.settle w k).nodes r).slot h)
    rw [hslot]
    split
    · rename_i heq
      obtain ⟨rfl, rfl⟩ := heq
      have hlost := hs.own.lost (show ((s.nodes r).slot h).outbox = v :: rest from hout)
      simpa [hout] using hlost
    · exact hs.own
  · rw [hslot, hmine]
    split
    · refine (hs.toward w' hw').of_eq (tail_subset _) rfl rfl (List.Subset.refl _)
    · exact hs.toward w' hw'

theorem safe_drop (hs : Safe s r h) : Safe (s.onNode w fun n =>
    { n with inbox := Function.update n.inbox k (n.inbox k).tail }) r h := by
  by_cases hk : h = k
  · subst hk
    refine hs.shrink (fun hr => ?_) (List.Subset.refl _) fun hr => ?_
    · rw [slot_setInbox, if_pos rfl]
      exact hs.own.setInbox (tail_subset _)
    · rw [slot_setInbox, if_pos rfl]
      exact (hs.toward w (Ne.symm hr)).of_eq (List.Subset.refl _) rfl rfl (List.Subset.refl _)
  · exact hs.elsewhere (by rw [slot_setInbox, if_neg hk])

/-- The re-syncs of the replica that are left, or answered now. -/
theorem safe_setResyncs (hs : Safe s r h) {f : List (Resync ρ α κ) → List (Resync ρ α κ)}
    (hf : r = w → ∀ y ∈ f (s.nodes r).resyncs, y ∈ (s.nodes r).resyncs ∨
      (∃ z ∈ (s.nodes r).resyncs, z.genAtStart = y.genAtStart) ∧
      ∀ rows v, y.rows = some rows → rows.get? h = some v →
        (s.nodes r).localWriteGen h = y.genAtStart h → Covers r ((s.nodes r).mine h) v) :
    Safe (s.onNode w fun n => { n with resyncs := f n.resyncs }) r h := by
  refine hs.shrink (fun hr => ?_) (List.Subset.refl _) fun hr => ?_
  · refine hs.own.setResyncs (m := (f (s.nodes r).resyncs).map fun y =>
      (y.genAtStart h, y.rows.map fun rows => rows.get? h)) fun y hy => ?_
    obtain ⟨z, hz, rfl⟩ := mem_map.mp hy
    rcases hf hr z hz with hz | ⟨⟨z', hz', heq⟩, hcovers⟩
    · exact Or.inl (mem_map_of_mem hz)
    · refine Or.inr ⟨⟨_, mem_map_of_mem hz', by rw [heq]⟩, fun v hv hgen => ?_⟩
      obtain ⟨rows, hrows, hrow⟩ := Option.map_eq_some_iff.mp hv
      exact hcovers rows v hrows hrow hgen
  · exact (hs.toward w (Ne.symm hr)).of_eq (List.Subset.refl _) rfl rfl (List.Subset.refl _)

theorem safe_scan (hs : Safe s r h) (hm : Meets s (.scan w i)) : Safe (s.scanStep w i) r h := by
  unfold State.scanStep
  split
  · exact hs
  rename_i y hy
  split
  · refine safe_setResyncs (f := fun ys => ys.set i { y with rows := some s.store }) hs
      fun hr z hz => ?_
    subst hr
    rcases mem_or_eq_of_mem_set hz with hz | rfl
    · exact Or.inl hz
    · refine Or.inr ⟨⟨y, mem_of_getElem? hy, rfl⟩, fun rows v hrows hv hgen => ?_⟩
      cases hrows
      obtain ⟨hout, hbehind⟩ := hm y hy h (OrdMap.mem_keys.mpr ⟨v, hv⟩) hgen
      have hresync := hs.own.resync _ (mem_map_of_mem (mem_of_getElem? hy))
      rcases hs.own.store with hd | hne | hb | hcovers
      · exact absurd (hd.symm.trans (hresync.2 hgen.symm)) (by simp)
      · exact absurd hout hne
      · exact absurd (hb.symm.trans hbehind) (by simp)
      · exact hcovers v hv
  · exact hs

variable [DecidableEq κ]

theorem safe_apply (hs : Safe s r h) : Safe (s.applyStep w i) r h := by
  unfold State.applyStep
  split
  · exact hs
  rename_i y hy
  split
  · exact hs
  rename_i rows hrows
  have herase : (Node.slot { s.nodes w with resyncs := (s.nodes w).resyncs.eraseIdx i } h) =
      { (s.nodes w).slot h with resyncs := ((s.nodes w).resyncs.eraseIdx i).map fun y =>
        (y.genAtStart h, y.rows.map fun rows => rows.get? h) } := rfl
  have hslot := slot_applyRows (r := w) (k := h) (n := { s.nodes w with
    resyncs := (s.nodes w).resyncs.eraseIdx i }) y.genAtStart rows
  rw [herase] at hslot
  refine hs.shrink (fun hr => ?_) ?_ fun hr => ?_
  · subst hr
    have hown := hs.own.setResyncs (m := ((s.nodes r).resyncs.eraseIdx i).map fun y =>
      (y.genAtStart h, y.rows.map fun rows => rows.get? h)) fun z hz => by
        obtain ⟨z', hz', rfl⟩ := mem_map.mp hz
        exact Or.inl (mem_map_of_mem ((eraseIdx_sublist _ _).subset hz'))
    rcases hslot with hslot | ⟨v, hv, hgen, hslot⟩
    · rw [hslot]
      exact hown
    · rw [hslot]
      refine hown.applied ?_
      refine hs.own.rows _ (mem_map_of_mem (mem_of_getElem? hy)) v ?_ hgen
      simp [hrows, hv]
  · rcases hslot with hslot | ⟨v, -, -, hslot⟩
    · exact fun c hc => (congrArg (c ∈ Slot.mine ·) hslot).mp hc
    · exact fun c hc => left_subset _ _ _ ((congrArg (c ∈ Slot.mine ·) hslot).mp hc)
  · rcases hslot with hslot | ⟨v, -, -, hslot⟩
    · rw [hslot]
      exact (hs.toward w (Ne.symm hr)).of_eq (List.Subset.refl _) rfl rfl (List.Subset.refl _)
    · rw [hslot]
      exact (hs.toward w (Ne.symm hr)).of_eq (List.Subset.refl _) rfl rfl
        (subset_append_left _ _)

variable [DecidableEq α]

theorem safe_deliver (hs : Safe s r h) : Safe (s.deliverStep w k) r h := by
  unfold State.deliverStep
  split
  · exact hs
  rename_i v rest hin
  have hslot := slot_watch (n := { s.nodes w with
    inbox := Function.update (s.nodes w).inbox k rest }) (r := w) (h := k) (v := v) (k := h)
  rw [slot_setInbox] at hslot
  by_cases hk : h = k
  · subst hk
    rw [if_pos rfl] at hslot
    have hsub : rest ⊆ ((s.nodes w).slot h).inbox := by
      rw [show ((s.nodes w).slot h).inbox = v :: rest from hin]
      exact subset_cons_self _ _
    refine hs.shrink (fun hr => ?_) ?_ fun hr => ?_
    · subst hr
      have hown := hs.own.setInbox hsub
      rcases hslot with hslot | ⟨-, hwriter, hslot⟩
      · rw [hslot]
        exact hown
      · rw [hslot]
        refine hown.applied ?_
        have hv := hs.own.inbox v (by
          rw [show ((s.nodes r).slot h).inbox = v :: rest from hin]
          exact mem_cons_self)
        rcases hv with hv | ⟨hw, hsome⟩
        · exact hv
        · rw [hwriter hw] at hsome
          cases hsome
    · rcases hslot with hslot | ⟨-, -, hslot⟩
      · exact fun c hc => (congrArg (c ∈ Slot.mine ·) hslot).mp hc
      · exact fun c hc => left_subset _ _ _ ((congrArg (c ∈ Slot.mine ·) hslot).mp hc)
    · rcases hslot with hslot | ⟨-, -, hslot⟩
      · rw [hslot]
        exact (hs.toward w (Ne.symm hr)).of_eq (List.Subset.refl _) rfl rfl (List.Subset.refl _)
      · rw [hslot]
        exact (hs.toward w (Ne.symm hr)).of_eq (List.Subset.refl _) rfl rfl
          (subset_append_left _ _)
  · rw [if_neg hk] at hslot
    refine hs.elsewhere ?_
    rcases hslot with hslot | ⟨heq, -⟩
    · exact hslot
    · exact absurd heq hk

theorem safe_step {e : Event ρ α κ} (hs : Safe s r h) (hm : Meets s e) : Safe (step s e) r h := by
  cases e with
  | change w k rest keep new => exact safe_change hs hm.1 hm.2
  | remove w k => exact safe_remove hs hm
  | flush w => exact safe_flush hs
  | land w k => exact safe_land hs
  | lose w k => exact safe_lose hs
  | deliver w k => exact safe_deliver hs
  | drop w k => exact safe_drop hs
  | resync w => exact safe_resync hs
  | scan w i => exact safe_scan hs hm
  | giveUp w i =>
    exact safe_setResyncs (f := fun ys => ys.eraseIdx i) hs fun _ y hy =>
      Or.inl ((eraseIdx_sublist _ _).subset hy)
  | apply w i => exact safe_apply hs

/-- In a run where no replica changes a host it is not up to date on, none queues a command while
another's write of the host or a removal is on its way to it, and no scan is answered by a store that
misses the replica's own last write, every queued command stays until it may go. -/
theorem queued_kept (es : List (Event ρ α κ)) (hes : Along step Meets State.start es) :
    Throughout step Kept State.start es := by
  intro pre hpre
  obtain ⟨rest, rfl⟩ := hpre
  intro r h c hc
  have hsafe : Safe (run step State.start pre) r h :=
    run_inv step (P := fun s => Safe s r h) (fun _ _ hs hm => safe_step hs hm) (safe_start r h)
      ((along_append step).mp hes).1
  exact hsafe.own.kept hc

abbrev Run := List (Event Bool Unit ℕ)

def box : Host := JsString.ofString "box"

/-- The host registers at a replica, and its record is stored. -/
def registered : Run := [.change true box () (fun _ => true) none, .flush true, .land true box]

/-- The replica queues a command and re-syncs, and the other one, which has heard of the command,
takes it out. -/
def resynced : Run :=
  registered ++ [.deliver true box, .deliver false box, .change true box () (fun _ => true) (some 7),
    .resync true, .land true box, .scan true 0, .apply true 0, .deliver true box,
    .deliver false box, .change false box () (fun c => c ≠ 7) none, .flush false, .land false box,
    .deliver true box]

theorem queued_kept_resynced : Throughout step Kept State.start resynced :=
  queued_kept resynced (by decide)

/-- The flush of a re-sync fails. -/
def failedFlush : Run :=
  registered ++ [.change true box () (fun _ => true) (some 7), .resync true, .lose true box,
    .scan true 0, .apply true 0]

/-- The host is removed and registers again before the news of its removal is back. -/
def ownRemoval : Run :=
  registered ++ [.deliver true box, .remove true box, .flush true, .land true box,
    .change true box () (fun _ => true) (some 7), .deliver true box]

/-- The other replica's beat of the host and the command cross. -/
def crossed : Run :=
  registered ++ [.deliver true box, .deliver false box, .change false box () (fun _ => true) none,
    .flush false, .land false box, .change true box () (fun _ => true) (some 7), .deliver true box]

theorem queued_dropped :
    ¬ Kept (run step State.start failedFlush) ∧ ¬ Kept (run step State.start ownRemoval) ∧
      ¬ Kept (run step State.start crossed) := by
  refine ⟨fun h => ?_, fun h => ?_, fun h => ?_⟩ <;>
    exact absurd (h true box 7 (by decide)) (by decide)

end Turma.FleetSync
