import Turma.FleetSync.Slot

/-! A command queued on a replica stays in its map until it is taken out there, or by another replica
that has read it. -/

namespace Turma.FleetSync

open Turma.Lib List

variable {ρ α κ : Type} {s s' : State ρ α κ} {r w : ρ} {h k : Host} {v : Write ρ α κ}
  {t t' : Slot ρ α κ} {l l' : List κ}

/-- A write that takes nothing of `l` from `r`: an own one that has all of it, or one of another that
has read it. -/
def Covers (r : ρ) (l : List κ) (v : Write ρ α κ) : Prop :=
  (v.writer = r → l ⊆ commandsOf v.record) ∧ (v.writer ≠ r → l ⊆ v.known)

theorem Covers.mono (hv : Covers r l v) (hl : l' ⊆ l) : Covers r l' v :=
  ⟨fun hw => List.Subset.trans hl (hv.1 hw), fun hw => List.Subset.trans hl (hv.2 hw)⟩

/-- What holds of the host at the replica that queued the commands. -/
structure Own (r : ρ) (stored : Option (Write ρ α κ)) (behind : Bool) (t : Slot ρ α κ) : Prop where
  kept : t.mine ⊆ t.commands
  outbox : ∀ v ∈ t.outbox, v.writer = r ∧ (v.record = none → t.mine = [])
  inbox : ∀ v ∈ t.inbox, Covers r t.mine v ∨ v.writer = r ∧ v.record.isSome = true
  removed : t.removed = true → t.mine = []
  last : t.dirty = false → ∀ v, t.outbox.getLast? = some v → t.mine ⊆ commandsOf v.record
  store : t.dirty = true ∨ t.outbox ≠ [] ∨ behind = true ∨ ∀ v, stored = some v → Covers r t.mine v
  resync : ∀ y ∈ t.resyncs, y.1 ≤ t.gen ∧ (y.1 = t.gen → t.dirty = false)
  rows : ∀ y ∈ t.resyncs, ∀ v, y.2 = some (some v) → t.gen = y.1 → Covers r t.mine v

/-- What holds of the host at another replica, which may write over it. -/
structure Toward (l : List κ) (w : ρ) (t : Slot ρ α κ) : Prop where
  outbox : ∀ v ∈ t.outbox, v.writer = w ∧ l ⊆ v.known
  pending : t.dirty = true ∨ t.removed = true → l ⊆ t.seen

structure Safe (s : State ρ α κ) (r : ρ) (h : Host) : Prop where
  own : Own r (s.store.get? h) (s.behind r h) ((s.nodes r).slot h)
  toward : ∀ w, w ≠ r → Toward ((s.nodes r).mine h) w ((s.nodes w).slot h)

theorem Toward.mono (ht : Toward l w t) (hl : l' ⊆ l) : Toward l' w t where
  outbox v hv := ⟨(ht.outbox v hv).1, List.Subset.trans hl (ht.outbox v hv).2⟩
  pending hp := List.Subset.trans hl (ht.pending hp)

variable {vs : List (Write ρ α κ)} {keep : κ → Bool}

section Own

variable {stored : Option (Write ρ α κ)} {behind : Bool}

theorem Own.change {new : Option κ} (ho : Own r stored behind t)
    (hout : new ≠ none → ∀ v ∈ t.outbox, v.record.isSome = true)
    (hin : new ≠ none → ∀ v ∈ t.inbox, v.writer = r ∧ v.record.isSome = true) :
    Own r stored behind (t.change keep new) := by
  have hfilter : new = none → (t.change keep new).mine ⊆ t.mine := by
    rintro rfl
    simp [Slot.change]
  refine ⟨?_, ?_, ?_, ?_, ?_, Or.inl rfl, ?_, ?_⟩
  · intro c hc
    rcases mem_append.mp hc with hc | hc
    · obtain ⟨hmem, hkeep⟩ := mem_filter.mp hc
      exact mem_append_left _ (mem_filter.mpr ⟨ho.kept hmem, hkeep⟩)
    · exact mem_append_right _ hc
  · intro v hv
    refine ⟨(ho.outbox v hv).1, fun hnone => ?_⟩
    cases hnew : new with
    | none =>
      have hnil := (ho.outbox v hv).2 hnone
      simp [Slot.change, hnil]
    | some c =>
      have hsome := hout (by simp [hnew]) v hv
      rw [hnone] at hsome
      cases hsome
  · intro v hv
    cases hnew : new with
    | none => exact (ho.inbox v hv).imp_left fun hc => hc.mono (hnew ▸ hfilter hnew)
    | some c => exact Or.inr (hin (by simp [hnew]) v hv)
  · exact fun hremoved => absurd hremoved (by simp [Slot.change])
  · exact fun hdirty => absurd hdirty (by simp [Slot.change])
  · intro y hy
    have hle := (ho.resync y hy).1
    refine ⟨hle.trans (Nat.le_succ _), fun heq => ?_⟩
    have heq : y.1 = t.gen + 1 := heq
    omega
  · intro y hy v _ heq
    have hle := (ho.resync y hy).1
    have heq : t.gen + 1 = y.1 := heq
    omega

theorem Own.remove (ho : Own r stored behind t) : Own r stored behind t.remove where
  kept := by simp [Slot.remove]
  outbox v hv := ⟨(ho.outbox v hv).1, fun _ => rfl⟩
  inbox v _ := Or.inl ⟨fun _ => by simp [Slot.remove], fun _ => by simp [Slot.remove]⟩
  removed _ := rfl
  last _ v _ := by simp [Slot.remove]
  store := Or.inr (Or.inr (Or.inr fun v _ =>
    ⟨fun _ => by simp [Slot.remove], fun _ => by simp [Slot.remove]⟩))
  resync y hy := ⟨(ho.resync y hy).1, fun _ => rfl⟩
  rows y _ v _ _ := ⟨fun _ => by simp [Slot.remove], fun _ => by simp [Slot.remove]⟩

/-- A flush: its last write has what the map has. -/
theorem Own.flush (ho : Own r stored behind t)
    (hvs : ∀ v ∈ vs, v.writer = r ∧ (v.record = none → t.mine = []))
    (hlast : ∀ v, vs.getLast? = some v → t.mine ⊆ commandsOf v.record)
    (hnone : vs = [] → t.dirty = true → t.mine = []) : Own r stored behind (t.flush vs) where
  kept := ho.kept
  outbox v hv := (mem_append.mp hv).elim (ho.outbox v) (hvs v)
  inbox := ho.inbox
  removed h := absurd h (by simp [Slot.flush])
  last _ v hv := by
    rcases eq_nil_or_concat vs with rfl | ⟨vs', v', rfl⟩
    · rcases hd : t.dirty with _ | _
      · exact ho.last hd v (by simpa [Slot.flush] using hv)
      · have hnil := hnone rfl hd
        simp [Slot.flush, hnil]
    · exact hlast v (by simpa [Slot.flush, getLast?_append] using hv)
  store := by
    rcases ho.store with hd | hout | hb | hs
    · by_cases hnil : vs = []
      · have hmine := hnone hnil hd
        exact Or.inr (Or.inr (Or.inr fun v _ =>
          ⟨fun _ => by simp [Slot.flush, hmine], fun _ => by simp [Slot.flush, hmine]⟩))
      · exact Or.inr (Or.inl (by simp [Slot.flush, hnil]))
    · exact Or.inr (Or.inl (by simp [Slot.flush, hout]))
    · exact Or.inr (Or.inr (Or.inl hb))
    · exact Or.inr (Or.inr (Or.inr hs))
  resync y hy := ⟨(ho.resync y hy).1, fun _ => rfl⟩
  rows := ho.rows

theorem Own.resyncing (ho : Own r stored behind t) (hdirty : t.dirty = false)
    {y : ℕ × Option (Option (Write ρ α κ))} (hy : y.1 = t.gen) (hrow : y.2 = none) :
    Own r stored behind { t with resyncs := t.resyncs ++ [y] } where
  kept := ho.kept
  outbox := ho.outbox
  inbox := ho.inbox
  removed := ho.removed
  last := ho.last
  store := ho.store
  resync z hz := by
    rcases mem_append.mp hz with hz | hz
    · exact ho.resync z hz
    · obtain rfl := mem_singleton.mp hz
      exact ⟨hy.le, fun _ => hdirty⟩
  rows z hz v hv hgen := by
    rcases mem_append.mp hz with hz | hz
    · exact ho.rows z hz v hv hgen
    · obtain rfl := mem_singleton.mp hz
      exact absurd (hrow.symm.trans hv) (by simp)

/-- Re-syncs that are known already, or have a row now. -/
theorem Own.setResyncs (ho : Own r stored behind t) {m : List (ℕ × Option (Option (Write ρ α κ)))}
    (hys : ∀ y ∈ m, y ∈ t.resyncs ∨ (∃ z ∈ t.resyncs, z.1 = y.1) ∧
      ∀ v, y.2 = some (some v) → t.gen = y.1 → Covers r t.mine v) :
    Own r stored behind { t with resyncs := m } where
  kept := ho.kept
  outbox := ho.outbox
  inbox := ho.inbox
  removed := ho.removed
  last := ho.last
  store := ho.store
  resync y hy := by
    rcases hys y hy with hy | ⟨⟨z, hz, heq⟩, -⟩
    · exact ho.resync y hy
    · exact heq ▸ ho.resync z hz
  rows y hy v hv hgen := by
    rcases hys y hy with hy | ⟨-, hcovers⟩
    · exact ho.rows y hy v hv hgen
    · exact hcovers v hv hgen

variable [DecidableEq ρ] [DecidableEq κ]

theorem left_subset (t : Slot ρ α κ) (r : ρ) (v : Write ρ α κ) : t.left r v ⊆ t.mine := by
  unfold Slot.left
  split
  · exact List.Subset.refl _
  · exact fun c hc => mem_of_mem_filter hc

/-- Applying a write that takes nothing it may not. -/
theorem Own.applied (ho : Own r stored behind t) (hv : Covers r t.mine v) :
    Own r stored behind (t.applied r v) where
  kept c hc := by
    show c ∈ commandsOf v.record
    have hc : c ∈ t.left r v := hc
    unfold Slot.left at hc
    split at hc
    · rename_i hw
      exact hv.1 hw hc
    · rename_i hw
      obtain ⟨hmem, hleft⟩ := mem_filter.mp hc
      have hknown : c ∈ v.known := hv.2 hw hmem
      simpa [hknown] using hleft
  outbox x hx := ⟨(ho.outbox x hx).1, fun hnone =>
    subset_nil.mp ((ho.outbox x hx).2 hnone ▸ left_subset t r v)⟩
  inbox x hx := (ho.inbox x hx).imp_left fun hc => hc.mono (left_subset t r v)
  removed hr := subset_nil.mp (ho.removed hr ▸ left_subset t r v)
  last hd x hx := List.Subset.trans (left_subset t r v) (ho.last hd x hx)
  store := ho.store.imp_right (Or.imp_right (Or.imp_right fun hs x hx =>
    (hs x hx).mono (left_subset t r v)))
  resync := ho.resync
  rows y hy x hx hgen := (ho.rows y hy x hx hgen).mono (left_subset t r v)

end Own

theorem Toward.change {new : Option κ} (ht : Toward l w t) (hseen : l ⊆ t.seen) :
    Toward l w (t.change keep new) where
  outbox := ht.outbox
  pending _ := hseen

theorem Toward.remove (ht : Toward l w t) (hseen : l ⊆ t.seen) : Toward l w t.remove where
  outbox := ht.outbox
  pending _ := hseen

theorem Toward.flush (ht : Toward l w t)
    (hvs : ∀ v ∈ vs, v.writer = w ∧ v.known = t.seen ∧ (t.dirty = true ∨ t.removed = true)) :
    Toward l w (t.flush vs) where
  outbox v hv := by
    rcases mem_append.mp hv with hv | hv
    · exact ht.outbox v hv
    · obtain ⟨hw, hknown, hp⟩ := hvs v hv
      exact ⟨hw, hknown ▸ ht.pending hp⟩
  pending hp := by simp [Slot.flush] at hp

theorem Toward.of_eq (ht : Toward l w t) (hout : t'.outbox ⊆ t.outbox) (hdirty : t'.dirty = t.dirty)
    (hremoved : t'.removed = t.removed) (hseen : t.seen ⊆ t'.seen) : Toward l w t' where
  outbox v hv := ht.outbox v (hout hv)
  pending hp := List.Subset.trans (ht.pending (by rwa [hdirty, hremoved] at hp)) hseen

variable {n : Node ρ α κ}

theorem mem_flushes (hv : v ∈ n.flushes r h) :
    v.writer = r ∧ v.known = n.seen h ∧
      (v.record = none ∧ (n.slot h).removed = true ∨
        (n.slot h).dirty = true ∧ commandsOf v.record = (n.slot h).commands ∧ v.record ≠ none) := by
  rcases mem_append.mp hv with hv | hv
  · split at hv
    · rename_i hremoved
      obtain rfl := mem_singleton.mp hv
      exact ⟨rfl, rfl, Or.inl ⟨rfl, hremoved⟩⟩
    · simp at hv
  · split at hv
    · rename_i hdirty
      obtain ⟨a, ha, rfl⟩ := mem_map.mp hv
      have ha : n.agents h = some a := by simpa using ha
      exact ⟨rfl, rfl, Or.inr ⟨hdirty, by simp [Node.slot, commandsOf, ha, Record.stripped], by simp⟩⟩
    · simp at hv

theorem flushes_nil (hnil : n.flushes r h = []) (hdirty : (n.slot h).dirty = true) :
    (n.slot h).commands = [] := by
  have hdirty : n.storeDirty.contains h = true := hdirty
  obtain ⟨-, hnil⟩ := append_eq_nil_iff.mp hnil
  rw [if_pos hdirty, map_eq_nil_iff] at hnil
  have hnone : n.agents h = none := by simpa using hnil
  simp [Node.slot, commandsOf, hnone]

theorem flushes_last (hlast : (n.flushes r h).getLast? = some v)
    (hdirty : (n.slot h).dirty = true) (hnonempty : (n.slot h).commands ≠ []) :
    commandsOf v.record = (n.slot h).commands := by
  have hdirty : n.storeDirty.contains h = true := hdirty
  cases ha : n.agents h with
  | none => exact absurd (by simp [Node.slot, commandsOf, ha]) hnonempty
  | some a =>
    unfold Node.flushes at hlast
    rw [if_pos hdirty, ha] at hlast
    simp only [Option.toList_some, map_cons, map_nil, getLast?_append,
      getLast?_singleton, Option.some_or, Option.some.injEq] at hlast
    simp [← hlast, Node.slot, commandsOf, ha, Record.stripped]

theorem Own.flushes {stored : Option (Write ρ α κ)} {behind : Bool}
    (ho : Own r stored behind (n.slot h)) :
    Own r stored behind ((n.slot h).flush (n.flushes r h)) := by
  have hnil : (n.slot h).commands = [] → (n.slot h).mine = [] := fun hc =>
    subset_nil.mp (hc ▸ ho.kept)
  refine ho.flush (fun v hv => ?_) (fun v hv => ?_) fun hvs hdirty => hnil (flushes_nil hvs hdirty)
  · obtain ⟨hw, -, hcases⟩ := mem_flushes hv
    refine ⟨hw, fun hnone => ?_⟩
    rcases hcases with ⟨-, hremoved⟩ | ⟨-, -, hsome⟩
    · exact ho.removed hremoved
    · exact absurd hnone hsome
  · by_cases hc : (n.slot h).commands = []
    · rw [hnil hc]
      simp
    · obtain ⟨-, -, ⟨-, hremoved⟩ | ⟨hdirty, -, -⟩⟩ := mem_flushes (mem_of_getLast? hv)
      · rw [ho.removed hremoved]
        simp
      · rw [flushes_last hv hdirty hc]
        exact ho.kept

theorem Toward.flushes (ht : Toward l w (n.slot h)) :
    Toward l w ((n.slot h).flush (n.flushes w h)) := by
  refine ht.flush fun v hv => ?_
  obtain ⟨hw, hknown, ⟨-, hremoved⟩ | ⟨hdirty, -, -⟩⟩ := mem_flushes hv
  · exact ⟨hw, hknown, Or.inr hremoved⟩
  · exact ⟨hw, hknown, Or.inl hdirty⟩

section Land

variable {stored : Option (Write ρ α κ)} {behind : Bool} {rest : List (Write ρ α κ)}

/-- An own write lands, and the replica is told. -/
theorem Own.landed (ho : Own r stored behind t) (hout : t.outbox = v :: rest) :
    Own r (v.record.elim none fun _ => some v) false
      { t with outbox := rest, inbox := t.inbox ++ [v] } where
  kept := ho.kept
  outbox x hx := ho.outbox x (by rw [hout]; exact .tail _ hx)
  inbox x hx := by
    rcases mem_append.mp hx with hx | hx
    · exact ho.inbox x hx
    · obtain rfl := mem_singleton.mp hx
      obtain ⟨hw, hnone⟩ := ho.outbox x (by rw [hout]; exact mem_cons_self)
      cases hrec : x.record with
      | none => exact Or.inl ⟨fun _ => by simp [hnone hrec], fun hne => absurd hw hne⟩
      | some a => exact Or.inr ⟨hw, rfl⟩
  removed := ho.removed
  last hd x hx := ho.last hd x (by rw [hout, getLast?_cons, hx]; rfl)
  store := by
    rcases hd : t.dirty with _ | _
    · by_cases hrest : rest = []
      · refine Or.inr (Or.inr (Or.inr fun x hx => ?_))
        obtain rfl : v = x := by
          cases hrec : v.record with
          | none => simp [hrec] at hx
          | some a => simpa [hrec] using hx
        obtain ⟨hw, -⟩ := ho.outbox v (by rw [hout]; exact mem_cons_self)
        exact ⟨fun _ => ho.last hd v (by simp [hout, hrest]), fun hne => absurd hw hne⟩
      · exact Or.inr (Or.inl hrest)
    · exact Or.inl rfl
  resync := ho.resync
  rows := ho.rows

/-- Another replica's write lands. -/
theorem Own.heard (ho : Own r stored behind t) (hv : Covers r t.mine v) :
    Own r (v.record.elim none fun _ => some v) false { t with inbox := t.inbox ++ [v] } where
  kept := ho.kept
  outbox := ho.outbox
  inbox x hx := by
    rcases mem_append.mp hx with hx | hx
    · exact ho.inbox x hx
    · obtain rfl := mem_singleton.mp hx
      exact Or.inl hv
  removed := ho.removed
  last := ho.last
  store := Or.inr (Or.inr (Or.inr fun x hx => by
    obtain rfl : v = x := by
      cases hrec : v.record with
      | none => simp [hrec] at hx
      | some a => simpa [hrec] using hx
    exact hv))
  resync := ho.resync
  rows := ho.rows

theorem Own.lost (ho : Own r stored behind t) (hout : t.outbox = v :: rest) :
    Own r stored true { t with outbox := rest } where
  kept := ho.kept
  outbox x hx := ho.outbox x (by rw [hout]; exact .tail _ hx)
  inbox := ho.inbox
  removed := ho.removed
  last hd x hx := ho.last hd x (by rw [hout, getLast?_cons, hx]; rfl)
  store := Or.inr (Or.inr (Or.inl rfl))
  resync := ho.resync
  rows := ho.rows

theorem Own.setInbox (ho : Own r stored behind t) (hsub : rest ⊆ t.inbox) :
    Own r stored behind { t with inbox := rest } where
  kept := ho.kept
  outbox := ho.outbox
  inbox x hx := ho.inbox x (hsub hx)
  removed := ho.removed
  last := ho.last
  store := ho.store
  resync := ho.resync
  rows := ho.rows

end Land

variable [DecidableEq ρ]

theorem slot_onNode (s : State ρ α κ) (f : Node ρ α κ → Node ρ α κ) :
    ((s.onNode w f).nodes r).slot h =
      if r = w then (f (s.nodes w)).slot h else (s.nodes r).slot h := by
  by_cases hr : r = w
  · subst hr
    simp [State.onNode]
  · simp [State.onNode, hr]

variable {f : Node ρ α κ → Node ρ α κ}

/-- A step on what one replica has. -/
theorem Safe.onNode (hs : Safe s r h)
    (hself : r = w → Own r (s.store.get? h) (s.behind r h) ((f (s.nodes r)).slot h) ∧
      ∀ w, w ≠ r → Toward ((f (s.nodes r)).mine h) w ((s.nodes w).slot h))
    (hother : r ≠ w → Toward ((s.nodes r).mine h) w ((f (s.nodes w)).slot h)) :
    Safe (s.onNode w f) r h := by
  by_cases hr : r = w
  · subst hr
    obtain ⟨hown, htoward⟩ := hself rfl
    refine ⟨?_, fun w hw => ?_⟩
    · rw [slot_onNode, if_pos rfl]
      exact hown
    · rw [slot_onNode, if_neg hw, show ((s.onNode r f).nodes r) = f (s.nodes r) by
        simp [State.onNode]]
      exact htoward w hw
  · refine ⟨?_, fun w' hw' => ?_⟩
    · rw [slot_onNode, if_neg hr]
      exact hs.own
    · rw [slot_onNode, show ((s.onNode w f).nodes r) = s.nodes r by simp [State.onNode, hr]]
      split
      · rename_i heq
        subst heq
        exact hother hr
      · exact hs.toward w' hw'

/-- A step on another host. -/
theorem Safe.elsewhere (hs : Safe s r h)
    (hf : (f (s.nodes w)).slot h = (s.nodes w).slot h) : Safe (s.onNode w f) r h := by
  refine hs.onNode (fun hr => ?_) fun hr => ?_
  · subst hr
    refine ⟨hf ▸ hs.own, fun w hw => ?_⟩
    have hmine : (f (s.nodes r)).mine h = (s.nodes r).mine h := congrArg Slot.mine hf
    rw [hmine]
    exact hs.toward w hw
  · rw [hf]
    exact hs.toward w (Ne.symm hr)

/-- A step that queues nothing. -/
theorem Safe.shrink (hs : Safe s r h)
    (hown : r = w → Own r (s.store.get? h) (s.behind r h) ((f (s.nodes r)).slot h))
    (hmine : (f (s.nodes w)).mine h ⊆ (s.nodes w).mine h)
    (hother : r ≠ w → Toward ((s.nodes r).mine h) w ((f (s.nodes w)).slot h)) :
    Safe (s.onNode w f) r h := by
  refine hs.onNode (fun hr => ⟨hown hr, fun w' hw' => ?_⟩) hother
  subst hr
  exact (hs.toward w' hw').mono hmine

end Turma.FleetSync
