import Mathlib.Data.Fintype.Basic
import Turma.Lib.Run
import Turma.Registry.Identities

/-! The fleet's records as several replicas keep them: each writes the hosts it changed to one store
and applies what the others wrote, and one that is promoted reads the store once more. -/

namespace Turma.FleetSync

open Turma.Lib List

abbrev Host := JsString

/-- A host's record: its queued commands, what else it reports, and the caches that stay local. -/
structure Record (α κ : Type) where
  commands : List κ
  rest : α
  caches : Option α
deriving DecidableEq

/-- A write to the store, a removal where there is no record. `known` are the commands that the writer
had read from the store when it wrote. -/
structure Write (ρ α κ : Type) where
  record : Option (Record α κ)
  writer : ρ
  known : List κ

/-- `resyncAgentsFromStore`, as it waits for its flush and for its scan. -/
structure Resync (ρ α κ : Type) where
  genAtStart : Host → ℕ
  flushed : List (Host × ℕ)
  rows : Option (OrdMap Host (Write ρ α κ)) := none

structure Node (ρ α κ : Type) where
  agents : Host → Option (Record α κ) := fun _ => none
  storeDirty : List Host := []
  storeRemoved : List Host := []
  lastStoreWritten : Host → Option (Record α κ) := fun _ => none
  localWriteGen : Host → ℕ := fun _ => 0
  /-- The writes of a host on their way, and how many have landed or failed. -/
  outbox : Host → List (Write ρ α κ) := fun _ => []
  settled : Host → ℕ := fun _ => 0
  inbox : Host → List (Write ρ α κ) := fun _ => []
  resyncs : List (Resync ρ α κ) := []
  /-- The commands queued on this replica that nobody has taken out. -/
  mine : Host → List κ := fun _ => []
  /-- The commands this replica has read from the store. -/
  seen : Host → List κ := fun _ => []

structure State (ρ α κ : Type) where
  nodes : ρ → Node ρ α κ
  store : OrdMap Host (Write ρ α κ) := OrdMap.empty
  /-- Whether a replica's last write of a host failed. -/
  behind : ρ → Host → Bool := fun _ _ => false

def State.start {ρ α κ : Type} : State ρ α κ := { nodes := fun _ => {} }

variable {ρ α κ : Type} [DecidableEq ρ] [DecidableEq α] [DecidableEq κ]

def Record.stripped (a : Record α κ) : Record α κ := { a with caches := none }

def commandsOf (a : Option (Record α κ)) : List κ := a.elim [] (·.commands)

def addTo (hosts : List Host) (h : Host) : List Host := if hosts.contains h then hosts else hosts ++ [h]

namespace Node

variable (n : Node ρ α κ)

/-- `publishAgent`, after a local change: some commands leave, one may join, the rest is new. -/
def change (h : Host) (rest : α) (keep : κ → Bool) (new : Option κ) : Node ρ α κ :=
  { n with
    agents := Function.update n.agents h (some {
      commands := (commandsOf (n.agents h)).filter keep ++ new.toList
      rest := rest
      caches := (n.agents h).bind (·.caches) })
    localWriteGen := Function.update n.localWriteGen h (n.localWriteGen h + 1)
    storeRemoved := n.storeRemoved.filter (· ≠ h)
    storeDirty := addTo n.storeDirty h
    mine := Function.update n.mine h ((n.mine h).filter keep ++ new.toList) }

def remove (h : Host) : Node ρ α κ :=
  { n with
    agents := Function.update n.agents h none
    storeDirty := n.storeDirty.filter (· ≠ h)
    storeRemoved := addTo n.storeRemoved h
    mine := Function.update n.mine h [] }

def flushes (r : ρ) (h : Host) : List (Write ρ α κ) :=
  (if n.storeRemoved.contains h then [⟨none, r, n.seen h⟩] else []) ++
    if n.storeDirty.contains h then
      (n.agents h).toList.map fun a => ⟨some a.stripped, r, n.seen h⟩
    else []

def flushAgentsToStore (r : ρ) : Node ρ α κ :=
  { n with
    outbox := fun h => n.outbox h ++ n.flushes r h
    lastStoreWritten := fun h =>
      if n.storeDirty.contains h ∧ n.agents h ≠ none then (n.agents h).map Record.stripped
      else if n.storeRemoved.contains h then none else n.lastStoreWritten h
    storeDirty := []
    storeRemoved := [] }

/-- What is left of the commands queued here when a write of `v` is applied: those are gone that its
writer, another replica, had read. -/
def left (r : ρ) (h : Host) (v : Write ρ α κ) : List κ :=
  if v.writer = r then n.mine h
  else (n.mine h).filter fun c => (commandsOf v.record).contains c || !v.known.contains c

def applyRemoteAgent (r : ρ) (h : Host) (v : Write ρ α κ) (a : Record α κ) : Node ρ α κ :=
  if Registry.isPlainHostKey h then
    { n with
      agents := Function.update n.agents h
        (some { a with caches := ((n.agents h).bind (·.caches)).or a.caches })
      mine := Function.update n.mine h (n.left r h v)
      seen := Function.update n.seen h (n.seen h ++ a.commands) }
  else n

def applyRemoteRemoval (r : ρ) (h : Host) (v : Write ρ α κ) : Node ρ α κ :=
  { n with
    agents := Function.update n.agents h none
    mine := Function.update n.mine h (n.left r h v) }

/-- `installRegistryWatch`, on one event. -/
def watch (r : ρ) (h : Host) (v : Write ρ α κ) : Node ρ α κ :=
  match v.record with
  | none =>
    { n with lastStoreWritten := Function.update n.lastStoreWritten h none }.applyRemoteRemoval r h v
  | some a =>
    if v.writer = r ∧ n.lastStoreWritten h = some a then n
    else if v.writer = r then n
    else n.applyRemoteAgent r h v a

def beginResync (r : ρ) : Node ρ α κ :=
  { n.flushAgentsToStore r with
    resyncs := n.resyncs ++ [{
      genAtStart := n.localWriteGen
      flushed := (n.storeRemoved ++ n.storeDirty).map fun h =>
        (h, n.settled h + (n.outbox h).length + (n.flushes r h).length) }] }

/-- One row of the scan. -/
def applyRow (r : ρ) (genAtStart : Host → ℕ) (h : Host) (v : Write ρ α κ) : Node ρ α κ :=
  match v.record with
  | none => n
  | some a => if n.localWriteGen h ≠ genAtStart h then n else n.applyRemoteAgent r h v a

def applyRows (r : ρ) (genAtStart : Host → ℕ) (rows : OrdMap Host (Write ρ α κ)) : Node ρ α κ :=
  rows.entries.foldl (fun n row => n.applyRow r genAtStart row.1 row.2) n

end Node

inductive Event (ρ α κ : Type)
  | change (r : ρ) (h : Host) (rest : α) (keep : κ → Bool) (new : Option κ)
  | remove (r : ρ) (h : Host)
  | flush (r : ρ)
  | land (r : ρ) (h : Host)
  | lose (r : ρ) (h : Host)
  | deliver (r : ρ) (h : Host)
  | drop (r : ρ) (h : Host)
  | resync (r : ρ)
  | scan (r : ρ) (i : ℕ)
  | giveUp (r : ρ) (i : ℕ)
  | apply (r : ρ) (i : ℕ)

namespace State

variable (s : State ρ α κ)

def onNode (r : ρ) (f : Node ρ α κ → Node ρ α κ) : State ρ α κ :=
  { s with nodes := Function.update s.nodes r (f (s.nodes r)) }

def settle (r : ρ) (h : Host) : State ρ α κ :=
  s.onNode r fun n => { n with
    outbox := Function.update n.outbox h (n.outbox h).tail
    settled := Function.update n.settled h (n.settled h + 1) }

def write (h : Host) (v : Write ρ α κ) : State ρ α κ :=
  { s with
    store := v.record.elim (s.store.erase h) fun _ => s.store.upsert h fun _ => v
    behind := fun r k => if k = h then false else s.behind r k
    nodes := fun r =>
      { s.nodes r with inbox := Function.update (s.nodes r).inbox h ((s.nodes r).inbox h ++ [v]) } }

def landStep (r : ρ) (h : Host) : State ρ α κ :=
  match (s.nodes r).outbox h with
  | [] => s
  | v :: _ => (s.settle r h).write h v

def loseStep (r : ρ) (h : Host) : State ρ α κ :=
  match (s.nodes r).outbox h with
  | [] => s
  | _ :: _ => { s.settle r h with behind := fun w k => if w = r ∧ k = h then true else s.behind w k }

def deliverStep (r : ρ) (h : Host) : State ρ α κ :=
  match (s.nodes r).inbox h with
  | [] => s
  | v :: rest => s.onNode r fun n => { n with inbox := Function.update n.inbox h rest }.watch r h v

/-- The scan is asked once the writes of the flush have landed or failed. -/
def scanStep (r : ρ) (i : ℕ) : State ρ α κ :=
  match (s.nodes r).resyncs[i]? with
  | none => s
  | some y =>
    if y.flushed.all fun x => x.2 ≤ (s.nodes r).settled x.1 then
      s.onNode r fun n => { n with resyncs := n.resyncs.set i { y with rows := some s.store } }
    else s

def applyStep (r : ρ) (i : ℕ) : State ρ α κ :=
  match (s.nodes r).resyncs[i]? with
  | none => s
  | some y =>
    match y.rows with
    | none => s
    | some rows =>
      s.onNode r fun n => { n with resyncs := n.resyncs.eraseIdx i }.applyRows r y.genAtStart rows

end State

def step (s : State ρ α κ) : Event ρ α κ → State ρ α κ
  | .change r h rest keep new => s.onNode r fun n => n.change h rest keep new
  | .remove r h => s.onNode r fun n => n.remove h
  | .flush r => s.onNode r fun n => n.flushAgentsToStore r
  | .land r h => s.landStep r h
  | .lose r h => s.loseStep r h
  | .deliver r h => s.deliverStep r h
  | .drop r h =>
    s.onNode r fun n => { n with inbox := Function.update n.inbox h (n.inbox h).tail }
  | .resync r => s.onNode r fun n => n.beginResync r
  | .scan r i => s.scanStep r i
  | .giveUp r i => s.onNode r fun n => { n with resyncs := n.resyncs.eraseIdx i }
  | .apply r i => s.applyStep r i

/-- A command queued on a replica is in its map until an acknowledgement there, a bound of the queue,
the host's removal, or another replica that had read it takes it out. -/
def Kept (s : State ρ α κ) : Prop :=
  ∀ r h, ∀ c ∈ (s.nodes r).mine h, c ∈ commandsOf ((s.nodes r).agents h)

/-- Nothing of the host is on its way to `r` that cannot know what `r` queues now: no change or write
of another replica, and no removal. -/
def Quiet (s : State ρ α κ) (r : ρ) (h : Host) : Prop :=
  (∀ w, w ≠ r → h ∉ (s.nodes w).storeDirty ∧ h ∉ (s.nodes w).storeRemoved ∧
    (s.nodes w).outbox h = []) ∧
  (∀ v ∈ (s.nodes r).inbox h, v.writer = r ∧ v.record.isSome = true) ∧
  ∀ v ∈ (s.nodes r).outbox h, v.record.isSome = true

/-- The replica has read every command that is queued for the host on another one. -/
def UpToDate (s : State ρ α κ) (r : ρ) (h : Host) : Prop :=
  ∀ w, w ≠ r → ∀ c ∈ (s.nodes w).mine h, c ∈ (s.nodes r).seen h

/-- No write of this replica is missing from the store for a host it has not changed since. -/
def Stored (s : State ρ α κ) (r : ρ) (y : Resync ρ α κ) : Prop :=
  ∀ h ∈ s.store.keys, (s.nodes r).localWriteGen h = y.genAtStart h →
    (s.nodes r).outbox h = [] ∧ s.behind r h = false

/-- A replica changes a host only when it has read what the others queued for it, queues a command
only when nothing of the host is on its way to it, and scans only a store that has its own writes. -/
def Meets (s : State ρ α κ) : Event ρ α κ → Prop
  | .change r h _ _ new => UpToDate s r h ∧ (new ≠ none → Quiet s r h)
  | .remove r h => UpToDate s r h
  | .scan r i => ∀ y ∈ (s.nodes r).resyncs[i]?, Stored s r y
  | _ => True

instance [Fintype ρ] (s : State ρ α κ) (r : ρ) (h : Host) : Decidable (Quiet s r h) :=
  inferInstanceAs (Decidable (_ ∧ _ ∧ _))

instance [Fintype ρ] (s : State ρ α κ) (r : ρ) (h : Host) : Decidable (UpToDate s r h) :=
  inferInstanceAs (Decidable (∀ w, w ≠ r → ∀ c ∈ (s.nodes w).mine h, c ∈ (s.nodes r).seen h))

instance (s : State ρ α κ) (r : ρ) (y : Resync ρ α κ) : Decidable (Stored s r y) :=
  List.decidableBAll (fun h => (s.nodes r).localWriteGen h = y.genAtStart h →
    (s.nodes r).outbox h = [] ∧ s.behind r h = false) s.store.keys

instance [Fintype ρ] (s : State ρ α κ) : ∀ e, Decidable (Meets s e)
  | .change r h _ _ new => inferInstanceAs (Decidable (UpToDate s r h ∧ (new ≠ none → Quiet s r h)))
  | .remove r h => inferInstanceAs (Decidable (UpToDate s r h))
  | .scan r i => inferInstanceAs (Decidable (∀ y ∈ (s.nodes r).resyncs[i]?, Stored s r y))
  | .flush _ | .land .. | .lose .. | .deliver .. | .drop .. | .resync _ | .giveUp .. | .apply .. =>
    isTrue trivial

end Turma.FleetSync

namespace Turma.FleetSync

open Turma.Lib List

/-- One host at one replica. A re-sync is the count of local writes at its start, and the row of the
host once the scan is answered. -/
structure Slot (ρ α κ : Type) where
  commands : List κ
  mine : List κ
  seen : List κ
  dirty : Bool
  removed : Bool
  gen : ℕ
  outbox : List (Write ρ α κ)
  inbox : List (Write ρ α κ)
  resyncs : List (ℕ × Option (Option (Write ρ α κ)))

variable {ρ α κ : Type} {n : Node ρ α κ} {r : ρ} {h k : Host} {v : Write ρ α κ}

def Node.slot (n : Node ρ α κ) (h : Host) : Slot ρ α κ where
  commands := commandsOf (n.agents h)
  mine := n.mine h
  seen := n.seen h
  dirty := n.storeDirty.contains h
  removed := n.storeRemoved.contains h
  gen := n.localWriteGen h
  outbox := n.outbox h
  inbox := n.inbox h
  resyncs := n.resyncs.map fun y => (y.genAtStart h, y.rows.map fun rows => rows.get? h)

namespace Slot

def change (t : Slot ρ α κ) (keep : κ → Bool) (new : Option κ) : Slot ρ α κ :=
  { t with
    commands := t.commands.filter keep ++ new.toList
    mine := t.mine.filter keep ++ new.toList
    dirty := true
    removed := false
    gen := t.gen + 1 }

def remove (t : Slot ρ α κ) : Slot ρ α κ :=
  { t with commands := [], mine := [], dirty := false, removed := true }

def flush (t : Slot ρ α κ) (vs : List (Write ρ α κ)) : Slot ρ α κ :=
  { t with outbox := t.outbox ++ vs, dirty := false, removed := false }

end Slot

theorem mem_addTo {hosts : List Host} : k ∈ addTo hosts h ↔ k ∈ hosts ∨ k = h := by
  unfold addTo
  split
  · rename_i hmem
    have hmem : h ∈ hosts := by simpa using hmem
    constructor
    · exact Or.inl
    · rintro (hk | rfl)
      · exact hk
      · exact hmem
  · simp

theorem slot_change (rest : α) (keep : κ → Bool) (new : Option κ) :
    (n.change h rest keep new).slot k = if k = h then (n.slot k).change keep new else n.slot k := by
  by_cases hk : k = h
  · subst hk
    simp [Node.slot, Node.change, Slot.change, commandsOf, mem_addTo]
  · simp [Node.slot, Node.change, mem_addTo, hk]

theorem slot_remove :
    (n.remove h).slot k = if k = h then (n.slot k).remove else n.slot k := by
  by_cases hk : k = h
  · subst hk
    simp [Node.slot, Node.remove, Slot.remove, commandsOf, mem_addTo]
  · simp [Node.slot, Node.remove, mem_addTo, hk]

theorem slot_flush (r : ρ) :
    (n.flushAgentsToStore r).slot k = (n.slot k).flush (n.flushes r k) := by
  simp [Node.slot, Node.flushAgentsToStore, Slot.flush]

variable [DecidableEq ρ] [DecidableEq κ]

namespace Slot

def left (t : Slot ρ α κ) (r : ρ) (v : Write ρ α κ) : List κ :=
  if v.writer = r then t.mine
  else t.mine.filter fun c => (commandsOf v.record).contains c || !v.known.contains c

def applied (t : Slot ρ α κ) (r : ρ) (v : Write ρ α κ) : Slot ρ α κ :=
  { t with
    commands := commandsOf v.record, mine := t.left r v, seen := t.seen ++ commandsOf v.record }

end Slot

/-- Applying a write of `h`: it does nothing to a host whose key is unusable. -/
theorem slot_applyRemoteAgent {a : Record α κ} (hv : v.record = some a) :
    (n.applyRemoteAgent r h v a).slot k =
      if k = h ∧ Registry.isPlainHostKey h = true then (n.slot k).applied r v else n.slot k := by
  unfold Node.applyRemoteAgent
  by_cases hk : k = h
  · subst hk
    split <;> rename_i hplain
    · simp [Node.slot, Slot.applied, commandsOf, hplain, hv, Slot.left, Node.left]
    · simp [hplain]
  · split
    · simp [Node.slot, hk]
    · simp [hk]

theorem slot_applyRemoteRemoval (hv : v.record = none) :
    (n.applyRemoteRemoval r h v).slot k = if k = h then (n.slot k).applied r v else n.slot k := by
  by_cases hk : k = h
  · subst hk
    simp [Node.slot, Node.applyRemoteRemoval, Slot.applied, commandsOf, hv, Slot.left, Node.left]
  · simp [Node.slot, Node.applyRemoteRemoval, hk]

/-- A row of a scan is skipped, or applied over a record that did not change since. -/
theorem slot_applyRow {g : Host → ℕ} :
    (n.applyRow r g h v).slot k = n.slot k ∨
      k = h ∧ (n.slot k).gen = g k ∧ (n.applyRow r g h v).slot k = (n.slot k).applied r v := by
  unfold Node.applyRow
  cases hv : v.record with
  | none => exact Or.inl rfl
  | some a =>
    simp only
    split
    · exact Or.inl rfl
    rename_i hgen
    rw [slot_applyRemoteAgent hv]
    split
    · rename_i hk
      obtain ⟨rfl, -⟩ := hk
      exact Or.inr ⟨rfl, Decidable.not_not.mp hgen, rfl⟩
    · exact Or.inl rfl

/-- Of all rows one at most is applied to a host: its own. -/
theorem slot_applyRows (g : Host → ℕ) (rows : OrdMap Host (Write ρ α κ)) :
    (n.applyRows r g rows).slot k = n.slot k ∨
      ∃ v, rows.get? k = some v ∧ (n.slot k).gen = g k ∧
        (n.applyRows r g rows).slot k = (n.slot k).applied r v := by
  have hfold : ∀ (es : List (Host × Write ρ α κ)) (n : Node ρ α κ), (es.map Prod.fst).Nodup →
      (es.foldl (fun n row => n.applyRow r g row.1 row.2) n).slot k = n.slot k ∨
        ∃ v, (k, v) ∈ es ∧ (n.slot k).gen = g k ∧
          (es.foldl (fun n row => n.applyRow r g row.1 row.2) n).slot k =
            (n.slot k).applied r v := by
    intro es
    induction es with
    | nil => exact fun n _ => Or.inl rfl
    | cons e es ih =>
      intro n hnodup
      rw [map_cons, nodup_cons] at hnodup
      rw [foldl_cons]
      rcases slot_applyRow (n := n) (r := r) (h := e.1) (v := e.2) (k := k) (g := g) with hsame | happlied
      · rcases ih (n.applyRow r g e.1 e.2) hnodup.2 with h | ⟨v, hv, hgen, h⟩
        · exact Or.inl (h.trans hsame)
        · rw [hsame] at hgen h
          exact Or.inr ⟨v, .tail _ hv, hgen, h⟩
      · obtain ⟨rfl, hgen, happlied⟩ := happlied
        rcases ih (n.applyRow r g e.1 e.2) hnodup.2 with h | ⟨v, hv, -, -⟩
        · exact Or.inr ⟨e.2, mem_cons_self, hgen, h.trans happlied⟩
        · exact absurd (mem_map_of_mem (f := Prod.fst) hv) hnodup.1
  rcases hfold rows.entries n rows.nodup with h | ⟨v, hv, hgen, h⟩
  · exact Or.inl h
  · exact Or.inr ⟨v, OrdMap.get?_eq_some.mpr hv, hgen, h⟩

variable [DecidableEq α]

/-- An event of the watch is dropped, or its write applied: an own one only if it is a removal. -/
theorem slot_watch :
    (n.watch r h v).slot k = n.slot k ∨
      k = h ∧ (v.writer = r → v.record = none) ∧ (n.watch r h v).slot k = (n.slot k).applied r v := by
  unfold Node.watch
  cases hv : v.record with
  | none =>
    simp only
    rw [slot_applyRemoteRemoval hv]
    by_cases hk : k = h
    · rw [if_pos hk]
      exact Or.inr ⟨hk, by simp, rfl⟩
    · rw [if_neg hk]
      exact Or.inl rfl
  | some a =>
    simp only
    split
    · exact Or.inl rfl
    split
    · exact Or.inl rfl
    rename_i hwriter
    rw [slot_applyRemoteAgent hv]
    split
    · rename_i hk
      exact Or.inr ⟨hk.1, fun heq => absurd heq hwriter, rfl⟩
    · exact Or.inl rfl

end Turma.FleetSync
