import Mathlib.Logic.Function.Basic
import Turma.Forward.Proof
import Turma.Lib.Run

/-! The leader endpoint, a key that all replicas share. `publish` sets it; `retract` reads it and,
if the entry is its own, deletes it by a second command, so that an entry set in between goes too. -/

namespace Turma.Forward

open Turma.Lib List

structure LeaderEntry (ι : Type*) where
  replica : ι
  addr : Option Text
  atMs : ℕ
  bodyCaps : List (Text × ℕ)
  drainSlack : ℕ
  stripsForward : Bool
deriving DecidableEq

structure Forwarder where
  enabled : Bool
  store : Bool
  endpoint : Option Text
  bodyCaps : List (Text × ℕ)
  drainSlack : ℕ
  stripsForward : Bool

structure Known (ι : Type*) where
  isLeader : Bool
  leader : Option ι
deriving DecidableEq

/-- Where a `retract` stands: its GET is on the way, or answered by the store, or its DEL is on the
way. A DEL whose caller has seen the connection fail may still arrive. -/
inductive Retracting (ι : Type*)
  | getting
  | got (v : Option (LeaderEntry ι))
  | deleting
deriving DecidableEq

/-- The shared key, what each replica knows, and the commands on their way. `removed` is what the
DELs have removed, with the replica that retracted. -/
structure Directory (ι : Type*) where
  key : Option (LeaderEntry ι)
  known : ι → Known ι
  sets : List (LeaderEntry ι)
  retracts : List (ι × Retracting ι)
  removed : List (ι × LeaderEntry ι)

inductive DirectoryEvent (ι : Type*)
  | lead (i : ι) (isLeader : Bool)
  /-- `apply`, or a `del` seen by the watch. -/
  | learn (i : ι) (leader : Option ι)
  | publish (i : ι) (now : ℕ)
  | retract (i : ι)
  /-- The store applies the `k`-th SET, or the GET or the DEL of the `k`-th retract. -/
  | setDone (k : ℕ)
  | getDone (k : ℕ)
  | delDone (k : ℕ)
  /-- The answer to the GET of the `k`-th retract arrives. -/
  | answered (k : ℕ)
  | setLost (k : ℕ)
  | retractLost (k : ℕ)
  /-- The key's `PX` runs out. -/
  | expired

variable {ι : Type*} [DecidableEq ι]

namespace Directory

def publish (c : ι → Forwarder) (w : Directory ι) (i : ι) (now : ℕ) : Directory ι :=
  if (c i).enabled = false ∨ (c i).store = false ∨ (w.known i).isLeader = false then w
  else
    let entry : LeaderEntry ι :=
      { replica := i, addr := (c i).endpoint, atMs := now, bodyCaps := (c i).bodyCaps
        drainSlack := (c i).drainSlack, stripsForward := (c i).stripsForward }
    { w with
      known := Function.update w.known i { w.known i with leader := some i }
      sets := w.sets ++ [entry] }

def retract (c : ι → Forwarder) (w : Directory ι) (i : ι) : Directory ι :=
  if (c i).enabled = false ∨ (c i).store = false ∨ (w.known i).leader ≠ some i then w
  else
    { w with
      known := Function.update w.known i { w.known i with leader := none }
      retracts := w.retracts ++ [(i, .getting)] }

def answered (w : Directory ι) (k : ℕ) : Directory ι :=
  match w.retracts[k]? with
  | some (i, .got (some v)) =>
    if v.replica = i then { w with retracts := w.retracts.set k (i, .deleting) }
    else { w with retracts := w.retracts.eraseIdx k }
  | some (_, .got none) => { w with retracts := w.retracts.eraseIdx k }
  | _ => w

def setDone (w : Directory ι) (k : ℕ) : Directory ι :=
  match w.sets[k]? with
  | some entry => { w with key := some entry, sets := w.sets.eraseIdx k }
  | none => w

def getDone (w : Directory ι) (k : ℕ) : Directory ι :=
  match w.retracts[k]? with
  | some (i, .getting) => { w with retracts := w.retracts.set k (i, .got w.key) }
  | _ => w

def delDone (w : Directory ι) (k : ℕ) : Directory ι :=
  match w.retracts[k]? with
  | some (i, .deleting) =>
    { w with
      key := none
      retracts := w.retracts.eraseIdx k
      removed := w.removed ++ w.key.toList.map (i, ·) }
  | _ => w

def step (c : ι → Forwarder) (w : Directory ι) : DirectoryEvent ι → Directory ι
  | .lead i isLeader =>
    { w with known := Function.update w.known i { w.known i with isLeader := isLeader } }
  | .learn i leader =>
    { w with known := Function.update w.known i { w.known i with leader := leader } }
  | .publish i now => w.publish c i now
  | .retract i => w.retract c i
  | .setDone k => w.setDone k
  | .getDone k => w.getDone k
  | .delDone k => w.delDone k
  | .answered k => w.answered k
  | .setLost k => { w with sets := w.sets.eraseIdx k }
  | .retractLost k => { w with retracts := w.retracts.eraseIdx k }
  | .expired => { w with key := none }

def boot (found : Option (LeaderEntry ι)) : Directory ι where
  key := found
  known _ := { isLeader := false, leader := none }
  sets := []
  retracts := []
  removed := []

end Directory

/-- The GET of this retract has found its own entry, so that its DEL follows. -/
def Retracting.committed (i : ι) : Retracting ι → Bool
  | .got (some v) => v.replica = i
  | .deleting => true
  | _ => false

/-- No entry of another replica is set while a retract that has found its own one has yet to delete
it. -/
def Directory.Undisturbed (w : Directory ι) : DirectoryEvent ι → Prop
  | .setDone k =>
    ∀ entry ∈ w.sets[k]?, ∀ t ∈ w.retracts, t.2.committed t.1 = true → entry.replica = t.1
  | _ => True

instance (w : Directory ι) : DecidablePred w.Undisturbed
  | .setDone k => inferInstanceAs (Decidable (∀ entry ∈ w.sets[k]?, ∀ t ∈ w.retracts,
      t.2.committed t.1 = true → entry.replica = t.1))
  | .lead .. | .learn .. | .publish .. | .retract .. | .getDone .. | .delDone .. | .answered ..
  | .setLost .. | .retractLost .. | .expired => isTrue trivial

def Directory.RemovesOwn (w : Directory ι) : Prop := ∀ x ∈ w.removed, x.2.replica = x.1

/-- What a committed retract is about to delete is its own. -/
structure Directory.Sound (w : Directory ι) : Prop where
  own : ∀ t ∈ w.retracts, t.2.committed t.1 = true → ∀ entry ∈ w.key, entry.replica = t.1
  removed : w.RemovesOwn

namespace Directory

variable {c : ι → Forwarder} {w : Directory ι}

/-- A step that puts nothing in the key and commits no retract. -/
theorem Sound.of_le (h : w.Sound) {w' : Directory ι}
    (hkey : ∀ entry ∈ w'.key, entry ∈ w.key)
    (hretracts : ∀ t ∈ w'.retracts, t.2.committed t.1 = true → t ∈ w.retracts)
    (hremoved : w'.removed = w.removed) : w'.Sound := by
  refine ⟨fun t ht hc entry he => h.own t (hretracts t ht hc) hc entry (hkey entry he), ?_⟩
  rw [RemovesOwn, hremoved]
  exact h.removed

theorem Sound.publish (h : w.Sound) (i : ι) (now : ℕ) : (w.publish c i now).Sound := by
  rw [Directory.publish]
  split_ifs
  · exact h
  · exact h.of_le (fun _ he => he) (fun _ ht _ => ht) rfl

theorem Sound.retract (h : w.Sound) (i : ι) : (w.retract c i).Sound := by
  rw [Directory.retract]
  split_ifs
  · exact h
  · refine h.of_le (fun _ he => he) (fun t ht hc => ?_) rfl
    rcases mem_append.mp ht with ht | ht
    · exact ht
    · obtain rfl := mem_singleton.mp ht
      cases hc

theorem Sound.setDone (h : w.Sound) (k : ℕ) (hu : w.Undisturbed (.setDone k)) :
    (w.setDone k).Sound := by
  rw [Directory.setDone]
  cases hk : w.sets[k]? with
  | none => exact h
  | some entry =>
    refine ⟨fun t ht hc e he => ?_, h.removed⟩
    obtain rfl : entry = e := Option.some.inj he
    exact hu entry hk t ht hc

/-- Committed now, the retract has found in the key what is there. -/
theorem Sound.getDone (h : w.Sound) (k : ℕ) : (w.getDone k).Sound := by
  rw [Directory.getDone]
  split
  · next i hk =>
    refine ⟨fun t ht hc entry he => ?_, h.removed⟩
    rcases mem_or_eq_of_mem_set ht with ht | rfl
    · exact h.own t ht hc entry he
    · have hkey : w.key = some entry := he
      simpa [hkey, Retracting.committed] using hc
  · exact h

theorem Sound.answered (h : w.Sound) (k : ℕ) : (w.answered k).Sound := by
  rw [Directory.answered]
  split
  · next i v hk =>
    split_ifs with hv
    · refine ⟨fun t ht hc entry he => ?_, h.removed⟩
      rcases mem_or_eq_of_mem_set ht with ht | rfl
      · exact h.own t ht hc entry he
      · exact h.own _ (mem_of_getElem? hk) (by simpa [Retracting.committed] using hv) entry he
    · exact h.of_le (fun _ he => he) (fun _ ht _ => mem_of_mem_eraseIdx ht) rfl
  · exact h.of_le (fun _ he => he) (fun _ ht _ => mem_of_mem_eraseIdx ht) rfl
  · exact h

theorem Sound.delDone (h : w.Sound) (k : ℕ) : (w.delDone k).Sound := by
  rw [Directory.delDone]
  split
  · next i hk =>
    refine ⟨fun t _ _ entry he => (nomatch he), fun x hx => ?_⟩
    rcases mem_append.mp hx with hx | hx
    · exact h.removed x hx
    · obtain ⟨entry, he, rfl⟩ := mem_map.mp hx
      exact h.own _ (mem_of_getElem? hk) rfl entry (Option.mem_toList.mp he)
  · exact h

theorem Sound.step (h : w.Sound) (e : DirectoryEvent ι) (hu : w.Undisturbed e) :
    (w.step c e).Sound := by
  cases e with
  | lead i isLeader => exact h.of_le (fun _ he => he) (fun _ ht _ => ht) rfl
  | learn i leader => exact h.of_le (fun _ he => he) (fun _ ht _ => ht) rfl
  | publish i now => exact h.publish i now
  | retract i => exact h.retract i
  | setDone k => exact h.setDone k hu
  | getDone k => exact h.getDone k
  | delDone k => exact h.delDone k
  | answered k => exact h.answered k
  | setLost k => exact h.of_le (fun _ he => he) (fun _ ht _ => ht) rfl
  | retractLost k =>
    exact h.of_le (fun _ he => he) (fun _ ht _ => mem_of_mem_eraseIdx ht) rfl
  | expired => exact h.of_le (fun _ he => (nomatch he)) (fun _ ht _ => ht) rfl

/-- Any other step can be followed by the DEL that removes the entry it has set. -/
theorem removes_of_disturbed (c : ι → Forwarder) (e : DirectoryEvent ι) (hu : ¬ w.Undisturbed e) :
    ∃ later, ¬ (run (step c) w (e :: later)).RemovesOwn := by
  cases e with
  | setDone k =>
    simp only [Undisturbed, not_forall] at hu
    obtain ⟨entry, hk, t, ht, hc, hne⟩ := hu
    obtain ⟨j, hj⟩ := getElem?_of_mem ht
    obtain ⟨i, state⟩ := t
    have hk' : w.sets[k]? = some entry := hk
    cases state with
    | getting => cases hc
    | deleting =>
      refine ⟨[.delDone j], fun hown => hne (hown (i, entry) ?_)⟩
      simp [run, step, setDone, delDone, hk', hj]
    | got v =>
      cases v with
      | none => cases hc
      | some v =>
        have hv : v.replica = i := by simpa [Retracting.committed] using hc
        obtain ⟨hlt, hget⟩ := List.getElem?_eq_some_iff.mp hj
        refine ⟨[.answered j, .delDone j], fun hown => hne (hown (i, entry) ?_)⟩
        simp [run, step, setDone, answered, delDone, hk', hget, hv, hlt]
  | _ => exact absurd trivial hu

end Directory

/-- In every run in which no other replica's entry is set between the GET of a retract that finds its
own one and its DEL, no DEL removes the entry of another replica. -/
theorem retract_removes_own (c : ι → Forwarder) (found : Option (LeaderEntry ι))
    (events : List (DirectoryEvent ι))
    (h : Along (Directory.step c) Directory.Undisturbed (.boot found) events) :
    (run (Directory.step c) (.boot found) events).RemovesOwn :=
  (run_inv (Directory.step c) (fun _ e hw hu => Directory.Sound.step hw e hu)
    ⟨fun _ ht => absurd ht not_mem_nil, fun _ hx => absurd hx not_mem_nil⟩ h).removed

def twoForwarders (i : Bool) : Forwarder :=
  { enabled := true, store := true
    endpoint := some (if i = true then "10.0.0.2:80".toList else "10.0.0.1:80".toList)
    bodyCaps := [], drainSlack := 0, stripsForward := true }

/-- `false` leads, hands over and has its GET answered by the store; `true` is promoted. -/
def handedOver : List (DirectoryEvent Bool) :=
  [.lead false true, .publish false 1000, .setDone 0, .lead false false, .retract false, .getDone 0,
    .lead true true, .publish true 1010]

theorem retract_removes_own_handedOver :
    (run (Directory.step twoForwarders) (.boot none)
      (handedOver ++ [.answered 0, .delDone 0, .setDone 0])).RemovesOwn :=
  retract_removes_own twoForwarders none _ (by decide)

/-- The successor's first SET between the GET and the DEL. -/
theorem retract_removes_successor : ¬ ∀ (events : List (DirectoryEvent Bool)),
    (run (Directory.step twoForwarders) (.boot none) events).RemovesOwn := by
  intro h
  have hremoved := h (handedOver ++ [.setDone 0, .answered 0, .delDone 0])
  revert hremoved
  unfold Directory.RemovesOwn
  decide

end Turma.Forward
