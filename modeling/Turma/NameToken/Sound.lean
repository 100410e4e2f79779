import Turma.Lib.SwapStack
import Turma.NameToken.Bump

/-! What holds of the store, the replicas and the revokes at any moment: the store is a stack of
swaps, each marked by the host and the time of its revoke, and nobody has seen the mark of a revoke
before its swap. -/

namespace Turma.NameToken

open Turma.Lib List

/-- The host and the time of a revoke. -/
abbrev Stamp := Host × ℤ

abbrev View := Host → Option Gen

def view (m : Gens) : View := fun host => m.get? host

def known (raw : Option Gens) : View := view (coerceNameTokenGens raw)

def View.gen (v : View) (host : Host) : ℕ := ((v host).map Gen.gen).getD 0

def View.Le (v w : View) : Prop := ∀ host, v.gen host ≤ w.gen host

def Marks (v : View) (x : Stamp) : Prop := ∃ e, v x.1 = some e ∧ e.atMs = x.2

/-- How the store came to hold what it does: the swaps in effect, and all that ever were. -/
structure Past where
  base : View
  swaps : List (Swap Stamp View)
  shown : List Stamp

variable {ρ : Type} {C : Cluster ρ} {P Q : Past} {s : State ρ} {c c' : Call ρ} {u : Undo}
  {a : Attempt} {v w : View} {m m' : Gens} {x : Stamp} {host : Host} {r : ρ}

def Initial (C : Cluster ρ) (x : Stamp) : Prop :=
  Marks (known C.first) x ∨ ∃ r, Marks (known (some (C.file r))) x

def Shows (C : Cluster ρ) (P : Past) (v : View) : Prop :=
  ∀ x, Marks v x → Initial C x ∨ x ∈ P.shown

def Call.stamp (c : Call ρ) : Stamp := (c.host, c.now)

def Undo.stamp (u : Undo) : Stamp := (u.host, u.now)

def Attempt.swap (a : Attempt) (x : Stamp) : Swap Stamp View := ⟨x, known a.stored, view a.next⟩

structure Attempt.Sound (C : Cluster ρ) (P : Past) (x : Stamp) (a : Attempt) : Prop where
  clean : Clean a.next
  entry : view a.next x.1 = some ⟨a.gen, x.2⟩
  raises : (known a.stored).gen x.1 < a.gen
  le : (known a.stored).Le (view a.next)
  stored : Shows C P (known a.stored)
  next : ∀ y, Marks (view a.next) y → Initial C y ∨ y ∈ P.shown ∨ y = x

structure Call.Sound (C : Cluster ρ) (P : Past) (c : Call ρ) : Prop where
  named : c.host ≠ [] ∧ c.host.length16 ≤ 200 ∧ c.now ≤ MAX_SAFE_INTEGER ∧ 0 < c.now
  attempt : ∀ a, c.last = some a → a.Sound C P c.stamp
  read : ∀ raw, c.phase = .got raw → Shows C P (known raw)
  won : c.phase = .swapped true → c.stamp ∈ P.shown
  applied : c.stamp ∈ P.shown →
    c.phase = .swapped true ∧ ∃ a, c.last = some a ∧ a.swap c.stamp ∈ P.swaps

structure Undo.Sound (C : Cluster ρ) (P : Past) (u : Undo) : Prop where
  attempt : u.attempt.Sound C P u.stamp
  applied : u.stamp ∈ P.shown → u.attempt.swap u.stamp ∈ P.swaps

/-- The revokes on their way, being undone, and answered. -/
def State.stamps (s : State ρ) : List Stamp :=
  s.calls.map Call.stamp ++ (s.undos.map Undo.stamp ++ s.revoked.map Prod.fst)

structure State.Sound (C : Cluster ρ) (P : Past) (s : State ρ) : Prop where
  stacked : Swap.Stacked Marks P.base P.swaps
  raises : ∀ f ∈ P.swaps, f.before.Le f.after
  base : Shows C P P.base
  shows : ∀ f ∈ P.swaps, Shows C P f.after
  store : known s.store = Swap.top P.base P.swaps
  absent : s.store = none → P.swaps = []
  mirror : ∀ r, Clean (s.mirror r) ∧ Shows C P (view (s.mirror r))
  boot : ∀ r raw, s.boot r = .got raw → Shows C P (known raw)
  written : ∀ m ∈ s.written, Shows C P (known (some m))
  seeds : ∀ m ∈ s.seeds, Shows C P (known (some m))
  calls : ∀ c ∈ s.calls, c.Sound C P
  undos : ∀ u ∈ s.undos, u.Sound C P
  revoked : ∀ y ∈ s.revoked, ∃ f ∈ P.swaps, f.token = y.1 ∧ f.before.gen y.1.1 < y.2 ∧
    f.after.gen y.1.1 = y.2
  asked : ∀ x ∈ s.stamps, x ∈ s.asked
  shown : ∀ x ∈ P.shown, x ∈ s.asked
  initial : ∀ x ∈ s.asked, ¬ Initial C x
  distinct : s.stamps.Nodup

theorem View.Le.refl (v : View) : v.Le v := fun _ => le_refl _

theorem View.Le.trans (u v w : View) (h : u.Le v) (h' : v.Le w) : u.Le w :=
  fun host => (h host).trans (h' host)

theorem known_of_clean (h : Clean m) : known (some m) = view m := funext h.get?_coerce

theorem known_of_sameValue {y z : Option Gens} (h : sameValue y z = true) : known y = known z :=
  funext (get?_of_sameValue h)

theorem known_coerce (raw : Option Gens) : known (some (coerceNameTokenGens raw)) = known raw :=
  known_of_clean (clean_coerce raw)

theorem marks_merge (h : Marks (view (mergeNameTokenGens m m')) x) :
    Marks (view m) x ∨ Marks (view m') x := by
  obtain ⟨e, he, hat⟩ := h
  rcases get?_merge_cases he with h | h
  · exact Or.inl ⟨e, h, hat⟩
  · exact Or.inr ⟨e, h, hat⟩

theorem Shows.merge (h : Shows C P (view m)) (h' : Shows C P (view m')) :
    Shows C P (view (mergeNameTokenGens m m')) := by
  intro x hx
  rcases marks_merge hx with hx | hx
  · exact h x hx
  · exact h' x hx

theorem Shows.mono (h : Shows C P v) (hsub : ∀ x ∈ P.shown, x ∈ Q.shown) : Shows C Q v := by
  intro x hx
  exact (h x hx).imp_right (hsub x)

theorem applyExternal_sound {raw : Option Gens} (h : Clean m ∧ Shows C P (view m))
    (hraw : Shows C P (known raw)) :
    Clean (applyExternal m raw) ∧ Shows C P (view (applyExternal m raw)) := by
  rw [applyExternal]
  split
  · exact h
  · exact ⟨h.1.merge (clean_coerce raw), h.2.merge hraw⟩

theorem Attempt.Sound.mono (h : a.Sound C P x) (hsub : ∀ x ∈ P.shown, x ∈ Q.shown) :
    a.Sound C Q x where
  clean := h.clean
  entry := h.entry
  raises := h.raises
  le := h.le
  stored := h.stored.mono hsub
  next y hy := (h.next y hy).imp_right (Or.imp_left (hsub y))

theorem Attempt.Sound.marks (h : a.Sound C P x) : Marks (view a.next) x := ⟨_, h.entry, rfl⟩

/-- A try is sound when what it read and what its replica knows are. -/
theorem attempt_sound {stored : Option Gens}
    (hnamed : c.host ≠ [] ∧ c.host.length16 ≤ 200 ∧ c.now ≤ MAX_SAFE_INTEGER ∧ 0 < c.now)
    (hm : Clean m ∧ Shows C P (view m)) (hstored : Shows C P (known stored))
    (hsmall : nameTokenGen (mergeNameTokenGens m (coerceNameTokenGens stored)) c.host < MAX_SAFE_INTEGER)
    (ha : c.attempt m stored = some a) : a.Sound C P c.stamp := by
  have hclean := hm.1.merge (clean_coerce stored)
  have hshows := hm.2.merge hstored
  have hmerged : (known stored).Le (view (mergeNameTokenGens m (coerceNameTokenGens stored))) :=
    fun k => (le_max_right _ _).trans_eq (gen_merge m (coerceNameTokenGens stored) k).symm
  simp only [Call.attempt] at ha
  generalize mergeNameTokenGens m (coerceNameTokenGens stored) = next at ha hclean hshows hmerged hsmall
  split at ha
  · cases ha
  cases ha
  have hget : ∀ k, view (next.upsert c.host fun _ => ⟨nameTokenGen next c.host + 1, c.now⟩) k =
      if k = c.host then some ⟨nameTokenGen next c.host + 1, c.now⟩ else view next k :=
    fun k => OrdMap.get?_upsert _ _ _ _
  refine ⟨?_, (hget c.host).trans (if_pos rfl), Nat.lt_succ_of_le (hmerged c.host), ?_, hstored, ?_⟩
  · intro k e he
    have hk := (hget k).symm.trans he
    split_ifs at hk with h
    · subst h
      cases hk
      rw [coerceEntry, if_neg, if_pos hnamed.2.2]
      rintro (h | h | h | h)
      · exact hnamed.1 h
      · exact absurd h (Nat.not_lt.mpr hnamed.2.1)
      · exact absurd h (Nat.not_lt.mpr hsmall)
      · exact absurd h (Nat.succ_ne_zero _)
    · exact hclean k e hk
  · intro k
    refine (hmerged k).trans ?_
    simp only [View.gen, hget]
    split_ifs with h
    · subst h
      exact Nat.le_succ _
    · exact le_rfl
  · rintro y ⟨e, he, hat⟩
    have hk := (hget y.1).symm.trans he
    split_ifs at hk with h
    · cases hk
      exact Or.inr (Or.inr (Prod.ext h hat.symm))
    · exact (hshows y ⟨e, hk, hat⟩).imp_right Or.inl

theorem State.Sound.shows_store (h : s.Sound C P) : Shows C P (known s.store) := by
  rw [h.store]
  cases hs : P.swaps with
  | nil => exact h.base
  | cons f fs => exact h.shows f (by rw [hs]; exact mem_cons_self)

/-- Nothing in sight carries the stamp of a revoke that has not swapped. -/
theorem State.Sound.unmarked (h : s.Sound C P) (hx : x ∈ s.stamps) (hnew : x ∉ P.shown)
    (hv : Shows C P v) : ¬ Marks v x := by
  intro hmark
  rcases hv x hmark with hinit | hshown
  · exact h.initial x (h.asked x hx) hinit
  · exact hnew hshown

theorem stamp_mem (hc : c ∈ s.calls) : c.stamp ∈ s.stamps :=
  mem_append_left _ (mem_map_of_mem hc)

theorem undo_stamp_mem (hu : u ∈ s.undos) : u.stamp ∈ s.stamps :=
  mem_append_right _ (mem_append_left _ (mem_map_of_mem hu))

theorem sound_start (C : Cluster ρ) :
    (State.start C).Sound C ⟨known C.first, [], []⟩ where
  stacked := trivial
  raises := by simp
  base := fun x hx => Or.inl (Or.inl hx)
  shows := by simp
  store := rfl
  absent _ := rfl
  mirror r := ⟨clean_coerce _, fun x hx => Or.inl (Or.inr ⟨r, hx⟩)⟩
  boot r raw h := absurd h (by simp [State.start])
  written := by simp [State.start]
  seeds := by simp [State.start]
  calls := by simp [State.start]
  undos := by simp [State.start]
  revoked := by simp [State.start, State.revoked]
  asked := by simp [State.start, State.revoked, State.stamps]
  shown := by simp
  initial := by simp [State.start]
  distinct := by simp [State.start, State.revoked, State.stamps]

/-- The store holds at least what each revoke answered. -/
theorem State.Sound.le_storeGen (h : s.Sound C P) {x : Stamp × ℕ} (hx : x ∈ s.revoked) :
    x.2 ≤ s.storeGen x.1.1 := by
  obtain ⟨f, hf, -, -, hgen⟩ := h.revoked x hx
  have htop := h.stacked.le_top View.Le.refl View.Le.trans h.raises hf
  calc x.2 = f.after.gen x.1.1 := hgen.symm
    _ ≤ (Swap.top P.base P.swaps).gen x.1.1 := htop x.1.1
    _ = s.storeGen x.1.1 := by
      rw [← h.store]
      rfl

/-- No two answered revokes of a host have the same generation. -/
theorem State.Sound.revoked_inj (h : s.Sound C P) {x y : Stamp × ℕ} (hx : x ∈ s.revoked)
    (hy : y ∈ s.revoked) (hhost : x.1.1 = y.1.1) (hgen : x.2 = y.2) : x.1 = y.1 := by
  obtain ⟨f, hf, hfx, hflt, hfgen⟩ := h.revoked x hx
  obtain ⟨g, hg, hgy, hglt, hggen⟩ := h.revoked y hy
  rcases h.stacked.comparable View.Le.refl View.Le.trans h.raises hf hg with rfl | hle | hle
  · exact hfx.symm.trans hgy
  · have := hle x.1.1
    rw [← hhost] at hglt
    omega
  · have := hle x.1.1
    rw [← hhost] at hggen
    omega

theorem State.Sound.revoked_nodup (h : s.Sound C P) :
    (s.revoked.map fun x => (x.1.1, x.2)).Nodup := by
  have hstamps : (s.revoked.map Prod.fst).Nodup :=
    (nodup_append.mp (nodup_append.mp h.distinct).2.1).2.1
  have hnodup : s.revoked.Nodup := hstamps.of_map _
  refine hnodup.map_on fun x hx y hy heq => ?_
  obtain ⟨hhost, hgen⟩ := Prod.mk.inj heq
  exact Prod.ext (h.revoked_inj hx hy hhost hgen) hgen

end Turma.NameToken
