import Turma.IndexMirror.Mirror
import Turma.Lib.Settle

/-! What the writes make of the cells of one transcript in Postgres: its row, and its entries. -/

namespace Turma.IndexMirror

open Turma.Lib

inductive Cell
  | row
  | entry (seq : ℕ)

def Transcript.Has (t : Transcript) : Cell → Prop
  | .row => True
  | .entry seq => seq < t.lines.length

def Transcript.mirrored (t : Transcript) : List Entry := t.lines.map mirrorEntry

def Counters.Below (a b : Counters) : Prop :=
  a.msgCount ≤ b.msgCount ∧ a.bytesStored ≤ b.bytesStored ∧ a.archiveBytes ≤ b.archiveBytes ∧
    a.rawBytes ≤ b.rawBytes

/-- The entries are those of `t` from `start` on. -/
def Within (t : Transcript) (entries : List Entry) (start : ℕ) : Prop :=
  ∀ i e, entries[i]? = some e → t.mirrored[start + i]? = some e

/-- What is held of `t` is not wrong, and its counters are not ahead. -/
structure Kept.Sound (t : Transcript) (p : Kept) : Prop where
  entries : ∀ seq e, p.entries seq = some e → t.mirrored[seq]? = some e
  row : ∀ row, p.row = some row → row.counters.Below t.row.counters

def Kept.Exact (t : Transcript) (p : Kept) : Cell → Prop
  | .row => p.row = some (mirrorRow t.row)
  | .entry seq => p.entries seq = t.mirrored[seq]?

def Write.Sound (t : Transcript) : Write → Prop
  | .session row => row.counters.Below t.row.counters
  | .entries list startSeq => Within t list startSeq
  | .replace list => Within t list 0
  | .seat list _ => Within t list 0
  | .refill => True

def Held.Sound (t : Transcript) (held : Held) : Prop :=
  held.1.counters.Below t.row.counters ∧ Within t held.2 0

/-- Whether a cell is exact after the write, where `b` says it of before. -/
def Write.Settles (C : Config) (t : Transcript) : Cell → Write → Prop → Prop
  | .row, .session row, _ => row = mirrorRow t.row
  | .row, .refill, _ => True
  | .row, _, b => b
  | .entry _, .session _, b => b
  | .entry seq, .entries list startSeq, b => b ∨ (startSeq ≤ seq ∧ seq < startSeq + list.length)
  | .entry seq, .replace list, _ => seq < list.length
  | .entry seq, .seat list trim, b => (¬(trim = true ∧ 0 < C.term) ∧ b) ∨ seq < list.length
  | .entry _, .refill, _ => True

def Held.Settles (t : Transcript) (held : Held) : Cell → Prop
  | .row => held.1 = mirrorRow t.row
  | .entry seq => seq < held.2.length

def Op.Settles (C : Config) (t : Transcript) (id : Id) (c : Cell) (op : Op) (b : Prop) : Prop :=
  if op.id = id then op.write.Settles C t c b else b

def Landing (C : Config) (t : Transcript) (id : Id) (c : Cell) : Option (Op × Option Held) → Prop → Prop
  | none, b => b
  | some (op, held), b =>
    if op.id = id then
      if op.write = .refill then held.elim b (·.Settles t c) else op.write.Settles C t c b
    else b

variable {C : Config} {t t' : Transcript} {id : Id} {c : Cell} {p : Kept}

theorem Counters.Below.refl (a : Counters) : a.Below a := ⟨le_rfl, le_rfl, le_rfl, le_rfl⟩

theorem Counters.Below.trans {a b c : Counters} (h : a.Below b) (h' : b.Below c) : a.Below c :=
  ⟨h.1.trans h'.1, h.2.1.trans h'.2.1, h.2.2.1.trans h'.2.2.1, h.2.2.2.trans h'.2.2.2⟩

theorem greatest_below {a b c : Counters} (h : a.Below c) (h' : b.Below c) :
    (Kept.greatest a b).Below c :=
  ⟨max_le h.1 h'.1, max_le h.2.1 h'.2.1, max_le h.2.2.1 h'.2.2.1, max_le h.2.2.2 h'.2.2.2⟩

theorem greatest_eq {a b : Counters} (h : a.Below b) : Kept.greatest a b = b := by
  obtain ⟨h1, h2, h3, h4⟩ := h
  rw [Kept.greatest, max_eq_right h1, max_eq_right h2, max_eq_right h3, max_eq_right h4]

structure Grows (t t' : Transcript) : Prop where
  lines : t.lines <+: t'.lines
  counters : t.row.counters.Below t'.row.counters

variable {k : ℕ}

theorem Grows.mirrored (h : Grows t t') {e : Entry} (he : t.mirrored[k]? = some e) :
    t'.mirrored[k]? = some e := by
  obtain ⟨rest, hrest⟩ := h.lines
  have hk : k < t.mirrored.length := (List.getElem?_eq_some_iff.mp he).1
  have happend : t'.mirrored = t.mirrored ++ rest.map mirrorEntry := by
    rw [Transcript.mirrored, ← hrest, List.map_append, Transcript.mirrored]
  rw [happend, List.getElem?_append_left hk]
  exact he

variable {es : List Entry}

theorem Grows.within (h : Grows t t') {start : ℕ} (hw : Within t es start) :
    Within t' es start :=
  fun i e he => h.mirrored (hw i e he)

theorem Grows.kept (h : Grows t t') (hp : p.Sound t) : p.Sound t' :=
  ⟨fun k e he => h.mirrored (hp.entries k e he), fun row hr => (hp.row row hr).trans h.counters⟩

theorem Grows.write (h : Grows t t') {w : Write} (hw : w.Sound t) : w.Sound t' := by
  cases w with
  | session row => exact hw.trans h.counters
  | entries es start => exact h.within hw
  | replace es => exact h.within hw
  | seat es trim => exact h.within hw
  | refill => trivial

theorem Grows.held (h : Grows t t') {held : Held} (hh : held.Sound t) : held.Sound t' :=
  ⟨hh.1.trans h.counters, h.within hh.2⟩

theorem settlesMono (C : Config) (t : Transcript) (id : Id) :
    SettlesMono fun c (op : Op) b => op.Settles C t id c b := by
  intro c op b b' hb h
  simp only [Op.Settles] at h ⊢
  split_ifs at h ⊢
  · cases c <;> cases hw : op.write <;> rw [hw] at h <;> simp only [Write.Settles] at h ⊢ <;> tauto
  · exact hb h

theorem insert_sound (hp : p.Sound t) {start : ℕ} (hw : Within t es start)
    (overwrite : Bool) : (p.insertEntries es start overwrite).Sound t := by
  refine ⟨fun k e he => ?_, hp.row⟩
  have hnew : (if start ≤ k then es[k - start]? else none) = some e → t.mirrored[k]? = some e := by
    intro h
    split_ifs at h with hk
    have := hw _ e h
    rwa [Nat.add_sub_cancel' hk] at this
  cases overwrite with
  | true =>
    rcases Option.or_eq_some_iff.mp he with h | ⟨-, h⟩
    · exact hnew h
    · exact hp.entries k e h
  | false =>
    rcases Option.or_eq_some_iff.mp he with h | ⟨-, h⟩
    · exact hp.entries k e h
    · exact hnew h

theorem upsert_sound (hp : p.Sound t) {row : Row} (hr : row.counters.Below t.row.counters) :
    (p.upsertSession row).Sound t := by
  refine ⟨hp.entries, fun row' h => ?_⟩
  cases h
  cases hold : p.row with
  | none => exact hr
  | some old => exact greatest_below (hp.row old hold) hr

theorem replace_sound (hp : p.Sound t) (hw : Within t es 0) :
    (p.replaceEntries es).Sound t := by
  have hi := insert_sound hp hw true
  refine ⟨fun k e he => ?_, hi.row⟩
  simp only [Kept.replaceEntries] at he
  split_ifs at he
  exact hi.entries k e he

/-- In place of an entry comes the right one. -/
theorem insert_exact (hp : p.Sound t) {start : ℕ} (hw : Within t es start)
    (overwrite : Bool) (hk : k < t.lines.length)
    (h : p.Exact t (.entry k) ∨ (start ≤ k ∧ k < start + es.length)) :
    (p.insertEntries es start overwrite).Exact t (.entry k) := by
  have hs := insert_sound hp hw overwrite
  have hlen : k < t.mirrored.length := by rwa [Transcript.mirrored, List.length_map]
  have hsome : ∃ e, (p.insertEntries es start overwrite).entries k = some e := by
    rcases h with hex | ⟨hle, hlt⟩
    · have hsome : p.entries k = some t.mirrored[k] := hex.trans (List.getElem?_eq_getElem hlen)
      simp only [Kept.insertEntries, hsome]
      cases overwrite with
      | true => cases (if start ≤ k then es[k - start]? else none) <;> exact ⟨_, rfl⟩
      | false => exact ⟨_, rfl⟩
    · have hnew : es[k - start]? = some es[k - start] := List.getElem?_eq_getElem (by omega)
      simp only [Kept.insertEntries, hnew, if_pos hle]
      cases overwrite with
      | true => exact ⟨_, rfl⟩
      | false => cases p.entries k <;> exact ⟨_, rfl⟩
  obtain ⟨e, he⟩ := hsome
  exact he.trans (hs.entries k e he).symm

theorem replace_exact (hp : p.Sound t) (hw : Within t es 0)
    (hk : k < t.lines.length) (h : k < es.length) : (p.replaceEntries es).Exact t (.entry k) := by
  have hi := insert_exact hp hw true hk (.inr ⟨Nat.zero_le k, by omega⟩)
  simp only [Kept.Exact, Kept.replaceEntries, if_pos h]
  exact hi

theorem upsert_exact (hp : p.Sound t) : (p.upsertSession (mirrorRow t.row)).Exact t .row := by
  simp only [Kept.Exact, Kept.upsertSession]
  cases hold : p.row with
  | none => rfl
  | some old =>
    have hle : old.counters.Below (mirrorRow t.row).counters := hp.row old hold
    rw [Option.elim_some, greatest_eq hle]

def Op.effect (C : Config) (op : Op) (held : Option Held) (p : Kept) : Kept :=
  match op.write with
  | .session row => p.upsertSession row
  | .entries es start => p.appendEntries es start
  | .replace es => p.replaceEntries es
  | .seat es trim => if trim = true ∧ 0 < C.term then p.replaceEntries es else p.seatEntries es
  | .refill => held.elim p fun held => (p.upsertSession held.1).replaceEntries held.2

theorem pg_apply (s : Mirror) (op : Op) (held : Option Held) (k : Id) :
    (s.apply C op held).pg k = if k = op.id then op.effect C held (s.pg k) else s.pg k := by
  have hon : ∀ f : Kept → Kept, (s.onPg op.id f).pg k = if k = op.id then f (s.pg k) else s.pg k := by
    intro f
    simp only [Mirror.onPg, Function.update_apply]
    split_ifs with h
    · rw [h]
    · rfl
  simp only [Mirror.apply, Op.effect]
  cases op.write with
  | session row => exact hon _
  | entries es start => exact hon _
  | replace es => exact hon _
  | seat es trim =>
    dsimp only
    by_cases h : trim = true ∧ 0 < C.term
    · rw [if_pos h, if_pos h]
      exact hon _
    · rw [if_neg h, if_neg h]
      exact hon _
  | refill =>
    cases held with
    | none => exact (ite_self _).symm
    | some held => exact hon fun p => (p.upsertSession held.1).replaceEntries held.2

theorem apply_rest (s : Mirror) (op : Op) (held : Option Held) :
    (s.apply C op held).archive = s.archive ∧ (s.apply C op held).q = s.q ∧
      (s.apply C op held).inflight = s.inflight ∧ (s.apply C op held).owed = s.owed ∧
      (s.apply C op held).forgotten = s.forgotten := by
  simp only [Mirror.apply]
  cases op.write with
  | seat es trim =>
    dsimp only
    split_ifs <;> exact ⟨rfl, rfl, rfl, rfl, rfl⟩
  | refill => cases held <;> exact ⟨rfl, rfl, rfl, rfl, rfl⟩
  | _ => exact ⟨rfl, rfl, rfl, rfl, rfl⟩

theorem effect_sound (hp : p.Sound t) {op : Op} (hw : op.write.Sound t) {held : Option Held}
    (hh : ∀ h, held = some h → h.Sound t) : (op.effect C held p).Sound t := by
  simp only [Op.effect]
  cases hop : op.write with
  | session row =>
    rw [hop] at hw
    exact upsert_sound hp hw
  | entries es start =>
    rw [hop] at hw
    exact insert_sound hp hw false
  | replace es =>
    rw [hop] at hw
    exact replace_sound hp hw
  | seat es trim =>
    rw [hop] at hw
    dsimp only
    split_ifs
    · exact replace_sound hp hw
    · exact insert_sound hp hw true
  | refill =>
    cases held with
    | none => exact hp
    | some held =>
      obtain ⟨hrow, hes⟩ := hh held rfl
      exact replace_sound (upsert_sound hp hrow) hes

/-- An op that lands settles what it was said to settle. -/
theorem effect_settles (hp : p.Sound t) {op : Op} (hw : op.write.Sound t) {held : Option Held}
    (hh : ∀ h, held = some h → h.Sound t) (hid : op.id = id) (hc : t.Has c)
    (h : Landing C t id c (some (op, held)) (p.Exact t c)) : (op.effect C held p).Exact t c := by
  simp only [Landing, if_pos hid] at h
  simp only [Op.effect]
  cases hop : op.write with
  | session row =>
    rw [hop, if_neg (by simp)] at h
    cases c with
    | row =>
      rw [show row = mirrorRow t.row from h]
      exact upsert_exact hp
    | entry k => exact h
  | entries es start =>
    rw [hop] at h hw
    rw [if_neg (by simp)] at h
    cases c with
    | row => exact h
    | entry k => exact insert_exact hp hw false hc h
  | replace es =>
    rw [hop] at h hw
    rw [if_neg (by simp)] at h
    cases c with
    | row => exact h
    | entry k => exact replace_exact hp hw hc h
  | seat es trim =>
    rw [hop] at h hw
    rw [if_neg (by simp)] at h
    dsimp only
    cases c with
    | row =>
      have hrow : p.Exact t .row := h
      split_ifs <;> exact hrow
    | entry k =>
      have hk : (¬(trim = true ∧ 0 < C.term) ∧ p.Exact t (.entry k)) ∨ k < es.length := h
      by_cases htrim : trim = true ∧ 0 < C.term
      · rw [if_pos htrim]
        refine replace_exact hp hw hc (hk.resolve_left fun hn => hn.1 htrim)
      · rw [if_neg htrim]
        exact insert_exact hp hw true hc (hk.imp (·.2) fun hlt => ⟨Nat.zero_le k, by omega⟩)
  | refill =>
    rw [hop, if_pos rfl] at h
    cases held with
    | none => exact h
    | some held =>
      obtain ⟨hrow, hes⟩ := hh held rfl
      cases c with
      | row =>
        have heq : held.1 = mirrorRow t.row := h
        change ((p.upsertSession held.1).replaceEntries held.2).Exact t .row
        rw [heq]
        exact upsert_exact hp
      | entry k => exact replace_exact (upsert_sound hp hrow) hes hc h

end Turma.IndexMirror
