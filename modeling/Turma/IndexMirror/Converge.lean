import Turma.IndexMirror.Drain

/-! Once nothing is queued, owed or in flight, Postgres holds what there is locally. -/

namespace Turma.IndexMirror

open Turma.Lib List Option JsString

variable {C : Config} {t t' : Transcript} {id : Id} {H H' : Cell → Prop} {s s' : Mirror}

/-- A transcript that is not known locally: at most a refill of it is queued, which finds nothing. -/
structure Unknown (id : Id) (s : Mirror) : Prop where
  gone : s.archive.get? id = none
  kept : s.pg id = {}
  queued : ∀ op ∈ s.q, op.id = id → op.write = .refill
  flying : ∀ op held, s.inflight = some (op, held) → op.id = id → op.write = .refill ∧ held = none

structure Known (C : Config) (id : Id) (t : Transcript) (s : Mirror) : Prop where
  here : s.archive.get? id = some t
  counted : t.row.counters.msgCount = t.lines.length
  filed : t.row.columns.filePath = none → t.lines = []
  good : t.lines.Nodup → Good C id t (fun _ => True) s

def Follows (C : Config) (id : Id) (s : Mirror) : Prop := Unknown id s ∨ ∃ t, Known C id t s

theorem archive_drain (s : Mirror) (now : ℤ) : (s.drain now).archive = s.archive := by
  rcases drain_cases s now with heq | ⟨-, ⟨op, q, -, heq⟩ | ⟨id', owed, -, -, heq⟩⟩ <;> rw [heq] <;> rfl

theorem archive_push (C : Config) (s : Mirror) (op : Op) (now : ℤ) :
    (s.push C op now).archive = s.archive := by
  unfold Mirror.push
  split_ifs
  · split
    · rw [archive_drain]
      exact (lost_rest C s op now).1
    · rw [archive_drain]
      exact (lost_rest C s _ now).1
  · exact archive_drain _ now

theorem archive_applied (C : Config) (s : Mirror) (now : ℤ) : (s.applied C now).archive = s.archive := by
  unfold Mirror.applied
  split
  · rfl
  · rw [archive_drain]
    exact (apply_rest s _ _).1

theorem archive_failed (C : Config) (s : Mirror) (now : ℤ) : (s.failed C now).archive = s.archive := by
  unfold Mirror.failed
  split
  · rfl
  · dsimp only
    split_ifs
    · rfl
    · rw [archive_drain]
      exact (lost_rest C _ _ now).1

theorem archive_reconcile (s : Mirror) (batch : ℕ) (rows : List (Id × ℕ)) (p : Id → Option Counts)
    (now : ℤ) : (s.reconcile batch rows p now).archive = s.archive := by
  have hfold : ∀ ids : List Id, (ids.foldl Mirror.resend s).archive = s.archive := by
    intro ids
    induction ids generalizing s with
    | nil => rfl
    | cons id ids ih => exact ih (s.resend id)
  unfold Mirror.reconcile
  split
  · rfl
  · rw [archive_drain, hfold]

theorem Unknown.start (h : Unknown id s) {op : Op} (hop : op.id = id → op.write = .refill) :
    Unknown id (s.start op) := by
  refine ⟨h.gone, h.kept, h.queued, fun op' held heq hid => ?_⟩
  obtain ⟨rfl, rfl⟩ := heq
  refine ⟨hop hid, ?_⟩
  rw [if_pos (hop hid), Mirror.mirrorRefillOf, hid, h.gone]
  rfl

theorem Unknown.drain (h : Unknown id s) (now : ℤ) : Unknown id (s.drain now) := by
  rcases drain_cases s now with heq | ⟨-, ⟨op, q, hq, heq⟩ | ⟨id', owed, -, -, heq⟩⟩
  · rwa [heq]
  · rw [heq]
    have hs : Unknown id { s with q := q } :=
      ⟨h.gone, h.kept, fun op' hin => h.queued op' (hq ▸ .tail _ hin), h.flying⟩
    exact hs.start (h.queued op (hq ▸ mem_cons_self))
  · rw [heq]
    have hs : Unknown id { s with owed := owed } := ⟨h.gone, h.kept, h.queued, h.flying⟩
    exact hs.start fun _ => rfl

theorem Unknown.lost (h : Unknown id s) (op : Op) (now : ℤ) : Unknown id (s.lost C op now) := by
  obtain ⟨harchive, hpg, hq, hfly⟩ := lost_rest C s op now
  refine ⟨?_, ?_, ?_, ?_⟩
  · rw [harchive]
    exact h.gone
  · rw [hpg]
    exact h.kept
  · rw [hq]
    exact h.queued
  · rw [hfly]
    exact h.flying

theorem Unknown.push (h : Unknown id s) {op : Op} (hid : op.id ≠ id) (now : ℤ) :
    Unknown id (s.push C op now) := by
  have hqueued : ∀ q : List Op, (∀ op' ∈ q, op' ∈ s.q) → ∀ op' ∈ q ++ [op], op'.id = id →
      op'.write = .refill := by
    intro q hsub op' hin heq
    rcases mem_append.mp hin with hold | hnew
    · exact h.queued op' (hsub op' hold) heq
    · exact absurd (mem_singleton.mp hnew ▸ heq) hid
  unfold Mirror.push
  split_ifs
  · cases hdrop : dropOldest s.q with
    | none => exact (h.lost op now).drain now
    | some x =>
      obtain ⟨dropped, rest⟩ := x
      obtain ⟨refills, tail, hsq, rfl, -⟩ := dropOldest_some hdrop
      have hl := h.lost (C := C) dropped now
      refine Unknown.drain (s := { s.lost C dropped now with q := refills ++ tail ++ [op] })
        ⟨hl.gone, hl.kept, hqueued _ fun op' hin => ?_, hl.flying⟩ now
      rw [hsq]
      rcases mem_append.mp hin with hin | hin
      · exact mem_append_left _ hin
      · exact mem_append_right _ (.tail _ hin)
  · exact Unknown.drain (s := { s with q := s.q ++ [op] })
      ⟨h.gone, h.kept, hqueued s.q fun _ hin => hin, h.flying⟩ now

theorem Unknown.applied (h : Unknown id s) (now : ℤ) : Unknown id (s.applied C now) := by
  unfold Mirror.applied
  cases hfly : s.inflight with
  | none => exact h
  | some x =>
    obtain ⟨op, held⟩ := x
    obtain ⟨harchive, hq, -, -, -⟩ := apply_rest (C := C) s op held
    refine Unknown.drain (s := { s.apply C op held with inflight := none })
      ⟨?_, ?_, ?_, fun _ _ heq => (nomatch heq)⟩ now
    · rw [harchive]
      exact h.gone
    · rw [pg_apply]
      split_ifs with hid
      · obtain ⟨hw, rfl⟩ := h.flying op held hfly hid.symm
        rw [Op.effect, hw]
        exact h.kept
      · exact h.kept
    · rw [hq]
      exact h.queued

theorem Unknown.failed (h : Unknown id s) (now : ℤ) : Unknown id (s.failed C now) := by
  unfold Mirror.failed
  cases hfly : s.inflight with
  | none => exact h
  | some x =>
    obtain ⟨op, held⟩ := x
    dsimp only
    split_ifs
    · exact h.start fun hid => (h.flying op held hfly hid).1
    · have hidle : Unknown id { s with inflight := none } :=
        ⟨h.gone, h.kept, h.queued, fun _ _ heq => (nomatch heq)⟩
      exact (hidle.lost _ now).drain now

theorem Unknown.reconcile (h : Unknown id s) (batch : ℕ) (rows : List (Id × ℕ))
    (p : Id → Option Counts) (now : ℤ) : Unknown id (s.reconcile batch rows p now) := by
  have hfold : ∀ ids : List Id, Unknown id (ids.foldl Mirror.resend s) := by
    intro ids
    induction ids generalizing s with
    | nil => exact h
    | cons id' ids ih =>
      refine ih ⟨h.gone, h.kept, fun op hin heq => ?_, h.flying⟩
      rcases mem_cons.mp hin with rfl | hold
      · rfl
      · exact h.queued op hold heq
  unfold Mirror.reconcile
  split
  · exact h
  · exact (hfold _).drain now

/-- A step that is not about the transcript. -/
theorem Follows.quiet (h : Follows C id s) (harchive : s'.archive.get? id = s.archive.get? id)
    (hunknown : Unknown id s → Unknown id s')
    (hgood : ∀ t, t.lines.Nodup → Good C id t (fun _ => True) s → Good C id t (fun _ => True) s') :
    Follows C id s' := by
  refine h.imp hunknown ?_
  rintro ⟨t, ht⟩
  exact ⟨t, harchive.trans ht.here, ht.counted, ht.filed, fun hn => hgood t hn (ht.good hn)⟩

theorem Follows.push_other (h : Follows C id s) {op : Op} (hid : op.id ≠ id) (now : ℤ) :
    Follows C id (s.push C op now) := by
  refine h.quiet (by rw [archive_push]) (fun hu => hu.push hid now) fun t hn hg => ?_
  refine hg.push hn now (fun heq => absurd heq hid) fun c _ _ => ?_
  rw [Op.Settles, if_neg hid]
  trivial

theorem Follows.set_other (h : Follows C id s) {id' : Id} (hid : id ≠ id') (t' : Transcript) :
    Follows C id (s.setTranscript id' t') := by
  have hget : (s.setTranscript id' t').archive.get? id = s.archive.get? id := by
    rw [Mirror.setTranscript, OrdMap.get?_upsert, if_neg hid]
  exact h.quiet hget (fun hu => ⟨hget.trans hu.gone, hu.kept, hu.queued, hu.flying⟩) fun t _ hg =>
    ⟨hget.trans hg.here, hg.kept, hg.queued, hg.flying, hg.again, hg.ends⟩

theorem Follows.session_other (h : Follows C id s) {id' : Id} (hid : id ≠ id') (now : ℤ) :
    Follows C id (s.mirrorSession C id' now) := by
  unfold Mirror.mirrorSession
  split
  · exact h
  · exact h.push_other (fun heq => hid heq.symm) now

theorem Good.weaken (h : Good C id t H s) (hH : ∀ c, t.Has c → H' c → H c) : Good C id t H' s := by
  refine ⟨h.here, h.kept, h.queued, h.flying, fun c hc hH' => h.again c hc (hH c hc hH'), ?_⟩
  exact h.ends.imp_right fun he => he.imp_right fun he hfile c hc hH' => he hfile c hc (hH c hc hH')

def Older (t : Transcript) : Cell → Prop
  | .row => False
  | .entry seq => seq < t.lines.length

theorem get_set (s : Mirror) (id : Id) (t : Transcript) :
    (s.setTranscript id t).archive.get? id = some t := by
  rw [Mirror.setTranscript, OrdMap.get?_upsert, if_pos rfl]

theorem older_settles {c : Cell} (hc : Older t c) (op : Op) (b : Prop) :
    op.Settles C t' id c b = op.Settles C t id c b := by
  cases c with
  | row => exact hc.elim
  | entry k =>
    unfold Op.Settles
    cases op.write <;> rfl

theorem older_landing {c : Cell} (hc : Older t c) (fl : Option (Op × Option Held)) (b : Prop) :
    Landing C t' id c fl b = Landing C t id c fl b := by
  cases c with
  | row => exact hc.elim
  | entry k =>
    cases fl with
    | none => rfl
    | some x =>
      obtain ⟨op, held⟩ := x
      have hop := @older_settles C t t' id _ hc op b
      simp only [Op.Settles] at hop
      simp only [Landing]
      by_cases hid : op.id = id
      · rw [if_pos hid, if_pos hid] at hop ⊢
        cases held <;> rw [hop] <;> rfl
      · rw [if_neg hid, if_neg hid]

theorem older_exact (hg : Grows t t') {c : Cell} (hc : Older t c) (p : Kept) :
    p.Exact t' c = p.Exact t c := by
  cases c with
  | row => exact hc.elim
  | entry k =>
    have hk : k < t.mirrored.length := by
      rw [Transcript.mirrored, length_map]
      exact hc
    rw [Kept.Exact, Kept.Exact, hg.mirrored (getElem?_eq_getElem hk), getElem?_eq_getElem hk]

/-- The transcript is now `t'`, of which the queue knows the older entries. -/
theorem Known.set (h : Known C id t s) (hg : Grows t t') (hn : t'.lines.Nodup) :
    Good C id t' (Older t) (s.setTranscript id t') := by
  have hgood := h.good (hn.sublist hg.lines.sublist)
  refine ⟨get_set s id t', hg.kept hgood.kept, fun op hin hid => hg.write (hgood.queued op hin hid),
    fun op held hfly hid => ?_, fun c hc ho => ?_, ?_⟩
  · obtain ⟨hw, hh⟩ := hgood.flying op held hfly hid
    exact ⟨hg.write hw, fun x hx => hg.held (hh x hx)⟩
  · have hold : t.Has c := by
      cases c with
      | row => trivial
      | entry k => exact ho
    have hagain := hgood.again c hold trivial
    simp only [settled, @older_settles C t t' id _ ho] at hagain ⊢
    exact hagain
  · refine hgood.ends.imp_right fun he => he.imp_right fun he _ c _ ho => ?_
    cases c with
    | row => exact ho.elim
    | entry k =>
      have hfile : t.row.columns.filePath ≠ none := fun hnone => by
        rw [Older, h.filed hnone] at ho
        exact absurd ho (Nat.not_lt_zero k)
      have hend := he hfile (.entry k) ho trivial
      simp only [settled, @older_settles C t t' id _ ho] at hend ⊢
      rw [older_landing ho]
      simp only [Mirror.setTranscript]
      rwa [older_exact hg ho]

theorem Unknown.set (h : Unknown id s) (t' : Transcript) :
    Good C id t' (fun _ => False) (s.setTranscript id t') := by
  refine ⟨get_set s id t', ?_, fun op hin hid => ?_, fun op held hfly hid => ?_, fun c _ hf => hf.elim,
    .inr (.inr fun _ c _ hf => hf.elim)⟩
  · change (s.pg id).Sound t'
    rw [h.kept]
    exact ⟨fun k e he => (nomatch he), fun row hr => (nomatch hr)⟩
  · rw [h.queued op hin hid]
    trivial
  · obtain ⟨hw, rfl⟩ := h.flying op held hfly hid
    rw [hw]
    exact ⟨trivial, fun x hx => (nomatch hx)⟩

theorem Good.session (h : Good C id t H s) (hn : t.lines.Nodup) (now : ℤ) :
    Good C id t (fun c => c = .row ∨ H c) (s.mirrorSession C id now) := by
  unfold Mirror.mirrorSession
  rw [h.here]
  refine h.push hn now (fun _ => .refl _) fun c _ hH' => ?_
  rw [Op.Settles, if_pos rfl]
  cases c with
  | row => rfl
  | entry k => exact hH'.resolve_left (by simp)

theorem archive_session (C : Config) (s : Mirror) (id : Id) (now : ℤ) :
    (s.mirrorSession C id now).archive = s.archive := by
  unfold Mirror.mirrorSession
  split
  · rfl
  · exact archive_push C s _ now

theorem archive_entries (C : Config) (s : Mirror) (id : Id) (list : List Line) (start : ℕ) (now : ℤ) :
    (s.mirrorEntries C id list start now).archive = s.archive := by
  unfold Mirror.mirrorEntries
  split_ifs
  · rfl
  · exact archive_push C s _ now

/-- The chunk's lines come after those the transcript had. -/
theorem Good.entries {list : List Line} {start : ℕ} (h : Good C id t H s) (hn : t.lines.Nodup)
    (hlines : t.lines.drop start = list) (hlen : start ≤ t.lines.length) (now : ℤ)
    (hH : ∀ c, t.Has c → (c = .row ∨ ∃ k, c = .entry k ∧ k < start) → H c) :
    Good C id t (fun _ => True) (s.mirrorEntries C id list start now) := by
  have hcount : t.lines.length = start + list.length := by
    rw [← hlines, length_drop]
    omega
  unfold Mirror.mirrorEntries
  by_cases hempty : list = []
  · rw [if_pos hempty]
    refine h.weaken fun c hc _ => hH c hc ?_
    cases c with
    | row => exact .inl rfl
    | entry k =>
      have hk : k < t.lines.length := hc
      rw [hempty] at hcount
      exact .inr ⟨k, rfl, by simpa [hcount] using hk⟩
  rw [if_neg hempty]
  refine h.push hn now (fun _ => ?_) fun c hc _ => ?_
  · intro i e he
    rw [← hlines, map_drop, getElem?_drop] at he
    exact he
  · rw [Op.Settles, if_pos rfl]
    cases c with
    | row => exact hH .row hc (.inl rfl)
    | entry k =>
      have hk : k < t.lines.length := hc
      by_cases hold : k < start
      · exact .inl (hH (.entry k) hc (.inr ⟨k, rfl, hold⟩))
      · refine .inr ⟨not_lt.mp hold, ?_⟩
        rw [length_map]
        omega

theorem Follows.ingestChunk (h : Follows C id s) (id' : Id) (columns : Columns) (relPath : JsString)
    (list : List Line) (bytes size : ℕ) (now : ℤ) :
    Follows C id (s.ingestChunk C id' columns relPath list bytes size now) := by
  unfold Mirror.ingestChunk
  dsimp only
  by_cases hid : id = id'
  swap
  · refine Follows.quiet (((h.set_other hid _).session_other hid now)) (by rw [archive_entries]) ?_ ?_
    · intro hu
      unfold Mirror.mirrorEntries
      split_ifs
      · exact hu
      · exact hu.push (fun heq => hid heq.symm) now
    · intro t hn hg
      unfold Mirror.mirrorEntries
      split_ifs
      · exact hg
      · refine hg.push hn now (fun heq => absurd heq.symm hid) fun c _ _ => ?_
        rw [Op.Settles, if_neg fun heq => hid heq.symm]
        trivial
  subst hid
  generalize hprev : (s.archive.get? id).getD ⟨⟨{}, {}⟩, []⟩ = prev
  have hcounted : prev.row.counters.msgCount = prev.lines.length := by
    rcases h with hu | ⟨t, ht⟩
    · rw [hu.gone] at hprev
      rw [← hprev]
      rfl
    · rw [ht.here] at hprev
      rw [← hprev]
      exact ht.counted
  generalize ht' : (⟨⟨{ columns with filePath := some (prev.row.columns.filePath.getD relPath) },
    ⟨prev.row.counters.msgCount + list.length, prev.row.counters.bytesStored + bytes,
      prev.row.counters.archiveBytes + size, prev.row.counters.rawBytes⟩⟩, prev.lines ++ list⟩ :
        Transcript) = t'
  have hlines : t'.lines = prev.lines ++ list := by rw [← ht']
  refine .inr ⟨t', ?_, ?_, fun hnone => ?_, fun hn => ?_⟩
  · rw [archive_entries, archive_session]
    exact get_set s id t'
  · rw [hlines, length_append, ← hcounted, ← ht']
  · rw [← ht'] at hnone
    cases hnone
  · have hset : Good C id t' (Older prev) (s.setTranscript id t') := by
      rcases h with hu | ⟨t, ht⟩
      · rw [hu.gone] at hprev
        refine (hu.set t').weaken fun c _ ho => ?_
        cases c with
        | row => exact ho
        | entry k =>
          rw [← hprev] at ho
          exact absurd ho (Nat.not_lt_zero k)
      · rw [ht.here] at hprev
        obtain rfl : t = prev := hprev
        refine ht.set ⟨⟨list, hlines.symm⟩, ?_⟩ hn
        rw [← ht']
        exact ⟨Nat.le_add_right _ _, Nat.le_add_right _ _, Nat.le_add_right _ _, le_rfl⟩
    refine (hset.session hn now).entries hn ?_ ?_ now fun c _ hc => ?_
    · rw [hlines, hcounted, drop_left]
    · rw [hlines, hcounted, length_append]
      exact Nat.le_add_right _ _
    · refine hc.imp_right ?_
      rintro ⟨k, rfl, hk⟩
      rw [hcounted] at hk
      exact hk

theorem Follows.touch (h : Follows C id s) (id' : Id) (columns : Columns) (rawBytes : ℕ) (now : ℤ) :
    Follows C id (s.touch C id' columns rawBytes now) := by
  unfold Mirror.touch
  cases hget : s.archive.get? id' with
  | none => exact h
  | some t =>
    dsimp only
    by_cases hid : id = id'
    swap
    · exact (h.set_other hid _).session_other hid now
    subst hid
    rcases h with hu | ⟨t₀, ht⟩
    · exact nomatch hu.gone.symm.trans hget
    obtain rfl := some.inj (ht.here.symm.trans hget)
    generalize ht' : ({ t₀ with row := _ } : Transcript) = t'
    have hlines : t'.lines = t₀.lines := by rw [← ht']
    refine .inr ⟨t', ?_, ?_, fun hnone => ?_, fun hn => ?_⟩
    · rw [archive_session]
      exact get_set s id t'
    · rw [hlines, ← ht.counted, ← ht']
    · rw [hlines]
      refine ht.filed ?_
      rw [← ht'] at hnone
      exact hnone
    · have hg : Grows t₀ t' := by
        refine ⟨⟨[], by rw [hlines, append_nil]⟩, ?_⟩
        rw [← ht']
        exact ⟨le_rfl, le_rfl, le_rfl, Nat.le_add_right _ _⟩
      refine ((ht.set hg hn).session hn now).weaken fun c hc _ => ?_
      cases c with
      | row => exact .inl rfl
      | entry k =>
        have hk : k < t'.lines.length := hc
        exact .inr (show k < t₀.lines.length by rwa [hlines] at hk)

theorem Follows.placeholder (h : Follows C id s) (id' : Id) (columns : Columns) (now : ℤ) :
    Follows C id (s.placeholder C id' columns now) := by
  unfold Mirror.placeholder
  by_cases hknown : (s.archive.get? id').isSome = true
  · rw [if_pos hknown]
    exact h
  rw [if_neg hknown]
  by_cases hid : id = id'
  swap
  · exact (h.set_other hid _).session_other hid now
  subst hid
  rcases h with hu | ⟨t, ht⟩
  swap
  · rw [ht.here] at hknown
    exact absurd rfl hknown
  refine .inr ⟨⟨⟨{ columns with filePath := none }, {}⟩, []⟩, ?_, rfl, fun _ => rfl, fun hn => ?_⟩
  · rw [archive_session]
    exact get_set s id _
  · refine ((hu.set _).session hn now).weaken fun c hc _ => ?_
    cases c with
    | row => exact .inl rfl
    | entry k => exact absurd hc (Nat.not_lt_zero k)

theorem Follows.heal (h : Follows C id s) (id' : Id) (now : ℤ) : Follows C id (s.heal C id' now) := by
  unfold Mirror.heal
  cases hget : s.archive.get? id' with
  | none => exact h
  | some t =>
    by_cases hid : id = id'
    swap
    · exact (h.push_other (fun heq => hid heq.symm) now).session_other hid now
    subst hid
    rcases h with hu | ⟨t₀, ht⟩
    · exact nomatch hu.gone.symm.trans hget
    obtain rfl := some.inj (ht.here.symm.trans hget)
    refine .inr ⟨t₀, ?_, ht.counted, ht.filed, fun hn => ?_⟩
    · rw [archive_session, archive_push]
      exact ht.here
    · have hpush : Good C id t₀ (fun _ => True)
          (s.push C ⟨id, .replace (t₀.lines.map mirrorEntry), 0⟩ now) := by
        refine (ht.good hn).push hn now (fun _ => within_mirrored t₀) fun c hc _ => ?_
        rw [Op.Settles, if_pos rfl]
        cases c with
        | row => trivial
        | entry k =>
          change k < (t₀.lines.map mirrorEntry).length
          rw [length_map]
          exact hc
      exact (hpush.session hn now).weaken fun _ _ _ => .inr trivial

theorem Follows.reindexHeld (h : Follows C id s) (id' : Id) (trim : Bool) (now : ℤ) :
    Follows C id (s.reindexHeld C id' trim now) := by
  unfold Mirror.reindexHeld
  cases hget : s.archive.get? id' with
  | none => exact h
  | some t =>
    dsimp only
    by_cases hid : id = id'
    swap
    · exact h.push_other (fun heq => hid heq.symm) now
    subst hid
    rcases h with hu | ⟨t₀, ht⟩
    · exact nomatch hu.gone.symm.trans hget
    obtain rfl := some.inj (ht.here.symm.trans hget)
    refine .inr ⟨t₀, ?_, ht.counted, ht.filed, fun hn => ?_⟩
    · rw [archive_push]
      exact ht.here
    · rw [dedupLines_of_nodup hn]
      refine (ht.good hn).push hn now (fun _ => within_mirrored t₀) fun c hc _ => ?_
      rw [Op.Settles, if_pos rfl]
      cases c with
      | row => trivial
      | entry k =>
        refine .inr ?_
        rw [length_map]
        exact hc

theorem Follows.step (h : Follows C id s) (e : ℤ × Event) : Follows C id (step C s e) := by
  obtain ⟨now, e⟩ := e
  cases e with
  | ingestChunk id' columns relPath list bytes size =>
    exact h.ingestChunk id' columns relPath list bytes size now
  | touch id' columns rawBytes => exact h.touch id' columns rawBytes now
  | placeholder id' columns => exact h.placeholder id' columns now
  | heal id' => exact h.heal id' now
  | reindexHeld id' trim => exact h.reindexHeld id' trim now
  | applied =>
    exact h.quiet (by rw [IndexMirror.step, archive_applied]) (fun hu => hu.applied now)
      fun t hn hg => hg.applied hn now
  | failed =>
    exact h.quiet (by rw [IndexMirror.step, archive_failed]) (fun hu => hu.failed now)
      fun t hn hg => hg.failed hn now
  | reconcile batch rows p =>
    exact h.quiet (by rw [IndexMirror.step, archive_reconcile]) (fun hu => hu.reconcile batch rows p now)
      fun t hn hg => hg.reconcile hn batch rows p now
  | wake =>
    exact h.quiet (by rw [IndexMirror.step, archive_drain]) (fun hu => hu.drain now)
      fun t hn hg => hg.drain hn now

structure Hydrated where
  archive : OrdMap Id Transcript
  counted : ∀ id t, archive.get? id = some t → t.row.counters.msgCount = t.lines.length
  filed : ∀ id t, archive.get? id = some t → t.row.columns.filePath = none → t.lines = []

/-- What Postgres holds when it holds exactly what there is locally. -/
def image : Option Transcript → Kept
  | none => {}
  | some t => ⟨some (mirrorRow t.row), fun seq => t.mirrored[seq]?⟩

def Hydrated.mirror (a : Hydrated) : Mirror :=
  { archive := a.archive, pg := fun id => image (a.archive.get? id) }

/-- Nothing is queued, owed or in flight, and no op was dropped for want of room in the owed set. -/
def Mirror.Idle (s : Mirror) : Prop := s.q = [] ∧ s.owed = [] ∧ s.inflight = none ∧ s.forgotten = []

instance (s : Mirror) : Decidable s.Idle := inferInstanceAs (Decidable (_ ∧ _ ∧ _ ∧ _))

/-- A transcript that has its file, in which no line is repeated. -/
def Transcript.Plain (t : Transcript) : Prop := t.row.columns.filePath ≠ none ∧ t.lines.Nodup

instance (t : Transcript) : Decidable t.Plain := inferInstanceAs (Decidable (_ ∧ _))

theorem Hydrated.follows (C : Config) (a : Hydrated) (id : Id) : Follows C id a.mirror := by
  cases hget : a.archive.get? id with
  | none =>
    refine .inl ⟨hget, ?_, fun _ hin => (nomatch hin), fun _ _ heq => (nomatch heq)⟩
    change image (a.archive.get? id) = {}
    rw [hget]
    rfl
  | some t =>
    have hpg : a.mirror.pg id = image (some t) := by
      change image (a.archive.get? id) = _
      rw [hget]
    refine .inr ⟨t, hget, a.counted id t hget, a.filed id t hget, fun _ => ⟨hget, ?_,
      fun _ hin => (nomatch hin), fun _ _ heq => (nomatch heq), fun _ _ _ => trivial,
      .inr (.inr fun _ c _ _ => ?_)⟩⟩
    · rw [hpg]
      refine ⟨fun k e he => he, fun row hr => ?_⟩
      cases hr
      exact .refl _
    · rw [hpg]
      cases c <;> rfl

theorem Follows.run (h : Follows C id s) (es : List (ℤ × Event)) :
    Follows C id (run (IndexMirror.step C) s es) := by
  induction es generalizing s with
  | nil => exact h
  | cons e es ih => exact ih (h.step e)

theorem Good.exact (h : Good C id t (fun _ => True) s) (hidle : s.Idle)
    (hfile : t.row.columns.filePath ≠ none) : s.pg id = image (some t) := by
  obtain ⟨hq, howed, hfly, hforgotten⟩ := hidle
  have hends := h.ends
  rw [howed, hforgotten, hq, hfly] at hends
  rcases hends with hin | hin | hcells
  · cases hin
  · cases hin
  have hexact : ∀ c, t.Has c → (s.pg id).Exact t c := fun c hc => hcells hfile c hc trivial
  have hentries : (s.pg id).entries = fun seq => t.mirrored[seq]? := by
    funext k
    by_cases hk : k < t.lines.length
    · exact hexact (.entry k) hk
    · have hnone : t.mirrored[k]? = none := by
        rw [List.getElem?_eq_none_iff, Transcript.mirrored, length_map]
        exact not_lt.mp hk
      rw [hnone]
      cases he : (s.pg id).entries k with
      | none => rfl
      | some e => cases hnone.symm.trans (h.kept.entries k e he)
  have hrow : (s.pg id).row = some (mirrorRow t.row) := hexact .row trivial
  calc s.pg id = ⟨(s.pg id).row, (s.pg id).entries⟩ := rfl
    _ = image (some t) := by rw [hrow, hentries]; rfl

def Hydrated.none : Hydrated := ⟨.empty, fun _ _ h => (nomatch h), fun _ _ h => (nomatch h)⟩

def narrow (es : List (ℤ × Event)) : Mirror := run (step { queueMax := 1 }) Hydrated.none.mirror es

/-- Three transcripts that are not known yet, of which the second one's row is dropped. -/
def placeholders : List (ℤ × Event) :=
  [(0, .placeholder (ofString "t1") {}), (1, .placeholder (ofString "t2") {}),
    (2, .placeholder (ofString "t3") {}), (3, .applied), (4, .applied), (5, .applied)]

end Turma.IndexMirror
