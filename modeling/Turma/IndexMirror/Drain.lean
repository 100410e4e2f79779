import Turma.IndexMirror.Cells

/-! What the queue keeps of one transcript, whatever is dropped from it, tried again or put at its
head. -/

namespace Turma.IndexMirror

open Turma.Lib List Option

/-- The cells `H` of the transcript `id`, which locally is `t`, will be exact in Postgres once all that
is queued has landed, or the transcript is owed a refill. And what is queued does not unsettle them
where a refill goes first. -/
structure Good (C : Config) (id : Id) (t : Transcript) (H : Cell → Prop) (s : Mirror) : Prop where
  here : s.archive.get? id = some t
  kept : (s.pg id).Sound t
  queued : ∀ op ∈ s.q, op.id = id → op.write.Sound t
  flying : ∀ op held, s.inflight = some (op, held) → op.id = id →
    op.write.Sound t ∧ ∀ h, held = some h → h.Sound t
  again : ∀ c, t.Has c → H c → settled (fun c op b => op.Settles C t id c b) c s.q True
  ends : id ∈ s.owed ∨ id ∈ s.forgotten ∨ (t.row.columns.filePath ≠ none → ∀ c, t.Has c → H c →
    settled (fun c op b => op.Settles C t id c b) c s.q (Landing C t id c s.inflight ((s.pg id).Exact t c)))

variable {C : Config} {t : Transcript} {id : Id} {H H' : Cell → Prop} {s s' : Mirror}

theorem dedupLines_of_nodup {lines : List Line} (h : lines.Nodup) : dedupLines lines = lines := by
  have hfold : ∀ (lines out : List Line), (out ++ lines).Nodup →
      lines.foldl (fun out line => if line ∈ out then out else out ++ [line]) out = out ++ lines := by
    intro lines
    induction lines with
    | nil => exact fun out _ => (append_nil out).symm
    | cons line lines ih =>
      intro out hn
      have hnew : line ∉ out := fun hin =>
        (nodup_append.mp hn).2.2 line hin line mem_cons_self rfl
      rw [foldl_cons, if_neg hnew, ih _ (by simpa using hn), append_assoc,
        singleton_append]
  exact hfold lines [] h

theorem within_mirrored (t : Transcript) : Within t t.mirrored 0 := by
  intro i e he
  rwa [Nat.zero_add]

/-- A refill of a transcript that has its file reads all of it, where no line is repeated. -/
theorem refill_spec (hs : s.archive.get? id = some t) (hn : t.lines.Nodup) :
    (∀ h, s.mirrorRefillOf id = some h → h.Sound t) ∧
      (t.row.columns.filePath ≠ none → ∃ h, s.mirrorRefillOf id = some h ∧
        ∀ c, t.Has c → h.Settles t c) := by
  have hread : s.mirrorRefillOf id = if t.row.columns.filePath = none then none
      else some (mirrorRow t.row, t.mirrored) := by
    rw [Mirror.mirrorRefillOf, hs, bind_some, dedupLines_of_nodup hn, Transcript.mirrored]
  rw [hread]
  constructor
  · intro h hh
    split_ifs at hh
    cases hh
    exact ⟨.refl _, within_mirrored t⟩
  · intro hfile
    rw [if_neg hfile]
    refine ⟨_, rfl, fun c hc => ?_⟩
    cases c with
    | row => rfl
    | entry k =>
      change k < t.mirrored.length
      rwa [Transcript.mirrored, length_map]

/-- What `start` puts in flight settles as much as the op would have in the queue. -/
theorem start_landing (hs : s.archive.get? id = some t) (hn : t.lines.Nodup)
    (hfile : t.row.columns.filePath ≠ none) {c : Cell} (hc : t.Has c) (op : Op) {b : Prop}
    (h : op.Settles C t id c b) : Landing C t id c (s.start op).inflight b := by
  simp only [Mirror.start, Landing, Op.Settles] at h ⊢
  by_cases hid : op.id = id
  swap
  · rw [if_neg hid] at h ⊢
    exact h
  rw [if_pos hid] at h ⊢
  by_cases hw : op.write = .refill
  · obtain ⟨held, hheld, hsettles⟩ := (refill_spec hs hn).2 hfile
    rw [if_pos hw, if_pos hw, hid, hheld]
    exact hsettles c hc
  · rw [if_neg hw]
    exact h

theorem start_flying (hs : s.archive.get? id = some t) (hn : t.lines.Nodup) {op : Op}
    (hsound : op.id = id → op.write.Sound t) : ∀ op' held, (s.start op).inflight = some (op', held) →
      op'.id = id → op'.write.Sound t ∧ ∀ h, held = some h → h.Sound t := by
  intro op' held heq hid
  obtain ⟨rfl, rfl⟩ := heq
  refine ⟨hsound hid, fun h hh => ?_⟩
  split_ifs at hh
  exact (refill_spec hs hn).1 h (hid ▸ hh)

theorem refill_settles (C : Config) (t : Transcript) (id : Id) (c : Cell) (b : Prop) :
    Op.Settles C t id c ⟨id, .refill, 0⟩ b := by
  rw [Op.Settles, if_pos rfl]
  cases c <;> trivial

/-- Everything the head of the loop can do. -/
theorem drain_cases (s : Mirror) (now : ℤ) : s.drain now = s ∨ (s.inflight = none ∧
    ((∃ op q, s.q = op :: q ∧ s.drain now = { s with q := q }.start op) ∨
      ∃ id owed, s.q = [] ∧ s.owed = id :: owed ∧
        s.drain now = { s with owed := owed }.start ⟨id, .refill, 0⟩)) := by
  unfold Mirror.drain
  by_cases hfly : s.inflight.isSome = true
  · rw [if_pos hfly]
    exact .inl rfl
  rw [if_neg hfly]
  have hidle : s.inflight = none := by simpa using hfly
  split
  · rename_i op q hq
    exact .inr ⟨hidle, .inl ⟨op, q, hq, rfl⟩⟩
  · rename_i id owed hq howed
    by_cases hdue : s.refillAfter ≤ now
    · rw [if_pos hdue]
      exact .inr ⟨hidle, .inr ⟨id, owed, hq, howed, rfl⟩⟩
    · rw [if_neg hdue]
      exact .inl rfl
  · exact .inl rfl

theorem Good.drain (h : Good C id t H s) (hn : t.lines.Nodup) (now : ℤ) : Good C id t H (s.drain now) := by
  rcases drain_cases s now with heq | ⟨hidle, ⟨op, q, hq, heq⟩ | ⟨id', owed, hq, howed, heq⟩⟩
  · rwa [heq]
  · rw [heq]
    have hs : ({ s with q := q } : Mirror).archive.get? id = some t := h.here
    refine ⟨h.here, h.kept, fun op' hop' => h.queued op' (hq ▸ .tail _ hop'),
      start_flying hs hn (h.queued op (hq ▸ mem_cons_self)), fun c hc hH => ?_, ?_⟩
    · have hagain := h.again c hc hH
      rw [hq, settled_cons] at hagain
      exact settled_mono (settlesMono C t id) c q (fun _ => trivial) hagain
    · refine h.ends.imp_right fun he => he.imp_right fun he hfile c hc hH => ?_
      have hend := he hfile c hc hH
      rw [hq, settled_cons, hidle] at hend
      exact settled_mono (settlesMono C t id) c q (start_landing hs hn hfile hc op) hend
  · rw [heq]
    have hs : ({ s with owed := owed } : Mirror).archive.get? id = some t := h.here
    refine ⟨h.here, h.kept, h.queued, start_flying hs hn fun _ => trivial, h.again, ?_⟩
    by_cases hid : id' = id
    · refine .inr (.inr fun hfile c hc hH => ?_)
      rw [hq]
      exact start_landing hs hn hfile hc _ (hid ▸ refill_settles C t id' c _)
    · rcases h.ends with hin | hrest
      · rw [howed] at hin
        exact .inl ((mem_cons.mp hin).resolve_left fun heq => hid heq.symm)
      · refine .inr (hrest.imp_right fun he hfile c hc hH => ?_)
        have hend := he hfile c hc hH
        rw [hidle] at hend
        refine settled_mono (settlesMono C t id) c s.q (fun hb => ?_) hend
        refine start_landing hs hn hfile hc _ ?_
        rw [Op.Settles, if_neg hid]
        exact hb

theorem lost_rest (C : Config) (s : Mirror) (op : Op) (now : ℤ) :
    (s.lost C op now).archive = s.archive ∧ (s.lost C op now).pg = s.pg ∧ (s.lost C op now).q = s.q ∧
      (s.lost C op now).inflight = s.inflight := by
  unfold Mirror.lost
  dsimp only
  split_ifs <;> exact ⟨rfl, rfl, rfl, rfl⟩

/-- The op's transcript is owed a refill, and every one that was. -/
theorem lost_owed (C : Config) (s : Mirror) (op : Op) (now : ℤ) :
    (op.id ∈ (s.lost C op now).owed ∨ op.id ∈ (s.lost C op now).forgotten) ∧
      s.owed ⊆ (s.lost C op now).owed ∧ s.forgotten ⊆ (s.lost C op now).forgotten := by
  have hlost : (s.lost C op now).owed = (if op.id ∈ s.owed then s.owed
      else if s.owed.length < C.queueMax then s.owed ++ [op.id] else s.owed) ∧
      (s.lost C op now).forgotten = (if op.id ∈ s.owed then s.forgotten
      else if s.owed.length < C.queueMax then s.forgotten else op.id :: s.forgotten) := by
    unfold Mirror.lost
    dsimp only
    split_ifs <;> exact ⟨rfl, rfl⟩
  rw [hlost.1, hlost.2]
  by_cases hin : op.id ∈ s.owed
  · simp only [if_pos hin]
    exact ⟨.inl hin, fun _ h => h, fun _ h => h⟩
  simp only [if_neg hin]
  by_cases hroom : s.owed.length < C.queueMax
  · simp only [if_pos hroom]
    exact ⟨.inl (by simp), subset_append_left _ _, fun _ h => h⟩
  · simp only [if_neg hroom]
    exact ⟨.inr mem_cons_self, fun _ h => h, subset_cons_self _ _⟩

/-- The transcript is owed a refill in `s'`, or forgotten there, where it is so in `s`. -/
theorem lost_ends {P Q : Prop} (op : Op) (now : ℤ) (hids : op.id = id ∨ (P → Q))
    (h : id ∈ s.owed ∨ id ∈ s.forgotten ∨ P) :
    id ∈ (s.lost C op now).owed ∨ id ∈ (s.lost C op now).forgotten ∨ Q := by
  obtain ⟨hop, howed, hforgotten⟩ := lost_owed C s op now
  rcases hids with rfl | hPQ
  · exact hop.imp_right .inl
  · exact h.imp (fun hin => howed hin) fun h => h.imp (fun hin => hforgotten hin) hPQ

theorem dropOldest_none {q : List Op} (h : dropOldest q = none) : ∀ op ∈ q, op.write = .refill := by
  induction q with
  | nil => simp
  | cons op q ih =>
    unfold dropOldest at h
    by_cases hw : op.write = .refill
    · rw [if_pos hw, map_eq_none_iff] at h
      exact forall_mem_cons.mpr ⟨hw, ih h⟩
    · rw [if_neg hw] at h
      exact nomatch h

/-- Before the op that is dropped stand refills only. -/
theorem dropOldest_some {q rest : List Op} {dropped : Op} (h : dropOldest q = some (dropped, rest)) :
    ∃ refills tail, q = refills ++ dropped :: tail ∧ rest = refills ++ tail ∧
      ∀ op ∈ refills, op.write = .refill := by
  induction q generalizing rest with
  | nil => exact nomatch h
  | cons op q ih =>
    unfold dropOldest at h
    by_cases hw : op.write = .refill
    · rw [if_pos hw] at h
      obtain ⟨⟨d, r⟩, hd, heq⟩ := map_eq_some_iff.mp h
      obtain ⟨rfl, rfl⟩ := Prod.mk.inj heq
      obtain ⟨refills, tail, rfl, rfl, hall⟩ := ih hd
      exact ⟨op :: refills, tail, rfl, rfl, forall_mem_cons.mpr ⟨hw, hall⟩⟩
    · rw [if_neg hw] at h
      obtain ⟨rfl, rfl⟩ := Prod.mk.inj (Option.some.inj h)
      exact ⟨[], q, rfl, rfl, by simp⟩

/-- A refill, of this transcript or another one, leaves the cells settled. -/
theorem settles_of_refill {op : Op} (hw : op.write = .refill) (c : Cell) {b : Prop} (hb : b) :
    op.Settles C t id c b := by
  rw [Op.Settles, hw]
  by_cases hid : op.id = id
  · rw [if_pos hid]
    cases c <;> trivial
  · rw [if_neg hid]
    exact hb

theorem refills_settled {q : List Op} (h : ∀ op ∈ q, op.write = .refill) (c : Cell) :
    settled (fun c op b => op.Settles C t id c b) c q True :=
  settled_of_true (fun op hop => settles_of_refill (h op hop) c trivial) trivial

/-- An op may be pushed that settles what is newly told of, and unsettles nothing. -/
theorem Good.push (h : Good C id t H s) (hn : t.lines.Nodup) {op : Op} (now : ℤ)
    (hsound : op.id = id → op.write.Sound t)
    (hop : ∀ c, t.Has c → H' c → op.Settles C t id c (H c)) : Good C id t H' (s.push C op now) := by
  have hafter : ∀ q c b, t.Has c → H' c →
      (H c → settled (fun c op b => op.Settles C t id c b) c q b) →
      settled (fun c op b => op.Settles C t id c b) c (q ++ [op]) b := by
    intro q c b hc hH' hq
    rw [settled_append]
    exact settlesMono C t id c op _ _ hq (hop c hc hH')
  have hqueued : ∀ q, (∀ op' ∈ q, op' ∈ s.q) → ∀ op' ∈ q ++ [op], op'.id = id → op'.write.Sound t := by
    intro q hsub op' hin
    rcases mem_append.mp hin with hold | hnew
    · exact h.queued op' (hsub op' hold)
    · obtain rfl := mem_singleton.mp hnew
      exact hsound
  unfold Mirror.push
  by_cases hfull : C.queueMax ≤ s.q.length
  swap
  · rw [if_neg hfull]
    refine Good.drain (s := { s with q := s.q ++ [op] })
      ⟨h.here, h.kept, hqueued s.q fun _ hin => hin, h.flying, fun c hc hH' => ?_, ?_⟩ hn now
    · exact hafter s.q c True hc hH' (h.again c hc)
    · refine h.ends.imp_right fun he => he.imp_right fun he hfile c hc hH' => ?_
      exact hafter s.q c _ hc hH' (he hfile c hc)
  rw [if_pos hfull]
  cases hdrop : dropOldest s.q with
  | none =>
    have hall := dropOldest_none hdrop
    obtain ⟨harchive, hpg, hq, hfly⟩ := lost_rest C s op now
    refine Good.drain ⟨?_, ?_, ?_, ?_, ?_, ?_⟩ hn now
    · rw [harchive]
      exact h.here
    · rw [hpg]
      exact h.kept
    · rw [hq]
      exact h.queued
    · rw [hfly]
      exact h.flying
    · rw [hq]
      exact fun c _ _ => refills_settled hall c
    · refine lost_ends op now ?_ h.ends
      by_cases hid : op.id = id
      · exact .inl hid
      · refine .inr fun he hfile c hc hH' => ?_
        have hH : H c := by
          have := hop c hc hH'
          rwa [Op.Settles, if_neg hid] at this
        rw [hq, hpg, hfly]
        exact he hfile c hc hH
  | some x =>
    obtain ⟨dropped, rest⟩ := x
    obtain ⟨refills, tail, hsq, hrest, hall⟩ := dropOldest_some hdrop
    obtain ⟨harchive, hpg, hq, hfly⟩ := lost_rest C s dropped now
    have hsub : ∀ op' ∈ rest, op' ∈ s.q := by
      intro op' hin
      rw [hsq]
      rw [hrest] at hin
      rcases mem_append.mp hin with hin | hin
      · exact mem_append_left _ hin
      · exact mem_append_right _ (.tail _ hin)
    refine Good.drain ⟨?_, ?_, hqueued rest hsub, ?_, fun c hc hH' => ?_, ?_⟩ hn now
    · rw [harchive]
      exact h.here
    · rw [hpg]
      exact h.kept
    · rw [hfly]
      exact h.flying
    · refine hafter rest c True hc hH' fun hH => ?_
      have hagain := h.again c hc hH
      rw [hsq] at hagain
      rw [hrest]
      exact settled_drop (settlesMono C t id) (refills_settled hall c) hagain
    · refine lost_ends dropped now ?_ h.ends
      by_cases hid : dropped.id = id
      · exact .inl hid
      · refine .inr fun he hfile c hc hH' => ?_
        rw [hpg, hfly]
        refine hafter rest c _ hc hH' fun hH => ?_
        have hend := he hfile c hc hH
        have hsame : ∀ b, dropped.Settles C t id c b = b := fun b => by rw [Op.Settles, if_neg hid]
        rw [hsq, settled_drop_same hsame] at hend
        rw [hrest]
        exact hend

theorem Good.applied (h : Good C id t H s) (hn : t.lines.Nodup) (now : ℤ) :
    Good C id t H (s.applied C now) := by
  unfold Mirror.applied
  cases hfly : s.inflight with
  | none => exact h
  | some x =>
    obtain ⟨op, held⟩ := x
    obtain ⟨harchive, hq, -, howed, hforgotten⟩ := apply_rest (C := C) s op held
    have hpg := pg_apply (C := C) s op held id
    have hkept : ((s.apply C op held).pg id).Sound t := by
      rw [hpg]
      split_ifs with hid
      · obtain ⟨hw, hh⟩ := h.flying op held hfly hid.symm
        exact effect_sound h.kept hw hh
      · exact h.kept
    refine Good.drain (s := { s.apply C op held with inflight := none })
      ⟨?_, hkept, ?_, fun _ _ heq => (nomatch heq), ?_, ?_⟩ hn now
    · rw [harchive]
      exact h.here
    · rw [hq]
      exact h.queued
    · rw [hq]
      exact h.again
    · rw [howed, hforgotten, hq]
      refine h.ends.imp_right fun he => he.imp_right fun he hfile c hc hH => ?_
      refine settled_mono (settlesMono C t id) c s.q (fun hland => ?_) (he hfile c hc hH)
      rw [hfly] at hland
      rw [hpg]
      split_ifs with hid
      · obtain ⟨hw, hh⟩ := h.flying op held hfly hid.symm
        exact effect_settles h.kept hw hh hid.symm hc hland
      · rw [Landing, if_neg fun heq => hid heq.symm] at hland
        exact hland

theorem Good.failed (h : Good C id t H s) (hn : t.lines.Nodup) (now : ℤ) :
    Good C id t H (s.failed C now) := by
  unfold Mirror.failed
  cases hfly : s.inflight with
  | none => exact h
  | some x =>
    obtain ⟨op, held⟩ := x
    dsimp only
    by_cases hretry : op.tries + 1 < 3
    · rw [if_pos hretry]
      refine ⟨h.here, h.kept, h.queued, start_flying h.here hn fun hid => (h.flying op held hfly hid).1,
        h.again, ?_⟩
      refine h.ends.imp_right fun he => he.imp_right fun he hfile c hc hH => ?_
      refine settled_mono (settlesMono C t id) c s.q (fun hland => ?_) (he hfile c hc hH)
      refine start_landing h.here hn hfile hc _ ?_
      rw [hfly] at hland
      simp only [Landing] at hland
      simp only [Op.Settles]
      split_ifs at hland ⊢ with hid hw
      · rw [hw]
        cases c <;> trivial
      · exact hland
      · exact hland
    · rw [if_neg hretry]
      obtain ⟨harchive, hpg, hq, hidle⟩ := lost_rest C { s with inflight := none }
        { op with tries := op.tries + 1 } now
      refine Good.drain ⟨?_, ?_, ?_, ?_, ?_, ?_⟩ hn now
      · rw [harchive]
        exact h.here
      · rw [hpg]
        exact h.kept
      · rw [hq]
        exact h.queued
      · rw [hidle]
        exact fun _ _ heq => by cases heq
      · rw [hq]
        exact h.again
      · have hends : id ∈ ({ s with inflight := none } : Mirror).owed ∨
            id ∈ ({ s with inflight := none } : Mirror).forgotten ∨ _ := h.ends
        refine lost_ends _ now ?_ hends
        by_cases hid : op.id = id
        · exact .inl hid
        · refine .inr fun he hfile c hc hH => ?_
          have hend := he hfile c hc hH
          rw [hfly, Landing, if_neg hid] at hend
          rw [hq, hpg, hidle]
          exact hend

theorem Good.resend (h : Good C id t H s) (id' : Id) : Good C id t H (s.resend id') := by
  refine ⟨h.here, h.kept, ?_, h.flying, fun c hc hH => ?_, ?_⟩
  · intro op hin
    rcases mem_cons.mp hin with rfl | hold
    · exact fun _ => trivial
    · exact h.queued op hold
  · change settled _ c (⟨id', .refill, 0⟩ :: s.q) True
    rw [settled_cons]
    exact settled_mono (settlesMono C t id) c s.q (fun _ => settles_of_refill rfl c trivial)
      (h.again c hc hH)
  · by_cases hid : id' = id
    · refine .inr (.inr fun _ c hc hH => ?_)
      change settled _ c (⟨id', .refill, 0⟩ :: s.q) _
      rw [settled_cons]
      refine settled_mono (settlesMono C t id) c s.q (fun _ => ?_) (h.again c hc hH)
      exact hid ▸ refill_settles C t id' c _
    · refine h.ends.imp (fun hin => ?_) fun he => he.imp_right fun he hfile c hc hH => ?_
      · exact (mem_erase_of_ne fun heq => hid heq.symm).mpr hin
      · change settled _ c (⟨id', .refill, 0⟩ :: s.q) _
        rw [settled_cons, Op.Settles, if_neg hid]
        exact he hfile c hc hH

theorem Good.reconcile (h : Good C id t H s) (hn : t.lines.Nodup) (batch : ℕ) (rows : List (Id × ℕ))
    (p : Id → Option Counts) (now : ℤ) : Good C id t H (s.reconcile batch rows p now) := by
  have hfold : ∀ ids : List Id, Good C id t H (ids.foldl Mirror.resend s) := by
    intro ids
    induction ids generalizing s with
    | nil => exact h
    | cons id' ids ih => exact ih (h.resend id')
  unfold Mirror.reconcile
  split
  · exact h
  · exact (hfold _).drain hn now

end Turma.IndexMirror
