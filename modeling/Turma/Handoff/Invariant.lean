import Turma.Handoff.Move
import Turma.Migrations.Forward

/-! What holds of the hub's moves at all times: a source is killed once and after its import came up,
and the files are those of the moves in flight. -/

namespace Turma.Handoff

open Turma.Lib Turma.Migrations List Option OrdMap

namespace Hub

structure Inv (N : ℕ) (s : Hub) : Prop where
  minted : ∀ id m, s.held id = some m → id ∈ s.minted
  writers : ∀ id, id ∈ s.uploads ∨ id ∈ s.packs → id ∈ s.minted
  killedMinted : ∀ k ∈ s.kills, k.id ∈ s.minted
  killed : ∀ k ∈ s.kills, ∀ m, s.held k.id = some m → m.record.phase = .done
  once : (s.kills.map (·.id)).Nodup
  /-- While a bundle is written, its record waits for it or has failed. -/
  writing : ∀ id m, id ∈ s.uploads ∨ id ∈ s.packs → s.held id = some m →
    m.record.phase = .exporting ∨ m.record.phase = .failed
  /-- A host uploads, and the hub packs what has no source. -/
  kinds : ∀ id m, s.held id = some m →
    (id ∈ s.uploads → m.srcHost ≠ none) ∧ (id ∈ s.packs → m.srcHost = none)
  blob : ∀ id m p, s.held id = some m → m.record.blobPath = some p →
    p = migrationSpoolPath id ∧ m.record.phase = .importing
  spooled : ∀ p ∈ s.spools, ∃ id, p = migrationSpoolPath id ∧
    (id ∈ s.uploads ∨ id ∈ s.packs ∨ ∃ m, s.held id = some m ∧ m.record.blobPath = some p)
  size : s.migrations.size ≤ max MIGRATIONS_MAX N

variable {N : ℕ} {s s' : Hub}

theorem inv_start : Inv N {} := by
  refine ⟨?_, ?_, ?_, ?_, ?_, ?_, ?_, ?_, ?_, Nat.zero_le _⟩ <;> simp [held]

theorem migrationSpoolPath_inj {id id' : Id} (h : migrationSpoolPath id = migrationSpoolPath id') :
    id = id' :=
  append_cancel_left (append_cancel_right h)

theorem Inv.spooled_own (h : Inv N s) {id : Id} (hp : migrationSpoolPath id ∈ s.spools) :
    id ∈ s.uploads ∨ id ∈ s.packs ∨
      ∃ m, s.held id = some m ∧ m.record.blobPath = some (migrationSpoolPath id) := by
  obtain ⟨id', heq, hw⟩ := h.spooled _ hp
  rwa [← migrationSpoolPath_inj heq] at hw

/-- A step that is about one id, and brings no record of it in. -/
theorem Inv.local (h : Inv N s) (id : Id) (hminted : s'.minted = s.minted)
    (hkills : s'.kills = s.kills) (hsize : s'.migrations.size ≤ s.migrations.size)
    (hheld : ∀ k, k ≠ id → s'.held k = s.held k)
    (hwriters : ∀ k, k ≠ id → (k ∈ s'.uploads ↔ k ∈ s.uploads) ∧ (k ∈ s'.packs ↔ k ∈ s.packs))
    (hnew : id ∈ s'.uploads ∨ id ∈ s'.packs → id ∈ s.minted)
    (hrecord : ∀ m', s'.held id = some m' → ∃ m, s.held id = some m ∧
      (m.record.phase = .done → m'.record.phase = .done) ∧
      (id ∈ s'.uploads ∨ id ∈ s'.packs →
        m'.record.phase = .exporting ∨ m'.record.phase = .failed) ∧
      ((id ∈ s'.uploads → m'.srcHost ≠ none) ∧ (id ∈ s'.packs → m'.srcHost = none)) ∧
      ∀ p, m'.record.blobPath = some p → p = migrationSpoolPath id ∧ m'.record.phase = .importing)
    (hspools : ∀ p ∈ s'.spools, p ∈ s.spools ∨ p = migrationSpoolPath id)
    (hown : migrationSpoolPath id ∈ s'.spools → id ∈ s'.uploads ∨ id ∈ s'.packs ∨
      ∃ m', s'.held id = some m' ∧ m'.record.blobPath = some (migrationSpoolPath id)) :
    Inv N s' := by
  refine ⟨?_, ?_, ?_, ?_, ?_, ?_, ?_, ?_, ?_, hsize.trans h.size⟩
  · intro k m hm
    rw [hminted]
    by_cases hk : k = id
    · subst hk
      obtain ⟨m₀, hm₀, -⟩ := hrecord m hm
      exact h.minted k m₀ hm₀
    · exact h.minted k m (hheld k hk ▸ hm)
  · intro k hw
    rw [hminted]
    by_cases hk : k = id
    · subst hk
      exact hnew hw
    · rw [(hwriters k hk).1, (hwriters k hk).2] at hw
      exact h.writers k hw
  · rw [hminted, hkills]
    exact h.killedMinted
  · intro k hk m hm
    rw [hkills] at hk
    by_cases hid : k.id = id
    · subst hid
      obtain ⟨m₀, hm₀, hdone, -⟩ := hrecord m hm
      exact hdone (h.killed k hk m₀ hm₀)
    · exact h.killed k hk m (hheld _ hid ▸ hm)
  · rw [hkills]
    exact h.once
  · intro k m hw hm
    by_cases hk : k = id
    · subst hk
      obtain ⟨m₀, -, -, hphase, -⟩ := hrecord m hm
      exact hphase hw
    · rw [(hwriters k hk).1, (hwriters k hk).2] at hw
      exact h.writing k m hw (hheld k hk ▸ hm)
  · intro k m hm
    by_cases hk : k = id
    · subst hk
      obtain ⟨m₀, -, -, -, hkinds, -⟩ := hrecord m hm
      exact hkinds
    · rw [(hwriters k hk).1, (hwriters k hk).2]
      exact h.kinds k m (hheld k hk ▸ hm)
  · intro k m p hm hp
    by_cases hk : k = id
    · subst hk
      obtain ⟨m₀, -, -, -, -, hblob⟩ := hrecord m hm
      exact hblob p hp
    · exact h.blob k m p (hheld k hk ▸ hm) hp
  · intro p hp
    have hmine : p = migrationSpoolPath id → ∃ k, p = migrationSpoolPath k ∧ (k ∈ s'.uploads ∨
        k ∈ s'.packs ∨ ∃ m, s'.held k = some m ∧ m.record.blobPath = some p) := by
      rintro rfl
      exact ⟨id, rfl, hown hp⟩
    rcases hspools p hp with hold | heq
    · obtain ⟨k, heq, hw⟩ := h.spooled p hold
      by_cases hk : k = id
      · exact hmine (hk ▸ heq)
      · refine ⟨k, heq, ?_⟩
        rw [(hwriters k hk).1, (hwriters k hk).2, hheld k hk]
        exact hw
    · exact hmine heq

section

variable {id : Id} {m : Move} {r : Migration}

theorem mem_unlink {path : Option JsString} {p : JsString} :
    p ∈ (s.unlink path).spools ↔ p ∈ s.spools ∧ some p ≠ path := by
  simp [unlink]

theorem held_put (hm : s.held id = some m) (k : Id) : (s.put id m r).held k =
    if k = id then some { m with record := r } else s.held k := by
  have hget : (s.put id m r).held k =
      (s.migrations.adjust id fun m => { m with record := r }).get? k := by
    unfold put
    split_ifs <;> rfl
  rw [hget, get?_adjust]
  by_cases hk : k = id
  · subst hk
    rw [if_pos rfl, if_pos rfl, show s.migrations.get? k = some m from hm]
    rfl
  · rw [if_neg hk, if_neg hk]
    rfl

theorem put_rest (s : Hub) (id : Id) (m : Move) (r : Migration) :
    (s.put id m r).agents = s.agents ∧ (s.put id m r).kills = s.kills ∧
      (s.put id m r).uploads = s.uploads ∧ (s.put id m r).packs = s.packs ∧
      (s.put id m r).minted = s.minted ∧ (s.put id m r).migrations.size = s.migrations.size := by
  have hsize := size_adjust s.migrations id fun m => { m with record := r }
  unfold put
  split_ifs <;> exact ⟨rfl, rfl, rfl, rfl, rfl, hsize⟩

theorem mem_put {p : JsString} (hp : p ∈ (s.put id m r).spools) :
    p ∈ s.spools ∧ (r.blobPath = none → some p ≠ m.record.blobPath) := by
  unfold put at hp
  split_ifs at hp with hnone
  · rw [mem_unlink] at hp
    exact ⟨hp.1, fun _ => hp.2⟩
  · exact ⟨hp, fun hn => absurd hn hnone⟩

/-- The record `m` of `id` turns into `r`, and nothing is different of the other ids. -/
structure Turns (s s' : Hub) (id : Id) (m : Move) (r : Migration) : Prop where
  was : s.held id = some m
  held : ∀ k, s'.held k = if k = id then some { m with record := r } else s.held k
  minted : s'.minted = s.minted
  kills : s'.kills = s.kills
  size : s'.migrations.size = s.migrations.size
  writers : ∀ k, k ≠ id → (k ∈ s'.uploads ↔ k ∈ s.uploads) ∧ (k ∈ s'.packs ↔ k ∈ s.packs)

theorem turns_put (hm : s.held id = some m) : Turns s (s.put id m r) id m r := by
  obtain ⟨-, hkills, huploads, hpacks, hminted, hsize⟩ := put_rest s id m r
  exact ⟨hm, held_put hm, hminted, hkills, hsize, fun k _ => by rw [huploads, hpacks]; simp⟩

theorem Inv.turn (h : Inv N s) (t : Turns s s' id m r) (hdone : m.record.phase = .done → r.phase = .done)
    (hwriting : id ∈ s'.uploads ∨ id ∈ s'.packs → r.phase = .exporting ∨ r.phase = .failed)
    (hkinds : (id ∈ s'.uploads → m.srcHost ≠ none) ∧ (id ∈ s'.packs → m.srcHost = none))
    (hblob : ∀ p, r.blobPath = some p → p = migrationSpoolPath id ∧ r.phase = .importing)
    (hspools : ∀ p ∈ s'.spools, p ∈ s.spools ∨ p = migrationSpoolPath id)
    (hown : migrationSpoolPath id ∈ s'.spools → id ∈ s'.uploads ∨ id ∈ s'.packs ∨
      r.blobPath = some (migrationSpoolPath id)) : Inv N s' := by
  have hheld : s'.held id = some { m with record := r } := by rw [t.held, if_pos rfl]
  refine h.local id t.minted t.kills t.size.le (fun k hk => by rw [t.held, if_neg hk]) t.writers
    (fun _ => h.minted id m t.was) ?_ hspools ?_
  · intro m' hm'
    obtain rfl := some.inj (hheld.symm.trans hm')
    exact ⟨m, t.was, hdone, hwriting, hkinds, hblob⟩
  · intro hp
    exact (hown hp).imp_right fun hw => hw.imp_right fun hb => ⟨_, hheld, hb⟩

theorem Inv.blob_none (h : Inv N s) (hm : s.held id = some m) (hphase : m.record.phase ≠ .importing) :
    m.record.blobPath = none := by
  cases hb : m.record.blobPath with
  | none => rfl
  | some p => exact absurd (h.blob id m p hm hb).2 hphase

theorem beginUpload_inv (h : Inv N s) (id : Id) (host : JsString) : Inv N (s.beginUpload id host) := by
  unfold beginUpload
  cases hm : s.held id with
  | none => exact h
  | some m =>
    dsimp only
    split_ifs with hok
    swap
    · exact h
    obtain ⟨hhost, hphase, -⟩ := hok
    have hnone : m.record.blobPath = none := h.blob_none hm (by simp [hphase])
    have ht := turns_put (r := { m.record with uploading := true }) hm
    obtain ⟨-, -, huploads, hpacks, -⟩ := put_rest s id m { m.record with uploading := true }
    refine h.turn (r := { m.record with uploading := true })
      ⟨hm, ht.held, ht.minted, ht.kills, ht.size, fun k hk => ?_⟩ ?_ ?_ ?_ ?_ ?_ ?_
    · refine ⟨?_, (ht.writers k hk).2⟩
      rw [← (ht.writers k hk).1, huploads]
      simp [hk]
    · simp [hphase]
    · exact fun _ => .inl hphase
    · refine ⟨fun _ => by simp [hhost], fun hp => ?_⟩
      exact absurd ((h.kinds id m hm).2 (hpacks ▸ hp)) (by simp [hhost])
    · intro p hp
      exact nomatch hnone.symm.trans hp
    · intro p hp
      rcases mem_cons.mp hp with heq | hold
      · exact .inr heq
      · exact .inl hold
    · exact fun _ => .inl mem_cons_self

/-- Where the writer of `id` has ended and its file is gone, the record may settle. -/
theorem Inv.ended (h : Inv N s) (t : Turns s s' id m r) (hw : id ∉ s'.uploads ∧ id ∉ s'.packs)
    (hphase : m.record.phase = .exporting ∨ m.record.phase = .failed)
    (hblob : ∀ p, r.blobPath = some p → p = migrationSpoolPath id ∧ r.phase = .importing)
    (hspools : ∀ p ∈ s'.spools, p ∈ s.spools)
    (hown : migrationSpoolPath id ∈ s'.spools → r.blobPath = some (migrationSpoolPath id)) :
    Inv N s' := by
  refine h.turn t (fun hd => ?_) (fun hin => ?_) ⟨fun hin => absurd hin hw.1, fun hin =>
    absurd hin hw.2⟩ hblob (fun p hp => .inl (hspools p hp)) fun hp => .inr (.inr (hown hp))
  · rcases hphase with hp | hp <;> simp [hp] at hd
  · exact absurd hin (by simp [hw])

theorem Inv.ended_gone (h : Inv N s) (hgone : s.held id = none) (hmigrations : s'.migrations = s.migrations)
    (hminted : s'.minted = s.minted) (hkills : s'.kills = s.kills)
    (hwriters : ∀ k, k ≠ id → (k ∈ s'.uploads ↔ k ∈ s.uploads) ∧ (k ∈ s'.packs ↔ k ∈ s.packs))
    (hnew : id ∈ s'.uploads ∨ id ∈ s'.packs → id ∈ s.uploads ∨ id ∈ s.packs)
    (hspools : ∀ p ∈ s'.spools, p ∈ s.spools ∧ p ≠ migrationSpoolPath id) : Inv N s' := by
  have hheld : ∀ k, s'.held k = s.held k := fun k => by rw [held, hmigrations, held]
  refine h.local id hminted hkills (by rw [hmigrations]) (fun k _ => hheld k) hwriters
    (fun hw => h.writers id (hnew hw)) ?_ (fun p hp => .inl (hspools p hp).1)
    fun hp => absurd rfl (hspools _ hp).2
  intro m' hm'
  exact nomatch hgone.symm.trans ((hheld id).symm.trans hm')

theorem Turns.unlink {path : Option JsString} (t : Turns s s' id m r) :
    Turns s (s'.unlink path) id m r :=
  ⟨t.was, t.held, t.minted, t.kills, t.size, t.writers⟩

theorem mem_filter_other {ids : List Id} {k : Id} (hk : k ≠ id) :
    k ∈ ids.filter (· ≠ id) ↔ k ∈ ids := by
  simp [hk]

/-- The record turns into `r` as an upload of it ends. -/
theorem turns_uploaded (hm : s.held id = some m) :
    Turns s (({ s with uploads := s.uploads.filter (· ≠ id) } : Hub).put id m r) id m r := by
  have t := @turns_put { s with uploads := s.uploads.filter (· ≠ id) } id m r hm
  refine ⟨hm, t.held, t.minted, t.kills, t.size, fun k hk => ?_⟩
  rw [(t.writers k hk).1, (t.writers k hk).2]
  exact ⟨mem_filter_other hk, Iff.rfl⟩

theorem turns_packed (hm : s.held id = some m) :
    Turns s (({ s with packs := s.packs.filter (· ≠ id) } : Hub).put id m r) id m r := by
  have t := @turns_put { s with packs := s.packs.filter (· ≠ id) } id m r hm
  refine ⟨hm, t.held, t.minted, t.kills, t.size, fun k hk => ?_⟩
  rw [(t.writers k hk).1, (t.writers k hk).2]
  exact ⟨Iff.rfl, mem_filter_other hk⟩

/-- Where the record does not get the file, it is removed. -/
theorem Inv.ended_unlinked {s₁ : Hub} (h : Inv N s) (t : Turns s s₁ id m r)
    (hw : id ∉ s₁.uploads ∧ id ∉ s₁.packs)
    (hphase : m.record.phase = .exporting ∨ m.record.phase = .failed) (hnone : r.blobPath = none)
    (hspools : ∀ p ∈ s₁.spools, p ∈ s.spools) :
    Inv N (s₁.unlink (some (migrationSpoolPath id))) := by
  refine h.ended t.unlink hw hphase (fun p hp => nomatch hnone.symm.trans hp) ?_ ?_
  · exact fun p hp => hspools p (mem_unlink.mp hp).1
  · exact fun hp => absurd rfl (mem_unlink.mp hp).2

theorem uploadEnds_inv (h : Inv N s) (id : Id) (result : UploadResult) (command replica : JsString)
    (now : ℤ) : Inv N (s.uploadEnds id result command replica now) := by
  unfold uploadEnds
  by_cases hin : id ∈ s.uploads
  swap
  · rw [if_pos hin]
    exact h
  rw [if_neg (not_not.mpr hin)]
  dsimp only
  rw [show ({ s with uploads := s.uploads.filter (· ≠ id) } : Hub).held id = s.held id from rfl]
  cases hm : s.held id with
  | none =>
    refine h.ended_gone hm rfl rfl rfl (fun k hk => ⟨mem_filter_other hk, Iff.rfl⟩)
      (fun hw => hw.imp_left fun hu => mem_of_mem_filter hu) fun p hp => ?_
    rw [mem_unlink] at hp
    exact ⟨hp.1, fun heq => hp.2 (by rw [heq])⟩
  | some m =>
    have hphase := h.writing id m (.inl hin) hm
    have hnone : m.record.blobPath = none :=
      h.blob_none hm (by rcases hphase with hp | hp <;> simp [hp])
    have hpacks : id ∉ s.packs := fun hp => (h.kinds id m hm).1 hin ((h.kinds id m hm).2 hp)
    have hw : ∀ r, id ∉ (({ s with uploads := s.uploads.filter (· ≠ id) } : Hub).put id m r).uploads ∧
        id ∉ (({ s with uploads := s.uploads.filter (· ≠ id) } : Hub).put id m r).packs := by
      intro r
      obtain ⟨-, -, huploads, hpacks', -⟩ :=
        put_rest { s with uploads := s.uploads.filter (· ≠ id) } id m r
      rw [huploads, hpacks']
      exact ⟨by simp, hpacks⟩
    have hspools : ∀ r, ∀ p ∈ (({ s with uploads := s.uploads.filter (· ≠ id) } : Hub).put id m r).spools,
        p ∈ s.spools := fun r p hp => (mem_put hp).1
    cases result with
    | empty => exact h.ended_unlinked (turns_uploaded hm) (hw _) hphase hnone (hspools _)
    | failed tooBig => exact h.ended_unlinked (turns_uploaded hm) (hw _) hphase hnone (hspools _)
    | stored size =>
      dsimp only
      split_ifs with hlate hcwd htarget
      · exact h.ended_unlinked (turns_uploaded hm) (hw _) hphase hnone (hspools _)
      · refine h.ended_unlinked (turns_uploaded hm) (hw _) hphase ?_ (hspools _)
        rw [not_not] at hlate
        simp [Migration.uploaded, hlate, Migration.fail, Migration.dropBlob]
      · rw [not_not] at hlate
        refine h.ended (turns_uploaded hm) (hw _) hphase ?_ (hspools _) fun _ => ?_
        · intro p hp
          simp [Migration.uploaded, hlate] at hp ⊢
          exact hp.symm
        · simp [Migration.uploaded, hlate]
      · refine h.ended (turns_uploaded hm) (hw _) hphase ?_ (hspools _) fun _ => rfl
        intro p hp
        exact ⟨(some.inj hp).symm, rfl⟩

theorem blobPath_dropBlob (rec : Migration) : rec.dropBlob.blobPath = none := by
  unfold Migration.dropBlob
  split
  · assumption
  · rfl

/-- What a pack that fails leaves on a record without a file. -/
theorem write_blob_none {x : PackEnd} {rec : Migration} {error : JsString}
    (hfails : x.outcome = .fails error) (hlate : x.late rec = false) (hnone : rec.blobPath = none) :
    (x.write rec).blobPath = none := by
  unfold PackEnd.outcome at hfails
  unfold PackEnd.write
  unfold PackEnd.late at hlate
  cases hresult : x.result with
  | failed tooLarge => exact blobPath_dropBlob _
  | packed size missing =>
    rw [hresult] at hfails hlate
    have hphase : rec.phase = .exporting := by simpa using hlate
    dsimp only at hfails ⊢
    by_cases hdamaged : x.conversation ∈ missing
    · rw [if_pos hdamaged]
      simp [Migration.packed, hphase, Migration.fail, hnone]
    · rw [if_neg hdamaged] at hfails ⊢
      cases hcommand : x.command with
      | some command =>
        rw [hcommand] at hfails
        cases hfails
      | none => exact blobPath_dropBlob _

theorem packEnds_inv (h : Inv N s) (id : Id) (result : PackResult) (conversation command : JsString)
    (now : ℤ) : Inv N (s.packEnds id result conversation command now) := by
  unfold packEnds
  by_cases hin : id ∈ s.packs
  swap
  · rw [if_pos hin]
    exact h
  rw [if_neg (not_not.mpr hin)]
  dsimp only
  rw [show ({ s with packs := s.packs.filter (· ≠ id) } : Hub).held id = s.held id from rfl]
  cases hm : s.held id with
  | none =>
    refine h.ended_gone hm rfl rfl rfl (fun k hk => ⟨Iff.rfl, mem_filter_other hk⟩)
      (fun hw => hw.imp_right fun hu => mem_of_mem_filter hu) fun p hp => ?_
    rw [mem_unlink] at hp
    exact ⟨hp.1, fun heq => hp.2 (by rw [heq])⟩
  | some m =>
    have hphase := h.writing id m (.inr hin) hm
    have hnone : m.record.blobPath = none :=
      h.blob_none hm (by rcases hphase with hp | hp <;> simp [hp])
    have huploads : id ∉ s.uploads := fun hp => (h.kinds id m hm).1 hp ((h.kinds id m hm).2 hin)
    have hw : ∀ r, id ∉ (({ s with packs := s.packs.filter (· ≠ id) } : Hub).put id m r).uploads ∧
        id ∉ (({ s with packs := s.packs.filter (· ≠ id) } : Hub).put id m r).packs := by
      intro r
      obtain ⟨-, -, huploads', hpacks', -⟩ :=
        put_rest { s with packs := s.packs.filter (· ≠ id) } id m r
      rw [huploads', hpacks']
      exact ⟨huploads, by simp⟩
    have hspools : ∀ r, ∀ p ∈ (({ s with packs := s.packs.filter (· ≠ id) } : Hub).put id m r).spools,
        p ∈ s.spools := fun r p hp => (mem_put hp).1
    dsimp only
    generalize hx : (⟨result, conversation, migrationSpoolPath id,
      if (s.agents.get? m.targetHost).isSome = true then some command else none, now⟩ : PackEnd) = x
    have hspool : x.spool = migrationSpoolPath id := by rw [← hx]
    cases hlate : x.late m.record with
    | true => exact h.ended_unlinked (turns_packed hm) (hw _) hphase hnone (hspools _)
    | false =>
      rw [if_neg Bool.false_ne_true]
      have htells := write_tells hlate
      cases hout : x.outcome with
      | fails error =>
        exact h.ended_unlinked (turns_packed hm) (hw _) hphase (write_blob_none hout hlate hnone)
          (hspools _)
      | imports command =>
        rw [hout, hspool] at htells
        refine h.ended (turns_packed hm) (hw _) hphase (fun p hp => ?_) (hspools _)
          fun _ => htells.2.1
        exact ⟨some.inj (hp.symm.trans htells.2.1), htells.1⟩

/-- A change that keeps the file, or lets go of it. -/
theorem Inv.changed (h : Inv N s) (hm : s.held id = some m)
    (hdone : m.record.phase = .done → r.phase = .done)
    (hwriting : m.record.phase = .exporting ∨ m.record.phase = .failed →
      r.phase = .exporting ∨ r.phase = .failed)
    (hblob : r.blobPath = none ∨ (r.blobPath = m.record.blobPath ∧ r.phase = m.record.phase)) :
    Inv N (s.put id m r) := by
  have t := turns_put (r := r) hm
  obtain ⟨-, -, huploads, hpacks, -⟩ := put_rest s id m r
  refine h.turn t hdone ?_ ?_ ?_ (fun p hp => .inl (mem_put hp).1) fun hp => ?_
  · intro hw
    rw [huploads, hpacks] at hw
    exact hwriting (h.writing id m hw hm)
  · rw [huploads, hpacks]
    exact h.kinds id m hm
  · intro p hp
    rcases hblob with hnone | ⟨hsame, hphase⟩
    · exact nomatch hnone.symm.trans hp
    · rw [hphase]
      exact h.blob id m p hm (hsame.symm.trans hp)
  · rw [huploads, hpacks]
    obtain ⟨hold, hlet⟩ := mem_put hp
    refine (h.spooled_own hold).imp_right fun hw => hw.imp_right ?_
    rintro ⟨m', hm', hb⟩
    obtain rfl := some.inj (hm.symm.trans hm')
    rcases hblob with hnone | ⟨hsame, -⟩
    · exact absurd hb.symm (hlet hnone)
    · exact hsame.trans hb

theorem refuse_inv (h : Inv N s) (id : Id) (host error : JsString) : Inv N (s.refuse id host error) := by
  unfold refuse
  cases hm : s.held id with
  | none => exact h
  | some m =>
    dsimp only
    split_ifs
    swap
    · exact h
    have hphase := phase_refuse m.record error
    have hblob : (m.record.refuse error).blobPath = m.record.blobPath := by
      unfold Migration.refuse
      split_ifs <;> rfl
    exact h.changed hm (fun hd => hphase.trans hd) (fun hw => by rwa [hphase]) (.inr ⟨hblob, hphase⟩)

/-- The record goes, which has settled. -/
theorem retire_inv (h : Inv N s) (hm : s.held id = some m) (hsettled : m.record.phase.settled = true) :
    Inv N (s.retireMigration id m) := by
  have hnone : m.record.blobPath = none := by
    refine h.blob_none hm fun hp => ?_
    rw [hp] at hsettled
    exact Bool.noConfusion hsettled
  have hheld : ∀ k, (s.retireMigration id m).held k = if k = id then none else s.held k :=
    get?_erase s.migrations id
  have hspools : ∀ p ∈ (s.retireMigration id m).spools, p ∈ s.spools := fun p hp => (mem_unlink.mp hp).1
  refine h.local id rfl rfl (size_erase_le _ _) (fun k hk => by rw [hheld, if_neg hk])
    (fun k _ => ⟨Iff.rfl, Iff.rfl⟩) (h.writers id) ?_ (fun p hp => .inl (hspools p hp)) fun hp => ?_
  · intro m' hm'
    rw [hheld, if_pos rfl] at hm'
    exact nomatch hm'
  · rcases h.spooled_own (hspools _ hp) with hw | hw | ⟨m', hm', hb⟩
    · exact .inl hw
    · exact .inr (.inl hw)
    · obtain rfl := some.inj (hm.symm.trans hm')
      exact nomatch hnone.symm.trans hb

/-- The sweep leaves a record alone, or settles it and lets go of its file. -/
theorem advance_cases (rec : Migration) (fleet : Migration.Fleet) (now : ℤ) :
    rec.advance fleet now = rec ∨
      (rec.phase.settled = false ∧ (rec.advance fleet now).blobPath = none ∧
        ((rec.advance fleet now).phase = .failed ∨
          ((rec.advance fleet now).phase = .done ∧ rec.phase = .importing ∧ fleet.up ≠ none))) := by
  unfold Migration.advance
  by_cases hsettled : rec.phase.settled = true
  · rw [if_pos hsettled]
    exact .inl rfl
  rw [if_neg hsettled]
  have hopen : rec.phase.settled = false := by simpa using hsettled
  by_cases hup : rec.phase = .importing ∧ rec.importCmdId ≠ none ∧ fleet.up ≠ none
  · rw [if_pos hup]
    refine .inr ⟨hopen, blobPath_dropBlob _, .inr ⟨?_, hup.1, hup.2.2⟩⟩
    simp
  rw [if_neg hup]
  split
  · exact .inr ⟨hopen, blobPath_dropBlob _, .inl (by simp)⟩
  split
  · exact .inr ⟨hopen, blobPath_dropBlob _, .inl (by simp)⟩
  split_ifs
  · exact .inr ⟨hopen, blobPath_dropBlob _, .inl (by simp)⟩
  · exact .inl rfl

theorem handsOff_spec (h : s.handsOff m = true) (now : ℤ) : m.record.phase = .importing ∧
    (m.record.advance (s.fleet m now) now).phase = .done ∧
    ∃ cmd a x, m.record.importCmdId = some cmd ∧ s.agents.get? m.targetHost = some a ∧
      x ∈ a.sessions ∧ x.spawnCmdId = some (some cmd) ∧ x.running = true := by
  unfold handsOff at h
  rw [Bool.and_eq_true, decide_eq_true_eq] at h
  obtain ⟨hphase, hup⟩ := h
  unfold up at hup
  cases hcmd : m.record.importCmdId with
  | none =>
    rw [hcmd] at hup
    exact Bool.noConfusion hup
  | some cmd =>
    rw [hcmd] at hup
    dsimp only at hup
    obtain ⟨sid, hsid⟩ := isSome_iff_exists.mp hup
    obtain ⟨a, ha, hfind⟩ := bind_eq_some_iff.mp hsid
    obtain ⟨x, hx, -⟩ := map_eq_some_iff.mp hfind
    have hcond := find?_some hx
    rw [Bool.and_eq_true, decide_eq_true_eq] at hcond
    refine ⟨hphase, ?_, cmd, a, x, rfl, ha, mem_of_find?_eq_some hx, hcond.1, hcond.2⟩
    have hfleet : (s.fleet m now).up ≠ none := by
      change s.up m ≠ none
      unfold up
      rw [hcmd]
      dsimp only
      rw [hsid]
      exact some_ne_none sid
    unfold Migration.advance
    rw [if_neg (by simp [hphase, Phase.settled]), if_pos ⟨hphase, by simp [hcmd], hfleet⟩]
    simp

theorem Inv.killed_once (h : Inv N s) {k : Kill} (hm : s.held k.id = some m)
    (hdone : m.record.phase = .done) (hnew : ∀ k' ∈ s.kills, k'.id ≠ k.id) :
    Inv N { s with kills := s.kills ++ [k] } := by
  refine ⟨h.minted, h.writers, ?_, ?_, ?_, h.writing, h.kinds, h.blob, h.spooled, h.size⟩
  · intro k' hk'
    rcases mem_append.mp hk' with hold | hlast
    · exact h.killedMinted k' hold
    · obtain rfl := mem_singleton.mp hlast
      exact h.minted _ m hm
  · intro k' hk' m' hm'
    rcases mem_append.mp hk' with hold | hlast
    · exact h.killed k' hold m' hm'
    · obtain rfl := mem_singleton.mp hlast
      obtain rfl := some.inj (hm.symm.trans hm')
      exact hdone
  · rw [map_append, nodup_append]
    refine ⟨h.once, nodup_singleton _, ?_⟩
    intro a ha b hb
    obtain ⟨k', hk', rfl⟩ := List.mem_map.mp ha
    rw [map_singleton, mem_singleton] at hb
    exact hb ▸ hnew k' hk'

theorem advanceOne_inv (h : Inv N s) (id : Id) (now : ℤ) : Inv N (s.advanceOne id now) := by
  unfold advanceOne
  cases hm : s.held id with
  | none => exact h
  | some m =>
    dsimp only
    by_cases hretires : m.record.retires now = true
    · rw [if_pos hretires]
      unfold Migration.retires at hretires
      rw [Bool.and_eq_true] at hretires
      exact retire_inv h hm hretires.1
    rw [if_neg hretires]
    have hput : Inv N (s.put id m (m.record.advance (s.fleet m now) now)) := by
      rcases advance_cases m.record (s.fleet m now) now with hsame | ⟨hopen, hnone, hphase⟩
      · rw [hsame]
        exact h.changed hm (fun hd => hd) (fun hw => hw) (.inr ⟨rfl, rfl⟩)
      · refine h.changed hm (fun hd => ?_) (fun hw => ?_) (.inl hnone)
        · rw [hd] at hopen
          exact Bool.noConfusion hopen
        · rcases hphase with hfailed | ⟨-, himporting, -⟩
          · exact .inr hfailed
          · rcases hw with hw | hw <;> simp [himporting] at hw
    by_cases hkill : s.handsOff m = true ∧ (s.agents.get? (propertyKey m.srcHost)).isSome = true
    · rw [if_pos hkill]
      obtain ⟨himporting, hdone, -⟩ := handsOff_spec hkill.1 now
      have hkills := (put_rest s id m (m.record.advance (s.fleet m now) now)).2.1
      have hheld := held_put (r := m.record.advance (s.fleet m now) now) hm id
      rw [if_pos rfl] at hheld
      have hk := hput.killed_once (k := ⟨id, m.srcHost, m.srcSessionId⟩) hheld hdone ?_
      · rwa [hkills] at hk
      · intro k' hk' heq
        rw [hkills] at hk'
        have hd := h.killed k' hk' m (heq ▸ hm)
        rw [himporting] at hd
        exact Phase.noConfusion hd
    · rw [if_neg hkill]
      exact hput

theorem foldl_inv (ids : List Id) (h : Inv N s) (now : ℤ) :
    Inv N (ids.foldl (fun s id => s.advanceOne id now) s) := by
  induction ids generalizing s with
  | nil => exact h
  | cons id ids ih => exact ih (advanceOne_inv h id now)

theorem olderSettled_some (o : Option (Id × Migration)) (y : Id × Migration)
    (ho : ∀ x, o = some x → x.2.phase.settled = true) :
    (∀ x, olderSettled o y = some x → x.2.phase.settled = true) ∧
      (olderSettled o y = none → o = none ∧ y.2.phase.settled = false) := by
  unfold olderSettled
  by_cases hy : y.2.phase.settled = true
  · rw [if_pos hy]
    cases o with
    | none => exact ⟨fun x hx => some.inj hx ▸ hy, fun hn => nomatch hn⟩
    | some z =>
      dsimp only
      split_ifs
      · exact ⟨fun x hx => some.inj hx ▸ hy, fun hn => nomatch hn⟩
      · exact ⟨ho, fun hn => nomatch hn⟩
  · rw [if_neg hy]
    exact ⟨ho, fun hn => ⟨hn, by simpa using hy⟩⟩

/-- The one that is found has settled, and where there is none every record is in flight. -/
theorem oldestSettled_spec (ms : List (Id × Migration)) :
    (∀ x, oldestSettled ms = some x → x.2.phase.settled = true) ∧
      (oldestSettled ms = none → ∀ y ∈ ms, y.2.phase.settled = false) := by
  have hfold : ∀ (ms : List (Id × Migration)) (o : Option (Id × Migration)),
      (∀ x, o = some x → x.2.phase.settled = true) →
      (∀ x, ms.foldl olderSettled o = some x → x.2.phase.settled = true) ∧
        (ms.foldl olderSettled o = none → o = none ∧ ∀ y ∈ ms, y.2.phase.settled = false) := by
    intro ms
    induction ms with
    | nil => exact fun o ho => ⟨ho, fun hn => ⟨hn, by simp⟩⟩
    | cons y ms ih =>
      intro o ho
      obtain ⟨hsome, hnone⟩ := olderSettled_some o y ho
      obtain ⟨hsome', hnone'⟩ := ih (olderSettled o y) hsome
      refine ⟨hsome', fun hn => ?_⟩
      obtain ⟨hy, hms⟩ := hnone' hn
      exact ⟨(hnone hy).1, forall_mem_cons.mpr ⟨(hnone hy).2, hms⟩⟩
  obtain ⟨hsome, hnone⟩ := hfold ms none fun x hx => nomatch hx
  exact ⟨hsome, fun hn => (hnone hn).2⟩

/-- What makes room is the retirement of a settled record, and it makes enough. -/
theorem evict_cases (s : Hub) : (s.evict = s ∧ (s.inFlight < N → s.migrations.size ≤ max MIGRATIONS_MAX N →
      s.migrations.size + 1 ≤ max MIGRATIONS_MAX N)) ∨
    ∃ id m, s.held id = some m ∧ m.record.phase.settled = true ∧ s.evict = s.retireMigration id m := by
  unfold evict
  by_cases hfull : MIGRATIONS_MAX ≤ s.migrations.size
  swap
  · rw [if_neg hfull]
    exact .inl ⟨rfl, fun _ _ => by omega⟩
  rw [if_pos hfull]
  obtain ⟨hsome, hnone⟩ := oldestSettled_spec (s.migrations.entries.map fun e => (e.1, e.2.record))
  cases hold : oldestSettled (s.migrations.entries.map fun e => (e.1, e.2.record)) with
  | none =>
    refine .inl ⟨rfl, fun hroom _ => ?_⟩
    have hall : s.migrations.values.filter (fun m => !m.record.phase.settled) = s.migrations.values := by
      rw [filter_eq_self]
      intro m hm
      obtain ⟨e, he, rfl⟩ := List.mem_map.mp hm
      simpa using hnone hold _ (List.mem_map_of_mem he)
    have hcount : s.inFlight = s.migrations.size := by
      rw [inFlight, hall]
      exact length_map _
    omega
  | some x =>
    obtain ⟨e, he, rfl⟩ := List.mem_map.mp (mem_of_oldestSettled hold)
    exact .inr ⟨e.1, e.2, get?_eq_some.mpr he, hsome _ hold, rfl⟩

theorem evict_inv (h : Inv N s) (hroom : s.inFlight < N) : Inv N s.evict ∧
    s.evict.minted = s.minted ∧ s.evict.migrations.size + 1 ≤ max MIGRATIONS_MAX N := by
  rcases evict_cases (N := N) s with ⟨hsame, hsize⟩ | ⟨id, m, hm, hsettled, heq⟩
  · rw [hsame]
    exact ⟨h, rfl, hsize hroom h.size⟩
  · rw [heq]
    refine ⟨retire_inv h hm hsettled, rfl, ?_⟩
    have hlt : (s.migrations.erase id).size < s.migrations.size :=
      size_erase_lt (OrdMap.mem_keys.mpr ⟨m, hm⟩)
    have hsize := h.size
    change (s.migrations.erase id).size + 1 ≤ _
    omega

theorem held_insert (s : Hub) (id : Id) (m : Move) (k : Id) :
    (s.insert id m).held k = if k = id then some m else s.evict.held k :=
  get?_upsert s.evict.migrations id (fun _ => m) k

theorem insert_inv (h : Inv N s) (hid : id ∉ s.minted) (hroom : s.inFlight < N)
    (hblob : m.record.blobPath = none) : Inv N (s.insert id m) := by
  obtain ⟨he, hminted, hsize⟩ := evict_inv h hroom
  have hheld := held_insert s id m
  have hnew : id ∉ s.evict.minted := by rwa [hminted]
  refine ⟨?_, ?_, ?_, ?_, he.once, ?_, ?_, ?_, ?_, (size_upsert_le _ _ _).trans hsize⟩
  · intro k m' hm'
    rw [hheld] at hm'
    by_cases hk : k = id
    · exact hk ▸ mem_cons_self
    · rw [if_neg hk] at hm'
      exact .tail _ (he.minted k m' hm')
  · exact fun k hw => .tail _ (he.writers k hw)
  · exact fun k hk => .tail _ (he.killedMinted k hk)
  · intro k hk m' hm'
    have hne : k.id ≠ id := fun heq => hnew (heq ▸ he.killedMinted k hk)
    rw [hheld, if_neg hne] at hm'
    exact he.killed k hk m' hm'
  · intro k m' hw hm'
    have hne : k ≠ id := fun heq => hnew (heq ▸ he.writers k hw)
    rw [hheld, if_neg hne] at hm'
    exact he.writing k m' hw hm'
  · intro k m' hm'
    by_cases hk : k = id
    · subst hk
      exact ⟨fun hw => absurd (he.writers k (.inl hw)) hnew,
        fun hw => absurd (he.writers k (.inr hw)) hnew⟩
    · rw [hheld, if_neg hk] at hm'
      exact he.kinds k m' hm'
  · intro k m' p hm' hp
    by_cases hk : k = id
    · rw [hheld, if_pos hk] at hm'
      obtain rfl := some.inj hm'
      exact nomatch hblob.symm.trans hp
    · rw [hheld, if_neg hk] at hm'
      exact he.blob k m' p hm' hp
  · intro p hp
    obtain ⟨k, heq, hw⟩ := he.spooled p hp
    refine ⟨k, heq, hw.imp_right fun hw => hw.imp_right ?_⟩
    rintro ⟨m', hm', hb⟩
    have hne : k ≠ id := fun hk => hnew (hk ▸ he.minted k m' hm')
    exact ⟨m', by rw [hheld, if_neg hne, hm'], hb⟩

theorem startMigration_inv (h : Inv N s) (id : Id) (srcHost : JsString) (session : Session)
    (targetHost : JsString) (now : ℤ) : Inv N (s.startMigration N id srcHost session targetHost now) := by
  unfold startMigration
  split_ifs with hno
  · exact h
  · rw [not_or, not_or, not_le] at hno
    exact insert_inv h hno.1 hno.2.1 rfl

theorem startArchiveRestore_inv (h : Inv N s) (id : Id) (transcriptId targetHost : JsString) (now : ℤ) :
    Inv N (s.startArchiveRestore N id transcriptId targetHost now) := by
  unfold startArchiveRestore
  split_ifs with hno
  · exact h
  rw [not_or, not_or, not_le] at hno
  dsimp only
  generalize hm : (⟨none, none, targetHost, _⟩ : Move) = m
  have hi : Inv N (s.insert id m) := insert_inv h hno.1 hno.2.1 (by rw [← hm])
  have hheld : (s.insert id m).held id = some m := by rw [held_insert, if_pos rfl]
  have hnew : id ∉ (s.insert id m).uploads := by
    have he := (evict_inv h hno.2.1)
    exact fun hw => hno.1 (he.2.1 ▸ he.1.writers id (.inl hw))
  refine hi.local id rfl rfl le_rfl (fun _ _ => rfl) (fun k hk => ⟨Iff.rfl, by simp [hk]⟩)
    (fun _ => hi.minted id m hheld) ?_ (fun p hp => (mem_cons.mp hp).symm) fun _ =>
      .inr (.inl mem_cons_self)
  intro m' hm'
  obtain rfl := some.inj (hheld.symm.trans hm')
  subst hm
  exact ⟨_, hheld, fun hd => hd, fun _ => .inl rfl, ⟨fun hw => absurd hw hnew, fun _ => rfl⟩,
    fun p hp => nomatch hp⟩

end

theorem step_inv (h : Inv N s) (e : Event) : Inv N (s.step N e) := by
  cases e with
  | agent host record =>
    exact ⟨h.minted, h.writers, h.killedMinted, h.killed, h.once, h.writing, h.kinds, h.blob, h.spooled,
      h.size⟩
  | startMigration id srcHost session targetHost now => exact startMigration_inv h ..
  | startArchiveRestore id transcriptId targetHost now => exact startArchiveRestore_inv h ..
  | beginUpload id host => exact beginUpload_inv h id host
  | uploadEnds id result command replica now => exact uploadEnds_inv h id result command replica now
  | packEnds id result conversation command now => exact packEnds_inv h id result conversation command now
  | refuse id host error => exact refuse_inv h id host error
  | advanceMigrations now => exact foldl_inv _ h now

/-- In every run. -/
theorem inv_run (N : ℕ) (es : List Event) : Inv N (run (Hub.step N) {} es) :=
  run_inv (P := Inv N) (Hub.step N) (fun _ e h _ => step_inv h e) inv_start
    (along_of_forall (Hub.step N) (p := fun _ => True) fun _ _ => trivial)

end Hub

end Turma.Handoff
