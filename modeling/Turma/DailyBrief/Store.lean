import Turma.DailyBrief.Brief
import Turma.Lib.JsObject
import Turma.Lib.Run

/-! The store of the briefs: the newest few of an org, the last scheduled one among them always, as
writes, restores and remote echoes pass through it. -/

namespace Turma.DailyBrief

open Turma.Lib List Option OrdMap

def DAILY_BRIEF_KEEP : ℕ := 30

def DAILY_BRIEF_ORGS_MAX : ℕ := 100

def ORG_STORE_TOTAL_FACTOR : ℕ := 3

def DAILY_BRIEF_SITE_MAX : ℕ := 200

def Row.scheduled (b : Row) : Bool := b.trigger = .scheduled

/-- The loop from the end: `n` entries are still to be looked at. -/
def trimBriefs (fired : Option ℕ) : ℕ → List Row → List Row
  | 0, out => out
  | i + 1, out =>
    if DAILY_BRIEF_KEEP < out.length then
      trimBriefs fired i (if fired = some i then out else out.eraseIdx i)
    else out

def keepDailyBriefs (list : List Row) : List Row :=
  trimBriefs (list.findIdx? Row.scheduled) list.length list

abbrev Briefs := OrdMap JsString (List Row)

def rowsOf (dailyBriefs : Briefs) (siteKey : JsString) : List Row :=
  (dailyBriefs.get? siteKey).getD []

def insertBrief (list : List Row) (b : Row) : List Row :=
  let others := list.filter fun x => x.runId ≠ b.runId
  match list.findIdx? fun x => x.runId = b.runId with
  | none => b :: others
  | some i => others.insertIdx i b

def putDailyBrief (dailyBriefs : Briefs) (siteKey : JsString) (row : Raw) : Briefs :=
  match sanitizeDailyBrief row with
  | none => dailyBriefs
  | some b =>
    dailyBriefs.upsert siteKey fun list => keepDailyBriefs (insertBrief (list.getD []) b)

/-- A map of briefs from outside: what is no list, and the elements of a list that are no objects,
are `none`. -/
abbrev RawBriefs := OrdMap JsString (Option (List (Option Raw)))

def coerceOrg (siteKey : JsString) (list : Option (List (Option Raw))) : Option (List Row) :=
  if siteKey = [] ∨ DAILY_BRIEF_SITE_MAX < siteKey.length16 then none
  else
    list.bind fun rows =>
      let kept := keepDailyBriefs ((rows.take 1000).filterMap fun v => v.bind sanitizeDailyBrief)
      if kept = [] then none else some kept

def dailyBriefsCoerce (raw : RawBriefs) : Briefs :=
  (((ownEntries raw).take (DAILY_BRIEF_ORGS_MAX * ORG_STORE_TOTAL_FACTOR)).filterMap fun e =>
    (coerceOrg e.1 e.2).map fun rows => (e.1, rows)).foldl
      (fun out e => out.upsert e.1 fun _ => e.2) OrdMap.empty

def Briefs.raw (dailyBriefs : Briefs) : RawBriefs :=
  dailyBriefs.mapValues fun rows => some (rows.map fun r => some r.raw)

/-- The store, and of each org the id of the last scheduled row that was inserted. -/
structure State where
  dailyBriefs : Briefs
  fired : JsString → Option Units

inductive Event
  | put (siteKey : JsString) (row : Raw)
  | restore

def State.init : State := ⟨OrdMap.empty, fun _ => none⟩

def firedBy (s : State) (siteKey : JsString) (b : Row) : JsString → Option Units :=
  if b.scheduled = true ∧ b.runId ∉ (rowsOf s.dailyBriefs siteKey).map Row.runId then
    Function.update s.fired siteKey (some b.runId)
  else s.fired

def State.step (s : State) : Event → State
  | .put siteKey row =>
    match sanitizeDailyBrief row with
    | none => s
    | some b => ⟨putDailyBrief s.dailyBriefs siteKey row, firedBy s siteKey b⟩
  | .restore => { s with dailyBriefs := dailyBriefsCoerce s.dailyBriefs.raw }

/-- An org the coerce does not drop: its key is in bounds, and the store has room for it. -/
def Room (s : State) (siteKey : JsString) : Prop :=
  siteKey ≠ [] ∧ siteKey.length16 ≤ DAILY_BRIEF_SITE_MAX ∧
    (siteKey ∈ s.dailyBriefs.keys ∨
      s.dailyBriefs.size < DAILY_BRIEF_ORGS_MAX * ORG_STORE_TOTAL_FACTOR)

/-- A put into an org the coerce does not drop. A run that is settled keeps its trigger: the callers
spread the row they settle. -/
def Fits (s : State) : Event → Prop
  | .put siteKey row => Room s siteKey ∧ ∀ b ∈ sanitizeDailyBrief row,
      ∀ x ∈ rowsOf s.dailyBriefs siteKey, x.runId = b.runId → x.trigger = b.trigger
  | .restore => True

inductive Reached : State → Prop
  | init : Reached .init
  | step {s : State} {e : Event} (h : Reached s) (hfits : Fits s e) : Reached (s.step e)

/-- What the store promises: few rows of an org, of distinct runs, in an order that settling keeps,
with the last scheduled one among them, and unchanged when read back. -/
structure State.Kept (s : State) : Prop where
  few : ∀ siteKey, (rowsOf s.dailyBriefs siteKey).length ≤ DAILY_BRIEF_KEEP
  distinct : ∀ siteKey, ((rowsOf s.dailyBriefs siteKey).map Row.runId).Nodup
  settled : ∀ siteKey row, ∀ b ∈ sanitizeDailyBrief row,
    b.runId ∈ (rowsOf s.dailyBriefs siteKey).map Row.runId →
      (rowsOf (putDailyBrief s.dailyBriefs siteKey row) siteKey).map Row.runId =
        (rowsOf s.dailyBriefs siteKey).map Row.runId
  fired : ∀ siteKey runId, s.fired siteKey = some runId →
    ∃ b ∈ rowsOf s.dailyBriefs siteKey, b.runId = runId ∧ b.scheduled = true
  restored : ownEntries (dailyBriefsCoerce s.dailyBriefs.raw) = ownEntries s.dailyBriefs

theorem trim_sublist (fired : Option ℕ) (n : ℕ) (out : List Row) :
    (trimBriefs fired n out).Sublist out := by
  induction n generalizing out with
  | zero => exact .refl _
  | succ n ih =>
    rw [trimBriefs]
    split_ifs
    · exact ih out
    · exact (ih _).trans (eraseIdx_sublist out n)
    · exact .refl _

theorem keep_sublist (list : List Row) : (keepDailyBriefs list).Sublist list :=
  trim_sublist _ _ list

theorem keep_of_few {list : List Row} (h : list.length ≤ DAILY_BRIEF_KEEP) :
    keepDailyBriefs list = list := by
  rw [keepDailyBriefs]
  cases hn : list.length with
  | zero => rfl
  | succ n => rw [trimBriefs, if_neg (by omega)]

/-- As the loop goes down the list is as long as what is still to be looked at, and one longer once
the kept entry is behind. -/
def Behind (fired : Option ℕ) (n : ℕ) : ℕ :=
  match fired with
  | some i => if n ≤ i then 1 else 0
  | none => 0

theorem behind_le (fired : Option ℕ) (n : ℕ) : Behind fired n ≤ 1 := by
  unfold Behind
  split
  · split_ifs <;> omega
  · omega

theorem trim_length (fired : Option ℕ) (n : ℕ) (out : List Row)
    (h : out.length ≤ n + Behind fired n) (hn : n ≤ out.length) :
    (trimBriefs fired n out).length ≤ DAILY_BRIEF_KEEP := by
  induction n generalizing out with
  | zero =>
    have hone := behind_le fired 0
    have hkeep : DAILY_BRIEF_KEEP = 30 := rfl
    rw [trimBriefs]
    omega
  | succ n ih =>
    rw [trimBriefs]
    split_ifs with hlong hfired
    · refine ih out ?_ (by omega)
      rw [hfired] at h ⊢
      simp only [Behind, le_refl, if_true, Nat.not_succ_le_self, if_false] at h ⊢
      omega
    · have hlen : (out.eraseIdx n).length = out.length - 1 := length_eraseIdx_of_lt (by omega)
      have hbehind : Behind fired n = Behind fired (n + 1) := by
        cases fired with
        | none => rfl
        | some i =>
          have hi : i ≠ n := fun heq => hfired (congrArg some heq)
          simp only [Behind]
          split_ifs <;> omega
      refine ih _ ?_ (by omega)
      omega
    · omega

theorem keep_length (list : List Row) : (keepDailyBriefs list).length ≤ DAILY_BRIEF_KEEP := by
  refine trim_length _ _ _ ?_ le_rfl
  omega

theorem trim_ne_nil (fired : Option ℕ) (n : ℕ) {out : List Row} (h : out ≠ []) :
    trimBriefs fired n out ≠ [] := by
  induction n generalizing out with
  | zero => exact h
  | succ n ih =>
    rw [trimBriefs]
    split_ifs with hlong hfired
    · exact ih h
    · refine ih fun hnil => ?_
      have hlen := length_eraseIdx (l := out) (i := n)
      rw [hnil, length_nil] at hlen
      have hkeep : DAILY_BRIEF_KEEP = 30 := rfl
      split_ifs at hlen <;> omega
    · exact h

/-- The entry at the kept place stays: it is still there, or behind the loop. -/
theorem mem_trim {i : ℕ} {b : Row} (n : ℕ) (out : List Row)
    (h : i < n ∧ out[i]? = some b ∨ b ∈ out.drop n) : b ∈ trimBriefs (some i) n out := by
  induction n generalizing out with
  | zero =>
    rcases h with ⟨hi, -⟩ | h
    · exact absurd hi (Nat.not_lt_zero i)
    · exact mem_of_mem_drop h
  | succ n ih =>
    have hmem : b ∈ out := by
      rcases h with ⟨-, h⟩ | h
      · exact mem_of_getElem? h
      · exact mem_of_mem_drop h
    rw [trimBriefs]
    split_ifs with hlong hfired
    · refine ih out ?_
      cases hfired
      rcases h with ⟨-, h⟩ | h
      · refine .inr (mem_iff_getElem?.mpr ⟨0, ?_⟩)
        rw [getElem?_drop, add_zero, h]
      · exact .inr (drop_subset_drop_left out (Nat.le_succ i) h)
    · refine ih _ ?_
      rcases h with ⟨hi, h⟩ | h
      · have hlt : i < n := by
          have hne : i ≠ n := fun heq => hfired (congrArg some heq)
          omega
        exact .inl ⟨hlt, by rw [getElem?_eraseIdx_of_lt hlt, h]⟩
      · refine .inr ?_
        have hlen := length_pos_of_mem h
        rw [length_drop] at hlen
        have hdrop : (out.eraseIdx n).drop n = out.drop (n + 1) := by
          rw [eraseIdx_eq_take_drop_succ]
          exact drop_left' (by rw [length_take]; omega)
        rw [hdrop]
        exact h
    · exact hmem

/-- What is found first in a list is found first in a part that has it. -/
theorem find?_sublist {p : Row → Bool} {l l' : List Row} {b : Row} (hnodup : l.Nodup)
    (h : l'.Sublist l) (hl : l.find? p = some b) (hb : b ∈ l') : l'.find? p = some b := by
  induction h with
  | slnil => exact hl
  | cons x h ih =>
    have hx := nodup_cons.mp hnodup
    rw [find?_cons] at hl
    split at hl
    · rw [some.inj hl] at hx
      exact absurd (h.subset hb) hx.1
    · exact ih hx.2 hl hb
  | cons_cons x h ih =>
    rw [find?_cons] at hl ⊢
    split at hl
    · exact hl
    · rename_i hpx
      rcases mem_cons.mp hb with rfl | hb
      · rw [find?_some hl] at hpx
        cases hpx
      · exact ih (nodup_cons.mp hnodup).2 hl hb

/-- The newest scheduled row stays the newest scheduled one. -/
theorem keep_find {list : List Row} (hnodup : list.Nodup) :
    (keepDailyBriefs list).find? Row.scheduled = list.find? Row.scheduled := by
  cases hfind : list.find? Row.scheduled with
  | none =>
    rw [find?_eq_none] at hfind ⊢
    exact fun x hx => hfind x ((keep_sublist list).subset hx)
  | some b =>
    refine find?_sublist hnodup (keep_sublist list) hfind ?_
    obtain ⟨hb, i, hi, hget, hbefore⟩ := find?_eq_some_iff_getElem.mp hfind
    have hidx : list.findIdx? Row.scheduled = some i := by
      rw [findIdx?_eq_some_iff_getElem]
      exact ⟨hi, by rw [hget]; exact hb, fun j hj => by simpa using hbefore j hj⟩
    rw [keepDailyBriefs, hidx]
    exact mem_trim _ list (.inl ⟨hi, by rw [getElem?_eq_getElem hi, hget]⟩)

theorem insert_fresh {list : List Row} {b : Row} (h : b.runId ∉ list.map Row.runId) :
    insertBrief list b = b :: list := by
  have hnone : list.findIdx? (fun x => x.runId = b.runId) = none := by
    rw [findIdx?_eq_none_iff]
    exact fun x hx => decide_eq_false fun heq => h (heq ▸ List.mem_map_of_mem hx)
  have hothers : list.filter (fun x => x.runId ≠ b.runId) = list :=
    filter_eq_self.mpr fun x hx => decide_eq_true fun heq =>
      h (heq ▸ List.mem_map_of_mem hx)
  rw [insertBrief, hnone, hothers]

theorem insertIdx_between (before after : List Row) (b : Row) :
    (before ++ after).insertIdx before.length b = before ++ b :: after := by
  induction before with
  | nil => rfl
  | cons x before ih => simpa using ih

/-- A row of a run in the list takes the place of the run's row. -/
theorem insert_known {list : List Row} {b : Row} (hnodup : (list.map Row.runId).Nodup)
    (h : b.runId ∈ list.map Row.runId) : ∃ before x after, list = before ++ x :: after ∧
      x.runId = b.runId ∧ insertBrief list b = before ++ b :: after := by
  obtain ⟨x, hx, hid⟩ := List.mem_map.mp h
  obtain ⟨before, after, rfl⟩ := append_of_mem hx
  refine ⟨before, x, after, rfl, hid, ?_⟩
  rw [map_append, map_cons, nodup_append, nodup_cons] at hnodup
  obtain ⟨-, ⟨hafter, -⟩, hbefore⟩ := hnodup
  have hb : ∀ y ∈ before, y.runId ≠ b.runId := fun y hy heq =>
    hbefore _ (List.mem_map_of_mem hy) _ mem_cons_self (heq.trans hid.symm)
  have ha : ∀ y ∈ after, y.runId ≠ b.runId := fun y hy heq =>
    hafter (hid.trans heq.symm ▸ List.mem_map_of_mem hy)
  have hothers : (before ++ x :: after).filter (fun y => y.runId ≠ b.runId) = before ++ after := by
    rw [filter_append, filter_cons, if_neg (by simpa using hid),
      filter_eq_self.mpr fun y hy => decide_eq_true (hb y hy),
      filter_eq_self.mpr fun y hy => decide_eq_true (ha y hy)]
  have hidx : (before ++ x :: after).findIdx? (fun y => y.runId = b.runId) =
      some before.length := by
    rw [findIdx?_eq_some_iff_getElem]
    refine ⟨by simp, by simpa using hid, fun j hj => ?_⟩
    rw [getElem_append_left hj]
    simpa using hb _ (getElem_mem hj)
  rw [insertBrief, hothers, hidx]
  exact insertIdx_between before after b

theorem insert_ids {list : List Row} {b : Row} (hnodup : (list.map Row.runId).Nodup)
    (h : b.runId ∈ list.map Row.runId) :
    (insertBrief list b).map Row.runId = list.map Row.runId := by
  obtain ⟨before, x, after, rfl, hid, heq⟩ := insert_known hnodup h
  rw [heq, map_append, map_append, map_cons, map_cons, hid]

theorem insert_ne_nil {list : List Row} (b : Row) (hnodup : (list.map Row.runId).Nodup) :
    insertBrief list b ≠ [] := by
  by_cases h : b.runId ∈ list.map Row.runId
  · obtain ⟨before, x, after, -, -, heq⟩ := insert_known hnodup h
    rw [heq]
    simp
  · rw [insert_fresh h]
    simp

theorem insert_nodup {list : List Row} (b : Row) (hnodup : (list.map Row.runId).Nodup) :
    ((insertBrief list b).map Row.runId).Nodup := by
  by_cases h : b.runId ∈ list.map Row.runId
  · rwa [insert_ids hnodup h]
  · rw [insert_fresh h, map_cons, nodup_cons]
    exact ⟨h, hnodup⟩

theorem mem_insert {list : List Row} {b x : Row} (hnodup : (list.map Row.runId).Nodup)
    (h : x ∈ insertBrief list b) : x = b ∨ x ∈ list := by
  by_cases hb : b.runId ∈ list.map Row.runId
  · obtain ⟨before, y, after, rfl, -, heq⟩ := insert_known hnodup hb
    rw [heq] at h
    rcases mem_append.mp h with h | h
    · exact .inr (mem_append_left _ h)
    · rcases mem_cons.mp h with rfl | h
      · exact .inl rfl
      · exact .inr (mem_append_right _ (.tail _ h))
  · rw [insert_fresh hb] at h
    exact mem_cons.mp h

structure Sound (rows : List Row) : Prop where
  some : rows ≠ []
  few : rows.length ≤ DAILY_BRIEF_KEEP
  distinct : (rows.map Row.runId).Nodup
  kept : ∀ r ∈ rows, r.Kept

structure Inv (s : State) : Prop where
  sound : ∀ e ∈ s.dailyBriefs.entries, Sound e.2
  keys : ∀ k ∈ s.dailyBriefs.keys, k ≠ [] ∧ k.length16 ≤ DAILY_BRIEF_SITE_MAX
  size : s.dailyBriefs.size ≤ DAILY_BRIEF_ORGS_MAX * ORG_STORE_TOTAL_FACTOR
  fired : ∀ siteKey, s.fired siteKey =
    ((rowsOf s.dailyBriefs siteKey).find? Row.scheduled).map Row.runId

section

variable {s : State} {siteKey : JsString}

theorem Inv.distinct (h : Inv s) (siteKey : JsString) :
    ((rowsOf s.dailyBriefs siteKey).map Row.runId).Nodup := by
  rw [rowsOf]
  cases hget : s.dailyBriefs.get? siteKey with
  | none => exact nodup_nil
  | some rows => exact (h.sound _ (get?_eq_some.mp hget)).distinct

theorem Inv.few (h : Inv s) (siteKey : JsString) :
    (rowsOf s.dailyBriefs siteKey).length ≤ DAILY_BRIEF_KEEP := by
  rw [rowsOf]
  cases hget : s.dailyBriefs.get? siteKey with
  | none => exact Nat.zero_le _
  | some rows => exact (h.sound _ (get?_eq_some.mp hget)).few

theorem Inv.kept (h : Inv s) {r : Row} (hr : r ∈ rowsOf s.dailyBriefs siteKey) : r.Kept := by
  rw [rowsOf] at hr
  cases hget : s.dailyBriefs.get? siteKey with
  | none => rw [hget] at hr; cases hr
  | some rows =>
    rw [hget] at hr
    exact (h.sound _ (get?_eq_some.mp hget)).kept r hr

theorem rowsOf_put {row : Raw} {b : Row} (hb : sanitizeDailyBrief row = some b) (org : JsString) :
    rowsOf (putDailyBrief s.dailyBriefs siteKey row) org =
      if org = siteKey then keepDailyBriefs (insertBrief (rowsOf s.dailyBriefs siteKey) b)
      else rowsOf s.dailyBriefs org := by
  rw [putDailyBrief, hb]
  rw [rowsOf, get?_upsert]
  split_ifs <;> rfl

/-- Settling a row of a list that is not over its bound changes no place in it. -/
theorem settled_ids {list : List Row} {b : Row} (hnodup : (list.map Row.runId).Nodup)
    (hfew : list.length ≤ DAILY_BRIEF_KEEP) (h : b.runId ∈ list.map Row.runId) :
    keepDailyBriefs (insertBrief list b) = insertBrief list b := by
  refine keep_of_few ?_
  have hlen := congrArg List.length (insert_ids hnodup h)
  rw [length_map, length_map] at hlen
  omega

/-- The run of the newest scheduled row, after a row was written. -/
theorem find_insert {list : List Row} {b : Row} (hnodup : (list.map Row.runId).Nodup)
    (hsame : ∀ x ∈ list, x.runId = b.runId → x.trigger = b.trigger) :
    ((insertBrief list b).find? Row.scheduled).map Row.runId =
      if b.scheduled = true ∧ b.runId ∉ list.map Row.runId then some b.runId
      else (list.find? Row.scheduled).map Row.runId := by
  by_cases hb : b.runId ∈ list.map Row.runId
  · obtain ⟨before, x, after, rfl, hid, heq⟩ := insert_known hnodup hb
    have htrigger : b.scheduled = x.scheduled := by
      rw [Row.scheduled, Row.scheduled, hsame x (by simp) hid]
    rw [if_neg fun hboth => hboth.2 hb, heq, find?_append, find?_append, find?_cons,
      find?_cons, htrigger]
    cases before.find? Row.scheduled with
    | some y => rfl
    | none =>
      cases x.scheduled with
      | true => exact congrArg some hid.symm
      | false => rfl
  · rw [insert_fresh hb, find?_cons]
    cases hs : b.scheduled with
    | true => simp [hb]
    | false => simp

theorem nodup_rows {list : List Row} (h : (list.map Row.runId).Nodup) : list.Nodup :=
  List.Nodup.of_map _ h

theorem Inv.put (h : Inv s) {row : Raw} (hfits : Fits s (.put siteKey row)) :
    Inv (s.step (.put siteKey row)) := by
  rw [State.step]
  cases hb : sanitizeDailyBrief row with
  | none => exact h
  | some b =>
    obtain ⟨⟨hne, hlen, hroom⟩, hsame⟩ := hfits
    have hdistinct := h.distinct siteKey
    have hnodup := insert_nodup b hdistinct
    have hsub := keep_sublist (insertBrief (rowsOf s.dailyBriefs siteKey) b)
    refine ⟨fun e he => ?_, fun k hk => ?_, ?_, fun org => ?_⟩
    · have hget := get?_eq_some.mpr he
      rw [putDailyBrief, hb] at hget
      rw [get?_upsert] at hget
      split_ifs at hget with hk
      · rw [← some.inj hget]
        refine ⟨?_, keep_length _, hnodup.sublist (hsub.map _), fun r hr => ?_⟩
        · exact trim_ne_nil _ _ (insert_ne_nil b hdistinct)
        · rcases mem_insert hdistinct (hsub.subset hr) with rfl | hr
          · exact sanitize_kept hb
          · exact h.kept hr
      · exact h.sound e (get?_eq_some.mp hget)
    · rw [putDailyBrief, hb] at hk
      rcases mem_keys_upsert.mp hk with rfl | hk
      · exact ⟨hne, hlen⟩
      · exact h.keys k hk
    · rw [putDailyBrief, hb, ← length_keys, keys_upsert]
      have hsize := h.size
      rw [← length_keys] at hsize hroom
      split_ifs with hk
      · exact hsize
      · rw [length_append, length_singleton]
        exact (hroom.resolve_left hk)
    · dsimp only
      rw [rowsOf_put hb, firedBy]
      split_ifs with hnew horg horg
      · rw [horg, Function.update_self, keep_find (nodup_rows hnodup),
          find_insert hdistinct (hsame b hb), if_pos hnew]
      · rw [Function.update_of_ne horg, h.fired]
      · rw [horg, keep_find (nodup_rows hnodup), find_insert hdistinct (hsame b hb), if_neg hnew,
          h.fired]
      · exact h.fired org

theorem coerceOrg_raw {rows : List Row} (hne : siteKey ≠ [])
    (hlen : siteKey.length16 ≤ DAILY_BRIEF_SITE_MAX) (h : Sound rows) :
    coerceOrg siteKey (some (rows.map fun r => some r.raw)) = some rows := by
  have hfew : (rows.map fun r => some r.raw).length ≤ 1000 := by
    have hkeep : DAILY_BRIEF_KEEP = 30 := rfl
    have := h.few
    rw [length_map]
    omega
  have hrows : (rows.map fun r => some r.raw).filterMap (fun v => v.bind sanitizeDailyBrief) =
      rows := by
    rw [filterMap_map]
    conv_rhs => rw [← filterMap_some (l := rows)]
    exact filterMap_congr fun r hr => sanitize_raw (h.kept r hr)
  rw [coerceOrg, if_neg (by simp [hne, hlen]), bind_some]
  rw [take_of_length_le hfew, hrows, keep_of_few h.few, if_neg h.some]

theorem ownEntries_mapValues {α β : Type*} (m : OrdMap JsString α) (f : α → β) :
    ownEntries (m.mapValues f) = (ownEntries m).map fun e => (e.1, f e.2) := by
  have hkeys : ownKeys (m.mapValues f) = ownKeys m := by
    have hsame : (m.mapValues f).keys = m.keys := by
      rw [OrdMap.keys, OrdMap.mapValues, List.map_map]
      rfl
    rw [ownKeys, ownKeys, hsame]
  rw [ownEntries, ownEntries, hkeys, map_filterMap]
  refine filterMap_congr fun k _ => ?_
  rw [get?_mapValues, Option.map_map, Option.map_map]
  rfl

theorem ownEntries_eq_listing {α : Type*} (m : OrdMap JsString α) :
    ownEntries m = listing m.entries := by
  rw [listing, eq_of_entries (assign_of_nodup m.nodup)]

theorem coerce_raw (h : Inv s) :
    dailyBriefsCoerce s.dailyBriefs.raw = assign (ownEntries s.dailyBriefs) := by
  have hperm := ownEntries_perm s.dailyBriefs
  have hall : (ownEntries s.dailyBriefs.raw).take (DAILY_BRIEF_ORGS_MAX * ORG_STORE_TOTAL_FACTOR) =
      (ownEntries s.dailyBriefs).map fun e => (e.1, some (e.2.map fun r => some r.raw)) := by
    rw [Briefs.raw, ownEntries_mapValues, take_of_length_le]
    rw [length_map, hperm.length_eq]
    exact h.size
  have hkeep : ((ownEntries s.dailyBriefs).map
      fun e => (e.1, some (e.2.map fun r => some r.raw))).filterMap
        (fun e => (coerceOrg e.1 e.2).map fun rows => (e.1, rows)) = ownEntries s.dailyBriefs := by
    rw [filterMap_map]
    conv_rhs => rw [← filterMap_some (l := ownEntries s.dailyBriefs)]
    refine filterMap_congr fun e he => ?_
    have hmem := hperm.mem_iff.mp he
    obtain ⟨hne, hlen⟩ := h.keys e.1 (List.mem_map_of_mem hmem)
    rw [Function.comp_apply, coerceOrg_raw hne hlen (h.sound e hmem)]
    rfl
  rw [dailyBriefsCoerce, hall, hkeep]
  rfl

/-- Reading the store back keeps every org, in the order in which they are listed. -/
theorem entries_coerce (h : Inv s) :
    (dailyBriefsCoerce s.dailyBriefs.raw).entries = ownEntries s.dailyBriefs := by
  rw [coerce_raw h, assign_of_nodup]
  exact ((ownEntries_perm s.dailyBriefs).map Prod.fst).nodup_iff.mpr s.dailyBriefs.nodup

theorem restored (h : Inv s) :
    ownEntries (dailyBriefsCoerce s.dailyBriefs.raw) = ownEntries s.dailyBriefs := by
  rw [coerce_raw h, ownEntries_eq_listing s.dailyBriefs]
  exact listing_of_listed (listed_listing _)

theorem get?_of_perm {m m' : Briefs} (h : m'.entries.Perm m.entries) (k : JsString) :
    m'.get? k = m.get? k :=
  Option.ext fun rows => by rw [get?_eq_some, get?_eq_some, h.mem_iff]

theorem Inv.restore (h : Inv s) : Inv (s.step .restore) := by
  have hperm : (dailyBriefsCoerce s.dailyBriefs.raw).entries.Perm s.dailyBriefs.entries := by
    rw [entries_coerce h]
    exact ownEntries_perm s.dailyBriefs
  refine ⟨fun e he => h.sound e (hperm.mem_iff.mp he), fun k hk => ?_, ?_, fun org => ?_⟩
  · exact h.keys k ((hperm.map Prod.fst).mem_iff.mp hk)
  · exact hperm.length_eq.trans_le h.size
  · rw [State.step, h.fired org]
    rw [rowsOf, rowsOf, get?_of_perm hperm]

theorem inv_init : Inv .init where
  sound _ he := absurd he not_mem_nil
  keys _ hk := absurd hk not_mem_nil
  size := Nat.zero_le _
  fired _ := rfl

theorem reached_inv (h : Reached s) : Inv s := by
  induction h with
  | init => exact inv_init
  | @step s e _ hfits ih =>
    cases e with
    | put siteKey row => exact ih.put hfits
    | restore => exact ih.restore

theorem Inv.keeps (h : Inv s) : s.Kept where
  few := h.few
  distinct := h.distinct
  settled siteKey row b hb hknown := by
    have hnodup := h.distinct siteKey
    rw [rowsOf_put hb, if_pos rfl, settled_ids hnodup (h.few siteKey) hknown,
      insert_ids hnodup hknown]
  fired siteKey runId hfired := by
    rw [h.fired] at hfired
    obtain ⟨b, hfind, hid⟩ := map_eq_some_iff.mp hfired
    exact ⟨b, mem_of_find?_eq_some hfind, hid, find?_some hfind⟩
  restored := Turma.DailyBrief.restored h

end

theorem fired_kept (s : State) (h : Reached s) : s.Kept := (reached_inv h).keeps

def sampleRow : Row where
  runId := text "a1"
  trigger := .scheduled
  meetingAt := 7
  dayFrom := 5
  weekFrom := 3
  untilAt := 7
  startedAt := 6
  model := text "opus"
  host := some (text "h")
  outcome := .running (text "c1") 6 1 []

def homeSite : JsString := JsString.ofString "acme"

def longSite : JsString := List.replicate 201 (.scalar 'x')

def manualRow (n : ℕ) : Row :=
  { sampleRow with
    runId := (Nat.toDigits 16 n).map Char.toNat
    trigger := .manual
    startedAt := 8 + n }

/-- A scheduled run with more manual ones after it than are kept, then its end and two restores. -/
def crowdedDay : List Event :=
  .put homeSite sampleRow.raw :: (List.range 32).map (fun n => .put homeSite (manualRow n).raw) ++
    [.restore, .put homeSite { sampleRow with outcome := .failed (some 9) (text "no host") }.raw,
      .restore]

theorem reached_run (h : Reached s) {es : List Event} (hes : Along State.step Fits s es) :
    Reached (run State.step s es) := by
  induction es generalizing s with
  | nil => exact h
  | cons e es ih => exact ih (h.step hes.1) hes.2

instance (s : State) : ∀ e, Decidable (Fits s e)
  | .put siteKey row =>
    @instDecidableAnd _ _ (inferInstanceAs (Decidable (_ ∧ _ ∧ (_ ∨ _))))
      (inferInstanceAs (Decidable (∀ b ∈ sanitizeDailyBrief row,
        ∀ x ∈ rowsOf s.dailyBriefs siteKey, x.runId = b.runId → x.trigger = b.trigger)))
  | .restore => isTrue trivial

theorem fired_kept_crowded :
    (rowsOf (run State.step .init crowdedDay).dailyBriefs homeSite).length = DAILY_BRIEF_KEEP ∧
      (run State.step .init crowdedDay).fired homeSite = some sampleRow.runId ∧
      (run State.step .init crowdedDay).Kept :=
  ⟨by decide +kernel, by decide +kernel, fired_kept _ (reached_run .init (by decide +kernel))⟩

/-- An org of a longer key than the coerce takes is gone when the store is read back. -/
theorem fired_lost : ¬ (State.init.step (.put longSite sampleRow.raw)).Kept := fun h => by
  have hlen := congrArg List.length h.restored
  revert hlen
  decide +kernel

end Turma.DailyBrief
