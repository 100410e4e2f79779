import Turma.Ledger.Account
import Turma.Ledger.MergeLoss
import Turma.Ledger.Store

/-! The file against the gate of the next boot. The budget counts UTF-16 code units and the
gate counts bytes, and they part on every character past ASCII in a string of the map. -/

namespace Turma.Ledger

open Turma.Lib List Option OrdMap JsString

def Series.names (s : Series) : List JsString := s.models.keys ++ s.lastActivity.toList

def Slot.names (r : Slot) : List JsString := r.repo :: r.remote :: r.series.names

def Entry.names (e : Entry) : List JsString :=
  e.device :: e.siteKey :: (e.host.toList.flatMap Series.names ++
    e.repos.entries.flatMap fun r => r.1 :: r.2.names)

def hostNames (hosts : Hosts) : List JsString := hosts.entries.flatMap fun e => e.1 :: e.2.names

/-- What the strings take in UTF-8 beyond their code units. -/
def namesExcess (names : List JsString) : ℕ := (names.map JsString.excess).sum

theorem namesExcess_append (a b : List JsString) :
    namesExcess (a ++ b) = namesExcess a + namesExcess b := by
  rw [namesExcess, map_append, sum_append]
  rfl

theorem namesExcess_cons (s : JsString) (a : List JsString) :
    namesExcess (s :: a) = s.excess + namesExcess a := rfl

variable {α : Type*}

theorem namesExcess_flatMap (f : α → List JsString) (xs : List α) :
    namesExcess (xs.flatMap f) = (xs.map fun x => namesExcess (f x)).sum := by
  induction xs with
  | nil => rfl
  | cons x xs ih => rw [flatMap_cons, namesExcess_append, ih, map_cons, sum_cons]

theorem namesExcess_eq_zero {names : List JsString} :
    namesExcess names = 0 ↔ ∀ n ∈ names, n.Ascii := by
  induction names with
  | nil => simp [namesExcess]
  | cons n names ih => simp [namesExcess_cons, ih, JsString.excess_eq_zero]

theorem textExcess_entries (m : OrdMap JsString α) (f : α → List Char)
    (g : α → List JsString) (h : ∀ v, textExcess (f v) = namesExcess (g v)) :
    textExcess (jsonObject ((ownEntries m).map fun e => (jsonString e.1, f e.2))) =
      namesExcess (m.entries.flatMap fun e => e.1 :: g e.2) := by
  rw [textExcess_jsonObject, List.map_map, ((ownEntries_perm m).map _).sum_eq, namesExcess_flatMap]
  congr 1
  apply map_congr_left
  intro e _
  rw [Function.comp_apply, textExcess_jsonString, h, namesExcess_cons]

def fieldNames : List String :=
  ["input", "output", "cacheWrite", "cacheRead", "pre", "days", "models", "cutoff", "subagent",
    "sessions", "lastActivity", "repo", "remote", "series", "device", "siteKey", "firstSeen",
    "lastSeen", "augments", "host", "repos", "version", "hosts"]

theorem fieldNames_ascii : ∀ s ∈ fieldNames, (ofString s).excess = 0 := by
  decide

theorem textExcess_jsonKey {s : String} (h : s ∈ fieldNames) : textExcess (jsonKey s) = 0 := by
  rw [jsonKey, textExcess_jsonString, fieldNames_ascii s h]

theorem textExcess_jsonBucket (b : Bucket) : textExcess (jsonBucket b) = 0 := by
  rw [jsonBucket, textExcess_jsonObject]
  simp (disch := decide) only [map_cons, map_nil, sum_cons, sum_nil,
    textExcess_jsonKey, textExcess_jsonNumber, Nat.add_zero]

theorem textExcess_jsonDay (d : IsoDay) : textExcess (jsonDay d) = 0 := by
  simp only [jsonDay, textExcess_cons, excess_digitChar, textExcess_nil]
  rfl

theorem textExcess_jsonOption {f : α → List Char} {g : α → List JsString}
    (h : ∀ a, textExcess (f a) = namesExcess (g a)) (o : Option α) :
    textExcess (jsonOption f o) = namesExcess (o.toList.flatMap g) := by
  cases o with
  | none => rfl
  | some a => simpa [jsonOption] using h a

theorem textExcess_days (m : OrdMap IsoDay Bucket) : textExcess (jsonObject
    (m.entries.map fun e => (jsonDay e.1, jsonBucket e.2))) = 0 := by
  rw [textExcess_jsonObject, List.map_map]
  apply sum_eq_zero
  intro n hn
  obtain ⟨e, -, rfl⟩ := List.mem_map.mp hn
  rw [Function.comp_apply, textExcess_jsonDay, textExcess_jsonBucket, Nat.add_zero]

variable (L : Limits) (s : Series)

theorem textExcess_jsonSeries : textExcess (jsonSeries s) = namesExcess s.names := by
  have hmodels := textExcess_entries s.models jsonBucket (fun _ => []) textExcess_jsonBucket
  have hcutoff := textExcess_jsonOption (g := fun _ => []) textExcess_jsonDay s.cutoff
  have hsub := textExcess_jsonOption (g := fun _ => []) textExcess_jsonBucket s.subagent
  have hlast := textExcess_jsonOption (g := fun a => [a])
    (fun a => textExcess_jsonString a) s.lastActivity
  have hkeys : (s.models.entries.flatMap fun e => [e.1]) = s.models.keys :=
    flatMap_pure_eq_map Prod.fst s.models.entries
  rw [hkeys] at hmodels
  rw [jsonSeries, textExcess_jsonObject, Series.names, namesExcess_append]
  simp (disch := decide) only [map_cons, map_nil, sum_cons, sum_nil,
    textExcess_jsonKey, textExcess_jsonNumber, textExcess_jsonBucket, textExcess_days, hmodels,
    hcutoff, hsub, hlast, Nat.add_zero, Nat.zero_add]
  cases s.cutoff <;> cases s.subagent <;> cases s.lastActivity <;> simp [namesExcess]

theorem textExcess_jsonSlot (r : Slot) : textExcess (jsonSlot r) = namesExcess r.names := by
  rw [jsonSlot, textExcess_jsonObject]
  simp (disch := decide) only [map_cons, map_nil, sum_cons, sum_nil,
    textExcess_jsonKey, textExcess_jsonString, textExcess_jsonSeries, Nat.add_zero, Nat.zero_add]
  rfl

theorem textExcess_jsonEntry (e : Entry) : textExcess (jsonEntry e) = namesExcess e.names := by
  have hhost := textExcess_jsonOption textExcess_jsonSeries e.host
  have hrepos := textExcess_entries e.repos jsonSlot Slot.names textExcess_jsonSlot
  rw [jsonEntry, textExcess_jsonObject]
  simp (disch := decide) only [map_cons, map_nil, sum_cons, sum_nil,
    textExcess_jsonKey, textExcess_jsonString, textExcess_jsonNumber, textExcess_jsonBool, hhost,
    hrepos, Nat.add_zero, Nat.zero_add]
  simp only [Entry.names, namesExcess_cons, namesExcess_append]

theorem textExcess_serialize (hosts : Hosts) :
    textExcess (serialize hosts) = namesExcess (hostNames hosts) := by
  rw [serialize, textExcess_jsonObject]
  simp (disch := decide) only [map_cons, map_nil, sum_cons, sum_nil,
    textExcess_jsonKey, textExcess_jsonNumber, Nat.add_zero, Nat.zero_add]
  exact textExcess_entries hosts jsonEntry Entry.names textExcess_jsonEntry

variable {n : JsString} {hosts : Hosts}

theorem mem_hostNames :
    n ∈ hostNames hosts ↔ ∃ k e, hosts.get? k = some e ∧ (n = k ∨ n ∈ e.names) := by
  simp only [hostNames, mem_flatMap, mem_cons, get?_eq_some, Prod.exists]

variable {e : Entry}

theorem mem_entryNames : n ∈ e.names ↔ n = e.device ∨ n = e.siteKey ∨
    (∃ s, e.host = some s ∧ n ∈ s.names) ∨
      ∃ rk r, e.repos.get? rk = some r ∧ (n = rk ∨ n ∈ r.names) := by
  simp only [Entry.names, mem_cons, mem_append, mem_flatMap, mem_toList,
    get?_eq_some, Prod.exists]

/-- A change to every series that brings in no new string. -/
theorem names_mapSeries {f : Series → Series} (hf : ∀ s, ∀ n ∈ (f s).names, n ∈ s.names)
    (hn : n ∈ (mapSeries f e).names) : n ∈ e.names := by
  rw [mem_entryNames] at hn ⊢
  rcases hn with hn | hn | ⟨s, hs, hn⟩ | ⟨rk, r, hr, hn⟩
  · exact Or.inl hn
  · exact Or.inr (Or.inl hn)
  · obtain ⟨s', hs', rfl⟩ := map_eq_some_iff.mp hs
    exact Or.inr (Or.inr (Or.inl ⟨s', hs', hf s' n hn⟩))
  · simp only [mapSeries, get?_mapValues, map_eq_some_iff] at hr
    obtain ⟨r', hr', rfl⟩ := hr
    refine Or.inr (Or.inr (Or.inr ⟨rk, r', hr', ?_⟩))
    simp only [Slot.names, mem_cons] at hn ⊢
    rcases hn with hn | hn | hn | hn
    · exact Or.inl hn
    · exact Or.inr (Or.inl hn)
    · exact Or.inr (Or.inr (Or.inl hn))
    · exact Or.inr (Or.inr (Or.inr (hf _ n hn)))

theorem names_halveDays : ∀ n ∈ (halveDays s).names, n ∈ s.names := by
  intro n hn
  obtain ⟨hmodels, -, -, hlast⟩ := foldDays_rest (oldest s (max 1 ((s.days.size + 1) / 2))) s
  rw [Series.names, show (halveDays s).models = s.models from hmodels,
    show (halveDays s).lastActivity = s.lastActivity from hlast] at hn
  exact hn

theorem names_halveModels : ∀ n ∈ (halveModels s).names, n ∈ s.names := by
  intro n hn
  rcases mem_append.mp hn with hn | hn
  · exact mem_append_left _ (mem_keys_filterKeys.mp hn).2
  · exact mem_append_right _ hn

theorem names_trimRounds (left : Series → Bool) {round : Series → Series}
    (hround : ∀ s, ∀ n ∈ (round s).names, n ∈ s.names) (guard : ℕ)
    (hn : n ∈ (trimRounds L left round guard e).names) : n ∈ e.names := by
  induction guard generalizing e with
  | zero => exact hn
  | succ guard ih =>
    rw [trimRounds] at hn
    split_ifs at hn
    · exact names_mapSeries hround (ih hn)
    · exact hn

theorem names_dropRepos (m : ℕ)
    (hn : n ∈ (dropRepos L m e).names) : n ∈ e.names := by
  induction m generalizing e with
  | zero => exact hn
  | succ m ih =>
    rw [dropRepos] at hn
    split at hn
    · split at hn
      · exact hn
      · have hn := ih hn
        rw [mem_entryNames] at hn ⊢
        rcases hn with hn | hn | hn | ⟨rk, r, hr, hn⟩
        · exact Or.inl hn
        · exact Or.inr (Or.inl hn)
        · exact Or.inr (Or.inr (Or.inl hn))
        · rw [get?_erase] at hr
          split_ifs at hr
          exact Or.inr (Or.inr (Or.inr ⟨rk, r, hr, hn⟩))
    · exact hn

theorem names_enforceHostShare
    (hn : n ∈ (enforceHostShare L e).names) : n ∈ e.names :=
  names_trimRounds L _ names_halveDays 40
    (names_trimRounds L _ names_halveModels 40 (names_dropRepos L _ hn))

theorem hostNames_adjust {k : JsString}
    (hn : n ∈ hostNames (hosts.adjust k (enforceHostShare L))) : n ∈ hostNames hosts := by
  rw [mem_hostNames] at hn ⊢
  obtain ⟨k', e, he, hn⟩ := hn
  rw [get?_adjust] at he
  split_ifs at he with hk
  · obtain ⟨e', he', rfl⟩ := map_eq_some_iff.mp he
    exact ⟨k', e', he', hn.imp_right (names_enforceHostShare L)⟩
  · exact ⟨k', e, he, hn⟩

theorem hostNames_evict (victim : Option JsString)
    (hn : n ∈ hostNames (evict hosts victim)) : n ∈ hostNames hosts := by
  cases victim with
  | none => exact hn
  | some v =>
    rw [mem_hostNames] at hn ⊢
    obtain ⟨k, e, he, hn⟩ := hn
    rw [evict, get?_erase] at he
    split_ifs at he
    exact ⟨k, e, he, hn⟩

theorem hostNames_trimBiggest (ks : List JsString)
    (hn : n ∈ hostNames (trimBiggest L ks hosts)) : n ∈ hostNames hosts := by
  induction ks generalizing hosts with
  | nil => exact hn
  | cons k ks ih =>
    rw [trimBiggest] at hn
    split_ifs at hn
    · exact hostNames_adjust L hn
    · exact hostNames_adjust L (ih hn)

theorem hostNames_evictBytes (m : ℕ)
    (hn : n ∈ hostNames (evictBytes L m hosts)) : n ∈ hostNames hosts := by
  induction m generalizing hosts with
  | zero => exact hn
  | succ m ih =>
    rw [evictBytes] at hn
    split_ifs at hn
    · exact hostNames_evict _ (ih hn)
    · exact hn

theorem hostNames_squeeze
    (hn : n ∈ hostNames (squeeze L hosts)) : n ∈ hostNames hosts := by
  refine hostNames_trimBiggest L
    ((ownKeys hosts).insertionSort fun a b => sizeOf hosts b ≤ sizeOf hosts a) ?_
  refine hostNames_evictBytes L (trimBiggest L
    ((ownKeys hosts).insertionSort fun a b => sizeOf hosts b ≤ sizeOf hosts a) hosts).size ?_
  unfold squeeze at hn
  dsimp only at hn
  generalize evictBytes L _ (trimBiggest L _ hosts) = kept at hn ⊢
  rcases hkeys : ownKeys kept with _ | ⟨last, _ | ⟨k, ks⟩⟩
  · rwa [hkeys] at hn
  · rw [hkeys] at hn
    split_ifs at hn
    · exact hn
    · exact hostNames_adjust L hn
  · rwa [hkeys] at hn

/-- The byte ceiling brings in no string. -/
theorem hostNames_evictOverflow (now : ℕ)
    (hn : n ∈ hostNames (evictOverflow L now hosts)) :
    n ∈ hostNames (keptHosts L.ledgerHosts now hosts) := by
  unfold evictOverflow at hn
  split_ifs at hn
  · exact hn
  · exact hostNames_squeeze L hn

/-- The next boot takes the file that `writeNow` writes, if its blob was within the budget. -/
def Reboots (L : Limits) (now : ℕ) (hosts : Hosts) : Prop :=
  jsLength (serialize (evictOverflow L now hosts)) ≤ L.ledgerMax →
    setAside L (serialize (evictOverflow L now hosts)) = false

theorem setAside_iff (hosts : Hosts) : setAside L (serialize hosts) = false ↔
    jsLength (serialize hosts) + namesExcess (hostNames hosts) ≤ L.ledgerMax := by
  rw [setAside, decide_eq_false_iff_not, not_lt, utf8Length_eq, textExcess_serialize]

/-- With the budget at the blob of what the count ceiling keeps, nothing else is done to it. -/
theorem evictOverflow_exact (now : ℕ) (hosts : Hosts) :
    evictOverflow { L with
      ledgerMax := jsLength (serialize (keptHosts L.ledgerHosts now hosts)) } now hosts =
        keptHosts L.ledgerHosts now hosts := by
  exact if_pos (decide_eq_true le_rfl)

/-- For one `LEDGER_MAX` the file is taken when what the strings take beyond their code units
still fits; for every `LEDGER_MAX`, when there is no such string. -/
theorem reboots_iff (L : Limits) (now : ℕ) (hosts : Hosts) :
    (Reboots L now hosts ↔
      (jsLength (serialize (evictOverflow L now hosts)) ≤ L.ledgerMax →
        jsLength (serialize (evictOverflow L now hosts)) +
          namesExcess (hostNames (evictOverflow L now hosts)) ≤ L.ledgerMax)) ∧
      ((∀ ledgerMax, Reboots { L with ledgerMax := ledgerMax } now hosts) ↔
        ∀ n ∈ hostNames (keptHosts L.ledgerHosts now hosts), n.Ascii) := by
  refine ⟨imp_congr_right fun _ => setAside_iff L _, fun h => ?_, fun h ledgerMax hlen => ?_⟩
  · have hfile := h (jsLength (serialize (keptHosts L.ledgerHosts now hosts)))
    unfold Reboots at hfile
    rw [evictOverflow_exact, setAside_iff] at hfile
    have hexcess : jsLength (serialize (keptHosts L.ledgerHosts now hosts)) +
        namesExcess (hostNames (keptHosts L.ledgerHosts now hosts)) ≤
          jsLength (serialize (keptHosts L.ledgerHosts now hosts)) := hfile le_rfl
    exact namesExcess_eq_zero.mp (by omega)
  · have hzero := namesExcess_eq_zero.mpr fun n hn =>
      h n (hostNames_evictOverflow { L with ledgerMax := ledgerMax } now hn)
    rw [setAside_iff, hzero]
    exact hlen

/-- A budget that the blob below fills to the last code unit. -/
def tight : Limits := { shipped with ledgerMax := 321 }

/-- One beat of one host, with an accent in its model's name. -/
def accented : Hosts :=
  ingest tight .empty (ofString "host")
    ⟨[], [], some ⟨inputOnly 10, .empty, [(ofString "é", inputOnly 10)], none, 1, none⟩,
      []⟩ 0

theorem accented_set_aside :
    jsLength (serialize (evictOverflow tight 0 accented)) ≤ tight.ledgerMax ∧
      setAside tight (serialize (evictOverflow tight 0 accented)) = true := by
  decide +kernel

end Turma.Ledger
