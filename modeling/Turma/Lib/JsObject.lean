import Turma.Lib.JsonValue
import Turma.Lib.JsString

/-! JSON objects as JavaScript builds them: members are assigned one by one, and listed with the
array indices first. -/

namespace Turma.Lib

open List Option OrdMap

namespace JsonElements

def toList : JsonElements → List Json
  | .nil => []
  | .cons v vs => v :: vs.toList

def ofList : List Json → JsonElements
  | [] => .nil
  | v :: vs => .cons v (ofList vs)

theorem ofList_toList (vs : JsonElements) : ofList vs.toList = vs :=
  match vs with
  | .nil => rfl
  | .cons v vs => congrArg (JsonElements.cons v) (ofList_toList vs)

theorem toList_ofList (vs : List Json) : (ofList vs).toList = vs := by
  induction vs with
  | nil => rfl
  | cons v vs ih => exact congrArg (v :: ·) ih

end JsonElements

namespace JsonMembers

def toList : JsonMembers → List (JsString × Json)
  | .nil => []
  | .cons k v ms => (k, v) :: ms.toList

def ofList : List (JsString × Json) → JsonMembers
  | [] => .nil
  | (k, v) :: ms => .cons k v (ofList ms)

theorem ofList_toList (ms : JsonMembers) : ofList ms.toList = ms :=
  match ms with
  | .nil => rfl
  | .cons k v ms => congrArg (JsonMembers.cons k v) (ofList_toList ms)

theorem toList_ofList (es : List (JsString × Json)) : (ofList es).toList = es := by
  induction es with
  | nil => rfl
  | cons e es ih => exact congrArg (e :: ·) ih

end JsonMembers

/-- A property of a value, `none` for `undefined`. -/
def Json.field (v : Json) (k : JsString) : Option Json :=
  match v with
  | .obj ms => OrdMap.lookup k ms.toList
  | _ => none

def Json.truthy : Json → Bool
  | .null => false
  | .bool b => b
  | .num n => n.text ≠ ['0']
  | .str s => s ≠ []
  | _ => true

variable {α : Type*}

/-- An object after `o[k] = v` for one member after the other. -/
def assign (es : List (JsString × α)) : OrdMap JsString α :=
  es.foldl (fun o e => o.upsert e.1 fun _ => e.2) OrdMap.empty

/-- The members of such an object, as it lists them. -/
def listing (es : List (JsString × α)) : List (JsString × α) := ownEntries (assign es)

theorem size_upsert_le (o : OrdMap JsString α) (k : JsString) (f : Option α → α) :
    (o.upsert k f).size ≤ o.size + 1 := by
  have hkeys := congrArg List.length (keys_upsertEntry k f o.entries)
  rw [length_map] at hkeys
  show (OrdMap.upsertEntry k f o.entries).length ≤ o.entries.length + 1
  rw [hkeys]
  split_ifs <;> simp

theorem length_listing_le (es : List (JsString × α)) : (listing es).length ≤ es.length := by
  have hsize : ∀ (es : List (JsString × α)) (o : OrdMap JsString α),
      (es.foldl (fun o e => o.upsert e.1 fun _ => e.2) o).size ≤ o.size + es.length := by
    intro es
    induction es with
    | nil => exact fun o => le_refl _
    | cons e es ih =>
      intro o
      have hstep := size_upsert_le o e.1 fun _ => e.2
      have hrest := ih (o.upsert e.1 fun _ => e.2)
      simp only [foldl_cons, length_cons]
      omega
  have hlength : (listing es).length = (assign es).size := (ownEntries_perm (assign es)).length_eq
  rw [hlength]
  exact (hsize es OrdMap.empty).trans_eq (zero_add _)

variable {es : List (JsString × α)}

theorem mem_keys_listing {k : JsString}
    (h : k ∈ (listing es).map Prod.fst) : k ∈ es.map Prod.fst := by
  have hkeys : ∀ (es : List (JsString × α)) (o : OrdMap JsString α),
      k ∈ (es.foldl (fun o e => o.upsert e.1 fun _ => e.2) o).keys → k ∈ o.keys ∨ k ∈ es.map Prod.fst := by
    intro es
    induction es with
    | nil => exact fun o h => Or.inl h
    | cons e es ih =>
      intro o h
      rcases ih _ h with h | h
      · rcases mem_keys_upsert.mp h with rfl | h
        · exact Or.inr (by simp)
        · exact Or.inl h
      · exact Or.inr (by simp only [map_cons, mem_cons]; exact Or.inr h)
  have hperm := ((ownEntries_perm (assign es)).map Prod.fst).mem_iff (a := k)
  refine (hkeys es OrdMap.empty (hperm.mp h)).resolve_left ?_
  simp [OrdMap.keys, OrdMap.empty]

/-- No key stands twice, and the array indices stand in front, in ascending order. -/
def Listed (ks : List JsString) : Prop :=
  ks.Pairwise fun a b => a ≠ b ∧ (b.arrayIndex.isSome = true →
    a.arrayIndex.isSome = true ∧ a.arrayIndex.getD 0 ≤ b.arrayIndex.getD 0)

variable {ks : List JsString}

theorem Listed.nodup (h : Listed ks) : ks.Nodup := h.imp And.left

/-- Behind a key that is no index there are only such keys. -/
theorem Listed.split (h : Listed ks) :
    ks.filter (fun k => k.arrayIndex.isSome) ++ ks.filter (fun k => k.arrayIndex.isNone) = ks := by
  induction ks with
  | nil => rfl
  | cons k ks ih =>
    obtain ⟨hk, hks⟩ := pairwise_cons.mp h
    cases hindex : k.arrayIndex with
    | some i =>
      simp only [filter_cons, hindex, isSome_some, isNone_some, if_true,
        Bool.false_eq_true, if_false, cons_append, ih hks]
    | none =>
      have hrest : ∀ b ∈ ks, b.arrayIndex = none := fun b hb => by
        by_contra hb'
        have hsome := ((hk b hb).2 (isSome_iff_ne_none.mpr hb')).1
        rw [hindex] at hsome
        exact nomatch hsome
      have hnone : ks.filter (fun k => k.arrayIndex.isSome) = [] :=
        filter_eq_nil_iff.mpr fun b hb => by simp [hrest b hb]
      have hall : ks.filter (fun k => k.arrayIndex.isNone) = ks :=
        filter_eq_self.mpr fun b hb => by simp [hrest b hb]
      simp only [filter_cons, hindex, isSome_none, isNone_none, if_true,
        Bool.false_eq_true, if_false, hnone, hall, nil_append]

theorem ownKeys_of_listed {m : OrdMap JsString α} (h : Listed m.keys) : ownKeys m = m.keys := by
  have hindices : (m.keys.filter fun k => k.arrayIndex.isSome).Pairwise
      fun a b => a.arrayIndex.getD 0 ≤ b.arrayIndex.getD 0 := by
    refine (List.Pairwise.sublist filter_sublist h).imp_of_mem fun _ hb hab => ?_
    exact (hab.2 (mem_filter.mp hb).2).2
  rw [ownKeys, hindices.insertionSort_eq, h.split]

theorem upsertEntry_new {k : JsString} (f : Option α → α)
    (h : k ∉ es.map Prod.fst) : OrdMap.upsertEntry k f es = es ++ [(k, f none)] := by
  induction es with
  | nil => rfl
  | cons e es ih =>
    rw [map_cons, mem_cons, not_or] at h
    rw [OrdMap.upsertEntry, if_neg (Ne.symm h.1), ih h.2, cons_append]

theorem assign_of_nodup (h : (es.map Prod.fst).Nodup) :
    (assign es).entries = es := by
  have hfold : ∀ (es : List (JsString × α)) (o : OrdMap JsString α),
      (o.keys ++ es.map Prod.fst).Nodup →
        (es.foldl (fun o e => o.upsert e.1 fun _ => e.2) o).entries = o.entries ++ es := by
    intro es
    induction es with
    | nil => exact fun o _ => (append_nil _).symm
    | cons e es ih =>
      intro o ho
      have hnew : e.1 ∉ o.keys := fun hmem =>
        (nodup_append.mp ho).2.2 _ hmem _ (by simp) rfl
      have hentries : (o.upsert e.1 fun _ => e.2).entries = o.entries ++ [e] :=
        upsertEntry_new _ hnew
      rw [foldl_cons, ih, hentries, append_assoc]
      · rfl
      · rw [OrdMap.keys, hentries, map_append]
        simpa [OrdMap.keys] using ho
  exact hfold es OrdMap.empty h

theorem listing_of_listed (h : Listed (es.map Prod.fst)) :
    listing es = es := by
  have hentries : (assign es).entries = es := assign_of_nodup h.nodup
  have hkeys : (assign es).keys = es.map Prod.fst := congrArg (List.map Prod.fst) hentries
  have hget : ∀ e ∈ es, (assign es).get? e.1 = some e.2 := fun e he =>
    get?_eq_some.mpr (by rw [hentries]; exact he)
  rw [listing, ownEntries, ownKeys_of_listed (hkeys ▸ h), hkeys, filterMap_map]
  refine (filterMap_congr fun e he => ?_).trans filterMap_some
  simp [hget e he]

theorem keys_listing (es : List (JsString × α)) :
    (listing es).map Prod.fst = ownKeys (assign es) := by
  rw [listing, ownEntries, map_filterMap]
  refine (filterMap_congr fun k hk => ?_).trans filterMap_some
  obtain ⟨v, hv⟩ := OrdMap.mem_keys.mp (mem_ownKeys.mp hk)
  simp [hv]

theorem listed_listing (es : List (JsString × α)) : Listed ((listing es).map Prod.fst) := by
  rw [keys_listing, ownKeys]
  have hnodup : (assign es).keys.Nodup := (assign es).nodup
  refine pairwise_append.mpr ⟨?_, ?_, fun a ha b hb => ?_⟩
  · have hsorted := pairwise_insertionSort
      (fun a b : JsString => a.arrayIndex.getD 0 ≤ b.arrayIndex.getD 0)
      ((assign es).keys.filter fun k => k.arrayIndex.isSome)
    have hperm := perm_insertionSort
      (fun a b : JsString => a.arrayIndex.getD 0 ≤ b.arrayIndex.getD 0)
      ((assign es).keys.filter fun k => k.arrayIndex.isSome)
    have hdistinct := hperm.nodup_iff.mpr (hnodup.filter _)
    refine (hsorted.and hdistinct).imp_of_mem fun ha _ hab => ⟨hab.2, fun _ => ⟨?_, hab.1⟩⟩
    exact (mem_filter.mp (hperm.mem_iff.mp ha)).2
  · refine (hnodup.filter _).imp_of_mem fun _ hb hab => ⟨hab, fun hsome => ?_⟩
    have hnone := (mem_filter.mp hb).2
    rw [isNone_iff_eq_none] at hnone
    rw [hnone] at hsome
    exact nomatch hsome
  · have hsome : a.arrayIndex.isSome = true :=
      (mem_filter.mp ((perm_insertionSort _ _).mem_iff.mp ha)).2
    have hnone : b.arrayIndex = none := isNone_iff_eq_none.mp (mem_filter.mp hb).2
    refine ⟨fun hab => ?_, fun hsome' => ?_⟩
    · rw [hab, hnone] at hsome
      exact nomatch hsome
    · rw [hnone] at hsome'
      exact nomatch hsome'

end Turma.Lib

/-! Places in a JSON value: the way down to a part of it, by the names of the members passed. -/

namespace Turma.Lib

def Json.parts : Json → List (Option JsString × Json)
  | .arr vs => vs.toList.map fun v => (none, v)
  | .obj ms => ms.toList.map fun e => (some e.1, e.2)
  | _ => []

/-- What stands at a place, and the names on the way to it. -/
def Json.find : Json → List ℕ → Option (List (Option JsString) × Json)
  | v, [] => some ([], v)
  | v, i :: place =>
    match v.parts[i]? with
    | none => none
    | some (k, x) => (x.find place).map fun p => (k :: p.1, p.2)

def Json.bare : Json → Json
  | .arr _ => .arr .nil
  | .obj _ => .obj .nil
  | v => v

end Turma.Lib
