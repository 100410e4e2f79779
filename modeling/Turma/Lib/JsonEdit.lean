import Mathlib.Algebra.Order.BigOperators.Group.List
import Turma.Lib.JsObject

/-! JSON values as JavaScript edits them in place: a member assigned, a member deleted, and what
either does to the order of the members and to the length of the text. Then computations on such a
value that may throw. -/

namespace Turma.Lib

open List Option OrdMap

namespace Json

def objectish : Json → Bool
  | .obj _ => true
  | _ => false

/-- `k in v`, for an object. -/
def has (v : Json) (k : JsString) : Bool := (v.field k).isSome

/-- `v[k] = x`. -/
def put (v : Json) (k : JsString) (x : Json) : Json :=
  match v with
  | .obj ms => .obj (JsonMembers.ofList (OrdMap.upsertEntry k (fun _ => x) ms.toList))
  | v => v

/-- `delete v[k]`. -/
def without (v : Json) (k : JsString) : Json :=
  match v with
  | .obj ms => .obj (JsonMembers.ofList (ms.toList.filter fun e => e.1 ≠ k))
  | v => v

def memberKeys : Json → List JsString
  | .obj ms => ms.toList.map Prod.fst
  | _ => []

theorem objectish_of_field {v x : Json} {k : JsString} (h : v.field k = some x) :
    v.objectish = true := by
  cases v <;> first | rfl | exact nomatch h

@[simp] theorem objectish_put (v : Json) (k : JsString) (x : Json) : (v.put k x).objectish = v.objectish := by
  cases v <;> rfl

@[simp] theorem objectish_without (v : Json) (k : JsString) :
    (v.without k).objectish = v.objectish := by
  cases v <;> rfl

theorem lookup_upsertEntry {α : Type*} (k k' : JsString) (f : Option α → α)
    (es : List (JsString × α)) : OrdMap.lookup k' (OrdMap.upsertEntry k f es) =
      if k' = k then some (f (OrdMap.lookup k es)) else OrdMap.lookup k' es := by
  induction es with
  | nil => simp [OrdMap.upsertEntry, OrdMap.lookup, eq_comm]
  | cons e es ih =>
    by_cases he : e.1 = k
    · rw [OrdMap.upsertEntry, if_pos he]
      by_cases h : k' = k
      · simp [OrdMap.lookup, he, h]
      · simp [OrdMap.lookup, he, h, Ne.symm h]
    · rw [OrdMap.upsertEntry, if_neg he]
      by_cases h : k' = k
      · subst h
        simpa [OrdMap.lookup, he] using ih
      · simp only [OrdMap.lookup, ih, if_neg h]

theorem lookup_filter {α : Type*} (k k' : JsString) (es : List (JsString × α)) :
    OrdMap.lookup k' (es.filter fun e => e.1 ≠ k) =
      if k' = k then none else OrdMap.lookup k' es := by
  induction es with
  | nil => simp [OrdMap.lookup]
  | cons e es ih =>
    by_cases he : e.1 = k
    · rw [filter_cons_of_neg (by simpa using he), ih]
      by_cases h : k' = k
      · simp [h]
      · simp [OrdMap.lookup, h, he, Ne.symm h]
    · rw [filter_cons_of_pos (by simpa using he)]
      by_cases h : k' = k
      · subst h
        simpa [OrdMap.lookup, he] using ih
      · simp only [OrdMap.lookup, ih, if_neg h]

theorem field_put_self {k : JsString} {x v : Json} (h : v.objectish = true) :
    (v.put k x).field k = some x := by
  cases v with
  | obj ms =>
    simp only [put, field, JsonMembers.toList_ofList]
    rw [lookup_upsertEntry, if_pos rfl]
  | _ => exact nomatch h

theorem field_put_ne {k k' : JsString} (h : k' ≠ k) (v x : Json) :
    (v.put k x).field k' = v.field k' := by
  cases v with
  | obj ms =>
    simp only [put, field, JsonMembers.toList_ofList]
    rw [lookup_upsertEntry, if_neg h]
  | _ => rfl

@[simp] theorem field_without_self (v : Json) (k : JsString) : (v.without k).field k = none := by
  cases v with
  | obj ms =>
    simp only [without, field, JsonMembers.toList_ofList]
    rw [lookup_filter, if_pos rfl]
  | _ => rfl

theorem field_without_ne {k k' : JsString} (h : k' ≠ k) (v : Json) :
    (v.without k).field k' = v.field k' := by
  cases v with
  | obj ms =>
    simp only [without, field, JsonMembers.toList_ofList]
    rw [lookup_filter, if_neg h]
  | _ => rfl

theorem upsertEntry_same {α : Type*} {k : JsString} {x : α} {es : List (JsString × α)}
    (h : OrdMap.lookup k es = some x) : OrdMap.upsertEntry k (fun _ => x) es = es := by
  induction es with
  | nil => exact nomatch h
  | cons e es ih =>
    rw [OrdMap.lookup] at h
    rw [OrdMap.upsertEntry]
    split_ifs at h ⊢ with he
    · rw [← some.inj h]
    · rw [ih h]

/-- Assigning what is there already changes nothing. -/
theorem put_same {k : JsString} {x v : Json} (h : v.field k = some x) : v.put k x = v := by
  cases v with
  | obj ms =>
    rw [put, upsertEntry_same (show OrdMap.lookup k ms.toList = some x from h),
      JsonMembers.ofList_toList]
  | _ => rfl

theorem filter_absent {α : Type*} {k : JsString} {es : List (JsString × α)}
    (h : OrdMap.lookup k es = none) : es.filter (fun e => e.1 ≠ k) = es := by
  refine filter_eq_self.mpr fun e he => decide_eq_true fun hk => ?_
  exact lookup_eq_none.mp h (hk ▸ List.mem_map_of_mem he)

/-- So does deleting what is not there. -/
theorem without_same {k : JsString} {v : Json} (h : v.field k = none) : v.without k = v := by
  cases v with
  | obj ms =>
    rw [without, filter_absent (show OrdMap.lookup k ms.toList = none from h),
      JsonMembers.ofList_toList]
  | _ => rfl

theorem mem_memberKeys {v x : Json} {k : JsString} (h : v.field k = some x) : k ∈ v.memberKeys := by
  cases v with
  | obj ms =>
    by_contra hk
    have hnone : OrdMap.lookup k ms.toList = none := lookup_eq_none.mpr hk
    exact absurd (hnone.symm.trans h) (by simp)
  | _ => exact nomatch h

theorem filter_upsertEntry {α : Type*} {k k' : JsString} (hk : k ≠ k') (f : Option α → α)
    (es : List (JsString × α)) : (OrdMap.upsertEntry k f es).filter (fun e => e.1 ≠ k') =
      OrdMap.upsertEntry k f (es.filter fun e => e.1 ≠ k') := by
  induction es with
  | nil => simp [OrdMap.upsertEntry, hk]
  | cons e es ih =>
    by_cases he : e.1 = k
    · simp [OrdMap.upsertEntry, he, hk]
    · by_cases he' : e.1 = k'
      · have hcons : ((e.1, e.2) :: OrdMap.upsertEntry k f es).filter (fun e => e.1 ≠ k') =
            (OrdMap.upsertEntry k f es).filter fun e => e.1 ≠ k' :=
          filter_cons_of_neg (by simpa using he')
        rw [OrdMap.upsertEntry, if_neg he, hcons, ih, filter_cons_of_neg (by simpa using he')]
      · have hcons : ((e.1, e.2) :: OrdMap.upsertEntry k f es).filter (fun e => e.1 ≠ k') =
            (e.1, e.2) :: (OrdMap.upsertEntry k f es).filter fun e => e.1 ≠ k' :=
          filter_cons_of_pos (by simpa using he')
        rw [OrdMap.upsertEntry, if_neg he, hcons, ih, filter_cons_of_pos (by simpa using he'),
          OrdMap.upsertEntry, if_neg he]

/-- A write and a deletion of two members may be swapped. -/
theorem put_without {k k' : JsString} (hk : k ≠ k') (v x : Json) :
    (v.put k x).without k' = (v.without k').put k x := by
  cases v with
  | obj ms =>
    simp only [put, without, JsonMembers.toList_ofList]
    rw [filter_upsertEntry hk]
  | _ => rfl

def chars (v : Json) : ℕ := jsLength (stringify v)

/-- What a member takes in the text of its object, the separator before it included. -/
def memberChars (e : JsString × Json) : ℕ := jsLength (jsonString e.1) + e.2.chars + 2

end Json

open Json OrdMap

theorem jsLength_append' (a b : List Char) : jsLength (a ++ b) = jsLength a + jsLength b := by
  rw [jsLength, map_append, sum_append]
  rfl

theorem jsLength_cons (c : Char) (t : List Char) :
    jsLength (c :: t) = (if c.toNat < 0x10000 then 1 else 2) + jsLength t := rfl

theorem jsLength_pos {c : Char} {t : List Char} : 0 < jsLength (c :: t) := by
  rw [jsLength_cons]
  split_ifs <;> omega

theorem chars_pos (v : Json) : 0 < v.chars := by
  obtain ⟨c, t, htext, -⟩ := stringify_head v
  rw [chars, htext]
  exact jsLength_pos

theorem jsLength_stringifyElements : ∀ vs : JsonElements,
    jsLength (stringifyElements vs) = (vs.toList.map fun v => v.chars + 1).sum + 1
  | .nil => rfl
  | .cons v vs => by
    have hrest := jsLength_stringifyElements vs
    have hcomma : jsLength (',' :: (stringify v ++ stringifyElements vs)) =
      1 + jsLength (stringify v ++ stringifyElements vs) := jsLength_cons _ _
    rw [stringifyElements, cons_append, hcomma, jsLength_append', hrest]
    simp only [JsonElements.toList, map_cons, sum_cons, chars]
    omega

theorem jsLength_stringifyMembers : ∀ ms : JsonMembers,
    jsLength (stringifyMembers ms) = (ms.toList.map memberChars).sum + 1
  | .nil => rfl
  | .cons k v ms => by
    have hrest := jsLength_stringifyMembers ms
    have hone : ∀ (t : List Char), jsLength (',' :: t) = 1 + jsLength t := fun t => jsLength_cons _ t
    have hcolon : ∀ (t : List Char), jsLength (':' :: t) = 1 + jsLength t := fun t => jsLength_cons _ t
    simp only [stringifyMembers, cons_append, append_assoc, hone, hcolon,
      jsLength_append', hrest, JsonMembers.toList, map_cons, sum_cons, memberChars, chars]
    omega

theorem chars_arr (vs : JsonElements) :
    (Json.arr vs).chars = max 2 (1 + (vs.toList.map fun v => v.chars + 1).sum) := by
  cases vs with
  | nil => rfl
  | cons v vs =>
    have hopen : ∀ t : List Char, jsLength ('[' :: t) = 1 + jsLength t := fun t => jsLength_cons _ t
    have hpos := chars_pos v
    rw [chars] at hpos
    simp only [chars, stringify, cons_append, hopen, jsLength_append',
      jsLength_stringifyElements, JsonElements.toList, map_cons, sum_cons]
    omega

theorem chars_obj (ms : JsonMembers) :
    (Json.obj ms).chars = max 2 (1 + (ms.toList.map memberChars).sum) := by
  cases ms with
  | nil => rfl
  | cons k v ms =>
    have hopen : ∀ t : List Char, jsLength ('{' :: t) = 1 + jsLength t := fun t => jsLength_cons _ t
    have hcolon : ∀ t : List Char, jsLength (':' :: t) = 1 + jsLength t := fun t => jsLength_cons _ t
    have hpos := chars_pos v
    rw [chars] at hpos
    simp only [chars, stringify, cons_append, append_assoc, hopen, hcolon, jsLength_append',
      jsLength_stringifyMembers, JsonMembers.toList, map_cons, sum_cons, memberChars]
    omega

theorem sum_upsertEntry {k : JsString} {x y : Json} {es : List (JsString × Json)}
    (h : OrdMap.lookup k es = some y) :
    ((OrdMap.upsertEntry k (fun _ => x) es).map memberChars).sum + y.chars =
      (es.map memberChars).sum + x.chars := by
  induction es with
  | nil => exact nomatch h
  | cons e es ih =>
    rw [OrdMap.lookup] at h
    rw [OrdMap.upsertEntry]
    split_ifs at h ⊢ with he
    · cases h
      simp only [map_cons, sum_cons, memberChars]
      omega
    · have hrest := ih h
      rw [map_cons, map_cons, sum_cons, sum_cons]
      show memberChars e + _ + _ = memberChars e + _ + _
      omega

theorem memberChars_le {k : JsString} {x : Json} {es : List (JsString × Json)}
    (h : OrdMap.lookup k es = some x) : memberChars (k, x) ≤ (es.map memberChars).sum := by
  induction es with
  | nil => exact nomatch h
  | cons e es ih =>
    rw [OrdMap.lookup] at h
    rw [map_cons, sum_cons]
    split_ifs at h with he
    · rw [← he, ← some.inj h]
      exact Nat.le_add_right _ _
    · exact (ih h).trans (Nat.le_add_left _ _)

/-- An assigned value counts for the one it replaces. -/
theorem chars_put {k : JsString} {x y v : Json} (h : v.field k = some y) :
    (v.put k x).chars + y.chars = v.chars + x.chars := by
  cases v with
  | obj ms =>
    have hsum := sum_upsertEntry (x := x) (show OrdMap.lookup k ms.toList = some y from h)
    have hmember : OrdMap.lookup k (OrdMap.upsertEntry k (fun _ => x) ms.toList) = some x := by
      rw [lookup_upsertEntry, if_pos rfl]
    have hold := memberChars_le (show OrdMap.lookup k ms.toList = some y from h)
    have hnew := memberChars_le hmember
    rw [put, chars_obj, chars_obj, JsonMembers.toList_ofList]
    simp only [memberChars] at hold hnew
    omega
  | _ => exact nomatch h

theorem chars_put_le {k : JsString} {x y v : Json} (h : v.field k = some y)
    (hle : x.chars ≤ y.chars) : (v.put k x).chars ≤ v.chars := by
  have hput := chars_put (x := x) h
  omega

theorem chars_without_le (v : Json) (k : JsString) : (v.without k).chars ≤ v.chars := by
  cases v with
  | obj ms =>
    have hsum : ((ms.toList.filter fun e => e.1 ≠ k).map memberChars).sum ≤
        (ms.toList.map memberChars).sum :=
      (filter_sublist.map memberChars).sum_le_sum fun _ _ => Nat.zero_le _
    rw [without, chars_obj, chars_obj, JsonMembers.toList_ofList]
    omega
  | _ => exact le_refl _

/-- Members under different names count at most for the whole object. -/
theorem sum_fields_le {ks : List JsString} (hks : ks.Nodup) (es : List (JsString × Json)) :
    (ks.map fun k => ((OrdMap.lookup k es).map fun x => memberChars (k, x)).getD 0).sum ≤
      (es.map memberChars).sum := by
  induction es generalizing ks with
  | nil => simp [OrdMap.lookup]
  | cons e es ih =>
    rw [map_cons, sum_cons]
    by_cases he : e.1 ∈ ks
    · have hperm := perm_cons_erase he
      have hrest : ∀ k ∈ ks.erase e.1, ((OrdMap.lookup k (e :: es)).map fun x =>
          memberChars (k, x)).getD 0 = ((OrdMap.lookup k es).map fun x => memberChars (k, x)).getD 0 :=
        fun k hk => by
          have hne : e.1 ≠ k := fun h => (hks.mem_erase_iff.mp hk).1 h.symm
          rw [OrdMap.lookup, if_neg hne]
      rw [(hperm.map _).sum_eq, map_cons, sum_cons, map_congr_left hrest]
      have hfirst : ((OrdMap.lookup e.1 (e :: es)).map fun x => memberChars (e.1, x)).getD 0 =
          memberChars e := by
        rw [OrdMap.lookup, if_pos rfl]
        rfl
      rw [hfirst]
      exact Nat.add_le_add_left (ih (hks.erase _)) _
    · have hall : ∀ k ∈ ks, ((OrdMap.lookup k (e :: es)).map fun x =>
          memberChars (k, x)).getD 0 = ((OrdMap.lookup k es).map fun x => memberChars (k, x)).getD 0 :=
        fun k hk => by
          have hne : e.1 ≠ k := fun h => he (h ▸ hk)
          rw [OrdMap.lookup, if_neg hne]
      rw [map_congr_left hall]
      exact (ih hks).trans (Nat.le_add_left _ _)

structure Edits (ks : List JsString) (v v' : Json) : Prop where
  object : v'.objectish = v.objectish
  other : ∀ k, k ∉ ks → v'.field k = v.field k

theorem Edits.refl (ks : List JsString) (v : Json) : Edits ks v v := ⟨rfl, fun _ _ => rfl⟩

theorem Edits.trans {ks ls : List JsString} {u v w : Json} (h : Edits ks u v) (h' : Edits ls v w) :
    Edits (ks ++ ls) u w := by
  refine ⟨h'.object.trans h.object, fun k hk => ?_⟩
  rw [mem_append, not_or] at hk
  exact (h'.other k hk.2).trans (h.other k hk.1)

theorem edits_put (v : Json) (k : JsString) (x : Json) : Edits [k] v (v.put k x) :=
  ⟨objectish_put v k x, fun _ h => field_put_ne (ne_of_not_mem_cons h) v x⟩

theorem edits_without (v : Json) (k : JsString) : Edits [k] v (v.without k) :=
  ⟨objectish_without v k, fun _ h => field_without_ne (ne_of_not_mem_cons h) v⟩

theorem mapM_keyed {β : Type*} {f : JsString → Option β} {ks : List JsString}
    {es : List (JsString × β)} (h : ks.mapM (fun k => (f k).map fun v => (k, v)) = some es) :
    es.map Prod.fst = ks ∧ ∀ e ∈ es, f e.1 = some e.2 := by
  induction ks generalizing es with
  | nil =>
    cases h
    exact ⟨rfl, fun e he => nomatch he⟩
  | cons k ks ih =>
    cases hk : f k with
    | none => simp [mapM_cons, hk] at h
    | some v =>
      cases hks : ks.mapM fun k => (f k).map fun v => (k, v) with
      | none => simp [mapM_cons, hk, hks] at h
      | some es' =>
        obtain ⟨hkeys, hall⟩ := ih hks
        obtain rfl : (k, v) :: es' = es := by simpa [mapM_cons, hk, hks] using h
        refine ⟨by rw [map_cons, hkeys], fun e he => ?_⟩
        rcases mem_cons.mp he with rfl | he
        · exact hk
        · exact hall e he

theorem mapM_keyed_isSome {β : Type*} {f : JsString → Option β} {ks : List JsString} :
    (ks.mapM fun k => (f k).map fun v => (k, v)).isSome = true ↔ ∀ k ∈ ks, (f k).isSome = true := by
  induction ks with
  | nil => simp
  | cons k ks ih =>
    rw [forall_mem_cons, ← ih]
    cases hk : f k with
    | none => simp [mapM_cons, hk]
    | some v =>
      cases hks : ks.mapM fun k => (f k).map fun v => (k, v) <;> simp [mapM_cons, hk, hks]

theorem lookup_keyed {β : Type*} {f : JsString → Option β} {ks : List JsString}
    {es : List (JsString × β)} (h : ks.mapM (fun k => (f k).map fun v => (k, v)) = some es)
    {k : JsString} (hk : k ∈ ks) : OrdMap.lookup k es = f k := by
  obtain ⟨hkeys, hall⟩ := mapM_keyed h
  have hmem : k ∈ es.map Prod.fst := hkeys ▸ hk
  clear h hkeys hk
  induction es with
  | nil => exact nomatch hmem
  | cons e es ih =>
    rw [OrdMap.lookup]
    split_ifs with he
    · rw [← he]
      exact (hall e (mem_cons_self ..)).symm
    · refine ih (fun e' he' => hall e' (.tail _ he')) ?_
      exact (mem_cons.mp hmem).resolve_left (Ne.symm he)

theorem mapM_congr {α β : Type*} {f g : α → Option β} {xs : List α} (h : ∀ x ∈ xs, f x = g x) :
    xs.mapM f = xs.mapM g := by
  induction xs with
  | nil => rfl
  | cons x xs ih =>
    rw [mapM_cons, mapM_cons, h x (mem_cons_self ..),
      ih fun y hy => h y (.tail _ hy)]

/-- An object rebuilt under some of the names of another one, each member at most `g` longer. -/
theorem chars_keyed {f : JsString → Option Json} {ks : List JsString} {es : List (JsString × Json)}
    (h : ks.mapM (fun k => (f k).map fun v => (k, v)) = some es) (hks : ks.Nodup) {s : Json}
    (hs : s.objectish = true) (g : JsString → ℕ)
    (hg : ∀ k ∈ ks, ∀ v, f k = some v →
      memberChars (k, v) ≤ ((s.field k).map fun x => memberChars (k, x)).getD 0 + g k) :
    (Json.obj (.ofList es)).chars ≤ s.chars + (ks.map g).sum := by
  cases s with
  | obj ms =>
    obtain ⟨hkeys, hall⟩ := mapM_keyed h
    have hnames := sum_fields_le hks ms.toList
    have hsum : (es.map memberChars).sum ≤ (ks.map fun k =>
        ((OrdMap.lookup k ms.toList).map fun x => memberChars (k, x)).getD 0 + g k).sum := by
      rw [← hkeys, List.map_map]
      refine sum_le_sum fun e he => ?_
      exact hg e.1 (hkeys ▸ List.mem_map_of_mem he) e.2 (hall e he)
    rw [sum_map_add] at hsum
    rw [chars_obj, chars_obj, JsonMembers.toList_ofList]
    omega
  | _ => exact nomatch hs

theorem memberKeys_put_mem {v x : Json} {k : JsString} (h : k ∈ v.memberKeys) :
    (v.put k x).memberKeys = v.memberKeys := by
  cases v with
  | obj ms =>
    have hk : k ∈ ms.toList.map Prod.fst := h
    rw [put, memberKeys, JsonMembers.toList_ofList, keys_upsertEntry, if_pos hk]
    rfl
  | _ => rfl

theorem memberKeys_put_new {v x : Json} {k : JsString} (hv : v.objectish = true)
    (h : k ∉ v.memberKeys) : (v.put k x).memberKeys = v.memberKeys ++ [k] := by
  cases v with
  | obj ms =>
    have hk : k ∉ ms.toList.map Prod.fst := h
    rw [put, memberKeys, JsonMembers.toList_ofList, keys_upsertEntry, if_neg hk]
    rfl
  | _ => exact nomatch hv

theorem memberKeys_without (v : Json) (k : JsString) :
    (v.without k).memberKeys = v.memberKeys.filter fun k' => k' ≠ k := by
  cases v with
  | obj ms =>
    rw [without, memberKeys, memberKeys, JsonMembers.toList_ofList, List.filter_map]
    rfl
  | _ => rfl

theorem not_mem_memberKeys {v : Json} {k : JsString} (h : v.field k = none) : k ∉ v.memberKeys := by
  cases v with
  | obj ms => exact lookup_eq_none.mp h
  | _ => exact not_mem_nil

/-- The object whose members are assigned in the order of `fs`, those with no value left out. -/
def orderedObject {φ : Type} (name : φ → JsString) (fs : List φ) (g : φ → Option Json) : Json :=
  .obj (.ofList (fs.filterMap fun f => (g f).map fun x => (name f, x)))

section

variable {φ : Type} {name : φ → JsString} {fs : List φ} {g : φ → Option Json}

theorem field_orderedObject (hname : name.Injective) {f : φ} (hf : f ∈ fs) :
    (orderedObject name fs g).field (name f) = g f := by
  rw [orderedObject, field, JsonMembers.toList_ofList]
  induction fs with
  | nil => exact nomatch hf
  | cons f' fs ih =>
    by_cases hff : f' = f
    · subst hff
      cases hg : g f' with
      | some x => simp [hg, OrdMap.lookup]
      | none =>
        simp only [filterMap_cons, hg, map_none]
        by_cases hmem : f' ∈ fs
        · rw [ih hmem, hg]
        · refine lookup_eq_none.mpr fun hk => hmem ?_
          obtain ⟨e, he, heq⟩ := List.mem_map.mp hk
          obtain ⟨f, hf', hfe⟩ := mem_filterMap.mp he
          obtain ⟨x, -, rfl⟩ := map_eq_some_iff.mp hfe
          exact hname heq ▸ hf'
    · have hrest := ih ((mem_cons.mp hf).resolve_left (Ne.symm hff))
      cases hg : g f' with
      | some x =>
        have hne : name f' ≠ name f := fun h => hff (hname h)
        simp only [filterMap_cons, hg, map_some, OrdMap.lookup, if_neg hne, hrest]
      | none => simp only [filterMap_cons, hg, map_none, hrest]

theorem memberKeys_orderedObject : (orderedObject name fs g).memberKeys.Sublist (fs.map name) := by
  rw [orderedObject, memberKeys, JsonMembers.toList_ofList]
  induction fs with
  | nil => exact Sublist.slnil
  | cons f fs ih =>
    cases hg : g f with
    | some x =>
      simp only [filterMap_cons, hg, map_some, map_cons]
      exact ih.cons_cons _
    | none =>
      simp only [filterMap_cons, hg, map_none, map_cons]
      exact ih.cons _

theorem entries_of_sublist {es : List (JsString × Json)} (hfs : (fs.map name).Nodup)
    (h : (es.map Prod.fst).Sublist (fs.map name)) :
    fs.filterMap (fun f => (OrdMap.lookup (name f) es).map fun x => (name f, x)) = es := by
  induction fs generalizing es with
  | nil =>
    rw [map_nil, sublist_nil, map_eq_nil_iff] at h
    rw [h]
    rfl
  | cons f fs ih =>
    obtain ⟨hf, hfs⟩ := nodup_cons.mp hfs
    rw [map_cons] at h
    cases es with
    | nil => simp [OrdMap.lookup]
    | cons e es =>
      have hother : ∀ f' ∈ fs, name f ≠ name f' := fun f' hf' heq =>
        hf (heq ▸ List.mem_map_of_mem hf')
      by_cases he : e.1 = name f
      · have hes : (es.map Prod.fst).Sublist (fs.map name) := by
          rw [map_cons, he] at h
          exact cons_sublist_cons.mp h
        have hrest : ∀ f' ∈ fs, ((OrdMap.lookup (name f') (e :: es)).map fun x => (name f', x)) =
            (OrdMap.lookup (name f') es).map fun x => (name f', x) := by
          intro f' hf'
          rw [OrdMap.lookup, if_neg (he ▸ hother f' hf')]
        rw [filterMap_cons, filterMap_congr hrest, ih hfs hes, OrdMap.lookup, if_pos he,
          ← he]
        rfl
      · have hes : ((e :: es).map Prod.fst).Sublist (fs.map name) := by
          rw [map_cons] at h ⊢
          refine (sublist_cons_iff.mp h).resolve_right ?_
          rintro ⟨r, hr, _⟩
          exact he (List.cons.inj hr).1
        have hnone : OrdMap.lookup (name f) (e :: es) = none :=
          lookup_eq_none.mpr fun hmem => hf (hes.subset hmem)
        rw [filterMap_cons, hnone, map_none, ih hfs hes]

/-- An object whose members stand in the order of `fs` is the record of its members. -/
theorem eq_orderedObject {v : Json} (hv : v.objectish = true) (hfs : (fs.map name).Nodup)
    (h : v.memberKeys.Sublist (fs.map name)) : orderedObject name fs (fun f => v.field (name f)) = v := by
  cases v with
  | obj ms =>
    have hentries : fs.filterMap (fun f => (OrdMap.lookup (name f) ms.toList).map fun x =>
        (name f, x)) = ms.toList := entries_of_sublist hfs h
    show Json.obj (.ofList (fs.filterMap fun f => (OrdMap.lookup (name f) ms.toList).map fun x =>
      (name f, x))) = .obj ms
    rw [hentries, JsonMembers.ofList_toList]
  | _ => exact nomatch hv

/-- A member assigned behind all of those that are there. -/
theorem sublist_put_last (gs hs : List φ) {f : φ} {v x : Json} (hv : v.objectish = true)
    (h : v.memberKeys.Sublist ((gs ++ f :: hs).map name))
    (hnone : ∀ g ∈ f :: hs, v.field (name g) = none) :
    (v.put (name f) x).memberKeys.Sublist ((gs ++ f :: hs).map name) := by
  rw [memberKeys_put_new hv (not_mem_memberKeys (hnone f (mem_cons_self ..)))]
  rw [map_append] at h ⊢
  obtain ⟨ks, ls, hkeys, hks, hls⟩ := sublist_append_iff.mp h
  have hnil : ls = [] := by
    refine eq_nil_iff_forall_not_mem.mpr fun k hk => ?_
    obtain ⟨g, hg, rfl⟩ := List.mem_map.mp (hls.subset hk)
    exact not_mem_memberKeys (hnone g hg) (hkeys ▸ mem_append_right _ hk)
  rw [hkeys, hnil, append_nil, map_cons]
  exact hks.append (cons_sublist_cons.mpr (nil_sublist _))

end

section

variable {σ α β : Type}

/-- From every state the computation ends, with a value that `P` holds of. -/
def Ends (m : StateT σ Option α) (P : α → Prop) : Prop :=
  ∀ t, ∃ v t', m t = some (v, t') ∧ P v

def Settles (m : StateT σ Option α) (v : α) : Prop := ∀ t, m t = some (v, t)

theorem ends_pure {v : α} {P : α → Prop} (h : P v) : Ends (pure v : StateT σ Option α) P :=
  fun t => ⟨v, t, rfl, h⟩

theorem ends_modify (f : σ → σ) {P : Unit → Prop} (h : P ()) :
    Ends (modify f : StateT σ Option Unit) P :=
  fun t => ⟨(), f t, rfl, h⟩

theorem Ends.bind {m : StateT σ Option α} {f : α → StateT σ Option β} {P : α → Prop}
    {Q : β → Prop} (hm : Ends m P) (hf : ∀ v, P v → Ends (f v) Q) : Ends (m >>= f) Q := by
  intro t
  obtain ⟨v, t', hmt, hv⟩ := hm t
  obtain ⟨w, t'', hft, hw⟩ := hf v hv t'
  exact ⟨w, t'', by rw [← hft]; show (m t >>= fun p => f p.1 p.2) = _; rw [hmt]; rfl, hw⟩

theorem Ends.imp {m : StateT σ Option α} {P Q : α → Prop} (hm : Ends m P)
    (h : ∀ v, P v → Q v) : Ends m Q := by
  intro t
  obtain ⟨v, t', hmt, hv⟩ := hm t
  exact ⟨v, t', hmt, h v hv⟩

theorem settles_pure (v : α) : Settles (pure v : StateT σ Option α) v := fun _ => rfl

theorem Settles.bind {m : StateT σ Option α} {f : α → StateT σ Option β} {v : α} {w : β}
    (hm : Settles m v) (hf : Settles (f v) w) : Settles (m >>= f) w := by
  intro t
  show (m t >>= fun p => f p.1 p.2) = _
  rw [hm t]
  exact hf t

/-- A loop keeps what each of its rounds keeps. -/
theorem ends_foldlM {f : α → β → StateT σ Option α} {P : List β → α → Prop} {xs : List β}
    (hstep : ∀ x ∈ xs, ∀ done v, P done v → Ends (f v x) (P (done ++ [x]))) {v : α}
    (hv : P [] v) : Ends (xs.foldlM f v) (P xs) := by
  have hrun : ∀ (rest : List β), rest ⊆ xs → ∀ done v, P done v →
      Ends (rest.foldlM f v) (P (done ++ rest)) := by
    intro rest
    induction rest with
    | nil => exact fun _ done v hv => ends_pure (by rwa [append_nil])
    | cons x rest ih =>
      intro hsub done v hv
      rw [foldlM_cons]
      refine (hstep x (hsub (mem_cons_self ..)) done v hv).bind fun w hw => ?_
      have hrest := ih (fun y hy => hsub (.tail _ hy)) (done ++ [x]) w hw
      rwa [append_assoc] at hrest
  exact hrun xs (List.Subset.refl _) [] v hv

theorem settles_foldlM {f : α → β → StateT σ Option α} {v : α} {xs : List β}
    (h : ∀ x ∈ xs, Settles (f v x) v) : Settles (xs.foldlM f v) v := by
  induction xs with
  | nil => exact settles_pure v
  | cons x xs ih =>
    rw [foldlM_cons]
    exact (h x (mem_cons_self ..)).bind (ih fun y hy => h y (.tail _ hy))

theorem ends_mapM {f : α → StateT σ Option β} {P : α → β → Prop} {xs : List α}
    (h : ∀ x ∈ xs, Ends (f x) (P x)) : Ends (xs.mapM f) (List.Forall₂ P xs) := by
  induction xs with
  | nil =>
    rw [mapM_nil]
    exact ends_pure .nil
  | cons x xs ih =>
    rw [mapM_cons]
    refine (h x (mem_cons_self ..)).bind fun y hy => ?_
    refine (ih fun z hz => h z (.tail _ hz)).bind fun ys hys => ?_
    exact ends_pure (.cons hy hys)

theorem settles_mapM {f : α → StateT σ Option α} {xs : List α}
    (h : ∀ x ∈ xs, Settles (f x) x) : Settles (xs.mapM f) xs := by
  induction xs with
  | nil =>
    rw [mapM_nil]
    exact settles_pure []
  | cons x xs ih =>
    rw [mapM_cons]
    exact (h x (mem_cons_self ..)).bind
      ((ih fun z hz => h z (.tail _ hz)).bind (settles_pure _))

end

end Turma.Lib
