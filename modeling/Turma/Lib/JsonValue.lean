import Turma.Lib.JsNumber

/-! JSON values, the text that `JSON.stringify` writes of one, and `JSON.parse` of such a text:
there is no white space in it, and no surrogate pair is spelled by two escapes. -/

namespace Turma.Lib

open List Option

mutual

/-- A JSON value. An object is its members, in the order in which it lists them. -/
inductive Json
  | null
  | bool (b : Bool)
  | num (n : JsNumber)
  | str (s : JsString)
  | arr (vs : JsonElements)
  | obj (ms : JsonMembers)
deriving DecidableEq

inductive JsonElements
  | nil
  | cons (v : Json) (vs : JsonElements)
deriving DecidableEq

inductive JsonMembers
  | nil
  | cons (k : JsString) (v : Json) (ms : JsonMembers)
deriving DecidableEq

end

mutual

def stringify : Json → List Char
  | .null => jsonNull
  | .bool b => jsonBool b
  | .num n => n.text
  | .str s => jsonString s
  | .arr .nil => ['[', ']']
  | .arr (.cons v vs) => '[' :: stringify v ++ stringifyElements vs
  | .obj .nil => ['{', '}']
  | .obj (.cons k v ms) => '{' :: jsonString k ++ ':' :: stringify v ++ stringifyMembers ms

/-- The elements that follow another one, and the end of the array. -/
def stringifyElements : JsonElements → List Char
  | .nil => [']']
  | .cons v vs => ',' :: stringify v ++ stringifyElements vs

def stringifyMembers : JsonMembers → List Char
  | .nil => ['}']
  | .cons k v ms => ',' :: jsonString k ++ ':' :: stringify v ++ stringifyMembers ms

end

def hexValue (c : Char) : ℕ := if c.isDigit = true then c.toNat - 48 else c.toNat - 87

def escapedChar (c : Char) : Option Char :=
  if c = 'b' then some (Char.ofNat 8)
  else if c = 't' then some (Char.ofNat 9)
  else if c = 'n' then some (Char.ofNat 10)
  else if c = 'f' then some (Char.ofNat 12)
  else if c = 'r' then some (Char.ofNat 13)
  else if c = '"' ∨ c = '\\' ∨ c = '/' then some c
  else none

def unitAt (n : ℕ) : CodePoint :=
  if h : 0xD800 ≤ n ∧ n < 0xE000 then .lone ⟨n - 0xD800, by omega⟩ else .scalar (Char.ofNat n)

def readEscape : List Char → Option (CodePoint × List Char)
  | 'u' :: a :: b :: c :: d :: r =>
    some (unitAt (4096 * hexValue a + 256 * hexValue b + 16 * hexValue c + hexValue d), r)
  | c :: r => (escapedChar c).map fun c => (.scalar c, r)
  | [] => none

def readCodePoint : List Char → Option (CodePoint × List Char)
  | [] => none
  | c :: t => if c = '\\' then readEscape t else some (.scalar c, t)

/-- A string, from behind its first quote. -/
def readString : ℕ → List Char → Option (JsString × List Char)
  | 0, _ => none
  | fuel + 1, t =>
    if t.head? = some '"' then some ([], t.tail)
    else
      match readCodePoint t with
      | none => none
      | some (c, r) => (readString fuel r).map fun x => (c :: x.1, x.2)

def readWord (t : List Char) : Option (Json × List Char) :=
  if jsonNull.isPrefixOf t = true then some (.null, t.drop 4)
  else if (jsonBool true).isPrefixOf t = true then some (.bool true, t.drop 4)
  else if (jsonBool false).isPrefixOf t = true then some (.bool false, t.drop 5)
  else none

mutual

def readValue : ℕ → List Char → Option (Json × List Char)
  | 0, _ => none
  | fuel + 1, t =>
    if t.head? = some '"' then
      (readString fuel t.tail).map fun x => (.str x.1, x.2)
    else if t.head? = some '[' then
      if t.tail.head? = some ']' then some (.arr .nil, t.tail.tail)
      else (readElements fuel t.tail).map fun x => (.arr x.1, x.2)
    else if t.head? = some '{' then
      if t.tail.head? = some '}' then some (.obj .nil, t.tail.tail)
      else (readMembers fuel t.tail).map fun x => (.obj x.1, x.2)
    else if (t.head?.any fun c => c.isDigit || c = '-') = true then
      (readNumber t).map fun x => (.num x.1, x.2)
    else readWord t

def readElements : ℕ → List Char → Option (JsonElements × List Char)
  | 0, _ => none
  | fuel + 1, t =>
    match readValue fuel t with
    | none => none
    | some (v, r) =>
      if r.head? = some ']' then some (.cons v .nil, r.tail)
      else if r.head? = some ',' then
        (readElements fuel r.tail).map fun x => (.cons v x.1, x.2)
      else none

def readMembers : ℕ → List Char → Option (JsonMembers × List Char)
  | 0, _ => none
  | fuel + 1, t =>
    if t.head? = some '"' then
      match readString fuel t.tail with
      | none => none
      | some (k, r) =>
        if r.head? = some ':' then
          match readValue fuel r.tail with
          | none => none
          | some (v, r) =>
            if r.head? = some '}' then some (.cons k v .nil, r.tail)
            else if r.head? = some ',' then
              (readMembers fuel r.tail).map fun x => (.cons k v x.1, x.2)
            else none
        else none
    else none

end

def parse (t : List Char) : Option Json :=
  match readValue (t.length + 1) t with
  | some (v, []) => some v
  | _ => none

theorem hexValue_digitChar : ∀ d, d < 16 → hexValue d.digitChar = d := by decide

theorem readEscape_hex4 {n : ℕ} (hn : n < 65536) (r : List Char) :
    readEscape ('u' :: (hex4 n ++ r)) = some (unitAt n, r) := by
  have hdigits : 4096 * hexValue (n / 4096 % 16).digitChar +
      256 * hexValue (n / 256 % 16).digitChar + 16 * hexValue (n / 16 % 16).digitChar +
        hexValue (n % 16).digitChar = n := by
    rw [hexValue_digitChar _ (by omega), hexValue_digitChar _ (by omega),
      hexValue_digitChar _ (by omega), hexValue_digitChar _ (by omega)]
    omega
  rw [hex4]
  exact congrArg (fun m => some (unitAt m, r)) hdigits

theorem readCodePoint_quoteChar (c : CodePoint) (r : List Char) :
    readCodePoint (quoteChar c ++ r) = some (c, r) := by
  cases c with
  | lone u =>
    change readEscape ('u' :: (hex4 (0xD800 + u) ++ r)) = _
    rw [readEscape_hex4 (by omega)]
    have hrange : 0xD800 ≤ 0xD800 + (u : ℕ) ∧ 0xD800 + (u : ℕ) < 0xE000 := by omega
    rw [unitAt, dif_pos hrange]
    simp
  | scalar c =>
    have hofNat : ∀ n, c.toNat = n → c = Char.ofNat n := fun n hn => by
      rw [← hn, Char.ofNat_toNat]
    unfold quoteChar
    dsimp only
    split_ifs with h h h8 h9 h10 h12 h13 hlow
    · rw [h]
      rfl
    · rw [h]
      rfl
    · rw [hofNat 8 h8]
      rfl
    · rw [hofNat 9 h9]
      rfl
    · rw [hofNat 10 h10]
      rfl
    · rw [hofNat 12 h12]
      rfl
    · rw [hofNat 13 h13]
      rfl
    · change readEscape ('u' :: (hex4 c.toNat ++ r)) = _
      rw [readEscape_hex4 (by omega), unitAt, dif_neg (by omega), Char.ofNat_toNat]
    · rw [singleton_append, readCodePoint, if_neg (by assumption)]

theorem quoteChar_head (c : CodePoint) : ∃ d t, quoteChar c = d :: t ∧ d ≠ '"' := by
  cases c with
  | lone u => exact ⟨'\\', _, rfl, by decide⟩
  | scalar c =>
    unfold quoteChar
    dsimp only
    split_ifs with h
    · exact ⟨'\\', _, rfl, by decide⟩
    · exact ⟨'\\', _, rfl, by decide⟩
    · exact ⟨'\\', _, rfl, by decide⟩
    · exact ⟨'\\', _, rfl, by decide⟩
    · exact ⟨'\\', _, rfl, by decide⟩
    · exact ⟨'\\', _, rfl, by decide⟩
    · exact ⟨'\\', _, rfl, by decide⟩
    · exact ⟨'\\', _, rfl, by decide⟩
    · exact ⟨c, [], rfl, h⟩

variable {fuel : ℕ} (s : JsString)

theorem readString_quoted (r : List Char)
    (hfuel : (s.flatMap quoteChar).length < fuel) :
    readString fuel (s.flatMap quoteChar ++ '"' :: r) = some (s, r) := by
  induction s generalizing fuel with
  | nil =>
    obtain ⟨fuel, rfl⟩ := Nat.exists_eq_add_of_lt hfuel
    rfl
  | cons c s ih =>
    obtain ⟨d, t, hd, hquote⟩ := quoteChar_head c
    rw [flatMap_cons, length_append, hd, length_cons] at hfuel
    cases fuel with
    | zero => omega
    | succ fuel =>
      have hread := readCodePoint_quoteChar c (s.flatMap quoteChar ++ '"' :: r)
      rw [flatMap_cons, append_assoc, readString]
      rw [hd] at hread ⊢
      rw [if_neg (by simpa using hquote), hread]
      dsimp only
      rw [ih (by omega)]
      rfl

variable {c : Char}

theorem stops_of_head (h : numberChar c = false) (r : List Char) : Stops (c :: r) := by
  intro d hd
  rw [← some.inj hd]
  exact h

theorem stringify_head (v : Json) : ∃ c t, stringify v = c :: t ∧ c ≠ ']' := by
  cases v with
  | null => exact ⟨'n', _, rfl, by decide⟩
  | bool b => cases b <;> exact ⟨_, _, rfl, by decide⟩
  | num n =>
    obtain ⟨c, t, htext, hc⟩ := n.text_head
    refine ⟨c, t, htext, ?_⟩
    rintro rfl
    exact absurd hc (by decide)
  | str s => exact ⟨'"', _, rfl, by decide⟩
  | arr vs => cases vs <;> exact ⟨'[', _, rfl, by decide⟩
  | obj ms => cases ms <;> exact ⟨'{', _, rfl, by decide⟩

def Reads (v : Json) : Prop := ∀ fuel r, (stringify v).length < fuel → Stops r →
  readValue fuel (stringify v ++ r) = some (v, r)

theorem jsonString_append (r : List Char) :
    jsonString s ++ r = '"' :: (s.flatMap quoteChar ++ '"' :: r) := by
  simp [jsonString]

theorem reads_num (n : JsNumber) : Reads (.num n) := by
  intro fuel r hfuel hr
  obtain ⟨fuel, rfl⟩ := Nat.exists_eq_add_of_lt hfuel
  obtain ⟨c, t, htext, hc⟩ := n.text_head
  have hnot : ∀ d : Char, d.isDigit = false → d ≠ '-' → (n.text ++ r).head? ≠ some d := by
    intro d hdigit hminus
    rw [htext, cons_append, head?_cons]
    intro hd
    rw [some.inj hd] at hc
    rcases hc with hc | hc
    · rw [hdigit] at hc
      cases hc
    · exact hminus hc
  have hstart : ((n.text ++ r).head?.any fun c => c.isDigit || c = '-') = true := by
    rw [htext, cons_append, head?_cons]
    simpa using hc
  rw [readValue, stringify, if_neg (hnot '"' rfl (by decide)), if_neg (hnot '[' rfl (by decide)),
    if_neg (hnot '{' rfl (by decide)), if_pos hstart, readNumber_text n hr]
  rfl

theorem readValue_string (fuel : ℕ) (t : List Char) :
    readValue (fuel + 1) ('"' :: t) = (readString fuel t).map fun x => (.str x.1, x.2) := by
  simp [readValue]

theorem readValue_array (fuel : ℕ) (hc : c ≠ ']') (t : List Char) :
    readValue (fuel + 1) ('[' :: c :: t) =
      (readElements fuel (c :: t)).map fun x => (.arr x.1, x.2) := by
  simp [readValue, hc]

theorem readValue_object (fuel : ℕ) (hc : c ≠ '}') (t : List Char) :
    readValue (fuel + 1) ('{' :: c :: t) =
      (readMembers fuel (c :: t)).map fun x => (.obj x.1, x.2) := by
  simp [readValue, hc]

variable {v : Json}

theorem readElements_last {t r : List Char}
    (h : readValue fuel t = some (v, ']' :: r)) :
    readElements (fuel + 1) t = some (.cons v .nil, r) := by
  simp [readElements, h]

theorem readElements_next {t r : List Char}
    (h : readValue fuel t = some (v, ',' :: r)) :
    readElements (fuel + 1) t = (readElements fuel r).map fun x => (.cons v x.1, x.2) := by
  simp [readElements, h]

theorem readMembers_last {t r r' : List Char} {k : JsString}
    (hk : readString fuel t = some (k, ':' :: r)) (h : readValue fuel r = some (v, '}' :: r')) :
    readMembers (fuel + 1) ('"' :: t) = some (.cons k v .nil, r') := by
  simp [readMembers, hk, h]

theorem readMembers_next {t r r' : List Char} {k : JsString}
    (hk : readString fuel t = some (k, ':' :: r)) (h : readValue fuel r = some (v, ',' :: r')) :
    readMembers (fuel + 1) ('"' :: t) =
      (readMembers fuel r').map fun x => (.cons k v x.1, x.2) := by
  simp [readMembers, hk, h]

theorem length_jsonString :
    (jsonString s).length = (s.flatMap quoteChar).length + 2 := by
  simp [jsonString]

theorem reads_str : Reads (.str s) := by
  intro fuel r hfuel _
  rw [stringify, length_jsonString] at hfuel
  cases fuel with
  | zero => omega
  | succ fuel =>
    rw [stringify, jsonString_append, readValue_string, readString_quoted s r (by omega)]
    rfl

mutual

theorem reads : ∀ v : Json, Reads v
  | .null => by
    intro fuel r hfuel _
    obtain ⟨fuel, rfl⟩ := Nat.exists_eq_add_of_lt hfuel
    rfl
  | .bool b => by
    intro fuel r hfuel _
    obtain ⟨fuel, rfl⟩ := Nat.exists_eq_add_of_lt hfuel
    cases b <;> rfl
  | .num n => reads_num n
  | .str s => reads_str s
  | .arr .nil => by
    intro fuel r hfuel _
    obtain ⟨fuel, rfl⟩ := Nat.exists_eq_add_of_lt hfuel
    rfl
  | .arr (.cons v vs) => by
    intro fuel r hfuel _
    rw [stringify, cons_append, length_cons] at hfuel
    cases fuel with
    | zero => omega
    | succ fuel =>
      obtain ⟨c, t, hhead, hc⟩ := stringify_head v
      have hread := readElements_stringify vs (reads v) fuel r (by omega)
      rw [stringify, cons_append, cons_append, append_assoc]
      rw [hhead, cons_append] at hread ⊢
      rw [readValue_array fuel hc, hread]
      rfl
  | .obj .nil => by
    intro fuel r hfuel _
    obtain ⟨fuel, rfl⟩ := Nat.exists_eq_add_of_lt hfuel
    rfl
  | .obj (.cons k v ms) => by
    intro fuel r hfuel _
    simp only [stringify, cons_append, append_assoc, length_cons] at hfuel ⊢
    cases fuel with
    | zero => omega
    | succ fuel =>
      have hread := readMembers_stringify ms k (reads v) fuel r (by omega)
      rw [jsonString_append] at hread ⊢
      rw [readValue_object fuel (by decide), hread]
      rfl

theorem readElements_stringify : ∀ (vs : JsonElements) {v : Json}, Reads v → ∀ fuel r,
    (stringify v ++ stringifyElements vs).length < fuel →
      readElements fuel (stringify v ++ (stringifyElements vs ++ r)) = some (.cons v vs, r)
  | _, _, _, 0, _, hfuel => absurd hfuel (Nat.not_lt_zero _)
  | .nil, v, hv, fuel + 1, r, hfuel => by
    rw [length_append, stringifyElements, length_singleton] at hfuel
    exact readElements_last (hv fuel _ (by omega) (stops_of_head rfl _))
  | .cons w vs, v, hv, fuel + 1, r, hfuel => by
    rw [length_append, stringifyElements, cons_append, length_cons] at hfuel
    have hread := readElements_stringify vs (reads w) fuel r (by omega)
    rw [stringifyElements, cons_append, cons_append,
      readElements_next (hv fuel _ (by omega) (stops_of_head rfl _)), append_assoc, hread]
    rfl

theorem readMembers_stringify : ∀ (ms : JsonMembers) (k : JsString) {v : Json}, Reads v →
    ∀ fuel r, (jsonString k ++ (':' :: (stringify v ++ stringifyMembers ms))).length < fuel →
      readMembers fuel (jsonString k ++ (':' :: (stringify v ++ (stringifyMembers ms ++ r)))) =
        some (.cons k v ms, r)
  | _, _, _, _, 0, _, hfuel => absurd hfuel (Nat.not_lt_zero _)
  | .nil, k, v, hv, fuel + 1, r, hfuel => by
    simp only [length_append, length_cons, length_jsonString, stringifyMembers] at hfuel
    rw [jsonString_append]
    exact readMembers_last (readString_quoted k _ (by omega))
      (hv fuel _ (by omega) (stops_of_head rfl _))
  | .cons l w ms, k, v, hv, fuel + 1, r, hfuel => by
    simp only [length_append, length_cons, length_jsonString, stringifyMembers,
      cons_append, append_assoc] at hfuel
    have hread := readMembers_stringify ms l (reads w) fuel r (by
      simp only [length_append, length_cons, length_jsonString]
      omega)
    simp only [stringifyMembers, cons_append, append_assoc]
    rw [jsonString_append, readMembers_next (readString_quoted k _ (by omega))
      (hv fuel _ (by omega) (stops_of_head rfl _)), hread]
    rfl

end

/-- `JSON.parse(JSON.stringify(v))` is `v`. -/
theorem parse_stringify (v : Json) : parse (stringify v) = some v := by
  have hread := reads v ((stringify v).length + 1) [] (Nat.lt_succ_self _) (by simp [Stops])
  rw [append_nil] at hread
  rw [parse, hread]

theorem stringify_injective {v w : Json} (h : stringify v = stringify w) : v = w := by
  have hv := parse_stringify v
  rw [h, parse_stringify] at hv
  exact (some.inj hv).symm

end Turma.Lib
