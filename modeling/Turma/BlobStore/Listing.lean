import Turma.BlobStore.XmlDecode
import Turma.Lib.ToNumber

/-! What a listing of objects says and what is read of it: the first page's keys, sizes, flag and
token by expressions that look for tags, and the pages of a store one after another. -/

namespace Turma.BlobStore

open Turma.Lib Turma.Lib.Units List Option

/-- `\w`. -/
def word (c : ℕ) : Bool := (48 ≤ c && c ≤ 57) || (65 ≤ c && c ≤ 90) || (97 ≤ c && c ≤ 122) || c = 95

/-- `\s`. -/
def space (c : ℕ) : Bool :=
  (0x09 ≤ c && c ≤ 0x0d) || c = 0x20 || c = 0xa0 || c = 0x1680 || (0x2000 ≤ c && c ≤ 0x200a) ||
    c = 0x2028 || c = 0x2029 || c = 0x202f || c = 0x205f || c = 0x3000 || c = 0xfeff

def lowerCase (c : ℕ) : ℕ := if 65 ≤ c ∧ c ≤ 90 then c + 32 else c

/-- What an expression finds of a literal text: the rest of the string. -/
def literal (x s : Units) : Option Units := if x.isPrefixOf s = true then some (s.drop x.length) else none

/-- A literal text under the flag `i`. -/
def literalAnyCase (x s : Units) : Option Units :=
  if (x.map lowerCase).isPrefixOf (s.map lowerCase) = true then some (s.drop x.length) else none

/-- `([\s\S]*?)` before a literal text. -/
def upTo (close s : Units) : Option Units := (locate (literal close) s).map Prod.fst

/-- `<name>([\s\S]*?)<\/name>`. -/
def element (name : String) (s : Units) : Option Units := do
  let rest ← literal (lit "<" ++ lit name ++ lit ">") s
  upTo (lit "</" ++ lit name ++ lit ">") rest

/-- `<Contents\b[^>]*>([\s\S]*?)<\/Contents>`, with its length. -/
def contents (s : Units) : Option (Units × ℕ) := do
  let rest ← literal (lit "<Contents") s
  let attrs := rest.takeWhile (· ≠ 62)
  if attrs.head?.any word = true then none
  else do
    let after ← literal (lit ">") (rest.drop attrs.length)
    let body ← upTo (lit "</Contents>") after
    some (body, 9 + attrs.length + 1 + body.length + 11)

/-- `<Size>\s*(\d+)\s*<\/Size>`. -/
def sizeElement (s : Units) : Option Units := do
  let rest ← literal (lit "<Size>") s
  let digits := (rest.dropWhile space).takeWhile digit
  let after := ((rest.dropWhile space).drop digits.length).dropWhile space
  if digits = [] then none
  else do
    let _ ← literal (lit "</Size>") after
    some digits

/-- `/<IsTruncated>\s*true\s*<\/IsTruncated>/i`. -/
def truncatedElement (s : Units) : Option Unit := do
  let rest ← literalAnyCase (lit "<IsTruncated>") s
  let after ← literalAnyCase (lit "true") (rest.dropWhile space)
  let _ ← literalAnyCase (lit "</IsTruncated>") (after.dropWhile space)
  some ()

/-- `re.exec(s)[1]`. -/
def exec {α : Type*} (m : Units → Option α) (s : Units) : Option α := (locate m s).map Prod.snd

/-- `Number(sm[1])`. -/
def size (digits : Units) : Lib.Num := nearest (number 10 digits)

structure Parsed where
  keys : List Units
  sizes : List (Option Lib.Num)
  truncated : Bool
  nextToken : Option Units
deriving DecidableEq

def parseListXml (xml : Units) : Parsed :=
  let found := (locateAll contents 0 xml).filterMap fun body =>
    (exec (element "Key") body).map fun km =>
      (xmlDecode km, (exec sizeElement body).map size)
  { keys := found.map Prod.fst
    sizes := found.map Prod.snd
    truncated := (exec truncatedElement xml).isSome
    nextToken := (exec (element "NextContinuationToken") xml).map xmlDecode }

/-- What a document is made of: text, and tags by their names. -/
inductive Piece
  | characters (x : Units)
  | tag (closing : Bool) (name tail : Units)

def tagStart (closing : Bool) (name : Units) : Units :=
  60 :: ((if closing = true then [47] else []) ++ name)

namespace Piece

def text : Piece → Units
  | characters x => x
  | tag closing name tail => tagStart closing name ++ tail

/-- A `<` opens a tag alone, and a tag's name ends where a unit that is no part of a word is. -/
def Lexed : Piece → Prop
  | characters x => 60 ∉ x
  | tag closing name tail =>
    (∀ c ∈ name, word c = true) ∧ 60 ∉ tail ∧
      ∃ d z, tail = d :: z ∧ word d = false ∧ (closing = false → name = [] → d ≠ 47)

def namesRead : List Units :=
  [lit "contents", lit "key", lit "size", lit "istruncated", lit "nextcontinuationtoken"]

/-- Any piece but a tag that is read. -/
def Foreign : Piece → Prop
  | characters _ => True
  | tag _ name _ => name.map lowerCase ∉ namesRead

end Piece

structure Other where
  piece : Piece
  lexed : piece.Lexed
  isForeign : piece.Foreign

def starts (name : String) : Piece := .tag false (lit name) (lit ">")

def ends (name : String) : Piece := .tag true (lit name) (lit ">")

def elementOf (name : String) (x : Units) : List Piece := [starts name, .characters x, ends name]

/-- A listed object: its key and its size in either order, among other elements. -/
structure Object where
  attrs : Units
  attrsLexed : 60 ∉ attrs ∧ 62 ∉ attrs ∧ attrs.head?.any word = false
  key : List Written
  digits : Units
  digitsRead : digits ≠ [] ∧ ∀ d ∈ digits, digit d = true
  padding : Units × Units
  blank : ∀ c ∈ padding.1 ++ padding.2, space c = true
  sizeFirst : Bool
  before : List Other
  between : List Other
  after : List Other

namespace Object

variable (o : Object)

def keyPieces : List Piece := elementOf "Key" (text o.key)

def sizePieces : List Piece := elementOf "Size" (o.padding.1 ++ o.digits ++ o.padding.2)

def body : List Piece :=
  o.before.map Other.piece ++
    (if o.sizeFirst = true then o.sizePieces ++ o.between.map Other.piece ++ o.keyPieces
      else o.keyPieces ++ o.between.map Other.piece ++ o.sizePieces) ++
    o.after.map Other.piece

def pieces : List Piece := .tag false (lit "Contents") (o.attrs ++ [62]) :: (o.body ++ [ends "Contents"])

def sizeStored : Lib.Num := .finite (number 10 o.digits)

/-- Its size is one that no double is. -/
def Rounded : Prop := size o.digits ≠ o.sizeStored

theorem not_rounded (h : number 10 o.digits ≤ 2 ^ 53) : ¬ o.Rounded :=
  not_not_intro (nearest_intCast (z := number 10 o.digits) h)

end Object

inductive Node
  | other (x : Other)
  | object (o : Object)
  | isTruncated (flag : Bool) (padding : Units × Units)
      (blank : ∀ c ∈ padding.1 ++ padding.2, space c = true)
  | nextToken (token : List Written)

def flagText (flag : Bool) (padding : Units × Units) : Units :=
  padding.1 ++ (if flag = true then lit "true" else lit "false") ++ padding.2

def Node.pieces : Node → List Piece
  | .other x => [x.piece]
  | .object o => o.pieces
  | .isTruncated flag padding _ =>
    elementOf "IsTruncated" (flagText flag padding)
  | .nextToken token => elementOf "NextContinuationToken" (text token)

abbrev Document := List Node

def render (ps : List Piece) : Units := ps.flatMap Piece.text

namespace Document

variable (d : Document)

def xml : Units := render (d.flatMap Node.pieces)

def objects : List Object := d.filterMap fun n => match n with
  | .object o => some o
  | _ => none

def truncated : Bool := d.any fun n => match n with
  | .isTruncated flag _ _ => flag
  | _ => false

def token : Option (List Written) := d.findSome? fun n => match n with
  | .nextToken token => some token
  | _ => none

def meant : Parsed where
  keys := d.objects.map fun o => written o.key
  sizes := d.objects.map fun o => some o.sizeStored
  truncated := d.truncated
  nextToken := d.token.map written

end Document

theorem literal_append (x y : Units) : literal x (x ++ y) = some y := by
  rw [literal, if_pos (List.isPrefixOf_iff_prefix.mpr (prefix_append x y)), drop_left]

theorem literal_some {x s r : Units} (h : literal x s = some r) : s = x ++ r := by
  rw [literal] at h
  split_ifs at h with hprefix
  obtain ⟨y, rfl⟩ := List.isPrefixOf_iff_prefix.mp hprefix
  rw [drop_left, some_inj] at h
  rw [h]

/-- Every match of `m` begins with a tag, closing or not and of a name, of which `p` holds. -/
def AtTag {α : Type*} (p : Bool → Units → Prop) (m : Units → Option α) : Prop :=
  ∀ s, m s ≠ none → ∃ closing name d z, name ≠ [] ∧ (∀ c ∈ name, word c = true) ∧ word d = false ∧
    p closing name ∧ s = tagStart closing name ++ d :: z

def Piece.Avoids (p : Bool → Units → Prop) : Piece → Prop
  | characters _ => True
  | tag closing name _ => ¬ p closing name

theorem takeWhile_name {name : Units} (hname : ∀ c ∈ name, word c = true) {d : ℕ}
    (hd : word d = false) (z : Units) : (name ++ d :: z).takeWhile word = name := by
  rw [takeWhile_append_of_pos hname, takeWhile_cons_of_neg (by simp [hd]), append_nil]

/-- The start of a tag tells what tag it is. -/
theorem tagStart_inj {closing closing' : Bool} {name name' z z' : Units} {d d' : ℕ}
    (hname : ∀ c ∈ name, word c = true) (hd : word d = false)
    (hslash : closing = false → name = [] → d ≠ 47)
    (hne : name' ≠ []) (hname' : ∀ c ∈ name', word c = true) (hd' : word d' = false)
    (h : tagStart closing name ++ d :: z = tagStart closing' name' ++ d' :: z') :
    closing = closing' ∧ name = name' := by
  have hsame : closing = closing' → name = name' := by
    rintro rfl
    have htail : name ++ d :: z = name' ++ d' :: z' := by
      simpa [tagStart, append_assoc] using h
    rw [← takeWhile_name hname hd z, htail, takeWhile_name hname' hd']
  cases closing <;> cases closing'
  · exact ⟨rfl, hsame rfl⟩
  · -- a tag that does not close would have to go on with a slash
    have htail : name ++ d :: z = 47 :: (name' ++ d' :: z') := by simpa [tagStart] using h
    cases name with
    | nil => exact absurd (List.cons.inj htail).1 (hslash rfl rfl)
    | cons c name =>
      have hc := hname c mem_cons_self
      rw [(List.cons.inj htail).1] at hc
      cases hc
  · obtain ⟨c, t, rfl⟩ := exists_cons_of_ne_nil hne
    have hc := hname' c mem_cons_self
    have htail : 47 :: (name ++ d :: z) = c :: (t ++ d' :: z') := by simpa [tagStart] using h
    rw [← (List.cons.inj htail).1] at hc
    cases hc
  · exact ⟨rfl, hsame rfl⟩

section

variable {α : Type*} {p : Bool → Units → Prop}

theorem AtTag.marked {m : Units → Option α} (hm : AtTag p m) : Marked 60 m := by
  intro c s hc
  by_contra h
  obtain ⟨closing, name, d, z, -, -, -, -, hs⟩ := hm _ h
  exact hc (List.cons.inj hs).1

theorem AtTag.miss {m : Units → Option α} (hm : AtTag p m) {closing : Bool} {name tail : Units}
    (hlexed : (Piece.tag closing name tail).Lexed) (hp : ¬ p closing name) (y : Units) :
    m ((Piece.tag closing name tail).text ++ y) = none := by
  by_contra h
  obtain ⟨hname, -, d, z, rfl, hd, hslash⟩ := hlexed
  obtain ⟨closing', name', d', z', hne, hname', hd', hp', hs⟩ := hm _ h
  have heq : tagStart closing name ++ d :: (z ++ y) = tagStart closing' name' ++ d' :: z' := by
    rw [← hs, Piece.text, append_assoc]
    rfl
  obtain ⟨rfl, rfl⟩ := tagStart_inj hname hd hslash hne hname' hd' heq
  exact hp hp'

theorem tail_clear {closing : Bool} {name tail : Units}
    (hlexed : (Piece.tag closing name tail).Lexed) :
    60 ∉ (if closing = true then [47] else []) ++ name ++ tail := by
  obtain ⟨hname, htail, -⟩ := hlexed
  have hclear : 60 ∉ name := fun h => absurd (hname 60 h) (by decide)
  cases closing <;> simp [hclear, htail]

/-- Pieces of which `p` does not hold are before the first match. -/
theorem locate_render {m : Units → Option α} (hm : AtTag p m) {ps : List Piece}
    (hps : ∀ x ∈ ps, x.Lexed ∧ x.Avoids p) (y : Units) :
    locate m (render ps ++ y) = (locate m y).map fun found => (render ps ++ found.1, found.2) := by
  induction ps with
  | nil => simp [render]
  | cons x ps ih =>
    have hrest := ih fun z hz => hps z (mem_cons_of_mem x hz)
    obtain ⟨hlexed, havoids⟩ := hps x mem_cons_self
    have hhead : locate m (x.text ++ (render ps ++ y)) =
        (locate m (render ps ++ y)).map fun found => (x.text ++ found.1, found.2) := by
      cases x with
      | characters t => exact locate_unmarked hm.marked hlexed _
      | tag closing name tail =>
        have hmiss := hm.miss hlexed havoids (render ps ++ y)
        exact locate_kept hm.marked (tail_clear hlexed) hmiss
    rw [render, flatMap_cons, append_assoc]
    refine hhead.trans ?_
    rw [hrest, Option.map_map]
    refine congrFun (congrArg _ (funext fun found => ?_)) _
    simp [render]

theorem exec_render {m : Units → Option α} (hm : AtTag p m) {ps : List Piece}
    (hps : ∀ x ∈ ps, x.Lexed ∧ x.Avoids p) (y : Units) :
    exec m (render ps ++ y) = exec m y := by
  rw [exec, locate_render hm hps, Option.map_map]
  rfl

theorem locateAll_render {m : Units → Option (α × ℕ)} (hm : AtTag p m) {ps : List Piece}
    (hps : ∀ x ∈ ps, x.Lexed ∧ x.Avoids p) (y : Units) :
    locateAll m 0 (render ps ++ y) = locateAll m 0 y := by
  induction ps with
  | nil => rfl
  | cons x ps ih =>
    have hrest := ih fun z hz => hps z (mem_cons_of_mem x hz)
    obtain ⟨hlexed, havoids⟩ := hps x mem_cons_self
    rw [render, flatMap_cons, append_assoc]
    refine Eq.trans ?_ hrest
    cases x with
    | characters t => exact locateAll_unmarked hm.marked hlexed _
    | tag closing name tail =>
      have hmiss := hm.miss hlexed havoids (render ps ++ y)
      exact locateAll_kept hm.marked (tail_clear hlexed) hmiss

end

def IsTag (closing : Bool) (name : String) (c : Bool) (n : Units) : Prop := c = closing ∧ n = lit name

structure ReadName (name : String) : Prop where
  nonempty : lit name ≠ []
  words : ∀ c ∈ lit name, word c = true
  isRead : (lit name).map lowerCase ∈ Piece.namesRead

theorem readName_contents : ReadName "Contents" := ⟨by decide, by decide, by decide⟩

theorem readName_key : ReadName "Key" := ⟨by decide, by decide, by decide⟩

theorem readName_size : ReadName "Size" := ⟨by decide, by decide, by decide⟩

theorem readName_truncated : ReadName "IsTruncated" := ⟨by decide, by decide, by decide⟩

theorem readName_token : ReadName "NextContinuationToken" := ⟨by decide, by decide, by decide⟩

theorem lit_lt : lit "<" = [60] := by decide

theorem lit_gt : lit ">" = [62] := by decide

theorem lit_slash : lit "</" = [60, 47] := by decide

theorem AtTag.weaken {α β : Type*} {p : Bool → Units → Prop} {m : Units → Option α}
    {m' : Units → Option β} (hm : AtTag p m) (h : ∀ s, m s = none → m' s = none) : AtTag p m' :=
  fun s hs => hm s fun hnone => hs (h s hnone)

theorem atTag_start {name : String} (h : ReadName name) :
    AtTag (IsTag false name) (literal (lit "<" ++ lit name ++ lit ">")) := by
  intro s hs
  obtain ⟨r, hr⟩ := ne_none_iff_exists'.mp hs
  refine ⟨false, lit name, 62, r, h.nonempty, h.words, by decide, ⟨rfl, rfl⟩, ?_⟩
  rw [literal_some hr, lit_lt, lit_gt, tagStart]
  simp

theorem atTag_end {name : String} (h : ReadName name) :
    AtTag (IsTag true name) (literal (lit "</" ++ lit name ++ lit ">")) := by
  intro s hs
  obtain ⟨r, hr⟩ := ne_none_iff_exists'.mp hs
  refine ⟨true, lit name, 62, r, h.nonempty, h.words, by decide, ⟨rfl, rfl⟩, ?_⟩
  rw [literal_some hr, lit_slash, lit_gt, tagStart]
  simp

theorem atTag_element {name : String} (h : ReadName name) :
    AtTag (IsTag false name) (element name) :=
  (atTag_start h).weaken fun s hs => by rw [element, hs]; rfl

theorem lit_size : lit "<Size>" = lit "<" ++ lit "Size" ++ lit ">" := by decide

theorem atTag_size : AtTag (IsTag false "Size") sizeElement :=
  (atTag_start readName_size).weaken fun s hs => by rw [sizeElement, lit_size, hs]; rfl

theorem atTag_contents : AtTag (IsTag false "Contents") contents := by
  intro s hs
  have hopen : lit "<Contents" = tagStart false (lit "Contents") := by decide
  rw [contents] at hs
  cases hrest : literal (lit "<Contents") s with
  | none =>
    rw [hrest] at hs
    exact absurd rfl hs
  | some rest =>
    rw [hrest, bind_eq_bind, bind_some] at hs
    have hsplit := split_takeWhile (· ≠ 62) rest
    have hs' : s = tagStart false (lit "Contents") ++ rest := hopen ▸ literal_some hrest
    simp only at hs
    split_ifs at hs with hword
    · exact absurd rfl hs
    · cases hafter : literal (lit ">") (rest.drop (rest.takeWhile (· ≠ 62)).length) with
      | none =>
        rw [hafter] at hs
        exact absurd rfl hs
      | some after =>
        rw [literal_some hafter, lit_gt] at hsplit
        -- the unit behind the name is that of the attributes, or the end of the tag
        cases hattrs : rest.takeWhile (· ≠ 62) with
        | nil =>
          rw [hattrs] at hsplit
          exact ⟨false, lit "Contents", 62, after, readName_contents.nonempty,
            readName_contents.words, by decide, ⟨rfl, rfl⟩, hs' ▸ hsplit ▸ rfl⟩
        | cons d attrs =>
          rw [hattrs] at hsplit hword
          exact ⟨false, lit "Contents", d, attrs ++ ([62] ++ after), readName_contents.nonempty,
            readName_contents.words, by simpa using hword, ⟨rfl, rfl⟩, hs' ▸ hsplit ▸ rfl⟩

def IsTruncatedTag (c : Bool) (n : Units) : Prop := c = false ∧ n.map lowerCase = lit "istruncated"

theorem lowerCase_word {c d : ℕ} (h : lowerCase c = d) (hd : 97 ≤ d ∧ d ≤ 122) : word c = true := by
  rw [lowerCase] at h
  simp only [word, Bool.or_eq_true, Bool.and_eq_true, decide_eq_true_eq]
  split_ifs at h <;> omega

theorem lowerCase_fixed {c d : ℕ} (h : lowerCase c = d) (hd : d < 97) : c = d := by
  rw [lowerCase] at h
  split_ifs at h <;> omega

theorem atTag_truncated : AtTag IsTruncatedTag truncatedElement := by
  have hlower : (lit "<IsTruncated>").map lowerCase = [60] ++ lit "istruncated" ++ [62] := by decide
  have hletters : ∀ c ∈ lit "istruncated", 97 ≤ c ∧ c ≤ 122 := by decide
  intro s hs
  by_cases hopen : ((lit "<IsTruncated>").map lowerCase).isPrefixOf (s.map lowerCase) = true
  · obtain ⟨z, hz⟩ := List.isPrefixOf_iff_prefix.mp hopen
    rw [hlower, append_assoc, append_assoc, singleton_append,
      singleton_append] at hz
    obtain ⟨c, s', rfl, hc, hs'⟩ := map_eq_cons_iff.mp hz.symm
    obtain ⟨name, t, rfl, hname, ht⟩ := map_eq_append_iff.mp hs'
    obtain ⟨d, r, rfl, hd, -⟩ := map_eq_cons_iff.mp ht
    obtain rfl := lowerCase_fixed hc (by decide)
    obtain rfl := lowerCase_fixed hd (by decide)
    refine ⟨false, name, 62, r, ?_, fun c hc => ?_, by decide, ⟨rfl, hname⟩, by simp [tagStart]⟩
    · rintro rfl
      exact absurd hname.symm (by decide)
    · exact lowerCase_word rfl (hletters _ (hname ▸ List.mem_map_of_mem hc))
  · rw [truncatedElement, literalAnyCase, if_neg hopen] at hs
    exact absurd rfl hs

def Clear (p : Bool → Units → Prop) (ps : List Piece) : Prop := ∀ x ∈ ps, x.Lexed ∧ x.Avoids p

theorem render_append (ps qs : List Piece) : render (ps ++ qs) = render ps ++ render qs :=
  flatMap_append

section

variable {p : Bool → Units → Prop} {name : String}

theorem Clear.append {ps qs : List Piece} (hps : Clear p ps) (hqs : Clear p qs) :
    Clear p (ps ++ qs) := fun x hx => (mem_append.mp hx).elim (hps x) (hqs x)

theorem clear_others (hp : ∀ c n, p c n → n.map lowerCase ∈ Piece.namesRead) (xs : List Other) :
    Clear p (xs.map Other.piece) := by
  intro x hx
  obtain ⟨o, -, rfl⟩ := List.mem_map.mp hx
  refine ⟨o.lexed, ?_⟩
  have hforeign := o.isForeign
  cases hpiece : o.piece with
  | characters t => trivial
  | tag closing name tail =>
    rw [hpiece] at hforeign
    exact fun h => hforeign (hp _ _ h)

theorem tag_lexed (h : ReadName name) (closing : Bool) :
    (Piece.tag closing (lit name) (lit ">")).Lexed := by
  refine ⟨h.words, by decide, 62, [], lit_gt, by decide, fun _ hnil => absurd hnil h.nonempty⟩

theorem clear_elementOf (h : ReadName name) {x : Units} (hx : 60 ∉ x) (hp : ∀ c, ¬ p c (lit name)) :
    Clear p (elementOf name x) := by
  intro y hy
  simp only [elementOf, mem_cons, not_mem_nil, or_false] at hy
  rcases hy with rfl | rfl | rfl
  · exact ⟨tag_lexed h false, hp false⟩
  · exact ⟨hx, trivial⟩
  · exact ⟨tag_lexed h true, hp true⟩

theorem isTag_read (h : ReadName name) (closing : Bool) (c : Bool) (n : Units)
    (hn : IsTag closing name c n) : n.map lowerCase ∈ Piece.namesRead := hn.2 ▸ h.isRead

theorem isTruncatedTag_read (c : Bool) (n : Units) (hn : IsTruncatedTag c n) :
    n.map lowerCase ∈ Piece.namesRead := by
  rw [hn.2]
  decide

theorem text_unopened (ws : List Written) : 60 ∉ text ws := by
  intro h
  obtain ⟨w, -, hw⟩ := mem_flatMap.mp h
  have hwrites := w.writes
  rw [Written.text] at hw
  cases hform : w.form with
  | literal =>
    rw [hform] at hw hwrites
    exact hwrites.1 (Char.toNat_inj.mp (units_of_ascii (by decide) hw).2)
  | named name =>
    have hnames : ∀ e ∈ entities, 60 ∉ e.1 := by decide
    rw [hform] at hw hwrites
    exact absurd hw (by simp [hnames _ hwrites])
  | decimal ds =>
    rw [hform] at hw hwrites
    have hds : 60 ∉ ds := fun hd => absurd (hwrites.2.1 60 hd) (by decide)
    exact absurd hw (by simp [reference, lit_decimal, hds])
  | hexadecimal hs =>
    rw [hform] at hw hwrites
    have hhs : 60 ∉ hs := fun hd => absurd (hwrites.2.1 60 hd) (by decide)
    exact absurd hw (by simp [reference, lit_hexadecimal, hhs])

end

theorem exec_found {α : Type*} {m : Units → Option α} {s : Units} {found : α} (hs : s ≠ [])
    (h : m s = some found) : exec m s = some found := by
  obtain ⟨c, t, rfl⟩ := exists_cons_of_ne_nil hs
  rw [exec, locate_match h]
  rfl

theorem render_elementOf (name : String) (x : Units) :
    render (elementOf name x) =
      lit "<" ++ lit name ++ lit ">" ++ (x ++ (lit "</" ++ lit name ++ lit ">")) := by
  simp only [render, elementOf, starts, ends, flatMap_cons, flatMap_nil, Piece.text,
    tagStart, lit_lt, lit_slash, append_nil]
  simp

theorem upTo_render {name : String} (h : ReadName name) {ps : List Piece}
    (hps : Clear (IsTag true name) ps) (y : Units) :
    upTo (lit "</" ++ lit name ++ lit ">") (render ps ++ (lit "</" ++ lit name ++ lit ">" ++ y)) =
      some (render ps) := by
  have hclose := literal_append (lit "</" ++ lit name ++ lit ">") y
  obtain ⟨c, t, ht⟩ : ∃ c t, lit "</" ++ lit name ++ lit ">" ++ y = c :: t := by
    rw [lit_slash]
    exact ⟨_, _, rfl⟩
  rw [upTo, locate_render (atTag_end h) hps, ht, locate_match (ht ▸ hclose)]
  simp

theorem element_render {name : String} (h : ReadName name) {x : Units} (hx : 60 ∉ x) (y : Units) :
    element name (render (elementOf name x) ++ y) = some x := by
  have hps : Clear (IsTag true name) [.characters x] := by
    intro z hz
    rw [mem_singleton.mp hz]
    exact ⟨hx, trivial⟩
  have hfound := upTo_render h hps y
  have hx' : render [.characters x] = x := append_nil x
  rw [hx'] at hfound
  rw [render_elementOf, append_assoc, element, literal_append, bind_eq_bind,
    bind_some, append_assoc x, hfound]

theorem dropWhile_blank {pad rest : Units} (hpad : ∀ c ∈ pad, space c = true) {d : ℕ}
    (hd : space d = false) : (pad ++ d :: rest).dropWhile space = d :: rest := by
  rw [dropWhile_append_of_pos hpad, dropWhile_cons_of_neg (by simp [hd])]

theorem digit_space {c : ℕ} (h : digit c = true) : space c = false := by
  rw [digit, Bool.and_eq_true, decide_eq_true_eq, decide_eq_true_eq] at h
  by_contra hspace
  simp only [space, Bool.not_eq_false, Bool.or_eq_true, Bool.and_eq_true, decide_eq_true_eq] at hspace
  omega

theorem takeWhile_digit {ds rest : Units} (hds : ∀ d ∈ ds, digit d = true)
    (hrest : rest.head?.all (fun c => !digit c) = true) : (ds ++ rest).takeWhile digit = ds := by
  rw [takeWhile_append_of_pos hds]
  cases rest with
  | nil => exact append_nil ds
  | cons c rest => rw [takeWhile_cons_of_neg (by simpa using hrest), append_nil]

theorem sizeElement_render (o : Object) (y : Units) :
    sizeElement (render o.sizePieces ++ y) = some o.digits := by
  obtain ⟨hne, hds⟩ := o.digitsRead
  have hpad1 : ∀ c ∈ o.padding.1, space c = true := fun c hc =>
    o.blank c (mem_append_left _ hc)
  have hpad2 : ∀ c ∈ o.padding.2, space c = true := fun c hc =>
    o.blank c (mem_append_right _ hc)
  have hclose : lit "</" ++ lit "Size" ++ lit ">" = lit "</Size>" := by decide
  have hclose' : lit "</Size>" = 60 :: [47, 83, 105, 122, 101, 62] := by decide
  have hend : (o.padding.2 ++ (lit "</Size>" ++ y)).head?.all (fun c => !digit c) = true := by
    cases hpad : o.padding.2 with
    | nil =>
      rw [hclose']
      rfl
    | cons c t =>
      have hspace := hpad2 c (hpad ▸ mem_cons_self)
      simp only [cons_append, head?_cons, all_some, Bool.not_eq_true']
      by_contra hdigit
      rw [digit_space (eq_true_of_ne_false hdigit)] at hspace
      cases hspace
  have hrest : render o.sizePieces ++ y =
      lit "<Size>" ++ (o.padding.1 ++ (o.digits ++ (o.padding.2 ++ (lit "</Size>" ++ y)))) := by
    rw [Object.sizePieces, render_elementOf, ← lit_size, hclose]
    simp only [append_assoc]
  have hdrop : (o.padding.1 ++ (o.digits ++ (o.padding.2 ++ (lit "</Size>" ++ y)))).dropWhile space =
      o.digits ++ (o.padding.2 ++ (lit "</Size>" ++ y)) := by
    obtain ⟨d, t, ht⟩ := exists_cons_of_ne_nil hne
    have hd := digit_space (hds d (ht ▸ mem_cons_self))
    rw [ht, cons_append]
    exact dropWhile_blank hpad1 hd
  have hdrop2 : (o.padding.2 ++ (lit "</Size>" ++ y)).dropWhile space = lit "</Size>" ++ y := by
    rw [hclose', cons_append]
    exact dropWhile_blank hpad2 (by decide)
  rw [hrest, sizeElement, literal_append, bind_eq_bind, bind_some]
  simp only [hdrop, takeWhile_digit hds hend, drop_left, hdrop2, literal_append,
    bind_some]
  rw [if_neg hne]

theorem literalAnyCase_append (x y : Units) : literalAnyCase x (x ++ y) = some y := by
  rw [literalAnyCase, if_pos, drop_left]
  rw [map_append]
  exact List.isPrefixOf_iff_prefix.mpr (prefix_append _ _)

theorem truncatedElement_render (flag : Bool) {padding : Units × Units}
    (hblank : ∀ c ∈ padding.1 ++ padding.2, space c = true) (y : Units) :
    truncatedElement (render (elementOf "IsTruncated" (flagText flag padding)) ++ y) =
      if flag = true then some () else none := by
  have hopen : lit "<" ++ lit "IsTruncated" ++ lit ">" = lit "<IsTruncated>" := by decide
  have hclose : lit "</" ++ lit "IsTruncated" ++ lit ">" = lit "</IsTruncated>" := by decide
  have htrue : lit "true" = [116, 114, 117, 101] := by decide
  have hfalse : lit "false" = [102, 97, 108, 115, 101] := by decide
  have hpad1 : ∀ c ∈ padding.1, space c = true := fun c hc => hblank c (mem_append_left _ hc)
  have hpad2 : ∀ c ∈ padding.2, space c = true := fun c hc => hblank c (mem_append_right _ hc)
  rw [render_elementOf, hopen, hclose, append_assoc, truncatedElement, literalAnyCase_append,
    bind_eq_bind, bind_some, flagText]
  cases flag with
  | true =>
    have hdrop : (padding.1 ++ (lit "true" ++ (padding.2 ++ (lit "</IsTruncated>" ++ y)))).dropWhile
        space = lit "true" ++ (padding.2 ++ (lit "</IsTruncated>" ++ y)) := by
      rw [htrue, cons_append]
      exact dropWhile_blank hpad1 (by decide)
    have hdrop2 : (padding.2 ++ (lit "</IsTruncated>" ++ y)).dropWhile space =
        lit "</IsTruncated>" ++ y := by
      obtain ⟨t, ht⟩ : ∃ t, lit "</IsTruncated>" = 60 :: t := by
        rw [← hclose, lit_slash]
        exact ⟨_, rfl⟩
      rw [ht, cons_append]
      exact dropWhile_blank hpad2 (by decide)
    simp only [if_true, append_assoc, hdrop, literalAnyCase_append, bind_some,
      hdrop2]
  | false =>
    have hdrop : (padding.1 ++ (lit "false" ++ (padding.2 ++ (lit "</IsTruncated>" ++ y)))).dropWhile
        space = lit "false" ++ (padding.2 ++ (lit "</IsTruncated>" ++ y)) := by
      rw [hfalse, cons_append]
      exact dropWhile_blank hpad1 (by decide)
    have hnone (z : Units) : literalAnyCase (lit "true") (lit "false" ++ z) = none := by
      rw [literalAnyCase, htrue, hfalse, if_neg]
      simp [lowerCase]
    simp only [Bool.false_eq_true, if_false, append_assoc, hdrop, hnone, bind_none]

theorem not_isTag {closing : Bool} {name name' : String} (h : lit name' ≠ lit name) (c : Bool) :
    ¬ IsTag closing name c (lit name') := fun hn => h hn.2

theorem digits_unopened {ds : Units} (hds : ∀ d ∈ ds, digit d = true) : 60 ∉ ds :=
  fun h => absurd (hds 60 h) (by decide)

theorem blank_unopened {pad : Units} (hpad : ∀ c ∈ pad, space c = true) : 60 ∉ pad :=
  fun h => absurd (hpad 60 h) (by decide)

theorem flagText_unopened (flag : Bool) {padding : Units × Units}
    (hblank : ∀ c ∈ padding.1 ++ padding.2, space c = true) : 60 ∉ flagText flag padding := by
  have hpad := blank_unopened hblank
  have htexts : 60 ∉ lit "true" ∧ 60 ∉ lit "false" := by decide
  rw [mem_append, not_or] at hpad
  rw [flagText]
  cases flag <;> simp [hpad.1, hpad.2, htexts.1, htexts.2]

namespace Object

variable (o : Object) {p : Bool → Units → Prop}

theorem clear_key (hp : ∀ c, ¬ p c (lit "Key")) : Clear p o.keyPieces :=
  clear_elementOf readName_key (text_unopened o.key) hp

theorem clear_size (hp : ∀ c, ¬ p c (lit "Size")) : Clear p o.sizePieces := by
  have hpad := blank_unopened o.blank
  have hdigits := digits_unopened o.digitsRead.2
  rw [mem_append, not_or] at hpad
  exact clear_elementOf readName_size (by simp [hpad.1, hpad.2, hdigits]) hp

theorem clear_body (hp : ∀ c n, p c n → n.map lowerCase ∈ Piece.namesRead)
    (hkey : ∀ c, ¬ p c (lit "Key")) (hsize : ∀ c, ¬ p c (lit "Size")) : Clear p o.body := by
  have hkeys := o.clear_key hkey
  have hsizes := o.clear_size hsize
  have hothers := clear_others hp
  rw [body]
  refine ((hothers o.before).append ?_).append (hothers o.after)
  split_ifs
  · exact (hsizes.append (hothers o.between)).append hkeys
  · exact (hkeys.append (hothers o.between)).append hsizes

theorem clear_pieces (hp : ∀ c n, p c n → n.map lowerCase ∈ Piece.namesRead)
    (hkey : ∀ c, ¬ p c (lit "Key")) (hsize : ∀ c, ¬ p c (lit "Size"))
    (hcontents : ∀ c, ¬ p c (lit "Contents")) : Clear p o.pieces := by
  obtain ⟨hopen, -, hhead⟩ := o.attrsLexed
  intro x hx
  rcases mem_cons.mp hx with rfl | hx
  · refine ⟨⟨readName_contents.words, by simp [hopen], ?_⟩, hcontents false⟩
    cases hattrs : o.attrs with
    | nil => exact ⟨62, [], rfl, by decide, fun _ h => absurd h readName_contents.nonempty⟩
    | cons d attrs =>
      rw [hattrs] at hhead
      exact ⟨d, attrs ++ [62], rfl, by simpa using hhead,
        fun _ h => absurd h readName_contents.nonempty⟩
  · rcases mem_append.mp hx with hx | hx
    · exact o.clear_body hp hkey hsize x hx
    · rw [mem_singleton.mp hx]
      exact ⟨tag_lexed readName_contents true, hcontents true⟩

/-- One of the two elements of the object is found where the other one holds no such tag. -/
theorem exec_body {α : Type*} {m : Units → Option α} (hm : AtTag p m)
    (hp : ∀ c n, p c n → n.map lowerCase ∈ Piece.namesRead) {target other : List Piece}
    (hother : Clear p other)
    (hbody : o.body = o.before.map Other.piece ++ (target ++ o.between.map Other.piece ++ other) ++
        o.after.map Other.piece ∨
      o.body = o.before.map Other.piece ++ (other ++ o.between.map Other.piece ++ target) ++
        o.after.map Other.piece)
    {found : α} (hne : ∀ y, render target ++ y ≠ [])
    (hfound : ∀ y, m (render target ++ y) = some found) : exec m (render o.body) = some found := by
  have hothers := clear_others hp
  have hread (front back : List Piece) (hfront : Clear p front) :
      exec m (render (front ++ (target ++ back))) = some found := by
    rw [render_append, render_append, exec_render hm hfront]
    exact exec_found (hne _) (hfound _)
  rcases hbody with hbody | hbody
  · rw [hbody, append_assoc, append_assoc, append_assoc]
    exact hread _ _ (hothers _)
  · rw [hbody, ← append_assoc, append_assoc]
    exact hread _ _ ((hothers _).append (hother.append (hothers _)))

theorem elementOf_ne_nil (name : String) (x y : Units) : render (elementOf name x) ++ y ≠ [] := by
  rw [render_elementOf, lit_lt]
  exact cons_ne_nil _ _

theorem exec_key : exec (element "Key") (render o.body) = some (text o.key) := by
  have hsizes : Clear (IsTag false "Key") o.sizePieces := o.clear_size (not_isTag (by decide))
  refine o.exec_body (atTag_element readName_key) (isTag_read readName_key false) hsizes ?_
    (elementOf_ne_nil _ _) (element_render readName_key (text_unopened o.key))
  rw [body]
  split_ifs
  · exact .inr rfl
  · exact .inl rfl

theorem exec_size : exec sizeElement (render o.body) = some o.digits := by
  have hkeys : Clear (IsTag false "Size") o.keyPieces := o.clear_key (not_isTag (by decide))
  refine o.exec_body atTag_size (isTag_read readName_size false) hkeys ?_ (elementOf_ne_nil _ _)
    (sizeElement_render o)
  rw [body]
  split_ifs
  · exact .inl rfl
  · exact .inr rfl

theorem contents_render (y : Units) :
    contents (render o.pieces ++ y) = some (render o.body, (render o.pieces).length) := by
  have hopen : tagStart false (lit "Contents") = lit "<Contents" := by decide
  have hclose : lit "</" ++ lit "Contents" ++ lit ">" = lit "</Contents>" := by decide
  have hlen : (lit "<Contents").length = 9 ∧ (lit "</Contents>").length = 11 := by decide
  obtain ⟨-, hattrs, hhead⟩ := o.attrsLexed
  have hpieces : render o.pieces =
      lit "<Contents" ++ (o.attrs ++ (lit ">" ++ (render o.body ++ lit "</Contents>"))) := by
    rw [pieces, render, flatMap_cons, Piece.text, hopen, ← hclose, lit_gt]
    simp [render, ends, Piece.text, tagStart, lit_slash, lit_gt]
  have htake : (o.attrs ++ (lit ">" ++ (render o.body ++ (lit "</Contents>" ++ y)))).takeWhile
      (· ≠ 62) = o.attrs := by
    rw [takeWhile_append_of_pos, lit_gt, singleton_append, takeWhile_cons_of_neg (by simp),
      append_nil]
    intro c hc
    exact decide_eq_true fun h => hattrs (h ▸ hc)
  have hbody : upTo (lit "</Contents>") (render o.body ++ (lit "</Contents>" ++ y)) =
      some (render o.body) := by
    have hclear : Clear (IsTag true "Contents") o.body :=
      o.clear_body (isTag_read readName_contents true) (not_isTag (by decide)) (not_isTag (by decide))
    exact hclose ▸ upTo_render readName_contents hclear y
  rw [hpieces, contents]
  simp only [append_assoc, literal_append, bind_eq_bind, bind_some, htake, hhead,
    Bool.false_eq_true, if_false, drop_left, hbody]
  refine congrArg some (Prod.ext rfl ?_)
  simp only [length_append, hlen.1, hlen.2, lit_gt, length_singleton]
  omega

end Object

namespace Document

theorem xml_cons (n : Node) (d : Document) :
    xml (n :: d) = render n.pieces ++ xml d := by
  rw [xml, flatMap_cons, render_append]
  rfl

/-- The parts other than objects hold no `Contents`. -/
theorem clear_node {p : Bool → Units → Prop}
    (hp : ∀ c n, p c n → n.map lowerCase ∈ Piece.namesRead) {n : Node}
    (hobject : ∀ o, n = .object o → Clear p o.pieces)
    (hflag : ∀ flag padding blank, n = .isTruncated flag padding blank → ∀ c, ¬ p c (lit "IsTruncated"))
    (htoken : ∀ ws, n = .nextToken ws → ∀ c, ¬ p c (lit "NextContinuationToken")) :
    Clear p n.pieces := by
  cases n with
  | other x => exact clear_others hp [x]
  | object o => exact hobject o rfl
  | isTruncated flag padding blank =>
    exact clear_elementOf readName_truncated (flagText_unopened flag blank) (hflag _ _ blank rfl)
  | nextToken ws => exact clear_elementOf readName_token (text_unopened ws) (htoken ws rfl)

theorem locateAll_contents (d : Document) :
    locateAll contents 0 d.xml = d.objects.map fun o => render o.body := by
  induction d with
  | nil => rfl
  | cons n d ih =>
    rw [xml_cons]
    by_cases hobject : ∃ o, n = .object o
    · obtain ⟨o, rfl⟩ := hobject
      have hmatch := o.contents_render (xml d)
      obtain ⟨t, ht⟩ : ∃ t, render o.pieces = 60 :: t := ⟨_, rfl⟩
      rw [ht] at hmatch
      rw [Node.pieces, ht, locateAll_match hmatch, ih]
      rfl
    · have hclear : Clear (IsTag false "Contents") n.pieces :=
        clear_node (isTag_read readName_contents false) (fun o h => absurd ⟨o, h⟩ hobject)
          (fun _ _ _ _ => not_isTag (by decide)) fun _ _ => not_isTag (by decide)
      rw [locateAll_render atTag_contents hclear, ih]
      cases n with
      | object o => exact absurd ⟨o, rfl⟩ hobject
      | other | isTruncated | nextToken => rfl

theorem exec_token (d : Document) :
    exec (element "NextContinuationToken") d.xml = d.token.map text := by
  induction d with
  | nil => rfl
  | cons n d ih =>
    rw [xml_cons]
    by_cases htoken : ∃ ws, n = .nextToken ws
    · obtain ⟨ws, rfl⟩ := htoken
      exact exec_found (Object.elementOf_ne_nil _ _ _)
        (element_render readName_token (text_unopened ws) (xml d))
    · have hread := isTag_read readName_token false
      have hclear : Clear (IsTag false "NextContinuationToken") n.pieces :=
        clear_node hread
          (fun o _ => o.clear_pieces hread (not_isTag (by decide)) (not_isTag (by decide))
            (not_isTag (by decide)))
          (fun _ _ _ _ => not_isTag (by decide)) fun ws h => absurd ⟨ws, h⟩ htoken
      rw [exec_render (atTag_element readName_token) hclear, ih]
      cases n with
      | nextToken ws => exact absurd ⟨ws, rfl⟩ htoken
      | other | isTruncated | object => rfl

/-- A flag that is not set is passed over. -/
theorem exec_unset {padding : Units × Units} (hblank : ∀ c ∈ padding.1 ++ padding.2, space c = true)
    (y : Units) :
    exec truncatedElement (render (elementOf "IsTruncated" (flagText false padding)) ++ y) =
      exec truncatedElement y := by
  have hmiss := truncatedElement_render false hblank y
  have htail : Clear IsTruncatedTag [.characters (flagText false padding), ends "IsTruncated"] := by
    intro x hx
    simp only [mem_cons, not_mem_nil, or_false] at hx
    rcases hx with rfl | rfl
    · exact ⟨flagText_unopened false hblank, trivial⟩
    · exact ⟨tag_lexed readName_truncated true, fun h => Bool.noConfusion h.1⟩
  have hsplit : render (elementOf "IsTruncated" (flagText false padding)) ++ y =
      (starts "IsTruncated").text ++
        (render [.characters (flagText false padding), ends "IsTruncated"] ++ y) := by
    simp [render, elementOf]
  rw [hsplit] at hmiss ⊢
  have hkept := locate_kept atTag_truncated.marked
    (tail_clear (tag_lexed readName_truncated false)) hmiss
  rw [exec]
  refine (congrArg _ hkept).trans ?_
  rw [Option.map_map]
  exact exec_render atTag_truncated htail y

theorem exec_truncated (d : Document) : (exec truncatedElement d.xml).isSome = d.truncated := by
  induction d with
  | nil => rfl
  | cons n d ih =>
    rw [xml_cons]
    by_cases hflag : ∃ flag padding blank, n = .isTruncated flag padding blank
    · obtain ⟨flag, padding, blank, rfl⟩ := hflag
      cases flag with
      | true =>
        have hfound := truncatedElement_render true blank (xml d)
        rw [Node.pieces, exec_found (Object.elementOf_ne_nil _ _ _) hfound]
        rfl
      | false =>
        rw [Node.pieces, exec_unset blank, ih]
        rfl
    · have hname (name : String) (h : (lit name).map lowerCase ≠ lit "istruncated") (c : Bool) :
          ¬ IsTruncatedTag c (lit name) := fun hn => h hn.2
      have hclear : Clear IsTruncatedTag n.pieces :=
        clear_node isTruncatedTag_read
          (fun o _ => o.clear_pieces isTruncatedTag_read (hname _ (by decide)) (hname _ (by decide))
            (hname _ (by decide)))
          (fun flag padding blank h => absurd ⟨flag, padding, blank, h⟩ hflag)
          fun _ _ => hname _ (by decide)
      rw [exec_render atTag_truncated hclear, ih]
      cases n with
      | isTruncated flag padding blank => exact absurd ⟨flag, padding, blank, rfl⟩ hflag
      | other | nextToken | object => rfl

/-- What is read of a document: its objects, each by its key as it is decoded. -/
theorem parseListXml_xml (d : Document) :
    parseListXml d.xml =
      { keys := d.objects.map fun o => xmlDecode (text o.key)
        sizes := d.objects.map fun o => some (size o.digits)
        truncated := d.truncated
        nextToken := d.token.map fun ws => xmlDecode (text ws) } := by
  have hfound : (locateAll contents 0 d.xml).filterMap (fun body =>
      (exec (element "Key") body).map fun km =>
        (xmlDecode km, (exec sizeElement body).map size)) =
      d.objects.map fun o => (xmlDecode (text o.key), some (size o.digits)) := by
    rw [locateAll_contents, filterMap_map, ← filterMap_eq_map]
    refine filterMap_congr fun o _ => ?_
    simp only [Function.comp_apply, o.exec_key, o.exec_size, map_some]
  rw [parseListXml, hfound, exec_truncated, exec_token, Option.map_map]
  simp only [List.map_map, Function.comp_def]

/-- A key or the token holds a `&` that is read again, or a size is one that no double is. -/
def Misread (d : Document) : Prop :=
  (∃ o ∈ d.objects, BlobStore.Misread o.key ∨ o.Rounded) ∨ ∃ ws ∈ d.token, BlobStore.Misread ws

theorem parseListXml_exact (d : Document) : parseListXml d.xml = d.meant ↔ ¬ d.Misread := by
  rw [parseListXml_xml, meant, Parsed.mk.injEq]
  constructor
  · rintro ⟨hkeys, hsizes, -, htoken⟩ (⟨o, ho, hmisread | hrounded⟩ | ⟨ws, hws, hmisread⟩)
    · exact (xmlDecode_text o.key).mp (map_inj_left.mp hkeys o ho) hmisread
    · exact hrounded (some_inj.mp (map_inj_left.mp hsizes o ho))
    · rw [mem_def] at hws
      rw [hws, map_some, map_some, some_inj] at htoken
      exact (xmlDecode_text ws).mp htoken hmisread
  · intro h
    obtain ⟨hkeys, htoken⟩ := not_or.mp h
    refine ⟨map_inj_left.mpr fun o ho => ?_, map_inj_left.mpr fun o ho => ?_, rfl, ?_⟩
    · exact (xmlDecode_text o.key).mpr fun hmisread => hkeys ⟨o, ho, Or.inl hmisread⟩
    · exact congrArg some (not_not.mp fun hrounded => hkeys ⟨o, ho, Or.inr hrounded⟩)
    · cases hd : d.token with
      | none => rfl
      | some ws =>
        exact congrArg some ((xmlDecode_text ws).mpr fun hmisread => htoken ⟨ws, hd, hmisread⟩)

end Document

/-- What a request for a page carries: the token of the page before is left out of the first. -/
structure Query where
  keyPrefix : Units
  token : Option Units

structure Response where
  status : ℕ
  body : Units

structure Entry where
  key : Units
  size : Option Lib.Num
deriving DecidableEq

/-- The loop of `listSizes`, of at most `fuel` requests; a status other than 200 is thrown. -/
def listSizes (request : Query → Response) (keyPrefix : Units) :
    ℕ → Option Units → List Entry → Option (Except ℕ (List Entry))
  | 0, _, _ => none
  | fuel + 1, token, out =>
    let r := request ⟨keyPrefix, token⟩
    if r.status ≠ 200 then some (.error r.status)
    else
      let parsed := parseListXml r.body
      let out := out ++ List.zipWith Entry.mk parsed.keys parsed.sizes
      match if parsed.truncated = true then parsed.nextToken else none with
      | some (c :: t) => listSizes request keyPrefix fuel (some (c :: t)) out
      | _ => some (.ok out)

/-- A store lists `pages` from a token on: each says whether there is more and under which token. -/
inductive Serves (request : Query → Response) (keyPrefix : Units) :
    Option Units → List Document → Prop
  | last {token : Option Units} {d : Document} (hreply : request ⟨keyPrefix, token⟩ = ⟨200, d.xml⟩)
      (hflag : d.truncated = false) : Serves request keyPrefix token [d]
  | more {token : Option Units} {d : Document} {ws : List Written} {pages : List Document}
      (hreply : request ⟨keyPrefix, token⟩ = ⟨200, d.xml⟩) (hflag : d.truncated = true)
      (htoken : d.token = some ws) (hne : written ws ≠ [])
      (hrest : Serves request keyPrefix (some (written ws)) pages) :
      Serves request keyPrefix token (d :: pages)

def Document.entries (d : Document) : List Entry :=
  d.objects.map fun o => ⟨written o.key, some o.sizeStored⟩

/-- The entries of a page as they are read. -/
def Document.entriesRead (d : Document) : List Entry :=
  d.objects.map fun o => ⟨xmlDecode (text o.key), some (size o.digits)⟩

theorem Document.zipWith_parsed (d : Document) :
    List.zipWith Entry.mk (parseListXml d.xml).keys (parseListXml d.xml).sizes = d.entriesRead := by
  rw [parseListXml_xml, zipWith_map, zipWith_self]
  rfl

/-- Where the tokens are read well, each page is asked for once. -/
theorem listSizes_serves {request : Query → Response} {keyPrefix : Units} {token : Option Units}
    {pages : List Document} (hserves : Serves request keyPrefix token pages)
    (htokens : ∀ d ∈ pages, ∀ ws ∈ d.token, ¬ Misread ws) {fuel : ℕ} (hfuel : pages.length ≤ fuel)
    (out : List Entry) :
    listSizes request keyPrefix fuel token out =
      some (.ok (out ++ pages.flatMap Document.entriesRead)) := by
  induction hserves generalizing fuel out with
  | last hreply hflag =>
    rename_i d
    obtain ⟨n, rfl⟩ := Nat.exists_eq_succ_of_ne_zero (Nat.one_le_iff_ne_zero.mp hfuel)
    have hstop : (parseListXml d.xml).truncated = false := by rw [d.parseListXml_xml, hflag]
    simp only [listSizes, hreply, ne_eq, not_true_eq_false, if_false, hstop, d.zipWith_parsed,
      Bool.false_eq_true, flatMap_singleton]
  | more hreply hflag htoken hne hrest ih =>
    rename_i token d ws pages
    rw [length_cons] at hfuel
    obtain ⟨n, rfl⟩ := Nat.exists_eq_succ_of_ne_zero (Nat.one_le_iff_ne_zero.mp (by omega : 1 ≤ fuel))
    have hws : xmlDecode (text ws) = written ws :=
      (xmlDecode_text ws).mpr (htokens d mem_cons_self ws htoken)
    have hnext : (if (parseListXml d.xml).truncated = true then (parseListXml d.xml).nextToken
        else none) = some (written ws) := by
      rw [d.parseListXml_xml, hflag, htoken, if_pos rfl, map_some, hws]
    obtain ⟨c, t, ht⟩ := exists_cons_of_ne_nil hne
    rw [ht] at hnext ih
    have hpages := ih (fun d' hd' => htokens d' (mem_cons_of_mem d hd')) (by omega : pages.length ≤ n)
      (out ++ d.entriesRead)
    simp only [listSizes, hreply, ne_eq, not_true_eq_false, if_false, hnext, d.zipWith_parsed, hpages,
      flatMap_cons, append_assoc]

theorem entriesRead_eq_iff (pages : List Document) :
    pages.flatMap Document.entriesRead = pages.flatMap Document.entries ↔
      ∀ d ∈ pages, ∀ o ∈ d.objects, ¬ (Misread o.key ∨ o.Rounded) := by
  have hflat (f : Object → Entry) : (pages.flatMap fun d => d.objects.map f) =
      (pages.flatMap Document.objects).map f := map_flatMap.symm
  rw [show pages.flatMap Document.entriesRead = _ from hflat _,
    show pages.flatMap Document.entries = _ from hflat _, map_inj_left]
  constructor
  · intro h d hd o ho
    obtain ⟨hkey, hsize⟩ := Entry.mk.inj (h o (mem_flatMap.mpr ⟨d, hd, ho⟩))
    exact not_or.mpr ⟨(xmlDecode_text o.key).mp hkey, not_not_intro (some_inj.mp hsize)⟩
  · intro h o ho
    obtain ⟨d, hd, ho⟩ := mem_flatMap.mp ho
    obtain ⟨hkey, hsize⟩ := not_or.mp (h d hd o ho)
    rw [(xmlDecode_text o.key).mpr hkey, not_not.mp hsize]

/-- Asked for often enough, the listing of `pages` is returned: their entries, once each and in
order. -/
def Listed (request : Query → Response) (keyPrefix : Units) (pages : List Document) : Prop :=
  ∀ fuel, pages.length ≤ fuel →
    listSizes request keyPrefix fuel none [] = some (.ok (pages.flatMap Document.entries))

theorem listed_iff {request : Query → Response} {keyPrefix : Units} {pages : List Document}
    (hserves : Serves request keyPrefix none pages)
    (htokens : ∀ d ∈ pages, ∀ ws ∈ d.token, ¬ Misread ws) :
    Listed request keyPrefix pages ↔
      ∀ d ∈ pages, ∀ o ∈ d.objects, ¬ (Misread o.key ∨ o.Rounded) := by
  rw [← entriesRead_eq_iff]
  constructor
  · intro h
    have hread := listSizes_serves hserves htokens le_rfl []
    rw [h _ le_rfl, some_inj, Except.ok.injEq, nil_append] at hread
    exact hread.symm
  · intro h fuel hfuel
    rw [listSizes_serves hserves htokens hfuel, nil_append, h]

/-- A document is read exactly where no `&` in one of its keys or its token is read again and its
sizes are ones that a double holds, and a listing in pages where that is so of every page; its entries
are returned as they are where its tokens are read, and so are its keys and its sizes. -/
theorem listing_read_iff (document : Document) (request : Query → Response) (keyPrefix : Units)
    (pages : List Document) :
    (parseListXml document.xml = document.meant ↔ ¬ document.Misread) ∧
    (Serves request keyPrefix none pages →
      ((∀ d ∈ pages, parseListXml d.xml = d.meant) ∧ Listed request keyPrefix pages ↔
        ∀ d ∈ pages, ¬ d.Misread) ∧
      ((∀ d ∈ pages, ∀ ws ∈ d.token, ¬ Misread ws) →
        (Listed request keyPrefix pages ↔
          ∀ d ∈ pages, ∀ o ∈ d.objects, ¬ (Misread o.key ∨ o.Rounded)))) := by
  refine ⟨document.parseListXml_exact, fun hserves => ⟨?_, listed_iff hserves⟩⟩
  constructor
  · rintro ⟨hparsed, -⟩ d hd
    exact (d.parseListXml_exact).mp (hparsed d hd)
  · intro h
    refine ⟨fun d hd => d.parseListXml_exact.mpr (h d hd), (listed_iff hserves ?_).mpr ?_⟩
    · exact fun d hd ws hws hmisread => h d hd (Or.inr ⟨ws, hws, hmisread⟩)
    · exact fun d hd o ho hmisread => h d hd (Or.inl ⟨o, ho, hmisread⟩)

def fiveBytes (key : List Written) : Object where
  attrs := []
  attrsLexed := by decide
  key := key
  digits := [53]
  digitsRead := by decide
  padding := ([], [])
  blank := by simp
  sizeFirst := false
  before := []
  between := []
  after := []

def literally (c : Char) (h : c ≠ '<' ∧ c ≠ '&') : Written := ⟨c, .literal, h⟩

/-- A page with the key `a&b` and the token `t<`, and one with the key `é`, by references. -/
def firstPage : Document :=
  [.isTruncated true ([], []) (by simp),
    .object (fiveBytes [literally 'a' (by decide),
      ⟨'&', .decimal (lit "38"), by decide, by decide, by decide⟩, literally 'b' (by decide)]),
    .nextToken [literally 't' (by decide), ⟨'<', .named (lit "lt;"), mem_cons_self⟩]]

def lastPage : Document :=
  [.object (fiveBytes [⟨'é', .hexadecimal (lit "E9"), by decide, by decide, by decide⟩])]

def twoPages (q : Query) : Response :=
  if q.token = none then ⟨200, firstPage.xml⟩ else ⟨200, lastPage.xml⟩

theorem twoPages_read :
    Serves twoPages [] none [firstPage, lastPage] ∧ Listed twoPages [] [firstPage, lastPage] := by
  have hserves : Serves twoPages [] none [firstPage, lastPage] :=
    .more rfl rfl rfl (by decide) (.last rfl rfl)
  have hread : ∀ d ∈ [firstPage, lastPage], ¬ d.Misread := by
    have hfive (key : List Written) : ¬ (fiveBytes key).Rounded :=
      (fiveBytes key).not_rounded (show number 10 [53] ≤ 2 ^ 53 by decide)
    intro d hd
    simp only [mem_cons, not_mem_nil, or_false] at hd
    rcases hd with rfl | rfl <;> rintro (⟨o, ho, h⟩ | ⟨ws, hws, h⟩)
    · obtain rfl := mem_singleton.mp ho
      exact h.elim ((xmlDecode_text _).mp (by decide)) (hfive _)
    · obtain rfl := some_inj.mp hws
      exact (xmlDecode_text _).mp (by decide) h
    · obtain rfl := mem_singleton.mp ho
      exact h.elim ((xmlDecode_text _).mp (by decide)) (hfive _)
    · cases hws
  exact ⟨hserves, (((listing_read_iff firstPage twoPages [] _).2 hserves).1.mpr hread).2⟩

/-- The key `&lt;`, its `&` in a decimal reference. -/
def escapedKey : List Written :=
  [⟨'&', .decimal (lit "38"), by decide, by decide, by decide⟩, literally 'l' (by decide),
    literally 't' (by decide), literally ';' (by decide)]

/-- It is read as the key `<`. -/
theorem listing_misreads_ampersand :
    (parseListXml (Document.xml [.object (fiveBytes escapedKey)])).keys = [lit "<"] ∧
      (Document.meant [.object (fiveBytes escapedKey)]).keys = [lit "&lt;"] ∧
      ¬ ∀ d : Document, parseListXml d.xml = d.meant := by
  have hread : (parseListXml (Document.xml [.object (fiveBytes escapedKey)])).keys = [lit "<"] := by
    decide
  have hmeant : (Document.meant [.object (fiveBytes escapedKey)]).keys = [lit "&lt;"] := by decide
  refine ⟨hread, hmeant, fun h => ?_⟩
  rw [h, hmeant] at hread
  cases hread

end Turma.BlobStore
