import Turma.Guard.Lexers

/-! Shell commands by their parts, and what the two lexers of `guard.py` make of them. -/

namespace Turma.Guard

open Turma.Lib Turma.QwenGuard List JsString

/-- Where a part of a command stands: in the open, in a string or in a `${…}`. -/
inductive Place
  | bare
  | string
  | brace
deriving DecidableEq

def Place.takes : Place → CodePoint → Bool
  | bare, c => !("'\"\\\x60$()\x7b\x7d#".toList.map ch).contains c
  | string, c => !("\"\\\x60$".toList.map ch).contains c
  | brace, c => !("'\"\\\x60$\x7d".toList.map ch).contains c

/-- A command, each part with what follows it. `pid` is `$$`; in front of a group without a dollar,
`<` and `>` are characters. -/
inductive Source
  | done
  | char (c : CodePoint) (rest : Source)
  | escape (c : CodePoint) (rest : Source)
  | pid (rest : Source)
  | dollar (rest : Source)
  | literal (ansi : Bool) (t : Str) (rest : Source)
  | string (body rest : Source)
  | brace (body rest : Source)
  | ticks (t : Str) (rest : Source)
  | group (dollar : Bool) (body rest : Source)

namespace Source

def text : Source → Str
  | done => []
  | char c rest => c :: rest.text
  | escape c rest => backslash :: c :: rest.text
  | pid rest => ch '$' :: ch '$' :: rest.text
  | dollar rest => ch '$' :: rest.text
  | literal ansi t rest =>
    (if ansi then [ch '$'] else []) ++ apostrophe :: (t ++ apostrophe :: rest.text)
  | string body rest => quotation :: (body.text ++ quotation :: rest.text)
  | brace body rest => ch '$' :: ch '{' :: (body.text ++ ch '}' :: rest.text)
  | ticks t rest => tick :: (t ++ tick :: rest.text)
  | group d body rest =>
    (if d then [ch '$'] else []) ++ ch '(' :: (body.text ++ ch ')' :: rest.text)

def lead : Source → Str
  | char c rest => c :: rest.lead
  | _ => []

def reservedWords : List Str := ["case", "esac", "[["].map Str.lit

/-- The next `close` that no backslash escapes is the one behind `t`. -/
def EndsAt (close : CodePoint) (escapes : Bool) (t : Str) : Prop :=
  closer close escapes (t ++ [close]) = t.length

/-- `start` is whether a reserved word may begin here. A dollar that is left over by the pairs
opens nothing. -/
def Formed : Place → Bool → Source → Prop
  | _, _, done => True
  | p, start, char c rest =>
    p.takes c = true ∧ (p = .bare → start = true → ∀ w ∈ reservedWords, wordAt w (c :: rest.lead) = false) ∧
      rest.Formed p (blank c || startsCommand [c])
  | p, _, escape c rest => rest.Formed p (blank c || startsCommand [c])
  | p, _, pid rest => rest.Formed p false
  | p, _, dollar rest =>
    (∀ c ∈ rest.text.head?, c ≠ ch '$' ∧ c ≠ ch '(' ∧ c ≠ ch '{' ∧ (p = .bare → c ≠ apostrophe)) ∧
      rest.Formed p false
  | p, _, literal ansi t rest => p = .bare ∧ EndsAt apostrophe ansi t ∧ rest.Formed p false
  | p, _, string body rest => p = .bare ∧ body.Formed .string false ∧ rest.Formed p false
  | p, _, brace body rest => body.Formed .brace false ∧ rest.Formed p false
  | p, _, ticks t rest => EndsAt tick true t ∧ rest.Formed p false
  | p, _, group d body rest =>
    (d = false → p = .bare) ∧ body.Formed .bare true ∧ rest.Formed p false

/-- What a reading makes of a command: of a character, of the text of a literal, of backticks, and of
the body of a group. -/
structure Readout (β : Type) where
  plain : List β
  literal : Str → List β
  ticks : Str → List β
  group : Source → List β → List β

def read {β : Type} (o : Readout β) : Source → List β
  | done => []
  | char _ rest | dollar rest => o.plain ++ rest.read o
  | escape _ rest | pid rest => o.plain ++ o.plain ++ rest.read o
  | literal ansi t rest => (if ansi then o.plain else []) ++ o.literal t ++ rest.read o
  | string body rest => o.plain ++ body.read o ++ o.plain ++ rest.read o
  | brace body rest => o.plain ++ o.plain ++ body.read o ++ o.plain ++ rest.read o
  | ticks t rest => o.ticks t ++ rest.read o
  | group d body rest =>
    (if d then o.plain else []) ++ o.plain ++ o.group body (body.read o) ++ o.plain ++ rest.read o

def groups : Readout Str := ⟨[], fun _ => [], fun t => [t], fun body _ => [body.text]⟩

/-- Which characters are of a literal, from its quote on. A backtick body has the quotes that it has
as a command of its own. -/
def quoted : Readout Bool :=
  ⟨[false], fun t => List.replicate (t.length + 2) true,
    fun t => false :: ((quoteStates t).map (· == .single) ++ [false]), fun _ x => x⟩

/-- No `$$` is in front of a literal whose text ends in a backslash that would escape its quote, nor,
in a string or a `${…}`, in front of a `(` or a `{`. -/
def Paired : Place → Source → Prop
  | _, done => True
  | p, char _ rest | p, escape _ rest | p, dollar rest | p, literal _ _ rest | p, ticks _ rest =>
    rest.Paired p
  | .bare, pid rest =>
    (∀ t after, rest = literal false t after → EndsAt apostrophe true t) ∧ rest.Paired .bare
  | p, pid rest => (∀ c ∈ rest.text.head?, c ≠ ch '(' ∧ c ≠ ch '{') ∧ rest.Paired p
  | p, string body rest => body.Paired .string ∧ rest.Paired p
  | p, brace body rest => body.Paired .brace ∧ rest.Paired p
  | p, group _ body rest => body.Paired .bare ∧ rest.Paired p

end Source

open Source JsString

theorem closer_ends {close : CodePoint} {escapes : Bool} :
    ∀ {t : Str}, EndsAt close escapes t → ∀ z, closer close escapes (t ++ close :: z) = t.length
  | [], _, [] => by simp [closer]
  | [], _, _ :: _ => by simp [closer]
  | [c], h, z => by
    simp only [EndsAt, cons_append, nil_append, length_cons, length_nil, closer] at h ⊢
    split_ifs at h ⊢
    · simp at h
    · cases z <;> simp [closer]
  | c :: d :: t, h, z => by
    simp only [EndsAt, cons_append, length_cons, closer] at h ⊢
    split_ifs at h ⊢ with hc hescape
    · rw [closer_ends (Nat.add_right_cancel h : EndsAt close escapes t) z]
    · exact congrArg (· + 1) (closer_ends (Nat.add_right_cancel h : EndsAt close escapes (d :: t)) z)

section

variable {before rest after : Str} {c : CodePoint}

def Place.Closed : Place → Option CodePoint → Prop
  | bare, c => c = none ∨ c = some (ch ')')
  | string, c => c = some quotation
  | brace, c => c = some (ch '}')

theorem prefix_lead {w l z : Str} (hw : ∀ c ∈ w, Place.bare.takes c = true)
    (hz : ∀ c ∈ z.head?, Place.bare.takes c = false) (h : w <+: l ++ z) : w <+: l := by
  induction l generalizing w with
  | nil =>
    cases w with
    | nil => exact List.nil_prefix
    | cons a w =>
      obtain ⟨t, rfl⟩ := h
      exact absurd (hw a (.head _)) (by simp [hz a rfl])
  | cons b l ih =>
    cases w with
    | nil => exact List.nil_prefix
    | cons a w =>
      obtain ⟨rfl, htail⟩ := cons_prefix_cons.mp (cons_append ▸ h)
      exact cons_prefix_cons.mpr ⟨rfl, ih (fun c hc => hw c (.tail _ hc)) htail⟩

theorem text_lead (src : Source) (hafter : Place.bare.Closed after.head?) :
    ∃ z, src.text ++ after = src.lead ++ z ∧ ∀ c ∈ z.head?, Place.bare.takes c = false := by
  induction src with
  | done =>
    refine ⟨after, rfl, fun c hc => ?_⟩
    rcases hafter with h | h <;> rw [h] at hc <;> cases hc
    rfl
  | char c rest ih =>
    obtain ⟨z, hz, hhead⟩ := ih
    exact ⟨z, congrArg (c :: ·) hz, hhead⟩
  | literal ansi | group ansi =>
    refine ⟨_, rfl, fun c hc => ?_⟩
    cases ansi <;> cases hc <;> rfl
  | escape | pid | dollar | string | brace | ticks =>
    refine ⟨_, rfl, fun c hc => ?_⟩
    cases hc
    rfl

theorem wordAt_lead {w : Str} (hw : ∀ c ∈ w, Place.bare.takes c = true) (src : Source)
    (hafter : Place.bare.Closed after.head?) (h : wordAt w (src.text ++ after) = true) :
    wordAt w src.lead = true := by
  obtain ⟨z, hz, hhead⟩ := text_lead src hafter
  rw [hz, wordAt, Bool.and_eq_true] at h
  have hpre := prefix_lead hw hhead (List.isPrefixOf_iff_prefix.mp h.1)
  rw [wordAt, List.isPrefixOf_iff_prefix.mpr hpre, Bool.true_and]
  rw [drop_append_of_le_length hpre.length_le] at h
  cases hdrop : src.lead.drop w.length with
  | nil => rfl
  | cons c t => simpa [hdrop] using h.2

theorem starts_of_atCommandStart {hops : ℕ} (h : atCommandStart hops before = true) :
    before.head?.all (fun c => blank c || startsCommand [c]) = true := by
  cases before with
  | nil => rfl
  | cons c t =>
    by_contra hno
    simp only [head?_cons, Option.all_some, Bool.or_eq_true, not_or, Bool.not_eq_true] at hno
    have hstart : startsCommand (c :: t) = false := hno.2
    unfold atCommandStart at h
    simp [hstart, hno.1] at h

theorem reserved_takes : ∀ w ∈ reservedWords, ∀ c ∈ w, Place.bare.takes c = true := by decide

theorem takes_iff (p : Place) (c : CodePoint) : p.takes c = true ↔
    (c ≠ quotation ∧ c ≠ backslash ∧ c ≠ tick ∧ c ≠ ch '$') ∧ (p ≠ .string → c ≠ apostrophe) ∧
      (p = .brace → c ≠ ch '}') ∧
      (p = .bare → c ≠ ch '(' ∧ c ≠ ch ')' ∧ c ≠ ch '{' ∧ c ≠ ch '}' ∧ c ≠ ch '#') := by
  cases p <;> simp [Place.takes, ch, and_assoc]
  all_goals tauto

theorem head_of_append {p : Place} {l : Str} {x : CodePoint} (hafter : p.Closed after.head?)
    (hx : x = ch '(' ∨ x = ch '{' ∨ x = apostrophe) (h : (l ++ after).head? = some x) :
    l.head? = some x := by
  cases l with
  | cons a l => exact h
  | nil =>
    rw [nil_append] at h
    rw [h] at hafter
    cases p <;> rcases hx with rfl | rfl | rfl <;> simp [Place.Closed] at hafter

theorem head_text {p : Place} {start : Bool} {src : Source} {x : CodePoint} (hf : src.Formed p start)
    (h : src.text.head? = some x) :
    (x = apostrophe → p ≠ .brace ∧ (p = .bare → ∃ t rest, src = literal false t rest)) ∧
      (x = ch '{' → p ≠ .bare) := by
  cases src with
  | done => cases h
  | char c rest =>
    obtain rfl := Option.some.inj h
    obtain ⟨-, hquote, -, hbare⟩ := (takes_iff p c).mp hf.1
    refine ⟨?_, fun hc hp => (hbare hp).2.2.1 hc⟩
    rintro rfl
    cases p with
    | string => exact ⟨nofun, nofun⟩
    | bare | brace => exact absurd rfl (hquote nofun)
  | literal ansi t rest =>
    obtain ⟨rfl, -⟩ := hf
    cases ansi <;> cases h
    · exact ⟨fun _ => ⟨nofun, fun _ => ⟨t, rest, rfl⟩⟩, nofun⟩
    · exact ⟨nofun, nofun⟩
  | group d => cases d <;> cases h <;> exact ⟨nofun, nofun⟩
  | escape | pid | dollar | string | brace | ticks =>
    cases h
    exact ⟨nofun, nofun⟩

theorem ansiCDollar_cons (before : Str) : ansiCDollar (ch '$' :: before) = !ansiCDollar before := by
  simp only [ansiCDollar, takeWhile_cons, dropWhile_cons, decide_true, if_true,
    length_cons]
  rw [← decide_not, decide_eq_decide]
  split_ifs <;> omega

theorem liveDollar_eq (before : Str) : liveDollar before = ansiCDollar before := by
  simp only [liveDollar, ansiCDollar]
  rw [decide_eq_decide]
  split_ifs <;> omega

/-- In front of `next` no backslash waits for a character, and no dollar for another one. -/
structure Settled (before : Str) (next : Option CodePoint) : Prop where
  slashes : (before.takeWhile (· = backslash)).length % 2 = 0
  dollars : next = some (ch '$') → ansiCDollar before = true

variable {next : Option CodePoint}

theorem settled_plain (hd : c ≠ ch '$') (hb : c ≠ backslash) : Settled (c :: before) next :=
  ⟨by simp [hb], fun _ => by simp [ansiCDollar, hd, hb]⟩

theorem settled_escape {next' : Option CodePoint} (h : Settled before next') :
    Settled (c :: backslash :: before) next := by
  by_cases hd : c = ch '$'
  · subst hd
    refine ⟨by simp, fun _ => ?_⟩
    have hodd : ((before.takeWhile (· = backslash)).length + 1) % 2 = 1 := by
      have := h.slashes
      omega
    simp [ansiCDollar, hodd]
  by_cases hb : c = backslash
  · subst hb
    have heven : ((before.takeWhile (· = backslash)).length + 1 + 1) % 2 = 0 := by
      have := h.slashes
      omega
    exact ⟨by simpa using heven, fun _ => by simp [ansiCDollar, heven]⟩
  · exact settled_plain hd hb

/-- What follows a dollar that opens nothing by itself. -/
structure Leaves (p : Place) (before rest : Str) : Prop where
  paren : rest.head? = some (ch '(') → p = .bare
  brace : rest.head? ≠ some (ch '{')
  quote : rest.head? = some apostrophe → p = .string ∨ p = .bare ∧ ansiCDollar before = false ∧
    ∃ t z, rest = apostrophe :: (t ++ apostrophe :: z) ∧ EndsAt apostrophe false t ∧
      EndsAt apostrophe true t

theorem leaves_text {p : Place} {src : Source} (hf : src.Formed p false)
    (hafter : p.Closed after.head?)
    (hopens : p ≠ .bare → ∀ c ∈ src.text.head?, c ≠ ch '(' ∧ c ≠ ch '{')
    (hquote : p = .bare → ∀ t rest, src = literal false t rest →
      ansiCDollar before = false ∧ EndsAt apostrophe true t) :
    Leaves p before (src.text ++ after) := by
  refine ⟨fun h => ?_, fun h => ?_, fun h => ?_⟩
  · have hhead := head_of_append hafter (.inl rfl) h
    by_contra hp
    exact (hopens hp _ hhead).1 rfl
  · have hhead := head_of_append hafter (.inr (.inl rfl)) h
    exact (hopens ((head_text hf hhead).2 rfl) _ hhead).2 rfl
  · have hhead := head_of_append hafter (.inr (.inr rfl)) h
    obtain ⟨hbrace, hbare⟩ := (head_text hf hhead).1 rfl
    cases p with
    | string => exact .inl rfl
    | brace => exact absurd rfl hbrace
    | bare =>
      obtain ⟨t, rest, rfl⟩ := hbare rfl
      obtain ⟨hsecond, hends⟩ := hquote rfl t rest rfl
      exact .inr ⟨rfl, hsecond, t, rest.text ++ after, by simp [text], hf.2.1, hends⟩

end

section

variable {σ β : Type} {go : σ → Str → CodePoint → Str → ℕ × σ} {before x y rest : Str}
  {c : CodePoint} {s s' s'' : σ}

def Passes (go : σ → Str → CodePoint → Str → ℕ × σ) (before x rest : Str) (s s' : σ) : Prop :=
  loop go before (x ++ rest) 0 s = loop go (x.reverse ++ before) rest 0 s'

theorem Passes.append (h : Passes go before x (y ++ rest) s s')
    (h' : Passes go (x.reverse ++ before) y rest s' s'') : Passes go before (x ++ y) rest s s'' := by
  rw [Passes, append_assoc, reverse_append, append_assoc]
  exact h.trans h'

theorem loop_skip : loop go before (x ++ rest) x.length s = loop go (x.reverse ++ before) rest 0 s := by
  induction x generalizing before with
  | nil => rfl
  | cons c x ih =>
    rw [cons_append, length_cons, loop, ih, reverse_cons, append_assoc]
    rfl

theorem Passes.turn (h : go s before c (x ++ rest) = (x.length + 1, s')) :
    Passes go before (c :: x) rest s s' := by
  rw [Passes, cons_append, loop, h, reverse_cons, append_assoc]
  exact loop_skip

/-- A part with a body is opened by `front`, its body read in `p` and closed by `close`; with what is
given for the body, `f` is given for it. -/
def Opens (go : σ → Str → CodePoint → Str → ℕ × σ) (At : Place → σ → Prop)
    (Gives : σ → List β → σ → Prop) (p : Place) (front : Str) (close : CodePoint)
    (f : Source → List β → List β) (before : Str) (s : σ) : Prop :=
  ∀ rest, ∃ s', Passes go before front rest s s' ∧ At p s' ∧
    ∀ body found s'' rest, Gives s' found s'' → ∃ s₃, Gives s (f body found) s₃ ∧
      Passes go (body.text.reverse ++ (front.reverse ++ before)) [close] rest s'' s₃

/-- A lexer of commands: where it is in each place, what it has given from one state to another, and
what it does with each kind of part. -/
structure Lexer (σ β : Type) where
  turn : σ → Str → CodePoint → Str → ℕ × σ
  out : Readout β
  At : Place → σ → Prop
  Gives : σ → List β → σ → Prop
  refl (s : σ) : Gives s [] s
  trans {s s' s'' : σ} {x y : List β} : Gives s x s' → Gives s' y s'' → Gives s (x ++ y) s''
  stays {s s' : σ} {x : List β} {p : Place} : Gives s x s' → At p s → At p s'
  char {p : Place} {s : σ} {c : CodePoint} (before rest : Str) : At p s → p.takes c = true →
    (p = .bare → atCommandStart 4 before = true → ∀ w ∈ reservedWords, wordAt w (c :: rest) = false) →
      ∃ s', Gives s out.plain s' ∧ Passes turn before [c] rest s s'
  escape {p : Place} {s : σ} (before : Str) (c : CodePoint) (rest : Str) : At p s →
    ∃ s', Gives s (out.plain ++ out.plain) s' ∧ Passes turn before [backslash, c] rest s s'
  dollar {p : Place} {s : σ} {before rest : Str} : At p s → Leaves p before rest →
    ∃ s', Gives s out.plain s' ∧ Passes turn before [ch '$'] rest s s'
  literal {s : σ} {ansi : Bool} {t : Str} (before rest : Str) : At .bare s → EndsAt apostrophe ansi t →
    (ansi = true → ansiCDollar before = true) →
      ∃ s', Gives s ((if ansi then out.plain else []) ++ out.literal t) s' ∧
        Passes turn before ((if ansi then [ch '$'] else []) ++ apostrophe :: (t ++ [apostrophe])) rest s s'
  ticks {p : Place} {s : σ} {t : Str} (before rest : Str) : At p s → EndsAt tick true t →
    ∃ s', Gives s (out.ticks t) s' ∧ Passes turn before (tick :: (t ++ [tick])) rest s s'
  string {s : σ} (before : Str) : At .bare s → Opens turn At Gives .string [quotation] quotation
    (fun _ found => out.plain ++ found ++ out.plain) before s
  brace {p : Place} {s : σ} {before : Str} : At p s → ansiCDollar before = true →
    Opens turn At Gives .brace [ch '$', ch '{'] (ch '}')
      (fun _ found => out.plain ++ out.plain ++ found ++ out.plain) before s
  group {p : Place} {s : σ} {d : Bool} (before : Str) : At p s → (d = false → p = .bare) →
    Opens turn At Gives .bare ((if d then [ch '$'] else []) ++ [ch '(']) (ch ')')
      (fun body found => (if d then out.plain else []) ++ out.plain ++ out.group body found ++ out.plain)
      before s

namespace Lexer

variable (L : Lexer σ β)

def Reads (before x rest : Str) (s : σ) (found : List β) : Prop :=
  ∃ s', L.Gives s found s' ∧ Passes L.turn before x rest s s'

variable {L} {found found' : List β} {p p' : Place}

theorem Reads.append (h : L.Reads before x (y ++ rest) s found) (hat : L.At p s)
    (h' : ∀ s', L.At p s' → L.Reads (x.reverse ++ before) y rest s' found') :
    L.Reads before (x ++ y) rest s (found ++ found') := by
  obtain ⟨s', hgives, hpasses⟩ := h
  obtain ⟨s'', hgives', hpasses'⟩ := h' s' (L.stays hgives hat)
  exact ⟨s'', L.trans hgives hgives', hpasses.append hpasses'⟩

theorem reads_opened (rest : Str) {front : Str} {close : CodePoint} {f : Source → List β → List β}
    {body : Source} (h : Opens L.turn L.At L.Gives p' front close f before s)
    (hbody : ∀ s', L.At p' s' →
      L.Reads (front.reverse ++ before) body.text (close :: rest) s' found) :
    L.Reads before (front ++ body.text ++ [close]) rest s (f body found) := by
  obtain ⟨s', hopens, hat, hclose⟩ := h (body.text ++ [close] ++ rest)
  obtain ⟨s'', hgives, hpasses⟩ := hbody s' hat
  obtain ⟨s₃, hgives', hend⟩ := hclose body found s'' rest hgives
  rw [append_assoc]
  exact ⟨s₃, hgives', hopens.append (hpasses.append hend)⟩

/-- A command is read part by part, and the lexer goes on behind it as it began. -/
def Readable (L : Lexer σ β) (src : Source) : Prop :=
  ∀ ⦃p : Place⦄ ⦃start : Bool⦄ ⦃before rest : Str⦄ ⦃s : σ⦄, src.Formed p start → src.Paired p → L.At p s →
    (p = .bare → start = before.head?.all fun c => blank c || startsCommand [c]) →
      Settled before src.text.head? → p.Closed rest.head? →
        L.Reads before src.text rest s (src.read L.out)

theorem Readable.behind {src : Source} (h : L.Readable src) {w : Str}
    (hc : c ≠ ch '$' ∧ c ≠ backslash) (hf : src.Formed p (blank c || startsCommand [c]))
    (hpaired : src.Paired p) (hafter : p.Closed rest.head?) (s' : σ) (hat : L.At p s') :
    L.Reads ((w ++ [c]).reverse ++ before) src.text rest s' (src.read L.out) := by
  rw [reverse_append]
  exact h hf hpaired hat (fun _ => rfl) (settled_plain hc.1 hc.2) hafter

end Lexer

theorem readable (L : Lexer σ β) (src : Source) : L.Readable src := by
  induction src with
  | done => exact fun _ _ _ _ s _ _ _ _ _ _ => ⟨s, L.refl s, rfl⟩
  | char c src ih =>
    intro p start before rest s hf hpaired hat hstart _ hafter
    obtain ⟨hc, hword, hsrc⟩ := hf
    obtain ⟨⟨-, hb, -, hd⟩, -⟩ := (takes_iff p c).mp hc
    have hchar := L.char before (src.text ++ rest) hat hc fun hp hcommand w hw => by
      subst hp
      by_contra hno
      have hlead := wordAt_lead (reserved_takes w hw) (.char c src) hafter (Bool.not_eq_false _ ▸ hno)
      rw [lead, hword rfl (hstart rfl ▸ starts_of_atCommandStart hcommand) w hw] at hlead
      cases hlead
    exact Lexer.Reads.append (x := [c]) hchar hat (ih.behind (w := []) ⟨hd, hb⟩ hsrc hpaired hafter)
  | escape c src ih =>
    intro p start before rest s hf hpaired hat _ hsettled hafter
    exact Lexer.Reads.append (x := [backslash, c]) (L.escape before c _ hat) hat fun s' hat' =>
      ih hf hpaired hat' (fun _ => rfl) (settled_escape hsettled) hafter
  | pid src ih =>
    intro p start before rest s hf hpaired hat _ hsettled hafter
    have hsecond : ansiCDollar (ch '$' :: before) = false := by
      rw [ansiCDollar_cons, hsettled.dollars rfl]
      rfl
    obtain ⟨hopens, hends, hsrc⟩ : (p ≠ .bare → ∀ c ∈ src.text.head?, c ≠ ch '(' ∧ c ≠ ch '{') ∧
        (p = .bare → ∀ t after, src = literal false t after → EndsAt apostrophe true t) ∧
        src.Paired p := by
      cases p with
      | bare => exact ⟨fun h => absurd rfl h, fun _ => hpaired.1, hpaired.2⟩
      | string | brace => exact ⟨fun _ => hpaired.1, nofun, hpaired.2⟩
    have hthird : ansiCDollar (ch '$' :: ch '$' :: before) = true := by
      rw [ansiCDollar_cons, hsecond]
      rfl
    rw [Source.read, append_assoc]
    refine Lexer.Reads.append (x := [ch '$']) (L.dollar hat ⟨nofun, nofun, nofun⟩) hat fun s' hat' =>
      Lexer.Reads.append (x := [ch '$']) (L.dollar hat' (leaves_text hf hafter hopens fun hp t after h =>
        ⟨hsecond, hends hp t after h⟩)) hat' fun s'' hat'' => ?_
    exact ih hf hsrc hat'' (fun _ => rfl) ⟨by simp, fun _ => hthird⟩ hafter
  | dollar src ih =>
    intro p start before rest s hf hpaired hat _ _ hafter
    obtain ⟨hhead, hsrc⟩ := hf
    have hleaves : Leaves p before (src.text ++ rest) := leaves_text hsrc hafter
      (fun _ c hc => ⟨(hhead c hc).2.1, (hhead c hc).2.2.1⟩)
      fun hp t _ h => absurd rfl ((hhead apostrophe (by simp [h, text])).2.2.2 hp)
    exact Lexer.Reads.append (x := [ch '$']) (L.dollar hat hleaves) hat fun s' hat' =>
      ih hsrc hpaired hat' (fun _ => rfl) ⟨by simp, fun h => absurd rfl (hhead _ h).1⟩ hafter
  | literal ansi t src ih =>
    intro p start before rest s hf hpaired hat _ hsettled hafter
    obtain ⟨rfl, ht, hsrc⟩ := hf
    have hliteral := L.literal before (src.text ++ rest) hat ht fun h =>
      hsettled.dollars (by simp [text, h])
    have htext : (literal ansi t src).text =
        (if ansi then [ch '$'] else []) ++ apostrophe :: (t ++ [apostrophe]) ++ src.text := by
      simp [text]
    have hfront : (if ansi then [ch '$'] else []) ++ apostrophe :: (t ++ [apostrophe]) =
        (if ansi then [ch '$'] else []) ++ apostrophe :: t ++ [apostrophe] := by
      simp
    rw [htext, Source.read]
    refine Lexer.Reads.append hliteral hat ?_
    rw [hfront]
    exact ih.behind ⟨nofun, nofun⟩ hsrc hpaired hafter
  | string body src ihb ih =>
    intro p start before rest s hf hpaired hat _ _ hafter
    obtain ⟨rfl, hbody, hsrc⟩ := hf
    have hopened := Lexer.reads_opened (src.text ++ rest) (L.string before hat)
      (ihb.behind (w := []) ⟨nofun, nofun⟩ hbody hpaired.1 rfl)
    have htext : (string body src).text = [quotation] ++ body.text ++ [quotation] ++ src.text := by
      simp [text]
    rw [htext, Source.read]
    exact hopened.append hat (ih.behind ⟨nofun, nofun⟩ hsrc hpaired.2 hafter)
  | brace body src ihb ih =>
    intro p start before rest s hf hpaired hat _ hsettled hafter
    obtain ⟨hbody, hsrc⟩ := hf
    have hopened := Lexer.reads_opened (src.text ++ rest) (L.brace hat (hsettled.dollars rfl))
      (ihb.behind (w := [ch '$']) ⟨nofun, nofun⟩ hbody hpaired.1 rfl)
    have htext : (brace body src).text = [ch '$', ch '{'] ++ body.text ++ [ch '}'] ++ src.text := by
      simp [text]
    rw [htext, Source.read]
    exact hopened.append hat (ih.behind ⟨nofun, nofun⟩ hsrc hpaired.2 hafter)
  | ticks t src ih =>
    intro p start before rest s hf hpaired hat _ _ hafter
    obtain ⟨ht, hsrc⟩ := hf
    have htext : (ticks t src).text = tick :: t ++ [tick] ++ src.text := by
      simp [text]
    rw [htext, Source.read]
    exact Lexer.Reads.append (L.ticks before _ hat ht) hat (ih.behind ⟨nofun, nofun⟩ hsrc hpaired hafter)
  | group d body src ihb ih =>
    intro p start before rest s hf hpaired hat _ _ hafter
    obtain ⟨hbare, hbody, hsrc⟩ := hf
    have hopened := Lexer.reads_opened (src.text ++ rest) (L.group before hat hbare)
      (ihb.behind ⟨nofun, nofun⟩ hbody hpaired.1 (.inr rfl))
    have htext : (group d body src).text =
        (if d then [ch '$'] else []) ++ [ch '('] ++ body.text ++ [ch ')'] ++ src.text := by
      simp [text]
    rw [htext, Source.read]
    exact hopened.append hat (ih.behind ⟨nofun, nofun⟩ hsrc hpaired.2 hafter)

end

section

variable {word : CodePoint → Bool} {before rest : Str} {c : CodePoint} {s s' : Scan} {p : Place}

/-- What a part leaves: its groups are found, unless it is within one, whose start stays. -/
def Gains (s : Scan) (found : List Str) (s' : Scan) : Prop :=
  ∃ j, (.group ∈ s.stack → j = s.start) ∧
    s' = { s with start := j, bodies := if .group ∈ s.stack then s.bodies else s.bodies ++ found }

theorem Gains.refl (s : Scan) : Gains s [] s := ⟨s.start, fun _ => rfl, by simp⟩

theorem Gains.trans {s'' : Scan} {found found' : List Str} (h : Gains s found s')
    (h' : Gains s' found' s'') : Gains s (found ++ found') s'' := by
  obtain ⟨j, hj, rfl⟩ := h
  obtain ⟨j', hj', rfl⟩ := h'
  refine ⟨j', fun hin => (hj' hin).trans (hj hin), ?_⟩
  by_cases hin : Frame.group ∈ s.stack <;> simp [hin]

/-- What the stack has on top in a place. -/
def Place.Topped : Place → Option Frame → Prop
  | bare, top => top = none ∨ top = some .group
  | string, top => top = some .string
  | brace, top => top = some .brace

theorem turn_char (hc : p.takes c = true) (htop : p.Topped s.stack.head?)
    (hword : p = .bare → atCommandStart 4 before = true →
      ∀ w ∈ reservedWords, wordAt w (c :: rest) = false) :
    s.turn word before c rest = (1, s) := by
  obtain ⟨⟨hq, hb, ht, hd⟩, ha, hbrace, hbare⟩ := (takes_iff p c).mp hc
  cases p with
  | string =>
    have htop : s.stack.head? = some .string := htop
    simp [Scan.turn, htop, hq, hb, ht, hd]
  | brace =>
    have htop : s.stack.head? = some .brace := htop
    simp [Scan.turn, htop, hq, hb, ht, hd, ha (by simp), hbrace rfl]
  | bare =>
    obtain ⟨hopen, hclose, -, -, hhash⟩ := hbare rfl
    have hno (w : Str) (hw : w ∈ reservedWords) :
        (wordAt w (c :: rest) && atCommandStart 4 before) = false := by
      by_cases h : atCommandStart 4 before = true
      · rw [hword rfl h w hw]
        rfl
      · simp [h]
    have htest := hno (Str.lit "[[") (by simp [reservedWords])
    have hcase := hno (Str.lit "case") (by simp [reservedWords])
    rcases htop with htop | htop <;>
      simp [Scan.turn, htop, hq, hb, ht, hd, ha, hopen, hclose, hhash, htest, hcase]

theorem turn_open (htop : Place.bare.Topped s.stack.head?) :
    s.turn word before (ch '(') rest = (1, s.openGroup (before.length + 1)) := by
  rcases htop with htop | htop <;>
    simp [Scan.turn, htop, wordAt, Str.lit, ofString]

theorem passes_literal {t : Str} (htop : Place.bare.Topped s.stack.head?) (ht : EndsAt apostrophe false t) :
    Passes (Scan.turn word) before (apostrophe :: (t ++ [apostrophe])) rest s s := by
  refine .turn ?_
  rcases htop with htop | htop <;> simp [Scan.turn, htop, closer_ends ht]

theorem passes_ansi {t : Str} (htop : Place.bare.Topped s.stack.head?) (ht : EndsAt apostrophe true t) :
    Passes (Scan.turn word) before (ch '$' :: apostrophe :: (t ++ [apostrophe])) rest s s := by
  refine .turn ?_
  rcases htop with htop | htop <;> simp [Scan.turn, htop, closer_ends ht]

/-- The dollar may be taken along with what would be open without it. -/
theorem passes_dollar (htop : p.Topped s.stack.head?) (hleaves : Leaves p before rest) :
    Passes (Scan.turn word) before [ch '$'] rest s s := by
  obtain ⟨hopen, hbrace, hquote⟩ := hleaves
  have hpass (h : s.turn word before (ch '$') rest = (1, s)) :
      Passes (Scan.turn word) before [ch '$'] rest s s := .turn (x := []) h
  by_cases hparen : rest.head? = some (ch '(')
  · obtain ⟨z, rfl⟩ := head?_eq_some_iff.mp hparen
    obtain rfl := hopen rfl
    have hturn : s.turn word before (ch '$') (ch '(' :: z) = (2, s.openGroup (before.length + 2)) := by
      simp [Scan.turn]
    have hboth : Passes (Scan.turn word) before [ch '$', ch '('] z s _ := .turn hturn
    have hrest : Passes (Scan.turn word) (ch '$' :: before) [ch '('] z s _ := .turn (x := []) (turn_open htop)
    exact hboth.trans hrest.symm
  · cases p with
    | string =>
      have htop : s.stack.head? = some .string := htop
      exact hpass (by simp [Scan.turn, htop, hparen, hbrace])
    | brace =>
      have htop : s.stack.head? = some .brace := htop
      have hno : rest.head? ≠ some apostrophe := fun h => by simpa using hquote h
      exact hpass (by simp [Scan.turn, htop, hparen, hbrace, hno])
    | bare =>
      by_cases happ : rest.head? = some apostrophe
      · obtain hno | ⟨-, -, t, z, rfl, hplain, hansi⟩ := hquote happ
        · cases hno
        have hboth : Passes (Scan.turn word) before (ch '$' :: apostrophe :: (t ++ [apostrophe])) z s s :=
          passes_ansi htop hansi
        have hrest : Passes (Scan.turn word) (ch '$' :: before) (apostrophe :: (t ++ [apostrophe])) z s s :=
          passes_literal htop hplain
        simpa [Passes] using hboth.trans (by simpa using hrest.symm)
      · refine hpass ?_
        rcases htop with htop | htop <;>
          simp [Scan.turn, htop, hparen, hbrace, happ, wordAt, Str.lit, ofString]

theorem Gains.pop {f : Frame} {found : List Str} (hf : f ≠ .group) (h : Gains (s.push f) found s') :
    Gains s found s'.pop := by
  obtain ⟨j, hj, rfl⟩ := h
  have hin : (Frame.group ∈ (s.push f).stack) = (Frame.group ∈ s.stack) := by
    simp [Scan.push, hf.symm]
  simp only [hin] at hj ⊢
  exact ⟨j, hj, rfl⟩

theorem Gains.stack {found : List Str} (h : Gains s found s') : s'.stack = s.stack := by
  obtain ⟨j, -, rfl⟩ := h
  rfl

theorem gains_found (body : Str) : Gains s [body] (s.found body) := by
  refine ⟨s.start, fun _ => rfl, ?_⟩
  by_cases hin : Frame.group ∈ s.stack <;> simp [Scan.found, hin]

/-- A group is found with its closer, unless it is within another one. -/
theorem gains_group (word : CodePoint → Bool) (body rest : Str) {found : List Str}
    (h : Gains (s.openGroup before.length) found s') :
    ∃ s'', Gains s [body] s'' ∧ s'.turn word (body.reverse ++ before) (ch ')') rest = (1, s'') := by
  obtain ⟨j, hj, rfl⟩ := h
  have hin : Frame.group ∈ (s.openGroup before.length).stack := mem_cons_self
  simp only [if_pos hin, hj hin] at *
  by_cases hs : Frame.group ∈ s.stack
  · refine ⟨s, ⟨s.start, fun _ => rfl, by simp [hs]⟩, ?_⟩
    simp [Scan.turn, Scan.openGroup, Scan.pop, Scan.found, hs, wordAt, Str.lit, ofString]
  · refine ⟨{ s with start := before.length, bodies := s.bodies ++ [body] },
      ⟨before.length, fun h => absurd h hs, by simp [hs]⟩, ?_⟩
    simp [Scan.turn, Scan.openGroup, Scan.pop, Scan.found, hs, wordAt, Str.lit, ofString]

def scanLexer (word : CodePoint → Bool) : Lexer Scan Str where
  turn := Scan.turn word
  out := groups
  At p s := p.Topped s.stack.head?
  Gives := Gains
  refl := Gains.refl
  trans h h' := h.trans h'
  stays h htop := by rw [h.stack]; exact htop
  char _ _ htop hc hword := ⟨_, .refl _, .turn (x := []) (turn_char hc htop hword)⟩
  escape _ c _ _ := ⟨_, .refl _, .turn (x := [c]) (by simp [Scan.turn])⟩
  dollar htop hleaves := ⟨_, .refl _, passes_dollar htop hleaves⟩
  literal {s ansi t} before rest htop ht _ := by
    refine ⟨s, by cases ansi <;> exact .refl s, ?_⟩
    cases ansi with
    | true => exact passes_ansi htop ht
    | false => exact passes_literal htop ht
  ticks {p s t} before rest _ ht := by
    have hlong : decide (t.length + (rest.length + 1) ≤ t.length) = false := decide_eq_false (by omega)
    refine ⟨_, gains_found t, .turn ?_⟩
    simp only [Scan.turn, CodePoint.scalar.injEq, ↓Char.isValue, Char.reduceEq, ↓reduceIte,
      append_assoc, cons_append, nil_append, closer_ends ht, length_append, length_cons, hlong,
      Bool.or_false, take_left', length_nil, zero_add]
  string {s} before htop rest := by
    refine ⟨s.push .string, .turn (x := []) ?_, rfl,
      fun body found s'' rest h => ⟨s''.pop, ?_, .turn (x := []) ?_⟩⟩
    · rcases htop with htop | htop <;> simp [Scan.turn, htop]
    · simpa [groups] using h.pop (f := .string) nofun
    · simp [Scan.turn, h.stack, Scan.push]
  brace {p s before} htop _ rest := by
    refine ⟨s.push .brace, .turn (x := [ch '{']) (by simp [Scan.turn]), rfl,
      fun body found s'' rest h => ⟨s''.pop, ?_, .turn (x := []) ?_⟩⟩
    · simpa [groups] using h.pop (f := .brace) nofun
    · simp [Scan.turn, h.stack, Scan.push]
  group {p s d} before htop hbare rest := by
    refine ⟨s.openGroup (((if d then [ch '$'] else []) ++ [ch '(']).reverse ++ before).length, ?_,
      .inr rfl, fun body found s'' rest h => ?_⟩
    · cases d with
      | true => exact .turn (x := [ch '(']) (by simp [Scan.turn])
      | false =>
        obtain rfl := hbare rfl
        exact .turn (x := []) (turn_open htop)
    · obtain ⟨s₃, hgains, hturn⟩ := gains_group word body.text rest h
      exact ⟨s₃, by simpa [groups] using hgains, .turn (x := []) hturn⟩

end

section

variable {inner : Str → List Mark} {before rest : Str} {c : CodePoint} {q q' : Quoting} {p : Place}
  {ms : List Mark} {frames : List QuoteFrame}

/-- What the stack has on top in a place. -/
def Place.Within : Place → Option QuoteFrame → Prop
  | bare, top => top = none ∨ top = some .group
  | string, top => top = some .string
  | brace, top => top = some (.brace true) ∨ top = some (.brace false)

def Marks (q : Quoting) (found : List Bool) (q' : Quoting) : Prop :=
  ∃ ms, ms.map (· == .single) = found ∧ q' = { q with out := q.out ++ ms }

theorem Marks.stack {found : List Bool} (h : Marks q found q') : q'.stack = q.stack := by
  obtain ⟨ms, -, rfl⟩ := h
  rfl

theorem passes_mark {x : Str} (h : q.turn inner before c (x ++ rest) = q.mark ms frames)
    (hlen : ms.length = x.length + 1) :
    Passes (Quoting.turn inner) before (c :: x) rest q (q.mark ms frames).2 :=
  .turn (h.trans (Prod.ext hlen rfl))

theorem turn_marks (hc : p.takes c = true) (hwithin : p.Within q.stack.head?) :
    ∃ m, m ≠ .single ∧ q.turn inner before c rest = q.mark [m] q.stack := by
  obtain ⟨⟨hq, hb, ht, hd⟩, ha, hbrace, hbare⟩ := (takes_iff p c).mp hc
  cases p with
  | bare =>
    obtain ⟨hopen, hclose, -, hend, hhash⟩ := hbare rfl
    refine ⟨.bare, nofun, ?_⟩
    rcases hwithin with hwithin | hwithin <;>
      simp [Quoting.turn, hwithin, hq, hb, ht, hd, ha, hopen, hclose, hend, hhash]
  | string =>
    have hwithin : q.stack.head? = some .string := hwithin
    exact ⟨.double, nofun, by simp [Quoting.turn, hwithin, hq, hb, ht, hd]⟩
  | brace =>
    rcases hwithin with hwithin | hwithin
    · exact ⟨.double, nofun, by simp [Quoting.turn, hwithin, hq, hb, ht, hd, ha, hbrace]⟩
    · exact ⟨.bare, nofun, by simp [Quoting.turn, hwithin, hq, hb, ht, hd, ha, hbrace]⟩

theorem turn_group (hwithin : Place.bare.Within q.stack.head?) :
    q.turn inner before (ch '(') rest = q.mark [.bare] (.group :: q.stack) := by
  rcases hwithin with hwithin | hwithin <;> simp [Quoting.turn, hwithin]

theorem marks_dollar (hwithin : p.Within q.stack.head?) (hleaves : Leaves p before rest) :
    ∃ q', Marks q [false] q' ∧ Passes (Quoting.turn inner) before [ch '$'] rest q q' := by
  obtain ⟨hopen, hbrace, hquote⟩ := hleaves
  have hpass (m : Mark) (hm : m ≠ .single) (h : q.turn inner before (ch '$') rest = q.mark [m] q.stack) :
      ∃ q', Marks q [false] q' ∧ Passes (Quoting.turn inner) before [ch '$'] rest q q' :=
    ⟨_, ⟨[m], by simpa using hm, rfl⟩, passes_mark (x := []) h rfl⟩
  by_cases hparen : rest.head? = some (ch '(')
  · obtain ⟨z, rfl⟩ := head?_eq_some_iff.mp hparen
    obtain rfl := hopen rfl
    have hturn : q.turn inner before (ch '$') (ch '(' :: z) = q.mark [.bare, .bare] (.group :: q.stack) := by
      simp [Quoting.turn]
    have hboth : Passes (Quoting.turn inner) before [ch '$', ch '('] z q _ := passes_mark hturn rfl
    have hrest : Passes (Quoting.turn inner) (ch '$' :: before) [ch '('] z (q.mark [.bare] q.stack).2 _ :=
      passes_mark (x := []) (turn_group hwithin) rfl
    refine ⟨_, ⟨[.bare], rfl, rfl⟩, hboth.trans (Eq.trans ?_ hrest.symm)⟩
    simp [Quoting.mark]
  · cases p with
    | string =>
      have hwithin : q.stack.head? = some .string := hwithin
      exact hpass .double nofun (by simp [Quoting.turn, hwithin, hparen, hbrace])
    | brace =>
      have hno : rest.head? ≠ some apostrophe := fun h => by simpa using hquote h
      rcases hwithin with hwithin | hwithin
      · exact hpass .double nofun (by simp [Quoting.turn, hwithin, hparen, hbrace, hno])
      · exact hpass .bare nofun (by simp [Quoting.turn, hwithin, hparen, hbrace, hno])
    | bare =>
      have hno : rest.head? = some apostrophe → ansiCDollar before = false := fun h =>
        ((hquote h).resolve_left nofun).2.1
      refine hpass .bare nofun ?_
      by_cases happ : rest.head? = some apostrophe <;> rcases hwithin with hwithin | hwithin <;>
        simp [Quoting.turn, hwithin, hparen, hbrace, happ, hno]

theorem length_quoteStates (command : Str) : (quoteStates command).length = command.length := by
  rw [quoteStates]
  exact takeD_length _ _ _

theorem Marks.close {front : List Mark} {x found : List Bool} {m : Mark}
    (h : Marks (q.mark front frames).2 found q') (hfront : front.map (· == .single) = x)
    (hm : m ≠ .single) :
    Marks q (x ++ found ++ [false]) { q' with out := q'.out ++ [m], stack := q.stack } := by
  obtain ⟨ms, rfl, rfl⟩ := h
  exact ⟨front ++ ms ++ [m], by simp [← hfront, hm], by simp [Quoting.mark]⟩

def quoteLexer : Lexer Quoting Bool where
  turn := Quoting.turn quoteStates
  out := quoted
  At p q := p.Within q.stack.head?
  Gives := Marks
  refl q := ⟨[], rfl, by simp⟩
  trans := by
    rintro q _ _ x y ⟨ms, rfl, rfl⟩ ⟨ms', rfl, rfl⟩
    exact ⟨ms ++ ms', by simp, by simp⟩
  stays h hwithin := by rw [h.stack]; exact hwithin
  char before rest hwithin hc _ := by
    obtain ⟨m, hm, hturn⟩ := turn_marks hc hwithin
    exact ⟨_, ⟨[m], by simpa [quoted] using hm, rfl⟩, passes_mark (x := []) hturn rfl⟩
  escape before c rest _ :=
    ⟨_, ⟨[.escaped, .escaped], rfl, rfl⟩, passes_mark (x := [c]) (by simp [Quoting.turn]) rfl⟩
  dollar hwithin hleaves := marks_dollar hwithin hleaves
  literal {q ansi t} before rest hwithin ht hlive := by
    cases ansi with
    | true =>
      refine ⟨_, ⟨.bare :: List.replicate (t.length + 2) .single, by simp [quoted], rfl⟩,
        passes_mark ?_ (by simp)⟩
      rcases hwithin with hwithin | hwithin <;>
        simp [Quoting.turn, hwithin, hlive rfl, closer_ends ht]
    | false =>
      refine ⟨_, ⟨List.replicate (t.length + 2) .single, by simp [quoted], rfl⟩, passes_mark ?_ (by simp)⟩
      rcases hwithin with hwithin | hwithin <;> simp [Quoting.turn, hwithin, closer_ends ht]
  ticks {p q t} before rest _ ht := by
    refine ⟨_, ⟨.bare :: (quoteStates t ++ [.bare]), by simp [quoted], rfl⟩,
      passes_mark ?_ (by simp [length_quoteStates])⟩
    simp [Quoting.turn, closer_ends ht]
  string {q} before hwithin rest := by
    refine ⟨(q.mark [.double] (.string :: q.stack)).2, passes_mark (x := []) ?_ rfl, rfl,
      fun body found q' rest h => ⟨_, h.close (m := .double) rfl nofun, .turn (x := []) ?_⟩⟩
    · rcases hwithin with hwithin | hwithin <;> simp [Quoting.turn, hwithin]
    · simp [Quoting.turn, h.stack, Quoting.mark]
  brace {p q before} _ hlive rest := by
    let within := decide (q.stack.head? = some .string ∨ q.stack.head? = some (.brace true))
    let m := if within then Mark.double else .bare
    have hm : m ≠ .single := by
      simp only [m]
      split_ifs <;> nofun
    refine ⟨(q.mark [m, m] (.brace within :: q.stack)).2, passes_mark (x := [ch '{']) ?_ rfl, ?_,
      fun body found q' rest h => ⟨_, h.close (by simp [quoted, hm]) hm, .turn (x := []) ?_⟩⟩
    · simp [Quoting.turn, liveDollar_eq, hlive, m, within]
    · cases within
      · exact .inr rfl
      · exact .inl rfl
    · cases hwithin : within <;> simp [Quoting.turn, h.stack, Quoting.mark, hwithin, m]
  group {p q d} before hwithin hbare rest := by
    refine ⟨(q.mark (if d then [.bare, .bare] else [.bare]) (.group :: q.stack)).2, ?_, .inr rfl,
      fun body found q' rest h => ⟨_, h.close (m := .bare) (by cases d <;> rfl) nofun, .turn (x := []) ?_⟩⟩
    · cases d with
      | true => exact passes_mark (x := [ch '(']) (by simp [Quoting.turn]) rfl
      | false =>
        obtain rfl := hbare rfl
        exact passes_mark (x := []) (turn_group hwithin) rfl
    · simp [Quoting.turn, h.stack, Quoting.mark]

theorem turn_inner {inner' : Str → List Mark}
    (h : ∀ t : Str, t.length ≤ rest.length → inner t = inner' t) :
    q.turn inner before c rest = q.turn inner' before c rest := by
  simp only [Quoting.turn, h _ (length_take_le' _ _)]

theorem loop_inner {inner' : Str → List Mark} {N : ℕ} (h : ∀ t : Str, t.length < N → inner t = inner' t)
    (skip : ℕ) (hrest : rest.length ≤ N) :
    loop (Quoting.turn inner) before rest skip q = loop (Quoting.turn inner') before rest skip q := by
  induction rest generalizing before skip q with
  | nil => rfl
  | cons c rest ih =>
    have hturn : q.turn inner before c rest = q.turn inner' before c rest :=
      turn_inner fun t ht => h t (Nat.lt_of_le_of_lt ht hrest)
    cases skip with
    | zero => rw [loop, loop, hturn, ih _ (Nat.le_of_lt hrest)]
    | succ skip => exact ih skip (Nat.le_of_lt hrest)

theorem quoteStates_eq (command : Str) : quoteStates command =
    (loop (Quoting.turn quoteStates) [] command 0 ⟨[], [], none⟩).out.takeD command.length .bare := by
  rw [quoteStates, loop_inner (N := command.length) (fun t ht => if_pos ht) 0 le_rfl]

end

theorem length_read (src : Source) : (src.read quoted).length = src.text.length := by
  induction src with
  | done => rfl
  | char | escape | pid | dollar | string | brace => simp_all [Source.read, text, quoted, Nat.add_assoc]
  | literal ansi | group ansi => cases ansi <;> simp_all [Source.read, text, quoted] <;> omega
  | ticks => simp_all [Source.read, text, quoted, length_quoteStates, Nat.add_assoc]

/-- Both lexers read a command by its parts, whatever is nested in what, where no dollar of a `$$` is
in front of what it could open. -/
theorem lexers_exact (word : CodePoint → Bool) (src : Source) (hf : src.Formed .bare true)
    (hpaired : src.Paired .bare) :
    balancedGroups word src.text false = ((src.read groups).filter fun b => strip b ≠ [], false) ∧
      (quoteStates src.text).map (· == .single) = src.read quoted := by
  have hsettled (next : Option CodePoint) : Settled [] next := ⟨rfl, fun _ => rfl⟩
  constructor
  · have hreads : (scanLexer word).Reads [] src.text [] ⟨[], [], false, 0, none⟩ (src.read groups) :=
      readable _ src hf hpaired (.inl rfl) (fun _ => rfl) (hsettled _) (.inl rfl)
    obtain ⟨s, ⟨j, -, rfl⟩, hscan⟩ := hreads
    rw [Passes, append_nil] at hscan
    simp only [balancedGroups, Bool.false_eq_true, if_false]
    rw [show loop (Scan.turn word) [] src.text 0 _ = _ from hscan]
    simp [loop]
  · have hreads : quoteLexer.Reads [] src.text [] ⟨[], [], none⟩ (src.read quoted) :=
      readable _ src hf hpaired (.inl rfl) (fun _ => rfl) (hsettled _) (.inl rfl)
    obtain ⟨q, ⟨ms, hms, rfl⟩, hloop⟩ := hreads
    rw [Passes, append_nil] at hloop
    have hlen : ms.length = src.text.length := by
      rw [← length_read src, ← length_map]
      exact congrArg List.length hms
    rw [quoteStates_eq, show loop (Quoting.turn quoteStates) [] src.text 0 _ = _ from hloop, ← hlen]
    have hout : List.takeD ms.length ms Mark.bare = ms := by
      rw [takeD_eq_take _ le_rfl, take_length]
    exact (congrArg (List.map (· == .single)) hout).trans hms

/-- `$(')')$$'b'`. -/
theorem lexers_exact_pid :
    let src : Source := group true (literal false (Str.lit ")") done) (pid (literal false (Str.lit "b") done))
    balancedGroups (fun _ => false) src.text false = ([Str.lit "')'"], false) ∧
      (quoteStates src.text).map (· == .single) =
        [false, false, true, true, true, false, false, false, true, true, true] :=
  lexers_exact (fun _ => false)
    (group true (literal false (Str.lit ")") done) (pid (literal false (Str.lit "b") done)))
    ⟨nofun, ⟨rfl, rfl, trivial⟩, rfl, rfl, trivial⟩ ⟨trivial, ⟨by rintro _ _ ⟨⟩; rfl, trivial⟩⟩

/-- The group of `$$'a\'$(x)' '` is lost: the scan takes the second dollar for one that opens the
literal, which then ends behind the group. -/
theorem group_lost :
    let src : Source := pid (literal false (Str.lit "a\\")
      (group true (char (ch 'x') done) (literal false (Str.lit " ") done)))
    src.Formed .bare true ∧ src.read groups = [Str.lit "x"] ∧
      balancedGroups (fun _ => false) src.text false = ([], false) := by
  refine ⟨⟨rfl, rfl, nofun, ⟨rfl, fun _ _ => by decide, trivial⟩, rfl, rfl, trivial⟩, rfl, by decide⟩

end Turma.Guard
