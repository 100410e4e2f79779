import Mathlib.Data.List.TakeWhile
import Turma.Tty.Shape

/-! A terminal's text may be cut anywhere: what is not complete waits, and is read again from its
start with what comes behind it. -/

namespace Turma.Tty

open List Option

theorem skipOsc_cons (c : CodeUnit) (s : Text) : skipOsc (c :: s) =
    if c = 0x07 then some s
    else if c = esc then if s.head? = some (codeUnit '\\') then some s.tail else skipOsc s
    else skipOsc s := by
  rw [skipOsc.eq_def]
  cases s with
  | nil => rfl
  | cons d s =>
    rw [head?_cons, tail_cons]
    simp only [some.injEq]

theorem nextEscape_cons (c : CodeUnit) (s : Text) : nextEscape (c :: s) =
    if c = codeUnit '[' then nextCsi s
    else if c = codeUnit ']' then (skipOsc s).map fun rest => (.dropped, rest)
    else if c = codeUnit '7' then some (.save, s)
    else if c = codeUnit '8' then some (.restore, s)
    else if c = codeUnit 'M' then some (.reverseIndex, s)
    else if c = codeUnit '(' ∨ c = codeUnit ')' ∨ c = codeUnit '*' ∨ c = codeUnit '+' then
      if s = [] then none else some (.dropped, s.tail)
    else some (.dropped, s) := by
  rw [nextEscape.eq_def]
  cases s with
  | nil => rfl
  | cons d s => simp only [reduceCtorEq, if_false, tail_cons]

variable {s rest : Text}

theorem skipOsc_split (h : skipOsc s = some rest) :
    ∃ used, s = used ++ rest ∧ ∀ x, skipOsc (used ++ x) = some x := by
  induction s with
  | nil => cases h
  | cons c s ih =>
    rw [skipOsc_cons] at h
    split_ifs at h with hbel hesc hst
    · cases h
      refine ⟨[c], rfl, fun x => ?_⟩
      rw [singleton_append, skipOsc_cons, if_pos hbel]
    · cases h
      obtain ⟨s', rfl⟩ := head?_eq_some_iff.mp hst
      refine ⟨[c, codeUnit '\\'], rfl, fun x => ?_⟩
      rw [cons_append, skipOsc_cons, if_neg hbel, if_pos hesc]
      exact if_pos rfl
    · obtain ⟨used, rfl, hall⟩ := ih h
      refine ⟨c :: used, rfl, fun x => ?_⟩
      have hne : used ≠ [] := by
        rintro rfl
        exact absurd (skipOsc_shorter h) (Nat.lt_irrefl _)
      rw [List.head?_append_of_ne_nil _ hne] at hst
      rw [cons_append, skipOsc_cons, if_neg hbel, if_pos hesc,
        List.head?_append_of_ne_nil _ hne, if_neg hst]
      exact hall x
    · obtain ⟨used, rfl, hall⟩ := ih h
      refine ⟨c :: used, rfl, fun x => ?_⟩
      rw [cons_append, skipOsc_cons, if_neg hbel, if_neg hesc]
      exact hall x

/-- A list is cut where the first element fails the test. -/
theorem while_split {p : CodeUnit → Bool} {a b : Text} (ha : ∀ c ∈ a, p c = true)
    (hb : ∀ c ∈ b.head?, p c = false) :
    (a ++ b).takeWhile p = a ∧ (a ++ b).dropWhile p = b := by
  have hstop : b.takeWhile p = [] ∧ b.dropWhile p = b := by
    cases b with
    | nil => exact ⟨rfl, rfl⟩
    | cons c b => simp [hb c rfl]
  rw [takeWhile_append_of_pos ha, dropWhile_append_of_pos ha, hstop.1, hstop.2]
  exact ⟨append_nil a, rfl⟩

theorem head_dropWhile_false (p : CodeUnit → Bool) (s : Text) :
    ∀ c ∈ (s.dropWhile p).head?, p c = false := by
  intro c hc
  have hhead := head?_dropWhile_not p s
  rw [mem_def.mp hc] at hhead
  simpa using hhead

variable {t : Token}

theorem nextCsi_split (h : nextCsi s = some (t, rest)) :
    ∃ used, s = used ++ rest ∧ ∀ x, nextCsi (used ++ x) = some (t, x) := by
  have hparams : ∀ c ∈ s.takeWhile paramUnit, paramUnit c = true := fun c hc =>
    mem_takeWhile_imp hc
  have hinter : ∀ c ∈ (s.dropWhile paramUnit).takeWhile intermediate, intermediate c = true :=
    fun c hc => mem_takeWhile_imp hc
  have hafter := head_dropWhile_false paramUnit s
  have hfinal := head_dropWhile_false intermediate (s.dropWhile paramUnit)
  have hs : s.takeWhile paramUnit ++ s.dropWhile paramUnit = s := takeWhile_append_dropWhile
  have hd : (s.dropWhile paramUnit).takeWhile intermediate ++
      (s.dropWhile paramUnit).dropWhile intermediate = s.dropWhile paramUnit :=
    takeWhile_append_dropWhile
  unfold nextCsi at h
  generalize s.takeWhile paramUnit = params at *
  generalize s.dropWhile paramUnit = behind at *
  generalize behind.takeWhile intermediate = inter at *
  generalize behind.dropWhile intermediate = ending at *
  cases ending with
  | nil => cases h
  | cons final ending =>
    obtain ⟨rfl, rfl⟩ := Prod.mk.inj (some.inj h)
    refine ⟨params ++ (inter ++ [final]), ?_, fun x => ?_⟩
    · rw [← hs, ← hd]
      simp
    · have hx : params ++ (inter ++ [final]) ++ x = params ++ (inter ++ final :: x) := by simp
      have hhead : ∀ c ∈ (inter ++ final :: x).head?, paramUnit c = false := by
        intro c hc
        refine hafter c ?_
        rw [← hd]
        cases inter with
        | nil => exact hc
        | cons d inter => exact hc
      obtain ⟨htake, hdrop⟩ := while_split hparams hhead
      obtain ⟨htake', hdrop'⟩ := @while_split intermediate inter (final :: x) hinter hfinal
      rw [hx]
      unfold nextCsi
      rw [htake, hdrop, htake', hdrop']

theorem nextEscape_split (h : nextEscape s = some (t, rest)) :
    ∃ used, s = used ++ rest ∧ ∀ x, nextEscape (used ++ x) = some (t, x) := by
  cases s with
  | nil => cases h
  | cons c s =>
    rw [nextEscape_cons] at h
    split_ifs at h with hcsi hosc hsave hrestore hri hset hnil
    · obtain ⟨used, rfl, hall⟩ := nextCsi_split h
      refine ⟨c :: used, rfl, fun x => ?_⟩
      rw [cons_append, nextEscape_cons, if_pos hcsi]
      exact hall x
    · obtain ⟨rest', hskip, heq⟩ := map_eq_some_iff.mp h
      obtain ⟨rfl, rfl⟩ := Prod.mk.inj heq
      obtain ⟨used, rfl, hall⟩ := skipOsc_split hskip
      refine ⟨c :: used, rfl, fun x => ?_⟩
      rw [cons_append, nextEscape_cons, if_neg hcsi, if_pos hosc, hall x]
      rfl
    · obtain ⟨rfl, rfl⟩ := Prod.mk.inj (some.inj h)
      refine ⟨[c], rfl, fun x => ?_⟩
      rw [cons_append, nextEscape_cons, if_neg hcsi, if_neg hosc, if_pos hsave]
      rfl
    · obtain ⟨rfl, rfl⟩ := Prod.mk.inj (some.inj h)
      refine ⟨[c], rfl, fun x => ?_⟩
      rw [cons_append, nextEscape_cons, if_neg hcsi, if_neg hosc, if_neg hsave, if_pos hrestore]
      rfl
    · obtain ⟨rfl, rfl⟩ := Prod.mk.inj (some.inj h)
      refine ⟨[c], rfl, fun x => ?_⟩
      rw [cons_append, nextEscape_cons, if_neg hcsi, if_neg hosc, if_neg hsave, if_neg hrestore,
        if_pos hri]
      rfl
    · obtain ⟨rfl, rfl⟩ := Prod.mk.inj (some.inj h)
      obtain ⟨d, s', rfl⟩ := exists_cons_of_ne_nil hnil
      refine ⟨[c, d], rfl, fun x => ?_⟩
      rw [cons_append, nextEscape_cons, if_neg hcsi, if_neg hosc, if_neg hsave, if_neg hrestore,
        if_neg hri, if_pos hset]
      rfl
    · obtain ⟨rfl, rfl⟩ := Prod.mk.inj (some.inj h)
      refine ⟨[c], rfl, fun x => ?_⟩
      rw [cons_append, nextEscape_cons, if_neg hcsi, if_neg hosc, if_neg hsave, if_neg hrestore,
        if_neg hri, if_neg hset]
      rfl

theorem next_split (h : next s = some (t, rest)) :
    ∃ used, s = used ++ rest ∧ ∀ x, next (used ++ x) = some (t, x) := by
  cases s with
  | nil => cases h
  | cons c s =>
    rw [next] at h
    split_ifs at h with hesc
    · obtain ⟨used, rfl, hall⟩ := nextEscape_split h
      refine ⟨c :: used, rfl, fun x => ?_⟩
      rw [cons_append, next, if_pos hesc]
      exact hall x
    · obtain ⟨rfl, rfl⟩ := Prod.mk.inj (some.inj h)
      refine ⟨[c], rfl, fun x => ?_⟩
      rw [cons_append, next, if_neg hesc]
      rfl

theorem process_stuck {screen : Screen} {s : Text} (h : next s = none) :
    process screen s = some (screen, s) := by
  unfold process
  split
  · rfl
  · rename_i hsome
    rw [h] at hsome
    cases hsome

theorem process_next {screen : Screen} (h : next s = some (t, rest)) :
    process screen s = (screen.apply t).bind fun screen => process screen rest := by
  rw [process.eq_1]
  split
  · rename_i hnone
    rw [h] at hnone
    cases hnone
  · rename_i t' rest' hsome
    rw [h] at hsome
    obtain ⟨rfl, rfl⟩ := Prod.mk.inj (some.inj hsome)
    rfl

/-- What comes later is read behind what was left. -/
theorem process_append (screen : Screen) (b x : Text) : process screen (b ++ x) =
    (process screen b).bind fun out => process out.1 (out.2 ++ x) := by
  induction hn : b.length using Nat.strong_induction_on generalizing screen b with
  | _ n ih =>
    cases hb : next b with
    | none => rw [process_stuck hb, bind_some]
    | some token =>
      obtain ⟨t, rest⟩ := token
      obtain ⟨used, rfl, hall⟩ := next_split hb
      rw [append_assoc, process_next (hall (rest ++ x)), process_next (hall rest),
        bind_assoc]
      congr 1
      funext screen'
      exact ih rest.length (hn ▸ next_shorter hb) screen' rest rfl

/-- No control sequence of the text, also not one that its end cuts off, is longer than
`PENDING_MAX`. -/
inductive ShortSequences : Text → Prop
  | stuck {s : Text} : next s = none → s.length ≤ pendingMax → ShortSequences s
  | token {used rest : Text} {t : Token} : next (used ++ rest) = some (t, rest) →
    used.length ≤ pendingMax → ShortSequences rest → ShortSequences (used ++ rest)

variable {screen screen' : Screen}

/-- What waits while such a text is written is never too long. -/
theorem ShortSequences.left {b x rest : Text} (h : ShortSequences (b ++ x))
    (hb : process screen b = some (screen', rest)) :
    next rest = none ∧ rest.length ≤ pendingMax ∧ ShortSequences (rest ++ x) := by
  induction hn : b.length using Nat.strong_induction_on generalizing screen b with
  | _ n ih =>
    cases hnext : next b with
    | none =>
      rw [process_stuck hnext] at hb
      obtain ⟨rfl, rfl⟩ := Prod.mk.inj (some.inj hb)
      refine ⟨hnext, ?_, h⟩
      generalize hwhole : b ++ x = s at h
      cases h with
      | stuck _ hlen =>
        rw [← hwhole, length_append] at hlen
        omega
      | @token used rest t htoken hlen _ =>
        by_contra hlong
        -- then the sequence ends within what waits
        have hused : used = b.take used.length := by
          have htake := congrArg (List.take used.length) hwhole
          rw [take_left, take_append_of_le_length (by omega)] at htake
          exact htake.symm
        obtain ⟨used', hsplit, hall⟩ := next_split htoken
        obtain rfl : used = used' := append_cancel_right hsplit
        have hfound := hall (b.drop used.length)
        nth_rewrite 1 [hused] at hfound
        rw [take_append_drop, hnext] at hfound
        cases hfound
    | some token =>
      obtain ⟨t, left⟩ := token
      obtain ⟨used, rfl, hall⟩ := next_split hnext
      rw [process_next hnext] at hb
      obtain ⟨screen₁, -, hb⟩ := bind_eq_some_iff.mp hb
      refine ih left.length (hn ▸ next_shorter hnext) ?_ hb rfl
      rw [append_assoc] at h
      generalize hwhole : used ++ (left ++ x) = s at h
      have htoken := hall (left ++ x)
      rw [hwhole] at htoken
      cases h with
      | stuck hnone _ =>
        rw [hnone] at htoken
        cases htoken
      | token hsome _ hrest =>
        rw [htoken] at hsome
        obtain ⟨-, rfl⟩ := Prod.mk.inj (some.inj hsome)
        exact hrest

variable {g : TerminalGrid}

namespace TerminalGrid

/-- What waits is the start of a control sequence, and not too long. -/
structure Waiting (g : TerminalGrid) : Prop where
  stuck : next g.pending = none
  short : g.pending.length ≤ pendingMax

inductive Call
  | write (data : Text)
  | resize (cols rows : ℤ)

def call (g : TerminalGrid) : Call → Option TerminalGrid
  | .write data => g.write data
  | .resize cols rows => some (g.resize cols rows)

def run (g : TerminalGrid) (calls : List Call) : Option TerminalGrid := calls.foldlM call g

structure Sound (g : TerminalGrid) : Prop where
  shaped : g.screen.Shaped
  waiting : g.Waiting

theorem process_left
    (h : process screen s = some (screen', rest)) : next rest = none := by
  induction hn : s.length using Nat.strong_induction_on generalizing screen s with
  | _ n ih =>
    cases hnext : next s with
    | none =>
      rw [process_stuck hnext] at h
      obtain ⟨rfl, rfl⟩ := Prod.mk.inj (some.inj h)
      exact hnext
    | some token =>
      rw [process_next hnext] at h
      obtain ⟨screen₁, -, h⟩ := bind_eq_some_iff.mp h
      exact ih _ (hn ▸ next_shorter hnext) h rfl

theorem Sound.call (h : g.Sound) (c : Call) :
    ∃ g', g.call c = some g' ∧ g'.Sound := by
  cases c with
  | write data =>
    obtain ⟨screen, rest, hprocess, hshaped⟩ := h.shaped.process (g.pending ++ data)
    refine ⟨⟨screen, if pendingMax < rest.length then [] else rest⟩, ?_, hshaped, ?_⟩
    · rw [TerminalGrid.call, write, hprocess]
      rfl
    by_cases hlong : pendingMax < rest.length
    · exact ⟨by rw [if_pos hlong]; rfl, by rw [if_pos hlong]; exact Nat.zero_le _⟩
    · rw [if_neg hlong]
      exact ⟨process_left hprocess, Nat.not_lt.mp hlong⟩
  | resize cols rows => exact ⟨_, rfl, h.shaped.resize cols rows, h.waiting.stuck, h.waiting.short⟩

theorem sound_new (cols rows : ℤ) : (new cols rows).Sound :=
  ⟨Screen.shaped_new cols rows, rfl, Nat.zero_le _⟩

theorem Sound.run (h : g.Sound) (calls : List Call) :
    ∃ g', g.run calls = some g' ∧ g'.Sound := by
  induction calls generalizing g with
  | nil => exact ⟨g, rfl, h⟩
  | cons c calls ih =>
    obtain ⟨g₁, hcall, h₁⟩ := h.call c
    obtain ⟨g₂, hrun, h₂⟩ := ih h₁
    refine ⟨g₂, ?_, h₂⟩
    rw [TerminalGrid.run, foldlM_cons, hcall]
    exact hrun

theorem writeAll_eq (h : g.Waiting) {chunks : List Text}
    (hshort : ShortSequences (g.pending ++ chunks.flatten)) :
    g.writeAll chunks = g.write chunks.flatten := by
  induction chunks generalizing g with
  | nil =>
    rw [flatten_nil, write, append_nil, process_stuck h.stuck, map_some,
      if_neg (Nat.not_lt.mpr h.short)]
    rfl
  | cons c chunks ih =>
    rw [flatten_cons, ← append_assoc] at hshort
    rw [writeAll, foldlM_cons, flatten_cons, write, write, ← append_assoc,
      process_append g.screen (g.pending ++ c)]
    cases hout : process g.screen (g.pending ++ c) with
    | none => rfl
    | some out =>
      obtain ⟨hstuck, hlen, hrest⟩ := hshort.left hout
      rw [map_some, if_neg (Nat.not_lt.mpr hlen), bind_some]
      exact ih ⟨hstuck, hlen⟩ hrest

/-- The grid of every run is well formed, and a text leaves the same however it is cut. -/
theorem run_sound (cols rows : ℤ) (calls : List Call) :
    ∃ g, (new cols rows).run calls = some g ∧ g.screen.Shaped ∧
      ∀ chunks : List Text, ShortSequences (g.pending ++ chunks.flatten) →
        g.writeAll chunks = g.write chunks.flatten := by
  obtain ⟨g, hrun, hsound⟩ := (sound_new cols rows).run calls
  exact ⟨g, hrun, hsound.shaped, fun chunks hshort => writeAll_eq hsound.waiting hshort⟩

theorem write_letter_esc : ((new 80 24).write [codeUnit 'a', esc]).map (·.pending) = some [esc] := by
  have hletter : next [codeUnit 'a', esc] = some (.unit (codeUnit 'a'), [esc]) := rfl
  have hput : ((Screen.new 80 24).apply (.unit (codeUnit 'a'))).isSome = true := rfl
  obtain ⟨screen, hscreen⟩ := isSome_iff_exists.mp hput
  change ((process (Screen.new 80 24) [codeUnit 'a', esc]).map _).map _ = _
  rw [process_next hletter, hscreen, bind_some, process_stuck rfl]
  rfl

/-- An erase whose ESC a write has left behind, before the grid was resized. -/
theorem run_sound_cut : ∃ g,
    (new 80 24).run [.write [codeUnit 'a', esc], .resize 100 30] = some g ∧ g.pending = [esc] ∧
      g.writeAll [[codeUnit '['], [codeUnit 'J', codeUnit 'b']] =
        g.write [codeUnit '[', codeUnit 'J', codeUnit 'b'] := by
  obtain ⟨g, hrun, -, hcut⟩ := run_sound 80 24 [.write [codeUnit 'a', esc], .resize 100 30]
  obtain ⟨g₁, hwrite, hesc⟩ := map_eq_some_iff.mp write_letter_esc
  have hg : g₁.resize 100 30 = g := by
    rw [TerminalGrid.run, foldlM_cons, call, hwrite] at hrun
    exact some.inj hrun
  subst hg
  have hread : next ([esc, codeUnit '[', codeUnit 'J'] ++ [codeUnit 'b']) =
      some (.csi [] (codeUnit 'J'), [codeUnit 'b']) := rfl
  have hletter : next ([codeUnit 'b'] ++ []) = some (.unit (codeUnit 'b'), []) := rfl
  have hshort : ShortSequences ([esc, codeUnit '[', codeUnit 'J'] ++ [codeUnit 'b']) :=
    .token hread (by decide) (.token hletter (by decide) (.stuck rfl (by decide)))
  refine ⟨_, hrun, hesc, hcut [[codeUnit '['], [codeUnit 'J', codeUnit 'b']] ?_⟩
  rw [show (g₁.resize 100 30).pending = [esc] from hesc]
  exact hshort

end TerminalGrid

end Turma.Tty
