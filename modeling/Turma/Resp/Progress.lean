import Turma.Resp.Heads

/-! Progress of `RespParser`: over a tame stream every `feed` ends and every reply takes bytes, and
over any other one some reply takes none. -/

namespace Turma.Resp

open Turma.Lib List
open Option hiding min_eq_left

/-- The offsets at which `_tryParse(buf, offset)` calls itself, directly or not, and its own. -/
inductive Calls (buf : Bytes) : ℤ → ℤ → Prop
  | self (offset : ℤ) : Calls buf offset offset
  | element {offset off p q : ℤ} {count i : ℕ} {arr : List Reply}
      (h : parseHead buf offset = .array count off) (hi : i < count)
      (hdone : ReturnsAll buf i off (some (arr, p))) (hq : Calls buf p q) : Calls buf offset q

/-- Every reply that `_tryParse(buf, offset)` and its own calls yield takes at least one byte, and
none behind the buffer. -/
def Consumes (buf : Bytes) (offset : ℤ) : Prop :=
  ∀ p, Calls buf offset p → ∀ value off, Returns buf p (some (value, off)) →
    p < off ∧ off ≤ buf.length

inductive Parsed (buf : Bytes) : Bytes → Prop
  | first : Parsed buf buf
  | next {b rest : Bytes} {value : Reply} (h : Parsed buf b) (hr : Reads b (some (value, rest))) :
      Parsed buf rest

/-- Each `feed` of the run ends, and every reply in it consumes bytes of the buffer. -/
def Advances : Bytes → List Bytes → Prop
  | _, [] => True
  | buf, chunk :: chunks =>
    (∃ fuel, (feed fuel buf chunk).isSome = true) ∧
      (∀ b, Parsed (buf ++ chunk) b → Consumes b 0) ∧
        ∀ fuel out rest, feed fuel buf chunk = some (out, rest) → Advances rest chunks

/-- A result at the front of `bs`, which stands behind `pre`, ends at a token of `bs`, at least `k`
bytes on. -/
def Lands {α : Type} (pre bs : Bytes) (k : ℕ) (r : Option (α × ℤ)) : Prop :=
  ∀ value off, r = some (value, off) →
    ∃ n, k ≤ n ∧ n ≤ bs.length ∧ off = pre.length + n ∧ Reached bs (bs.drop n)

variable {bs : Bytes}

theorem Reached.drop {n : ℕ} (h : tokenLength bs = some n) (hn : 0 < n) :
    Reached bs (bs.drop n) :=
  .next h hn (.here _)

theorem take_append_drop_length {n : ℕ} (pre : Bytes) (hn : n ≤ bs.length) :
    pre ++ bs = (pre ++ bs.take n) ++ bs.drop n ∧ (pre ++ bs.take n).length = pre.length + n := by
  constructor
  · rw [append_assoc, take_append_drop]
  · rw [length_append, length_take, min_eq_left hn]

/-- The loop over elements ends when each `_tryParse` does, and what it returns stays. -/
theorem returnsAll_of {m : ℕ}
    (htry : ∀ pre bs : Bytes, bs.length ≤ m → Tame bs →
      ∃ r, Returns (pre ++ bs) pre.length r ∧ Lands pre bs 1 r ∧
        (r ≠ none → ∀ x, Returns (pre ++ bs ++ x) pre.length r))
    (count : ℕ) (pre bs : Bytes) (hm : bs.length ≤ m) (htame : Tame bs) :
    ∃ r, ReturnsAll (pre ++ bs) count pre.length r ∧ Lands pre bs 0 r ∧
      (r ≠ none → ∀ x, ReturnsAll (pre ++ bs ++ x) count pre.length r) := by
  induction count generalizing pre bs with
  | zero =>
    refine ⟨_, returnsAll_zero _ _, fun arr off h => ?_, fun _ x => returnsAll_zero _ _⟩
    obtain ⟨rfl, rfl⟩ := Prod.mk.inj (some.inj h)
    exact ⟨0, le_rfl, Nat.zero_le _, by simp, .here _⟩
  | succ count ih =>
    obtain ⟨r, hr, hland, hstays⟩ := htry pre bs hm htame
    cases r with
    | none =>
      exact ⟨none, returnsAll_wait hr count, fun _ _ h => (nomatch h), fun h => absurd rfl h⟩
    | some r =>
      obtain ⟨n, hn, hle, hoff, hreach⟩ := hland r.1 r.2 rfl
      obtain ⟨hsplit, hlength⟩ := take_append_drop_length pre hle
      obtain ⟨rs, hrs, hlands, hstaysAll⟩ := ih (pre ++ bs.take n) (bs.drop n)
        (by rw [length_drop]; omega) (htame.of_reached hreach)
      rw [← hsplit, hlength, Nat.cast_add, ← hoff] at hrs hstaysAll
      refine ⟨_, returnsAll_cons hr hrs, ?_, fun hsome x =>
        returnsAll_cons (hstays (by simp) x) (hstaysAll (by rintro rfl; exact hsome rfl) x)⟩
      intro arr off h
      obtain ⟨⟨arr', off'⟩, rfl, heq⟩ := map_eq_some_iff.mp h
      obtain ⟨-, rfl⟩ := Prod.mk.inj heq
      obtain ⟨k, -, hk, hoff', hreach'⟩ := hlands arr' off' rfl
      rw [length_drop] at hk
      refine ⟨n + k, Nat.zero_le _, by omega, ?_, ?_⟩
      · rw [hoff', hlength]
        omega
      · rw [← drop_drop]
        exact hreach.trans hreach'

/-- On a tame stream `_tryParse` ends, its reply takes bytes, and it stays whatever comes. -/
theorem returns_of_tame (pre bs : Bytes) (htame : Tame bs) :
    ∃ r, Returns (pre ++ bs) pre.length r ∧ Lands pre bs 1 r ∧
      (r ≠ none → ∀ x, Returns (pre ++ bs ++ x) pre.length r) := by
  induction hm : bs.length using Nat.strong_induction_on generalizing pre bs with
  | _ m ih =>
    cases htoken : tokenLength bs with
    | none =>
      refine ⟨none, returns_wait ?_, fun _ _ h => (nomatch h), fun h => absurd rfl h⟩
      rw [parseHead_append, parseHead_of_wait htoken]
      rfl
    | some n =>
      have hpos : 0 < n := by
        by_contra hle
        exact htame bs (.here bs) (runaway_iff.mpr ⟨n, by omega, htoken⟩)
      have hle := tokenLength_le htoken
      obtain ⟨n, rfl⟩ := Int.eq_ofNat_of_zero_le hpos.le
      have hreach : Reached bs (bs.drop n) := Reached.drop htoken (by omega)
      have hstable : ∀ x, parseHead (pre ++ bs ++ x) pre.length = (parseHead bs 0).shift pre.length := by
        intro x
        rw [append_assoc, parseHead_append, parseHead_stable htoken]
      rcases parseHead_of_token htoken with ⟨value, hhead⟩ | ⟨-, count, hhead⟩
      · refine ⟨_, returns_reply ((parseHead_append pre bs).trans (congrArg _ hhead)), ?_,
          fun _ x => returns_reply ((hstable x).trans (congrArg _ hhead))⟩
        intro value' off h
        obtain ⟨-, rfl⟩ := Prod.mk.inj (some.inj h)
        exact ⟨n, by omega, by omega, rfl, hreach⟩
      · obtain ⟨hsplit, hlength⟩ := take_append_drop_length pre (by omega : n ≤ bs.length)
        obtain ⟨r, hr, hland, hstays⟩ := returnsAll_of (m := m - 1)
          (fun pre' bs' hlt htame' => ih bs'.length (by omega) pre' bs' htame' rfl) count
          (pre ++ bs.take n) (bs.drop n) (by rw [length_drop]; omega)
          (htame.of_reached hreach)
        rw [← hsplit, hlength, Nat.cast_add] at hr hstays
        refine ⟨_, returns_array ((parseHead_append pre bs).trans (congrArg _ hhead)) hr, ?_,
          fun hsome x => returns_array ((hstable x).trans (congrArg _ hhead))
            (hstays (by rintro rfl; exact hsome rfl) x)⟩
        intro value' off h
        obtain ⟨⟨arr, off'⟩, rfl, heq⟩ := map_eq_some_iff.mp h
        obtain ⟨-, rfl⟩ := Prod.mk.inj heq
        obtain ⟨k, -, hk, hoff', hreach'⟩ := hland arr off' rfl
        rw [length_drop] at hk
        refine ⟨n + k, by omega, by omega, ?_, ?_⟩
        · rw [hoff', hlength]
          omega
        · rw [← drop_drop]
          exact hreach.trans hreach'

theorem returnsAll_of_tame (count : ℕ) (pre bs : Bytes) (htame : Tame bs) :
    ∃ r, ReturnsAll (pre ++ bs) count pre.length r ∧ Lands pre bs 0 r ∧
      (r ≠ none → ∀ x, ReturnsAll (pre ++ bs ++ x) count pre.length r) :=
  returnsAll_of (fun pre' bs' _ => returns_of_tame pre' bs') count pre bs le_rfl htame

variable {buf : Bytes}

/-- On a tame stream every call stands at one of its tokens. -/
theorem calls_of_tame {offset q : ℤ} (h : Calls buf offset q) {pre bs : Bytes}
    (hbuf : buf = pre ++ bs) (hoffset : offset = pre.length) (htame : Tame bs) :
    ∃ n ≤ bs.length, q = pre.length + n ∧ Reached bs (bs.drop n) := by
  induction h generalizing pre bs with
  | self => exact ⟨0, Nat.zero_le _, by omega, .here _⟩
  | @element offset off p q count i arr hhead hi hdone _ ih =>
    subst hbuf hoffset
    rw [parseHead_append] at hhead
    cases htoken : tokenLength bs with
    | none =>
      rw [parseHead_of_wait htoken] at hhead
      exact nomatch hhead
    | some n =>
      have hle := tokenLength_le htoken
      rcases parseHead_of_token htoken with ⟨value, hfront⟩ | ⟨hpos, count', hfront⟩
      · rw [hfront] at hhead
        exact nomatch hhead
      · rw [hfront] at hhead
        obtain ⟨-, rfl⟩ := Head.array.inj hhead
        obtain ⟨n, rfl⟩ := Int.eq_ofNat_of_zero_le hpos.le
        have hreach : Reached bs (bs.drop n) := Reached.drop htoken (by omega)
        obtain ⟨hsplit, hlength⟩ := take_append_drop_length pre (by omega : n ≤ bs.length)
        obtain ⟨r, hr, hland, -⟩ := returnsAll_of_tame i (pre ++ bs.take n) (bs.drop n)
          (htame.of_reached hreach)
        rw [← hsplit, hlength, Nat.cast_add] at hr
        obtain ⟨k, -, hk, hp, hreach'⟩ := hland arr p (hr.unique hdone)
        rw [length_drop] at hk
        rw [drop_drop] at hreach'
        have hreach := hreach.trans hreach'
        obtain ⟨hsplit', hlength'⟩ := take_append_drop_length pre (by omega : n + k ≤ bs.length)
        obtain ⟨j, hj, hq, hreachq⟩ := ih hsplit' (by rw [hp, hlength, hlength']; omega)
          (htame.of_reached hreach)
        rw [length_drop] at hj
        refine ⟨n + k + j, by omega, ?_, ?_⟩
        · rw [hq, hlength']
          omega
        · rw [← drop_drop]
          exact hreach.trans hreachq

/-- On a tame stream every reply takes bytes. -/
theorem consumes_of_tame (htame : Tame bs) : Consumes bs 0 := by
  intro p hp value off h
  obtain ⟨n, hn, rfl, hreach⟩ := calls_of_tame hp (nil_append bs).symm rfl htame
  obtain ⟨r, hr, hland, -⟩ := returns_of_tame (bs.take n) (bs.drop n) (htame.of_reached hreach)
  rw [take_append_drop, length_take, min_eq_left hn] at hr
  rw [length_nil, Nat.cast_zero, zero_add] at h ⊢
  obtain ⟨k, hk, hle, hoff, -⟩ := hland value off (hr.unique h)
  rw [length_take, min_eq_left hn] at hoff
  rw [length_drop] at hle
  omega

/-! The other way: where every reply takes bytes, the parser walks the chain of tokens. -/

/-- The loop over elements, where each call takes bytes: it lands at a token, or it waits and the
stream is tame. -/
theorem walks_elements {offset off : ℤ} {count : ℕ} {pre bs : Bytes}
    (hoff : off = pre.length)
    (hhead : parseHead buf offset = .array count off)
    (hwalk : ∀ n ≤ bs.length, Calls buf offset (pre.length + n) →
      ∃ r, Returns buf (pre.length + n) r ∧ (r = none → Tame (bs.drop n)) ∧
        Lands (pre ++ bs.take n) (bs.drop n) 1 r)
    (i : ℕ) (hi : i ≤ count) :
    (∃ arr, ∃ n ≤ bs.length, ReturnsAll buf i off (some (arr, pre.length + n)) ∧
        Reached bs (bs.drop n)) ∨
      ReturnsAll buf count off none ∧ Tame bs := by
  induction i with
  | zero =>
    exact .inl ⟨[], 0, Nat.zero_le _, by simpa [hoff] using returnsAll_zero buf off, .here _⟩
  | succ i ih =>
    rcases ih (by omega) with ⟨arr, n, hn, hdone, hreach⟩ | hwait
    · obtain ⟨r, hr, hnone, hland⟩ := hwalk n hn (.element hhead hi hdone (.self _))
      cases r with
      | none =>
        have hstop := returnsAll_append hdone (returnsAll_wait hr (count - i - 1))
        rw [show i + (count - i - 1 + 1) = count by omega] at hstop
        have htame := hreach.tame_append (x := []) (by simpa using hnone rfl)
        exact .inr ⟨hstop, by simpa using htame⟩
      | some r =>
        obtain ⟨k, -, hk, hoff', hreach'⟩ := hland r.1 r.2 rfl
        rw [length_drop] at hk
        rw [length_append, length_take, min_eq_left hn] at hoff'
        have hnext := returnsAll_append hdone (returnsAll_cons hr (returnsAll_zero buf r.2))
        refine .inl ⟨arr ++ [r.1], n + k, by omega, ?_, ?_⟩
        · rw [show (pre.length : ℤ) + (n + k : ℕ) = r.2 by omega]
          exact hnext
        · rw [← drop_drop]
          exact hreach.trans hreach'
    · exact .inr hwait

theorem Calls.trans {a b c : ℤ} (h : Calls buf a b) (h' : Calls buf b c) :
    Calls buf a c := by
  induction h with
  | self => exact h'
  | element hhead hi hdone _ ih => exact .element hhead hi hdone (ih h')

/-- Where every call takes bytes, `_tryParse` ends: at a token, or waiting on a tame stream. -/
theorem walks (pre bs : Bytes) (hbuf : buf = pre ++ bs)
    (hconsumes : Consumes buf pre.length) :
    ∃ r, Returns buf pre.length r ∧ (r = none → Tame bs) ∧ Lands pre bs 1 r := by
  induction hm : bs.length using Nat.strong_induction_on generalizing pre bs with
  | _ m ih =>
    subst hbuf
    cases htoken : tokenLength bs with
    | none =>
      refine ⟨none, returns_wait ?_, fun _ => tame_of_wait htoken, fun _ _ h => (nomatch h)⟩
      rw [parseHead_append, parseHead_of_wait htoken]
      rfl
    | some n =>
      have hle := tokenLength_le htoken
      rcases parseHead_of_token htoken with ⟨value, hhead⟩ | ⟨hpos, count, hhead⟩
      · have hreturns := returns_reply ((parseHead_append pre bs).trans (congrArg _ hhead))
        have hpos := (hconsumes _ (.self _) _ _ hreturns).1
        obtain ⟨n, rfl⟩ := Int.eq_ofNat_of_zero_le (by omega : 0 ≤ n)
        refine ⟨_, hreturns, fun h => (nomatch h), fun value' off h => ?_⟩
        obtain ⟨-, rfl⟩ := Prod.mk.inj (some.inj h)
        exact ⟨n, by omega, by omega, rfl, Reached.drop htoken (by omega)⟩
      · obtain ⟨n, rfl⟩ := Int.eq_ofNat_of_zero_le hpos.le
        have hreach : Reached bs (bs.drop n) := Reached.drop htoken (by omega)
        obtain ⟨hsplit, hlength⟩ := take_append_drop_length pre (by omega : n ≤ bs.length)
        have hfront := (parseHead_append pre bs).trans (congrArg _ hhead)
        have hwalk : ∀ k ≤ (bs.drop n).length,
            Calls (pre ++ bs) pre.length ((pre ++ bs.take n).length + k) →
            ∃ r, Returns (pre ++ bs) ((pre ++ bs.take n).length + k) r ∧
              (r = none → Tame ((bs.drop n).drop k)) ∧
                Lands (pre ++ bs.take n ++ (bs.drop n).take k) ((bs.drop n).drop k) 1 r := by
          intro k hk hcall
          rw [length_drop] at hk
          obtain ⟨hsplit', hlength'⟩ :=
            take_append_drop_length (pre ++ bs.take n) (by rw [length_drop]; omega : k ≤ (bs.drop n).length)
          rw [← Nat.cast_add, ← hlength'] at hcall ⊢
          refine ih _ ?_ _ _ (hsplit.trans hsplit') (fun p hp => hconsumes p (hcall.trans hp)) rfl
          rw [length_drop, length_drop]
          omega
        rcases walks_elements (by rw [hlength]; rfl) hfront hwalk count le_rfl with
          ⟨arr, k, hk, hdone, hreach'⟩ | ⟨hwait, htame⟩
        · refine ⟨_, returns_array hfront hdone, fun h => (nomatch h), fun value off h => ?_⟩
          obtain ⟨-, rfl⟩ := Prod.mk.inj (some.inj h)
          rw [length_drop] at hk
          refine ⟨n + k, by omega, by omega, ?_, ?_⟩
          · rw [hlength]
            omega
          · rw [← drop_drop]
            exact hreach.trans hreach'
        · refine ⟨_, returns_array hfront hwait, fun _ => ?_, fun _ _ h => (nomatch h)⟩
          have h := hreach.tame_append (x := []) (by simpa using htame)
          simpa using h

theorem subarray_natCast (bs : Bytes) (n : ℕ) : subarray bs n = bs.drop n := by
  rw [subarray, fromEnd, if_neg (by omega), Int.toNat_natCast]

theorem reads_tame (htame : Tame bs) :
    ∃ r, Reads bs r ∧ ∀ value rest, r = some (value, rest) →
      Reached bs rest ∧ rest.length < bs.length := by
  obtain ⟨r, hr, hland, -⟩ := returns_of_tame [] bs htame
  cases r with
  | none => exact ⟨none, hr, fun _ _ h => (nomatch h)⟩
  | some r =>
    obtain ⟨n, hn, hle, hoff, hreach⟩ := hland r.1 r.2 rfl
    refine ⟨some (r.1, bs.drop n), ⟨r.2, hr, ?_⟩, fun value rest h => ?_⟩
    · rw [hoff, length_nil, Nat.cast_zero, zero_add, subarray_natCast]
    · obtain ⟨-, rfl⟩ := Prod.mk.inj (some.inj h)
      refine ⟨hreach, ?_⟩
      rw [length_drop]
      omega

theorem reached_of_reads {bs rest : Bytes} {value : Reply} (htame : Tame bs)
    (h : Reads bs (some (value, rest))) : Reached bs rest ∧ rest.length < bs.length := by
  obtain ⟨r, hr, hreach⟩ := reads_tame htame
  exact hreach value rest (reads_unique hr h)

theorem admits_tame : Admits Reads Tame where
  one _ _ _ := reads_unique
  total b htame := by
    obtain ⟨r, hr, -⟩ := reads_tame htame
    exact ⟨r, hr⟩
  shrinks b value rest htame h := (reached_of_reads htame h).2
  stable b htame value rest x h := by
    obtain ⟨r, hr, hland, hstays⟩ := returns_of_tame [] b htame
    obtain ⟨offset, hoffset, rfl⟩ := h
    obtain rfl := hr.unique hoffset
    obtain ⟨n, -, hle, hoff, -⟩ := hland value offset rfl
    rw [length_nil, Nat.cast_zero, zero_add] at hoff
    refine ⟨offset, hstays (by simp) x, ?_⟩
    rw [hoff, subarray_natCast, subarray_natCast, drop_append_of_le_length hle]
  start b x := Tame.start
  rest b value rest htame h := htame.of_reached (reached_of_reads htame h).1

theorem reached_of_drains {bs rest : Bytes} {out : List Reply} (htame : Tame bs)
    (h : Drains Reads bs out rest) : Reached bs rest := by
  induction h with
  | stop => exact .here _
  | next h _ ih =>
    have hreach := (reached_of_reads htame h).1
    exact hreach.trans (ih (htame.of_reached hreach))

theorem reached_of_parsed {bs b : Bytes} (htame : Tame bs) (h : Parsed bs b) : Reached bs b := by
  induction h with
  | first => exact .here _
  | next _ hr ih => exact ih.trans (reached_of_reads (htame.of_reached ih) hr).1

theorem Parsed.behind {b rest c : Bytes} {value : Reply} (hr : Reads b (some (value, rest)))
    (h : Parsed rest c) : Parsed b c := by
  induction h with
  | first => exact .next .first hr
  | next _ hr ih => exact .next ih hr

/-- Where every reply of a `feed` takes bytes, what it was fed is tame. -/
theorem tame_of_consumes (h : ∀ b, Parsed bs b → Consumes b 0) : Tame bs := by
  induction hm : bs.length using Nat.strong_induction_on generalizing bs with
  | _ m ih =>
    obtain ⟨r, hr, hnone, hland⟩ := walks [] bs rfl (h bs .first)
    cases r with
    | none => exact hnone rfl
    | some r =>
      obtain ⟨n, hn, hle, hoff, hreach⟩ := hland r.1 r.2 rfl
      have hreads : Reads bs (some (r.1, bs.drop n)) := by
        refine ⟨r.2, hr, ?_⟩
        rw [hoff, length_nil, Nat.cast_zero, zero_add, subarray_natCast]
      have hrest := ih (bs.drop n).length (by rw [length_drop]; omega)
        (fun b hb => h b (hb.behind hreads)) rfl
      have hall := hreach.tame_append (x := []) (by simpa using hrest)
      simpa using hall

theorem advances_iff_tame (buf : Bytes) (chunks : List Bytes) (hbuf : Tame buf) :
    Advances buf chunks ↔ Tame (buf ++ chunks.flatten) := by
  induction chunks generalizing buf with
  | nil => simpa [Advances] using hbuf
  | cons chunk chunks ih =>
    rw [flatten_cons, ← append_assoc]
    constructor
    · rintro ⟨⟨fuel, hends⟩, hconsumes, hrest⟩
      have htame := tame_of_consumes hconsumes
      obtain ⟨⟨out, rest⟩, hfeed⟩ := isSome_iff_exists.mp hends
      have hreach := reached_of_drains htame (drains_of_drain ((feed_eq fuel buf chunk).symm.trans hfeed))
      exact hreach.tame_append ((ih rest (htame.of_reached hreach)).mp (hrest fuel out rest hfeed))
    · intro h
      have htame := h.start
      obtain ⟨out, rest, hdrains⟩ := admits_tame.drains htame
      obtain ⟨fuel, hdrain⟩ := drain_of_drains hdrains
      refine ⟨⟨fuel, by rw [feed_eq, hdrain]; rfl⟩, fun b hb => ?_, fun fuel' out' rest' hfeed => ?_⟩
      · exact consumes_of_tame (htame.of_reached (reached_of_parsed htame hb))
      · have hreach := reached_of_drains htame
          (drains_of_drain ((feed_eq fuel' buf chunk).symm.trans hfeed))
        exact (ih rest' (htame.of_reached hreach)).mpr (h.of_reached (hreach.append _))

theorem tame_nil : Tame [] := tame_of_wait rfl

/-- Every `feed` over the chunks ends and every reply takes bytes exactly when no bulk header of the
stream declares a length of minus five and its own header's length, or less. -/
theorem advances_iff (chunks : List Bytes) :
    Advances [] chunks ↔ ∀ bs, Reached chunks.flatten bs → ¬Runaway bs :=
  advances_iff_tame [] chunks tame_nil

def minusSeven : Bytes := [0x24, 0x2D, 0x37, 13, 10]

theorem minusSeven_head : parseHead minusSeven 0 = .reply (.str []) 0 := by
  have hline : headerLine minusSeven = some [0x2D, 0x37] := by decide
  have htype : typeAt minusSeven 0 = '$' := by decide
  have hlen : (toNumber (utf8Decode [0x2D, 0x37])).integer = some (-7) := by decide +kernel
  rw [parseHead_zero, hline]
  dsimp only
  rw [htype, parseType_bulk, hlen]
  rfl

/-- `feed` never returns from it: `_tryParse` yields a reply that takes no byte, again and again. -/
theorem minusSeven_hangs :
    (∀ fuel, feed fuel [] minusSeven = none) ∧ Returns minusSeven 0 (some (.str [], 0)) ∧
      ¬Advances [] [minusSeven] := by
  have hhangs : ∀ fuel, drain fuel minusSeven = none := by
    intro fuel
    induction fuel with
    | zero => rfl
    | succ fuel ih =>
      rw [drain]
      cases fuel with
      | zero => rfl
      | succ fuel =>
        rw [tryParse, minusSeven_head]
        dsimp only
        rw [show subarray minusSeven 0 = minusSeven from rfl, ih]
        rfl
  have hfeed : ∀ fuel, feed fuel [] minusSeven = none := by
    intro fuel
    rw [feed_eq]
    exact hhangs fuel
  refine ⟨hfeed, returns_reply minusSeven_head, ?_⟩
  rintro ⟨⟨fuel, h⟩, -⟩
  rw [hfeed] at h
  cases h

end Turma.Resp
