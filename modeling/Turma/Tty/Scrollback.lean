import Turma.Lib.Utf8
import Mathlib.Data.List.DropRight

/-! The pty-host's scrollback: a ring of bytes kept as a list of chunks with a running total, and
flattened only when somebody reads it. Read back, it is the tail of everything appended. -/

namespace Turma.Tty

open Turma.Lib List

inductive Chunk
  | buffer (b : Bytes)
  | text (s : JsString)

def Chunk.bytes : Chunk → Bytes
  | .buffer b => b
  | .text s => s.utf8

/-- `Buffer.concat(chunks, length)`, which cuts or pads to `length`. -/
def concat (chunks : List Bytes) (length : ℕ) : Bytes :=
  chunks.flatten.take length ++ List.replicate (length - chunks.flatten.length) 0

structure ScrollbackRing where
  max : ℕ
  chunks : List Bytes
  len : ℕ
  /-- `_flat` -/
  flat : Option Bytes

namespace ScrollbackRing

/-- The constructor: a ceiling that is no positive number falls back to 256 KiB. -/
def new (maxBytes : ℤ) : ScrollbackRing :=
  { max := if 0 < maxBytes then maxBytes.toNat else 256 * 1024
    chunks := [], len := 0, flat := none }

/-- The `while` of `append`: chunks leave at the front while the rest still covers `max`. -/
def dropWhole (max : ℕ) : List Bytes → ℕ → List Bytes × ℕ
  | c :: d :: cs, len =>
    if max ≤ len - c.length then dropWhole max (d :: cs) (len - c.length) else (c :: d :: cs, len)
  | cs, len => (cs, len)

/-- What `append` does to the chunks and their total once these are over `max`. -/
def cutTo (max : ℕ) (chunks : List Bytes) (len : ℕ) : List Bytes × ℕ :=
  match dropWhole max chunks len with
  | (head :: rest, len) =>
    if max < len then (head.drop (len - max) :: rest, len - (len - max)) else (head :: rest, len)
  | ([], len) => ([], len)

def append (r : ScrollbackRing) (chunk : Chunk) : ScrollbackRing :=
  let b := chunk.bytes
  if b.length = 0 then r
  else
    let chunks := r.chunks ++ [b]
    let len := r.len + b.length
    if len ≤ r.max then { r with chunks := chunks, len := len, flat := none }
    else
      let cut := cutTo r.max chunks len
      { r with chunks := cut.1, len := cut.2, flat := none }

/-- What `bytes` flattens to when nothing is memoised. -/
def flatten (r : ScrollbackRing) : Bytes :=
  match r.chunks with
  | [c] => c
  | chunks => concat chunks r.len

def bytes (r : ScrollbackRing) : Bytes × ScrollbackRing :=
  match r.flat with
  | some flat => (flat, r)
  | none => (r.flatten, { r with flat := some r.flatten })

def length (r : ScrollbackRing) : ℕ := r.len

end ScrollbackRing

inductive RingOp
  | append (chunk : Chunk)
  | bytes

def RingOp.run (r : ScrollbackRing) : RingOp → ScrollbackRing
  | .append chunk => r.append chunk
  | .bytes => r.bytes.2

def RingOp.appended : RingOp → Bytes
  | .append chunk => chunk.bytes
  | .bytes => []

def ringAfter (maxBytes : ℤ) (ops : List RingOp) : ScrollbackRing :=
  ops.foldl RingOp.run (.new maxBytes)

def streamOf (ops : List RingOp) : Bytes := ops.flatMap RingOp.appended

namespace ScrollbackRing

theorem dropWhole_suffix (max : ℕ) (chunks : List Bytes) (len : ℕ) :
    (dropWhole max chunks len).1 <:+ chunks := by
  induction chunks generalizing len with
  | nil => exact suffix_refl _
  | cons c cs ih =>
    cases cs with
    | nil => exact suffix_refl _
    | cons d cs =>
      rw [dropWhole]
      split_ifs with h
      · exact (ih (len - c.length)).trans (suffix_cons c _)
      · exact suffix_refl _

theorem dropWhole_len (max : ℕ) (chunks : List Bytes) (len : ℕ)
    (h : len = chunks.flatten.length) :
    (dropWhole max chunks len).2 = (dropWhole max chunks len).1.flatten.length := by
  induction chunks generalizing len with
  | nil => exact h
  | cons c cs ih =>
    cases cs with
    | nil => exact h
    | cons d cs =>
      rw [dropWhole]
      split_ifs
      · refine ih _ ?_
        rw [h, flatten_cons, length_append]
        omega
      · exact h

/-- The loop stops with `max` covered. -/
theorem dropWhole_covers (max : ℕ) (chunks : List Bytes) (len : ℕ) (h : max ≤ len) :
    max ≤ (dropWhole max chunks len).2 := by
  induction chunks generalizing len with
  | nil => exact h
  | cons c cs ih =>
    cases cs with
    | nil => exact h
    | cons d cs =>
      rw [dropWhole]
      split_ifs with hc
      · exact ih _ hc
      · exact h

/-- And what it leaves behind the head does not cover `max`, unless nothing is there. -/
theorem dropWhole_head (max : ℕ) (chunks : List Bytes) (len : ℕ) (head : Bytes)
    (rest : List Bytes) (h : (dropWhole max chunks len).1 = head :: rest) :
    rest = [] ∨ (dropWhole max chunks len).2 - head.length < max := by
  induction chunks generalizing len with
  | nil => cases h
  | cons c cs ih =>
    cases cs with
    | nil =>
      cases h
      exact .inl rfl
    | cons d cs =>
      rw [dropWhole] at h ⊢
      split_ifs at h ⊢ with hc
      · exact ih _ h
      · cases h
        exact .inr (Nat.lt_of_not_le hc)

/-- Cut, the chunks hold the last `max` bytes. -/
theorem cutTo_spec (max : ℕ) (chunks : List Bytes) (len : ℕ) (hl : len = chunks.flatten.length)
    (h : max < len) :
    (cutTo max chunks len).1.flatten <:+ chunks.flatten ∧ (cutTo max chunks len).2 = max ∧
      (cutTo max chunks len).1.flatten.length = max := by
  have hlen := dropWhole_len max chunks len hl
  have hcov := dropWhole_covers max chunks len h.le
  have hhead := dropWhole_head max chunks len
  have hflat : (dropWhole max chunks len).1.flatten <:+ chunks.flatten := by
    obtain ⟨gone, hgone⟩ := dropWhole_suffix max chunks len
    exact ⟨gone.flatten, by rw [← flatten_append, hgone]⟩
  rw [cutTo]
  generalize dropWhole max chunks len = cut at hlen hcov hflat hhead
  obtain ⟨left, total⟩ := cut
  cases left with
  | nil =>
    simp only [flatten_nil, length_nil] at hlen hcov ⊢
    exact ⟨nil_suffix, by omega, by omega⟩
  | cons head rest =>
    simp only [flatten_cons, length_append] at hlen hcov hflat ⊢
    have hcut : total - max ≤ head.length := by
      rcases hhead head rest rfl with rfl | hr
      · simp at hlen
        omega
      · omega
    split_ifs with hm
    · refine ⟨?_, by omega, ?_⟩
      · rw [flatten_cons, ← drop_append_of_le_length hcut]
        exact (drop_suffix _ _).trans hflat
      · simp only [flatten_cons, length_append, length_drop]
        omega
    · exact ⟨hflat, by omega, by simp only [flatten_cons, length_append]; omega⟩

end ScrollbackRing

/-- The ring holds the tail of `stream`, and so does its memo. -/
structure Tail (ceiling : ℕ) (stream : Bytes) (r : ScrollbackRing) : Prop where
  max : r.max = ceiling
  suffix : r.chunks.flatten <:+ stream
  len : r.len = min stream.length ceiling
  length : r.chunks.flatten.length = r.len
  flat : ∀ flat ∈ r.flat, flat = r.chunks.flatten

theorem Tail.flatten {ceiling : ℕ} {stream : Bytes} {r : ScrollbackRing} (t : Tail ceiling stream r) :
    r.flatten = r.chunks.flatten := by
  rw [ScrollbackRing.flatten]
  split
  · next c hc => simp [hc]
  · rw [concat, ← t.length]
    simp

theorem Tail.bytes {ceiling : ℕ} {stream : Bytes} {r : ScrollbackRing} (t : Tail ceiling stream r) :
    r.bytes.1 = r.chunks.flatten := by
  rw [ScrollbackRing.bytes]
  cases hf : r.flat with
  | none => exact t.flatten
  | some flat => exact t.flat flat hf

theorem Tail.read {ceiling : ℕ} {stream : Bytes} {r : ScrollbackRing} (t : Tail ceiling stream r) :
    Tail ceiling stream r.bytes.2 := by
  rw [ScrollbackRing.bytes]
  cases hf : r.flat with
  | none =>
    refine ⟨t.max, t.suffix, t.len, t.length, fun flat h => ?_⟩
    cases h
    exact t.flatten
  | some flat => exact t

theorem Tail.append {ceiling : ℕ} {stream : Bytes} {r : ScrollbackRing} (t : Tail ceiling stream r)
    (chunk : Chunk) : Tail ceiling (stream ++ chunk.bytes) (r.append chunk) := by
  have hmax := t.max
  have hlen := t.len
  have hlength := t.length
  rw [ScrollbackRing.append]
  by_cases hb : chunk.bytes.length = 0
  · rw [if_pos hb, length_eq_zero_iff.mp hb, append_nil]
    exact t
  · have hgrown : (r.chunks ++ [chunk.bytes]).flatten = r.chunks.flatten ++ chunk.bytes := by
      simp
    have hsuffix : (r.chunks ++ [chunk.bytes]).flatten <:+ stream ++ chunk.bytes := by
      obtain ⟨gone, hgone⟩ := t.suffix
      exact ⟨gone, by rw [hgrown, ← append_assoc, hgone]⟩
    have htotal : (r.chunks ++ [chunk.bytes]).flatten.length = r.len + chunk.bytes.length := by
      rw [hgrown, length_append, hlength]
    have hstream : (stream ++ chunk.bytes).length = stream.length + chunk.bytes.length :=
      length_append
    by_cases hfit : r.len + chunk.bytes.length ≤ r.max
    · rw [if_neg hb, if_pos hfit]
      refine ⟨hmax, hsuffix, ?_, htotal, fun flat h => nomatch h⟩
      show r.len + chunk.bytes.length = min (stream ++ chunk.bytes).length ceiling
      omega
    · rw [if_neg hb, if_neg hfit]
      obtain ⟨hs, hc, hl⟩ := ScrollbackRing.cutTo_spec r.max _ _ htotal.symm (by omega)
      refine ⟨hmax, hs.trans hsuffix, ?_, hl.trans hc.symm, fun flat h => nomatch h⟩
      refine hc.trans ?_
      omega

theorem Tail.run {ceiling : ℕ} {stream : Bytes} {r : ScrollbackRing} (t : Tail ceiling stream r)
    (op : RingOp) : Tail ceiling (stream ++ op.appended) (op.run r) := by
  cases op with
  | append chunk => exact t.append chunk
  | bytes =>
    rw [RingOp.appended, append_nil]
    exact t.read

theorem tail_after (maxBytes : ℤ) (ops : List RingOp) :
    Tail (ScrollbackRing.new maxBytes).max (streamOf ops) (ringAfter maxBytes ops) := by
  induction ops using List.reverseRecOn with
  | nil => exact ⟨rfl, suffix_refl _, (Nat.zero_min _).symm, rfl, fun flat h => nomatch h⟩
  | append_singleton ops op ih =>
    rw [streamOf, flatMap_append, ringAfter, foldl_append]
    simpa [streamOf, ringAfter] using ih.run op

/-- After any appends and reads the ring reads back as the last `maxBytes` bytes appended, or all
of them when they are fewer, and tells their number. -/
theorem bytes_eq_tail (maxBytes : ℤ) (ops : List RingOp) (h : 0 < maxBytes) :
    (ringAfter maxBytes ops).bytes.1 =
        (streamOf ops).rtake (min (streamOf ops).length maxBytes.toNat) ∧
      (ringAfter maxBytes ops).length = min (streamOf ops).length maxBytes.toNat := by
  have t := tail_after maxBytes ops
  have hmax : (ScrollbackRing.new maxBytes).max = maxBytes.toNat := if_pos h
  rw [hmax] at t
  refine ⟨?_, t.len⟩
  rw [t.bytes, suffix_iff_eq_drop.mp t.suffix, List.rtake, t.length, t.len]

theorem bytes_eq_tail_four :
    (ringAfter 4 [.append (.buffer [1, 2, 3]), .bytes, .append (.text [.scalar 'h', .scalar 'i']),
      .append (.buffer [])]).bytes.1 = [2, 3, 104, 105] := by
  rw [(bytes_eq_tail 4 _ (by decide)).1]
  decide

end Turma.Tty
