import Turma.Tar.Header

/-! The whole archive reads back: the members in order, each with its path, its recorded size and as
many bytes of its content, NULs for what is missing. -/

namespace Turma.Tar

open Turma.Lib Turma.Lib.Ustar List Option

def File.content (f : File) : Bytes := f.chunks.flatten

def member (f : File) : Member where
  path := f.name
  size := f.size
  content := f.content.take f.size ++ List.replicate (f.size - f.content.length) 0

/-- The loop takes the first `size` bytes, however they are cut into chunks. -/
theorem copy_spec (size : ℕ) (chunks : List Bytes) : ∀ written,
    (copy size written chunks).1.flatten = chunks.flatten.take (size - written) ∧
      (copy size written chunks).2 = written + min (size - written) chunks.flatten.length := by
  induction chunks with
  | nil => exact fun written => ⟨take_nil.symm, by simp [copy]⟩
  | cons chunk chunks ih =>
    intro written
    rw [copy]
    split_ifs with hfull hlong
    · have hzero : size - written = 0 := by omega
      rw [hzero, take_zero, Nat.zero_min]
      exact ⟨rfl, rfl⟩
    · have hlen : (chunk.take (size - written)).length = size - written := by
        rw [length_take]
        omega
      obtain ⟨hflat, hcount⟩ := ih (written + (chunk.take (size - written)).length)
      have hrest : size - (written + (size - written)) = 0 := by omega
      rw [hlen, hrest] at hflat hcount
      dsimp only
      rw [hlen, flatten_cons, flatten_cons, hflat, hcount, take_zero, append_nil,
        take_append_of_le_length (by omega), length_append]
      refine ⟨rfl, ?_⟩
      omega
    · obtain ⟨hflat, hcount⟩ := ih (written + chunk.length)
      have htake : (chunk ++ chunks.flatten).take (size - written) =
          chunk ++ chunks.flatten.take (size - (written + chunk.length)) := by
        rw [take_append, take_of_length_le (Nat.not_lt.mp hlong), Nat.sub_sub]
      rw [flatten_cons, flatten_cons, hflat, hcount, length_append, htake]
      refine ⟨rfl, ?_⟩
      omega

theorem blockBytes_eq (size : ℕ) : blockBytes size = size + (padding size).length := by
  rw [blockBytes, padding]
  split_ifs with h
  · rw [block] at h
    rw [length_nil]
    omega
  · rw [block] at h ⊢
    rw [length_replicate]
    omega

/-- The data of a file is its blocks, and it is short where its content is. -/
theorem data_spec (f : File) :
    (data f).1.flatten = (member f).content ++ padding f.size ∧
      ((data f).2 = true ↔ f.content.length < f.size) := by
  obtain ⟨hflat, hcount⟩ := copy_spec f.size f.chunks 0
  rw [Nat.sub_zero] at hflat hcount
  rw [Nat.zero_add] at hcount
  have hmin : min f.size f.chunks.flatten.length < f.size ↔ f.content.length < f.size := by
    rw [File.content]
    omega
  refine ⟨?_, ?_⟩
  · rw [data]
    rw [flatten_append, flatten_append, hflat, hcount, member]
    congr 1
    · congr 1
      split_ifs with hshort
      · rw [flatten_singleton]
        congr 1
        rw [File.content]
        omega
      · have hzero : f.size - f.content.length = 0 := by omega
        rw [hzero]
        rfl
    · split_ifs with hpad
      · rw [hpad]
        rfl
      · exact flatten_singleton
  · rw [data]
    rw [hcount, decide_eq_true_eq]
    exact hmin

theorem length_member (f : File) : (member f).content.length = f.size := by
  rw [member, length_append, length_take, length_replicate]
  omega

/-- A block that is read takes the reader to the next member. -/
theorem readMembers_cons {head data rest : Bytes} {path : JsString} {size fuel : ℕ}
    (hlen : head.length = 512) (hzero : head ≠ List.replicate 512 0)
    (hhead : readHeader head = some (path, size)) (hdata : data.length = blockBytes size) :
    Ustar.readMembers (fuel + 1) (head ++ data ++ rest) =
      (Ustar.readMembers fuel rest).map (⟨path, size, data.take size⟩ :: ·) := by
  have hle : size ≤ data.length := by
    rw [hdata, blockBytes_eq]
    omega
  have htake : (head ++ data ++ rest).take 512 = head := by
    rw [append_assoc, ← hlen, take_left]
  have hdrop : (head ++ data ++ rest).drop 512 = data ++ rest := by
    rw [append_assoc, ← hlen, drop_left]
  have hroom : ¬ (data ++ rest).length < blockBytes size := by
    rw [length_append]
    omega
  rw [Ustar.readMembers, htake, hdrop, if_neg hzero, hhead, bind_some, if_neg hroom, ← hdata,
    drop_left, take_append_of_le_length hle]

theorem body_reads (mtime : ℤ) {files : List File} (hnames : ∀ f ∈ files, Formed f.name)
    (hsizes : ∀ f ∈ files, f.size < 8 ^ 11) (hpack : ∀ f ∈ files, packable f = true) :
    ∃ stream short, body mtime files = some (stream, short) ∧ 512 ∣ stream.flatten.length ∧
      (∀ fuel, stream.flatten.length ≤ fuel →
        Ustar.readMembers fuel stream.flatten = some (files.map member)) ∧
      short = (files.filter fun f => f.content.length < f.size).map File.name := by
  induction files with
  | nil =>
    refine ⟨_, _, rfl, by rw [flatten_singleton, length_replicate]; decide,
      fun fuel hfuel => ?_, rfl⟩
    rw [flatten_singleton, length_replicate, block] at hfuel
    obtain ⟨fuel, rfl⟩ := Nat.exists_eq_add_of_le' (show 1 ≤ fuel by omega)
    rw [flatten_singleton, Ustar.readMembers, take_replicate, drop_replicate,
      show min 512 (block * 2) = 512 from rfl, show block * 2 - 512 = 512 from rfl, if_pos rfl,
      if_pos rfl]
    rfl
  | cons f files ih =>
    obtain ⟨stream, short, hbody, hblocks, hread, hshort⟩ :=
      ih (fun g hg => hnames g (.tail _ hg))
        (fun g hg => hsizes g (.tail _ hg))
        fun g hg => hpack g (.tail _ hg)
    obtain ⟨head, hhead, hlen, hzero, hreads⟩ := header_reads mtime (hnames f mem_cons_self)
      (hsizes f mem_cons_self) (hpack f mem_cons_self)
    obtain ⟨hdata, hmissing⟩ := data_spec f
    have hlength : ((member f).content ++ padding f.size).length = blockBytes f.size := by
      rw [length_append, length_member, blockBytes_eq]
    have hflat : (head :: (data f).1 ++ stream).flatten =
        head ++ ((member f).content ++ padding f.size) ++ stream.flatten := by
      rw [flatten_append, flatten_cons, hdata]
    refine ⟨head :: (data f).1 ++ stream, (if (data f).2 = true then [f.name] else []) ++ short,
      ?_, ?_, fun fuel hfuel => ?_, ?_⟩
    · rw [body, hhead, bind_some, hbody]
      rfl
    · rw [hflat, length_append, length_append, hlen, hlength]
      refine Nat.dvd_add (Nat.dvd_add (Nat.dvd_refl 512) ?_) hblocks
      exact Nat.dvd_mul_left 512 _
    · rw [hflat] at hfuel ⊢
      rw [length_append, length_append, hlen] at hfuel
      obtain ⟨fuel, rfl⟩ := Nat.exists_eq_add_of_le' (show 1 ≤ fuel by omega)
      rw [readMembers_cons hlen hzero hreads hlength, hread fuel (by omega), map_some,
        map_cons, take_append_of_le_length (Nat.le_of_eq (length_member f).symm),
        take_of_length_le (Nat.le_of_eq (length_member f))]
      rfl
    · rw [filter_cons, hshort]
      by_cases hcut : f.content.length < f.size
      · rw [if_pos (hmissing.mpr hcut), if_pos (decide_eq_true hcut)]
        rfl
      · rw [if_neg (mt hmissing.mp hcut), if_neg (by rw [decide_eq_true_eq]; exact hcut)]
        rfl

/-- What is packed of `files`: a stream of blocks that reads back as the members that the format has a
place for, and a report of the others and of the short ones. -/
theorem packGzipTar_reads (mtime : ℤ) (files : List File) (hnames : ∀ f ∈ files, Formed f.name)
    (hsizes : ∀ f ∈ files, f.size < 8 ^ 11) :
    ∃ out, packGzipTar mtime files = some out ∧ 512 ∣ out.stream.flatten.length ∧
      readArchive out.stream.flatten = some ((files.filter packable).map member) ∧
      out.skipped = (files.filter fun f => !packable f).map File.name ∧
      out.short =
        ((files.filter packable).filter fun f => f.content.length < f.size).map File.name := by
  have hmem : ∀ f ∈ files.filter packable, f ∈ files := fun f hf => (mem_filter.mp hf).1
  obtain ⟨stream, short, hbody, hblocks, hread, hshort⟩ :=
    body_reads mtime (fun f hf => hnames f (hmem f hf)) (fun f hf => hsizes f (hmem f hf))
      fun f hf => (mem_filter.mp hf).2
  refine ⟨⟨stream, _, short⟩, ?_, hblocks, hread _ le_rfl, rfl, hshort⟩
  rw [packGzipTar, hbody]
  rfl

/-- A file that grew, and one that shrank. -/
def sampleFiles : List File :=
  [⟨.ofString "a/b", [[65, 66], [67, 68]], 3⟩, ⟨.ofString "c", [[65]], 3⟩]

theorem packGzipTar_reads_sample : ∃ out, packGzipTar 0 sampleFiles = some out ∧
    readArchive out.stream.flatten =
      some [⟨.ofString "a/b", 3, [65, 66, 67]⟩, ⟨.ofString "c", 3, [65, 0, 0]⟩] ∧
    out.skipped = [] ∧ out.short = [.ofString "c"] := by
  have hnames : ∀ f ∈ sampleFiles, Formed f.name := by
    intro f hf
    rcases mem_cons.mp hf with rfl | hf
    · exact ⟨by decide, by decide, by decide⟩
    · rw [mem_singleton.mp hf]
      exact ⟨by decide, by decide, by decide⟩
  obtain ⟨out, hout, -, hreads, hskipped, hshort⟩ :=
    packGzipTar_reads 0 sampleFiles hnames (by decide)
  refine ⟨out, hout, hreads.trans ?_, hskipped.trans ?_, hshort.trans ?_⟩
  all_goals decide

end Turma.Tar
