import Turma.Tty.Grid

/-! The screen keeps its shape, whatever is written to it: a full grid, and a cursor, a saved cursor
and a scroll region within it. -/

namespace Turma.Tty

open List Option

/-- Exactly `rows` rows of exactly `cols` cells, and no hole. -/
structure Boxed (rows cols : ℕ) (grid : List Row) : Prop where
  height : grid.length = rows
  width : ∀ row ∈ grid, row.length = cols
  cells : ∀ row ∈ grid, none ∉ row

/-- A cursor that is at `cols` has yet to wrap. -/
structure Screen.Shaped (s : Screen) : Prop where
  rows : 0 < s.rows
  cols : 0 < s.cols
  boxed : Boxed s.rows s.cols s.grid
  cr : s.cr < s.rows
  cc : s.cc ≤ s.cols
  saveR : s.saveR < s.rows
  saveC : s.saveC ≤ s.cols
  region : s.top ≤ s.bot
  bot : s.bot < s.rows

section

variable {rows cols r c i j : ℕ} {grid : List Row} {row : Row} {v : CodeUnit}

structure Fits (cols : ℕ) (row : Row) : Prop where
  width : row.length = cols
  cells : none ∉ row

theorem Boxed.fits (h : Boxed rows cols grid) (hrow : row ∈ grid) : Fits cols row :=
  ⟨h.width row hrow, h.cells row hrow⟩

theorem boxed_of_fits (hheight : grid.length = rows) (h : ∀ row ∈ grid, Fits cols row) :
    Boxed rows cols grid :=
  ⟨hheight, fun row hrow => (h row hrow).width, fun row hrow => (h row hrow).cells⟩

theorem fits_blankRow (cols : ℕ) : Fits cols (Screen.blankRow cols) where
  width := length_replicate
  cells hmem := nomatch (mem_replicate.mp hmem).2

theorem Fits.assign (h : Fits cols row) (hc : c < cols) : Fits cols (assign row c v) := by
  rw [Tty.assign, if_pos (h.width ▸ hc)]
  refine ⟨by rw [length_set, h.width], fun hmem => ?_⟩
  rcases mem_or_eq_of_mem_set hmem with hmem | heq
  · exact h.cells hmem
  · cases heq

theorem Boxed.set (h : Boxed rows cols grid) (hrow : Fits cols row) :
    Boxed rows cols (grid.set r row) := by
  refine boxed_of_fits (by rw [length_set, h.height]) fun row' hrow' => ?_
  rcases mem_or_eq_of_mem_set hrow' with hmem | rfl
  · exact h.fits hmem
  · exact hrow

theorem setCell_boxed (h : Boxed rows cols grid) (hr : r < rows) (hc : c < cols) (v : CodeUnit) :
    ∃ grid', setCell grid r c v = some grid' ∧ Boxed rows cols grid' := by
  have hlt : r < grid.length := h.height ▸ hr
  rw [setCell, getElem?_eq_getElem hlt]
  exact ⟨_, rfl, h.set ((h.fits (getElem_mem hlt)).assign hc)⟩

theorem blankCells_boxed (hr : r < rows) {cs : List ℕ} (hcs : ∀ c ∈ cs, c < cols) :
    ∀ {grid : List Row}, Boxed rows cols grid →
      ∃ grid', blankCells r cs grid = some grid' ∧ Boxed rows cols grid' := by
  induction cs with
  | nil => exact fun {grid} h => ⟨grid, rfl, h⟩
  | cons c cs ih =>
    intro grid h
    obtain ⟨grid₁, hset, h₁⟩ := setCell_boxed h hr (hcs c mem_cons_self) blank
    obtain ⟨grid₂, hrest, h₂⟩ := ih (fun c' hc' => hcs c' (.tail _ hc')) h₁
    refine ⟨grid₂, ?_, h₂⟩
    rw [blankCells, foldlM_cons, hset]
    exact hrest

theorem blankRows_boxed {rs : List ℕ} (hrs : ∀ r ∈ rs, r < rows) :
    ∀ {grid : List Row}, Boxed rows cols grid →
      ∃ grid', Screen.blankRows cols rs grid = some grid' ∧ Boxed rows cols grid' := by
  induction rs with
  | nil => exact fun {grid} h => ⟨grid, rfl, h⟩
  | cons r rs ih =>
    intro grid h
    obtain ⟨grid₁, hset, h₁⟩ :=
      blankCells_boxed (hrs r mem_cons_self) (fun c hc => mem_range.mp hc) h
    obtain ⟨grid₂, hrest, h₂⟩ := ih (fun r' hr' => hrs r' (.tail _ hr')) h₁
    refine ⟨grid₂, ?_, h₂⟩
    rw [Screen.blankRows, foldlM_cons, hset]
    exact hrest

/-- A row out and a row in. -/
theorem Boxed.scroll (h : Boxed rows cols grid) (hi : i < rows) (hj : j < rows)
    (hrow : Fits cols row) : Boxed rows cols (spliceIn (spliceOut grid i) j row) := by
  have hout : (spliceOut grid i).length = rows - 1 := by
    rw [spliceOut, length_append, length_take, length_drop, h.height]
    omega
  have hmem : ∀ row' ∈ spliceOut grid i, row' ∈ grid := fun row' hrow' => by
    rcases mem_append.mp hrow' with hrow' | hrow'
    · exact mem_of_mem_take hrow'
    · exact mem_of_mem_drop hrow'
  refine boxed_of_fits ?_ fun row' hrow' => ?_
  · rw [spliceIn, length_append, length_cons, length_take, length_drop, hout]
    omega
  · rcases mem_append.mp hrow' with hrow' | hrow'
    · exact h.fits (hmem row' (mem_of_mem_take hrow'))
    · rcases mem_cons.mp hrow' with rfl | hrow'
      · exact hrow
      · exact h.fits (hmem row' (mem_of_mem_drop hrow'))

end

namespace Screen

variable {s : Screen}

theorem dimension_pos (x : ℤ) : 0 < dimension x := by
  rw [dimension]
  omega

theorem clamp_lt {n : ℕ} (hn : 0 < n) (x : ℤ) : clamp n x < n := by
  rw [clamp]
  omega

theorem Shaped.clampR (h : s.Shaped) (r : ℤ) : s.clampR r < s.rows := clamp_lt h.rows r

theorem Shaped.clampC (h : s.Shaped) (c : ℤ) : s.clampC c ≤ s.cols :=
  Nat.le_of_lt (clamp_lt h.cols c)

theorem shaped_new (cols rows : ℤ) : (new cols rows).Shaped where
  rows := dimension_pos rows
  cols := dimension_pos cols
  boxed := boxed_of_fits length_replicate fun row hrow => by
    rw [(mem_replicate.mp hrow).2]
    exact fits_blankRow _
  cr := dimension_pos rows
  cc := Nat.zero_le _
  saveR := dimension_pos rows
  saveC := Nat.zero_le _
  region := Nat.zero_le _
  bot := Nat.sub_lt (dimension_pos rows) Nat.one_pos

theorem Shaped.resize (h : s.Shaped) (cols rows : ℤ) : (s.resize cols rows).Shaped := by
  rw [Screen.resize]
  split_ifs
  · exact h
  · have hgrid : Boxed (dimension rows) (dimension cols)
        ((List.range (dimension rows)).map fun r =>
          (List.range (dimension cols)).map fun c => some (kept s.grid r c)) := by
      refine boxed_of_fits (by rw [length_map, length_range]) fun row hrow => ?_
      obtain ⟨r, -, rfl⟩ := List.mem_map.mp hrow
      refine ⟨by rw [length_map, length_range], fun hnone => ?_⟩
      obtain ⟨c, -, hc⟩ := List.mem_map.mp hnone
      cases hc
    exact ⟨dimension_pos rows, dimension_pos cols, hgrid, clamp_lt (dimension_pos rows) _,
      Nat.le_of_lt (clamp_lt (dimension_pos cols) _), clamp_lt (dimension_pos rows) _,
      Nat.le_of_lt (clamp_lt (dimension_pos cols) _), Nat.zero_le _,
      Nat.sub_lt (dimension_pos rows) Nat.one_pos⟩

/-- Another grid of the same shape. -/
theorem Shaped.withGrid (h : s.Shaped) {grid : List Row} (hgrid : Boxed s.rows s.cols grid) :
    Shaped { s with grid := grid } := { h with boxed := hgrid }

/-- The cursor somewhere else on the screen. -/
theorem Shaped.move (h : s.Shaped) {cr cc : ℕ} (hr : cr < s.rows) (hc : cc ≤ s.cols) :
    Shaped { s with cr := cr, cc := cc } := { h with cr := hr, cc := hc }

theorem Shaped.topIn (h : s.Shaped) : s.top < s.rows := Nat.lt_of_le_of_lt h.region h.bot

theorem Shaped.newline (h : s.Shaped) : s.newline.Shaped ∧ s.newline.cols = s.cols ∧
    s.newline.cc = s.cc := by
  rw [Screen.newline]
  split_ifs
  · exact ⟨h.withGrid (h.boxed.scroll h.topIn h.bot (fits_blankRow _)), rfl, rfl⟩
  · exact ⟨h.move (h.clampR _) h.cc, rfl, rfl⟩

theorem Shaped.reverseIndex (h : s.Shaped) : s.reverseIndex.Shaped := by
  rw [Screen.reverseIndex]
  split_ifs
  · exact h.withGrid (h.boxed.scroll h.bot h.topIn (fits_blankRow _))
  · exact h.move (h.clampR _) h.cc

theorem Shaped.put (h : s.Shaped) (ch : CodeUnit) : ∃ s', s.put ch = some s' ∧ s'.Shaped := by
  obtain ⟨t, ht, hwrapped, hroom⟩ : ∃ t,
      (if s.cols ≤ s.cc then Screen.newline { s with cc := 0 } else s) = t ∧ t.Shaped ∧
        t.cc < t.cols := by
    split_ifs with hwrap
    · obtain ⟨hshaped, hcols, hcc⟩ := (h.move h.cr (Nat.zero_le s.cols)).newline
      exact ⟨_, rfl, hshaped, by rw [hcols, hcc]; exact h.cols⟩
    · exact ⟨s, rfl, h, Nat.not_le.mp hwrap⟩
  obtain ⟨grid, hset, hgrid⟩ := setCell_boxed hwrapped.boxed hwrapped.cr hroom ch
  rw [Screen.put, ht, hset]
  exact ⟨_, rfl, (hwrapped.withGrid hgrid).move hwrapped.cr hroom⟩

/-- What EL and the first row of ED blank is within the row. -/
theorem Shaped.erased (h : s.Shaped) :
    (∀ c ∈ List.range' s.cc (s.cols - s.cc), c < s.cols) ∧
      ∀ c ∈ List.range (min s.cc (s.cols - 1) + 1), c < s.cols := by
  have hcols := h.cols
  refine ⟨fun c hc => ?_, fun c hc => ?_⟩
  · rw [mem_range'_1] at hc
    omega
  · rw [mem_range] at hc
    omega

theorem Shaped.eraseLine (h : s.Shaped) (m : ℤ) : ∃ s', s.eraseLine m = some s' ∧ s'.Shaped := by
  obtain ⟨hright, hleft⟩ := h.erased
  have hcs : ∀ c ∈ (if m = 0 then List.range' s.cc (s.cols - s.cc)
      else if m = 1 then List.range (min s.cc (s.cols - 1) + 1) else List.range s.cols),
      c < s.cols := by
    split_ifs
    · exact hright
    · exact hleft
    · exact fun c hc => mem_range.mp hc
  obtain ⟨grid, hblank, hgrid⟩ := blankCells_boxed h.cr hcs h.boxed
  rw [Screen.eraseLine, hblank]
  exact ⟨_, rfl, h.withGrid hgrid⟩

theorem Shaped.eraseDisplay (h : s.Shaped) (m : ℤ) :
    ∃ s', s.eraseDisplay m = some s' ∧ s'.Shaped := by
  obtain ⟨hright, hleft⟩ := h.erased
  have hcr := h.cr
  have hbelow : ∀ r ∈ List.range' (s.cr + 1) (s.rows - (s.cr + 1)), r < s.rows := fun r hr => by
    rw [mem_range'_1] at hr
    omega
  have habove : ∀ r ∈ List.range s.cr, r < s.rows := fun r hr =>
    Nat.lt_trans (mem_range.mp hr) hcr
  rw [Screen.eraseDisplay]
  split_ifs
  · obtain ⟨grid₁, hblank, h₁⟩ := blankCells_boxed h.cr hright h.boxed
    obtain ⟨grid₂, hrows, h₂⟩ := blankRows_boxed hbelow h₁
    rw [hblank, bind_some, hrows]
    exact ⟨_, rfl, h.withGrid h₂⟩
  · obtain ⟨grid₁, hblank, h₁⟩ := blankCells_boxed h.cr hleft h.boxed
    obtain ⟨grid₂, hrows, h₂⟩ := blankRows_boxed habove h₁
    rw [hblank, bind_some, hrows]
    exact ⟨_, rfl, h.withGrid h₂⟩
  · obtain ⟨grid, hrows, hgrid⟩ := blankRows_boxed (fun r hr => mem_range.mp hr) h.boxed
    rw [hrows]
    exact ⟨_, rfl, h.withGrid hgrid⟩

theorem Shaped.setRegion (h : s.Shaped) {top bot : ℕ} (htop : top < s.rows) (hbot : bot < s.rows) :
    (s.setRegion top bot).Shaped := by
  rw [Screen.setRegion]
  split_ifs with hregion
  · exact h
  · exact { h with
      cr := htop
      cc := Nat.zero_le _
      region := Nat.le_of_lt (Nat.not_le.mp hregion)
      bot := hbot }

theorem shaped_ite {p : Prop} [Decidable p] {a b : Option Screen}
    (ha : ∃ s', a = some s' ∧ s'.Shaped) (hb : ∃ s', b = some s' ∧ s'.Shaped) :
    ∃ s', (if p then a else b) = some s' ∧ s'.Shaped := by
  by_cases hp : p
  · rw [if_pos hp]
    exact ha
  · rw [if_neg hp]
    exact hb

theorem Shaped.csi (h : s.Shaped) (params : Text) (final : CodeUnit) :
    ∃ s', s.csi params final = some s' ∧ s'.Shaped := by
  refine shaped_ite ⟨_, rfl, h.move (h.clampR _) (h.clampC _)⟩ ?_
  refine shaped_ite ⟨_, rfl, h.move h.cr (h.clampC _)⟩ ?_
  refine shaped_ite ⟨_, rfl, h.move (h.clampR _) h.cc⟩ ?_
  refine shaped_ite ⟨_, rfl, h.move (h.clampR _) h.cc⟩ ?_
  refine shaped_ite ⟨_, rfl, h.move (h.clampR _) h.cc⟩ ?_
  refine shaped_ite ⟨_, rfl, h.move h.cr (h.clampC _)⟩ ?_
  refine shaped_ite ⟨_, rfl, h.move h.cr (h.clampC _)⟩ ?_
  refine shaped_ite ⟨_, rfl, h.move (h.clampR _) (Nat.zero_le _)⟩ ?_
  refine shaped_ite ⟨_, rfl, h.move (h.clampR _) (Nat.zero_le _)⟩ ?_
  refine shaped_ite (h.eraseLine _) ?_
  refine shaped_ite (h.eraseDisplay _) ?_
  exact shaped_ite ⟨_, rfl, h.setRegion (h.clampR _) (h.clampR _)⟩ ⟨s, rfl, h⟩

theorem Shaped.control (h : s.Shaped) (ch : CodeUnit) :
    ∃ s', s.control ch = some s' ∧ s'.Shaped := by
  unfold Screen.control
  split_ifs
  · exact ⟨_, rfl, h.newline.1⟩
  · exact ⟨_, rfl, h.move h.cr (Nat.zero_le _)⟩
  · exact ⟨_, rfl, h.move h.cr (h.clampC _)⟩
  · exact ⟨_, rfl, h.move h.cr (h.clampC _)⟩
  · exact ⟨s, rfl, h⟩
  · exact h.put ch

/-- One token, whichever it is. -/
theorem Shaped.apply (h : s.Shaped) (t : Token) : ∃ s', s.apply t = some s' ∧ s'.Shaped := by
  cases t with
  | unit ch => exact h.control ch
  | csi params final => exact h.csi params final
  | save => exact ⟨_, rfl, { h with saveR := h.cr, saveC := h.cc }⟩
  | restore => exact ⟨_, rfl, h.move h.saveR h.saveC⟩
  | reverseIndex => exact ⟨_, rfl, h.reverseIndex⟩
  | dropped => exact ⟨s, rfl, h⟩

/-- A whole text. -/
theorem Shaped.process (h : s.Shaped) (text : Text) :
    ∃ s' rest, process s text = some (s', rest) ∧ s'.Shaped := by
  induction hn : text.length using Nat.strong_induction_on generalizing s text with
  | _ n ih =>
    unfold Tty.process
    split
    · exact ⟨s, text, rfl, h⟩
    · rename_i t rest hnext
      obtain ⟨s₁, hstep, h₁⟩ := h.apply t
      rw [hstep, bind_some]
      exact ih rest.length (hn ▸ next_shorter hnext) h₁ rest rfl

end Screen

end Turma.Tty
