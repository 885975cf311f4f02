/-
  TilePaint/Proofs/RectInvalidation.lean
  ======================================
  **Marking a part of the document as stale.**

  An edit names the part of the document it touches, in pixels or in twips, with any
  numbers in it.  From these a block of tiles is computed that need not be a block at all:
  its ends may lie before its starts, and, where it comes from twips, anywhere outside the
  grid.  It is turned into one range of indices, and the bits of this range are reset.

  Two things could go wrong.  The numbers on the way could leave their words, or the range
  could leave the bitset: `rangeWithin_eq` and `rangeOf_in_grid` say that they do not,
  whatever the block.  And the range could be too small or too large: it has every tile of
  the block (`index_mem_rangeOf`), and if there is one at all, it is the least range with
  this property (`rangeOf_least`).
-/
import TilePaint.Proofs.SnapshotPixels

namespace TilePaint

/-! ## 1. The range of a block -/

namespace Grid

variable {g : Grid} {b : TileBlock} {column row : Nat}

/-- A tile of the grid that lies in the block. -/
structure Holds (g : Grid) (b : TileBlock) (column row : Nat) : Prop where
  columns : b.columnStart ≤ column ∧ column < b.columnEnd
  rows : b.rowStart ≤ row ∧ row < b.rowEnd
  inGrid : column < g.columns ∧ row < g.rows

/-- The index of a tile, in machine words. -/
def indexWithin (g : Grid) (column row : Nat) : Except Fault Nat := do
  let before ← mulWithin maxIndex row g.columns
  addWithin maxIndex before column

/-- The range of a block, in machine words, and under the assertion that a range does not
    end before it starts. -/
def rangeWithin (g : Grid) (b : TileBlock) : Except Fault TileRange := do
  let lastColumn ← subWithin g.columns 1
  let lastRow ← subWithin g.rows 1
  let first ← g.indexWithin (min b.columnStart lastColumn) (min b.rowStart lastRow)
  let last ← g.indexWithin (min (b.columnEnd - 1) lastColumn) (min (b.rowEnd - 1) lastRow)
  TileRange.ofBounds first (max first last)

theorem indexWithin_eq (hfits : g.tileCount ≤ maxIndex) (hcolumn : column < g.columns)
    (hrow : row < g.rows) : g.indexWithin column row = .ok (g.index column row) := by
  have hle := Nat.le_trans (Nat.le_of_lt (index_lt_tileCount hcolumn hrow)) hfits
  have hbefore : row * g.columns ≤ maxIndex := Nat.le_trans (Nat.le_add_right _ _) hle
  exact bind_eq_ok_iff.mpr
    ⟨_, mulWithin_eq_ok_iff.mpr ⟨rfl, hbefore⟩, addWithin_eq_ok_iff.mpr ⟨rfl, hle⟩⟩

/-- A grid with tiles has a last column and a last row. -/
theorem last_within (h : g.isEmpty = false) :
    subWithin g.columns 1 = .ok (g.columns - 1) ∧ subWithin g.rows 1 = .ok (g.rows - 1) := by
  obtain ⟨hcolumns, hrows⟩ := isEmpty_eq_false_iff.mp h
  exact ⟨subWithin_eq_ok_iff.mpr (by omega), subWithin_eq_ok_iff.mpr (by omega)⟩

/-- **The range of a block can always be computed**, in a grid with tiles whose indices
    fit. -/
theorem rangeWithin_eq (h : g.isEmpty = false) (hfits : g.tileCount ≤ maxIndex)
    (b : TileBlock) : g.rangeWithin b = .ok (g.rangeOf b) := by
  obtain ⟨hcolumns, hrows⟩ := isEmpty_eq_false_iff.mp h
  obtain ⟨hlastColumn, hlastRow⟩ := last_within h
  have hindex : ∀ column row, g.indexWithin (min column (g.columns - 1)) (min row (g.rows - 1)) =
      .ok (g.index (min column (g.columns - 1)) (min row (g.rows - 1))) := by
    intro column row
    exact indexWithin_eq hfits (by omega) (by omega)
  have hordered : ∀ first last : Nat,
      TileRange.ofBounds first (max first last) = .ok ⟨first, max first last⟩ := by
    intro first last
    exact if_pos (Nat.le_max_left first last)
  simp only [rangeWithin, hlastColumn, hlastRow, hindex, hordered, bind, Except.bind]
  rfl

/-- Further to the right and further down the indices are greater. -/
theorem index_le_index {column' row' : Nat} (hcolumn : column ≤ column') (hrow : row ≤ row') :
    g.index column row ≤ g.index column' row' :=
  Nat.add_le_add (Nat.mul_le_mul_right g.columns hrow) hcolumn

/-- **The range covers the block.** -/
theorem index_mem_rangeOf (h : g.Holds b column row) : g.index column row ∈ g.rangeOf b := by
  obtain ⟨hcolumns, hrows, hin⟩ := h
  refine TileRange.mem_def.mpr ⟨index_le_index (by omega) (by omega), ?_⟩
  exact Nat.le_trans (index_le_index (by omega) (by omega)) (Nat.le_max_right _ _)

/-- **No smaller range covers the block**, if it has a tile of the grid. -/
theorem rangeOf_least (h : g.Holds b column row) {r : TileRange}
    (hr : ∀ column row, g.Holds b column row → g.index column row ∈ r) :
    r.first ≤ (g.rangeOf b).first ∧ (g.rangeOf b).last ≤ r.last := by
  obtain ⟨hcolumns, hrows, hin⟩ := h
  -- the corners of the block, moved into the grid, are tiles of both
  have hfirst := hr (min b.columnStart (g.columns - 1)) (min b.rowStart (g.rows - 1))
    ⟨by omega, by omega, by omega⟩
  have hlast := hr (min (b.columnEnd - 1) (g.columns - 1)) (min (b.rowEnd - 1) (g.rows - 1))
    ⟨by omega, by omega, by omega⟩
  have hfirst := TileRange.mem_def.mp hfirst
  have hlast := TileRange.mem_def.mp hlast
  exact ⟨hfirst.1, Nat.max_le.mpr ⟨hfirst.2, hlast.2⟩⟩

/-- The least range with all tiles of the grid that lie in the block. -/
structure LeastCover (g : Grid) (b : TileBlock) (r : TileRange) : Prop where
  ordered : r.first ≤ r.last
  inGrid : r.last < g.columns * g.rows
  covers : ∀ column row, g.Holds b column row →
    r.first ≤ g.index column row ∧ g.index column row ≤ r.last
  least : (∃ column row, g.Holds b column row) → ∀ r' : TileRange,
    (∀ column row, g.Holds b column row →
      r'.first ≤ g.index column row ∧ g.index column row ≤ r'.last) →
    r'.first ≤ r.first ∧ r.last ≤ r'.last

theorem leastCover_rangeOf (h : g.isEmpty = false) (b : TileBlock) :
    LeastCover g b (g.rangeOf b) := by
  obtain ⟨hordered, hin⟩ := rangeOf_in_grid h b
  refine ⟨hordered, hin, ?_, ?_⟩
  · intro column row hholds
    exact index_mem_rangeOf hholds
  · rintro ⟨column, row, hholds⟩ r' hr'
    exact rangeOf_least hholds hr'

end Grid

/-! ## 2. Invalidating a part of the document -/

/-- A part of the document, in pixels or in twips. -/
inductive Area where
  | pixels (rect : Rect)
  | twips (rect : TwipRect)

namespace TileCache

variable {c : TileCache} {area : Area} {block : TileBlock}

/-- The block of tiles that is computed for a part of the document.  Only for one in pixels
    it is cut to the grid. -/
def blockUnder (c : TileCache) : Area → Option TileBlock
  | .pixels rect => c.grid.blockOf c.edge rect
  | .twips rect => c.grid.blockOfTwips c.edge rect

/-- The range of the tiles under a part of the document. -/
def rangeUnder (c : TileCache) (area : Area) : Option TileRange :=
  (c.blockUnder area).map c.grid.rangeOf

def invalidateUnder (c : TileCache) : Area → Except Fault (Option TileRange × TileCache)
  | .pixels rect => c.invalidateIn rect
  | .twips rect => c.invalidateInTwips rect

/-- An invalidation with all that it computes in machine words. -/
def invalidateWithin (c : TileCache) (area : Area) :
    Except Fault (Option TileRange × TileCache) :=
  match c.blockUnder area with
  | none => .ok (none, c)
  | some block => do
      let range ← c.grid.rangeWithin block
      return (some range, ← c.invalidateRange range)

theorem invalidateUnder_eq (c : TileCache) (area : Area) :
    c.invalidateUnder area = c.invalidateFound (c.rangeUnder area) := by
  cases area with
  | pixels rect => rfl
  | twips rect => rfl

theorem isEmpty_of_blockUnder (h : c.blockUnder area = some block) : c.grid.isEmpty = false := by
  cases area with
  | pixels rect =>
    simp only [blockUnder, Grid.blockOf, Option.ite_none_left_eq_some] at h
    exact Bool.eq_false_iff.mpr h.1
  | twips rect =>
    simp only [blockUnder, Grid.blockOfTwips, Option.ite_none_left_eq_some] at h
    exact Bool.eq_false_iff.mpr h.1

/-- The cache without the bits of a range. -/
def staleIn (c : TileCache) (r : TileRange) (h : r.first ≤ r.last) : TileCache :=
  { c with valid := c.valid.eraseRange r.first r.last h }

/-- What an invalidation with a result does to the cache: it resets the bits of a range. -/
structure MarkedStale (c c' : TileCache) (r : TileRange) : Prop where
  bits : ∀ i, i ∈ c'.valid ↔ i ∈ c.valid ∧ ¬(r.first ≤ i ∧ i ≤ r.last)
  size : c'.valid.size = c.valid.size
  rest : c' = { c with valid := c'.valid }

theorem markedStale_staleIn {r : TileRange} (h : r.first ≤ r.last) :
    MarkedStale c (c.staleIn r h) r := by
  refine ⟨?_, rfl, rfl⟩
  intro i
  exact (BitSet.mem_eraseRange (h := h)).trans and_comm

theorem invalidateRange_eq {r : TileRange} (h : r.first ≤ r.last) (hsize : r.last < c.valid.size) :
    c.invalidateRange r = .ok (c.staleIn r h) := by
  simp only [invalidateRange, BitSet.resetRange, dif_neg (Nat.not_lt_of_le h),
    if_neg (Nat.not_le_of_lt hsize)]
  rfl

/-- Neither the arithmetic nor the bitset stops an invalidation. -/
theorem invalidateWithin_eq (h : c.WellKept) (area : Area) :
    c.invalidateWithin area = c.invalidateUnder area := by
  rw [invalidateUnder_eq]
  unfold invalidateWithin rangeUnder
  cases hblock : c.blockUnder area with
  | none => rfl
  | some block =>
    have hrange := Grid.rangeWithin_eq (isEmpty_of_blockUnder hblock) (Nat.le_of_lt h.fits) block
    simp only [hrange, bind, Except.bind]
    rfl

end TileCache

/-! ## 3. Invalidations in a session -/

namespace CacheSession

open TileCache

variable {s : CacheSession}

/-- **Invalidating a part of the document is total, in bounds and exact.**  In every reachable
    session, for every rectangle in pixels or in twips, the call comes back, in machine words as
    well.  Either it has no range to answer, and nothing has changed.  Or its answer is a range
    in the grid: the bits of this range are reset, and all else is as before.  The range has all
    tiles of the grid that lie in the computed block, and if there are any, it is the least such
    range.  For a rectangle in pixels the range can be asked for without a change. -/
theorem rect_invalidation_exact (h : s.Reachable) (area : Area) :
    let c := s.cache
    ∃ c', c.invalidateWithin area = .ok (c.rangeUnder area, c') ∧
      c.invalidateUnder area = .ok (c.rangeUnder area, c') ∧
      (c.rangeUnder area = none → c' = c) ∧
      (∀ r, c.rangeUnder area = some r → MarkedStale c c' r ∧
        ∃ block, c.blockUnder area = some block ∧ c.grid.LeastCover block r) ∧
      ∀ rect, area = .pixels rect → c.rangeIn rect = c.rangeUnder area := by
  intro c
  have hkept := (sound_of_reachable h).cache
  rw [invalidateWithin_eq hkept, invalidateUnder_eq]
  have hpixels : ∀ rect, area = .pixels rect → c.rangeIn rect = c.rangeUnder area := by
    rintro rect rfl
    rfl
  cases hblock : c.blockUnder area with
  | none =>
    have hnone : c.rangeUnder area = none := congrArg (Option.map _) hblock
    rw [hnone] at hpixels ⊢
    refine ⟨c, rfl, rfl, fun _ => rfl, ?_, hpixels⟩
    intro r hr
    cases hr
  | some block =>
    have hsome : c.rangeUnder area = some (c.grid.rangeOf block) :=
      congrArg (Option.map _) hblock
    have hleast := Grid.leastCover_rangeOf (isEmpty_of_blockUnder hblock) block
    -- the last tile of the range is one of the grid, so no bit is out of bounds
    have hbits : (c.grid.rangeOf block).last < c.valid.size := by
      rw [hkept.bits]
      exact Nat.lt_succ_of_lt hleast.inGrid
    have hstale : c.invalidateFound (some (c.grid.rangeOf block)) =
        .ok (some (c.grid.rangeOf block), c.staleIn _ hleast.ordered) := by
      simp only [invalidateFound, invalidateRange_eq hleast.ordered hbits]
      rfl
    rw [hsome] at hpixels ⊢
    refine ⟨c.staleIn _ hleast.ordered, hstale, hstale, ?_, ?_, hpixels⟩
    · intro hnone
      cases hnone
    · intro r hr
      obtain rfl := Option.some.inj hr
      exact ⟨markedStale_staleIn hleast.ordered, block, rfl, hleast⟩

/-- The tiles of the second column are 1 and 3, so tile 2 becomes stale with them. -/
theorem rect_invalidation_exact_allButOne :
    let c := Sample.allButOne.cache
    Sample.allButOne.Reachable ∧ c.valid.toList = [0, 1, 3] ∧
      ∃ c', c.invalidateUnder (.pixels ⟨1, 0, 1, 2⟩) = .ok (some ⟨1, 3⟩, c') ∧
        0 ∈ c'.valid ∧ ¬1 ∈ c'.valid ∧ ¬3 ∈ c'.valid ∧ c'.context = c.context := by
  intro c
  have hrange : Sample.allButOne.cache.rangeUnder (.pixels ⟨1, 0, 1, 2⟩) = some ⟨1, 3⟩ := by
    decide +kernel
  obtain ⟨c', -, hcall, -, hstale, -⟩ :=
    rect_invalidation_exact Sample.reachable_allButOne (.pixels ⟨1, 0, 1, 2⟩)
  obtain ⟨⟨hbits, -, hrest⟩, -⟩ := hstale _ hrange
  rw [hrange] at hcall
  have hzero : 0 ∈ Sample.allButOne.cache.valid := by decide +kernel
  refine ⟨Sample.reachable_allButOne, by decide +kernel, c', hcall, ?_, ?_, ?_, ?_⟩
  · exact (hbits 0).mpr ⟨hzero, by decide⟩
  · exact fun hmem => ((hbits 1).mp hmem).2 (by decide)
  · exact fun hmem => ((hbits 3).mp hmem).2 (by decide)
  · rw [hrest]

end CacheSession

end TilePaint
