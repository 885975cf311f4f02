/-
  TilePaint/Proofs/WindowBands.lean
  =================================
  **The tiles that a window needs.**

  The viewport is a window of pixel rows, and tasks are cut to the band of tiles that is
  computed for it.  A tile that is missing there would never be painted.

  The band starts at the row of tiles of the first pixel row, rounded down, and is as many
  rows long as the height takes up, rounded up.  Both roundings together might end one row
  before the last pixel row, if the window started in the middle of a tile; that they do
  not is because the end is still part of the band.  So the band has all tiles that the
  window meets (`row_le_windowRows`), and at most one row more (`windowRows_le`).

  The quotients are those of rational numbers on the way, and all other numbers are
  machine words (`viewportBandWithin`).  None of them leaves its word
  (`viewportBandWithin_eq`).

  Before a scroll the tiles around the window to come are prepared: from one window height
  above it, three window heights down.  That band never ends too early
  (`le_scrollStart_add`).  But the height is taken as a signed number where it is subtracted,
  so from `2 ^ 31` on the band starts below the window and misses all tiles above its start
  (`prefetch_band_covers`).
-/
import Mathlib.Algebra.Order.Floor.Div
import Mathlib.Algebra.Order.Floor.Semifield
import Mathlib.Data.Rat.Floor
import TilePaint.Proofs.RectInvalidation

namespace TilePaint

namespace Grid

variable {g : Grid} {r : TileRange} {edge height row index : Nat} {y : Int}

/-! ## 1. Rows of tiles and rows of pixels -/

theorem ceilDiv_le_iff {n d k : Nat} (h : 0 < d) : ceilDiv n d ≤ k ↔ n ≤ k * d := by
  rw [ceilDiv, ← Nat.ceilDiv_eq_add_pred_div, Nat.mul_comm]
  exact ceilDiv_le_iff_le_mul h

/-- The window starts in the row of tiles of its first pixel row, or before it. -/
theorem windowRows_le_row (hedge : 0 < edge) {p : Nat} (hy : y ≤ p) (hp : p < (row + 1) * edge) :
    (windowRows edge y height).1 ≤ row := by
  have htop : y.toNat < (row + 1) * edge := by omega
  exact Nat.le_of_lt_succ ((Nat.div_lt_iff_lt_mul hedge).mpr htop)

/-- **No pixel row is left out at the end**, wherever in a tile the window starts. -/
theorem row_le_windowRows (hedge : 0 < edge) {p : Nat} (hp : row * edge ≤ p) (hy : p < y + height) :
    row ≤ (windowRows edge y height).2 := by
  have htop : y.toNat < y.toNat / edge * edge + edge := Nat.lt_div_mul_add hedge
  have hheight : height ≤ ceilDiv height edge * edge := (ceilDiv_le_iff hedge).mp (Nat.le_refl _)
  have hrow : row * edge < (y.toNat / edge + ceilDiv height edge + 1) * edge := by
    calc row * edge < y.toNat + height := by omega
      _ < y.toNat / edge * edge + edge + ceilDiv height edge * edge :=
          Nat.add_lt_add_of_lt_of_le htop hheight
      _ = (y.toNat / edge + ceilDiv height edge + 1) * edge := by
          rw [Nat.add_mul, Nat.add_mul, Nat.one_mul]
          omega
  exact Nat.le_of_lt_succ (Nat.lt_of_mul_lt_mul_right hrow)

/-- At most one row is too many. -/
theorem windowRows_le (hedge : 0 < edge) (hheight : 1 ≤ height) :
    (windowRows edge y height).2 ≤ (y.toNat + height - 1) / edge + 1 := by
  have htop : y.toNat / edge * edge ≤ y.toNat := Nat.div_mul_le_self ..
  have hrows : ceilDiv height edge * edge ≤ height + edge - 1 := Nat.div_mul_le_self ..
  have hone : edge ≤ ceilDiv height edge * edge :=
    Nat.le_mul_of_pos_left edge (Nat.div_pos (by omega) hedge)
  have hlast : y.toNat / edge + ceilDiv height edge - 1 ≤ (y.toNat + height - 1) / edge := by
    rw [Nat.le_div_iff_mul_le hedge, Nat.sub_mul, Nat.add_mul, Nat.one_mul]
    omega
  exact Nat.le_add_of_sub_le hlast

/-! ## 2. Bands of whole rows -/

/-- A range of the grid that starts at the start of a row and ends at the end of one. -/
structure WholeRows (g : Grid) (r : TileRange) : Prop where
  ordered : r.first ≤ r.last
  inGrid : r.last < g.columns * g.rows
  first : g.columns ∣ r.first
  last : g.column r.last = g.columns - 1

/-- A tile of the grid that has pixel rows in common with the window of height `height`
    from `y` on. -/
structure Meets (g : Grid) (edge : Nat) (y : Int) (height index : Nat) : Prop where
  inGrid : index < g.columns * g.rows
  shared : ∃ p : Int, (y ≤ p ∧ p < y + height) ∧
    (g.row index * edge : Nat) ≤ p ∧ p < ((g.row index + 1) * edge : Nat)

theorem WholeRows.mem (h : g.WholeRows r) (hindex : index < g.columns * g.rows)
    (hfirst : g.row r.first ≤ g.row index) (hlast : g.row index ≤ g.row r.last) :
    index ∈ r := by
  have hcolumns : 0 < g.columns := by
    refine Nat.pos_of_ne_zero fun hzero => ?_
    rw [hzero, Nat.zero_mul] at hindex
    exact Nat.not_lt_zero _ hindex
  have hstart : g.column r.first ≤ g.column index :=
    (Nat.mod_eq_zero_of_dvd h.first).trans_le (Nat.zero_le _)
  have hend : g.column index ≤ g.column r.last := by
    rw [h.last]
    exact Nat.le_sub_one_of_lt (Nat.mod_lt _ hcolumns)
  constructor
  · calc r.first = g.index (g.column r.first) (g.row r.first) := index_column_row.symm
      _ ≤ g.index (g.column index) (g.row index) := index_le_index hstart hfirst
      _ = index := index_column_row
  · calc index = g.index (g.column index) (g.row index) := index_column_row.symm
      _ ≤ g.index (g.column r.last) (g.row r.last) := index_le_index hend hlast
      _ = r.last := index_column_row

theorem exists_rowBand (h : g.isEmpty = false) {firstRow lastRow : Nat}
    (hordered : firstRow ≤ lastRow) :
    ∃ r, g.rowBand firstRow lastRow = some r ∧ g.WholeRows r ∧
      g.row r.first = min firstRow (g.rows - 1) ∧ g.row r.last = min lastRow (g.rows - 1) := by
  obtain ⟨hcolumns, hrows⟩ := isEmpty_eq_false_iff.mp h
  have hlast : g.columns - 1 < g.columns := Nat.sub_one_lt_of_lt hcolumns
  refine ⟨⟨_, _⟩, if_neg (by rw [h]; exact Bool.false_ne_true), ?_, row_index hcolumns,
    row_index hlast⟩
  refine ⟨index_le_index (Nat.zero_le _) ?_, index_lt_tileCount hlast ?_, ?_, column_index hlast⟩
  · omega
  · omega
  · exact Nat.dvd_mul_left ..

/-- A range of whole rows with all tiles that a window meets.  For a window that starts in
    the document and is not empty it starts in the row of the first pixel row, and ends at most
    one row behind the one of the last pixel row, both moved into the grid. -/
structure CoversWindow (g : Grid) (edge : Nat) (y : Int) (height : Nat) (r : TileRange) :
    Prop where
  whole : g.WholeRows r
  covers : ∀ index, g.Meets edge y height index → index ∈ r
  start : 0 ≤ y → 1 ≤ height → g.row r.first = min (y.toNat / edge) (g.rows - 1)
  stop : 0 ≤ y → 1 ≤ height →
    g.row r.last ≤ min ((y.toNat + height - 1) / edge + 1) (g.rows - 1)

theorem exists_coversWindow (hgrid : g.isEmpty = false) (hedge : 0 < edge) (y : Int)
    (height : Nat) :
    ∃ r, g.viewportBand edge y height = some r ∧ g.CoversWindow edge y height r := by
  have hordered : (windowRows edge y height).1 ≤ (windowRows edge y height).2 :=
    Nat.le_add_right ..
  obtain ⟨r, hband, hwhole, hfirst, hlast⟩ := exists_rowBand hgrid hordered
  refine ⟨r, hband, hwhole, ?_, fun _ _ => hfirst, ?_⟩
  · rintro index ⟨hin, p, ⟨hstart, hend⟩, hup, hdown⟩
    -- the shared pixel row lies in a tile, so it is no negative number
    obtain ⟨p, rfl⟩ := Int.eq_ofNat_of_zero_le (Int.le_trans (Int.natCast_nonneg _) hup)
    have habove : (windowRows edge y height).1 ≤ g.row index :=
      windowRows_le_row hedge hstart (Int.ofNat_lt.mp hdown)
    have hbelow : g.row index ≤ (windowRows edge y height).2 :=
      row_le_windowRows hedge (Int.ofNat_le.mp hup) hend
    have hrow : g.row index < g.rows := Nat.div_lt_of_lt_mul hin
    exact hwhole.mem hin (by omega) (by omega)
  · intro _ hone
    have hle := @windowRows_le edge height y hedge hone
    omega

/-! ## 3. The band in machine words -/

/-- The rows of a window: rational quotients, cut to words. -/
def windowRowsWithin (edge : Nat) (y : Int) (height : Nat) : Except Fault (Nat × Nat) := do
  let start := if y < 0 then 0 else min maxIndex ⌊(y : ℚ) / edge⌋₊
  let stop ← addWithin maxIndex start (min maxIndex ⌈(height : ℚ) / edge⌉₊)
  return (start, max stop start)

/-- The viewport band, under the assertion that a range does not end before it starts. -/
def viewportBandWithin (g : Grid) (edge : Nat) (y : Int) (height : Nat) :
    Except Fault (Option TileRange) := do
  let rows ← windowRowsWithin edge y height
  if g.isEmpty then return none
  let lastRow ← subWithin g.rows 1
  let first ← g.indexWithin 0 (min rows.1 lastRow)
  let lastColumn ← subWithin g.columns 1
  let last ← g.indexWithin lastColumn (min rows.2 lastRow)
  let range ← TileRange.ofBounds first last
  return some range

theorem ceil_div_eq (hedge : 0 < edge) (height : Nat) :
    ⌈(height : ℚ) / edge⌉₊ = ceilDiv height edge := by
  refine eq_of_forall_ge_iff fun k => ?_
  have hpos : (0 : ℚ) < edge := Nat.cast_pos.mpr hedge
  rw [Nat.ceil_le, div_le_iff₀ hpos, ceilDiv_le_iff hedge]
  exact_mod_cast Iff.rfl

theorem floor_div_eq (hy : 0 ≤ y) : ⌊(y : ℚ) / edge⌋₊ = y.toNat / edge := by
  have hcast : (y : ℚ) = (y.toNat : ℚ) := by exact_mod_cast (Int.toNat_of_nonneg hy).symm
  rw [hcast, Nat.floor_div_eq_div]

theorem windowRowsWithin_eq (hedge : 0 < edge) (hy : y ≤ 0x7FFFFFFF)
    (hheight : height ≤ maxLength) :
    windowRowsWithin edge y height = .ok (windowRows edge y height) := by
  have hmax : maxIndex = 18446744073709551615 := rfl
  have hlength : maxLength = 4294967295 := rfl
  have hstart : y.toNat / edge ≤ y.toNat := Nat.div_le_self ..
  have hrows : ceilDiv height edge ≤ height := by
    rw [ceilDiv_le_iff hedge]
    exact Nat.le_mul_of_pos_right height hedge
  have hfirst : (if y < 0 then 0 else min maxIndex ⌊(y : ℚ) / edge⌋₊) = y.toNat / edge := by
    split
    · next hneg => rw [Int.toNat_of_nonpos (by omega), Nat.zero_div]
    · next hpos =>
      rw [floor_div_eq (by omega)]
      omega
  have hcut : min maxIndex (ceilDiv height edge) = ceilDiv height edge := by omega
  have hsum : addWithin maxIndex (y.toNat / edge) (ceilDiv height edge) =
      .ok (y.toNat / edge + ceilDiv height edge) :=
    addWithin_eq_ok_iff.mpr ⟨rfl, by omega⟩
  have hordered : max (y.toNat / edge + ceilDiv height edge) (y.toNat / edge) =
      y.toNat / edge + ceilDiv height edge := Nat.max_eq_left (Nat.le_add_right ..)
  rw [windowRowsWithin, hfirst, ceil_div_eq hedge, hcut, hsum]
  simp only [bind, Except.bind, pure, Except.pure, hordered, windowRows]

/-- **The viewport band can always be computed**, in a grid whose indices fit. -/
theorem viewportBandWithin_eq (hfits : g.tileCount ≤ maxIndex) (hedge : 0 < edge)
    (hy : y ≤ 0x7FFFFFFF) (hheight : height ≤ maxLength) :
    g.viewportBandWithin edge y height = .ok (g.viewportBand edge y height) := by
  rw [viewportBandWithin, windowRowsWithin_eq hedge hy hheight]
  cases hempty : g.isEmpty with
  | true => simp only [viewportBand, rowBand, hempty, bind, Except.bind, pure, Except.pure, if_true]
  | false =>
    obtain ⟨hcolumns, hrows⟩ := isEmpty_eq_false_iff.mp hempty
    obtain ⟨hlastColumn, hlastRow⟩ := last_within hempty
    have hindex : ∀ column row, column < g.columns →
        g.indexWithin column (min row (g.rows - 1)) = .ok (g.index column (min row (g.rows - 1))) :=
      fun column row hcolumn => indexWithin_eq hfits hcolumn (by omega)
    have hrowsOrdered : (windowRows edge y height).1 ≤ (windowRows edge y height).2 :=
      Nat.le_add_right ..
    have hordered : g.index 0 (min (windowRows edge y height).1 (g.rows - 1)) ≤
        g.index (g.columns - 1) (min (windowRows edge y height).2 (g.rows - 1)) :=
      index_le_index (Nat.zero_le _) (by omega)
    simp only [viewportBand, rowBand, hempty, hlastRow, hlastColumn, hindex _ _ hcolumns,
      hindex _ _ (Nat.sub_one_lt_of_lt hcolumns), TileRange.ofBounds, hordered, bind, Except.bind,
      pure, Except.pure, if_true, Bool.false_eq_true, if_false]

/-- **The viewport band covers the viewport, tightly.**  In a grid with tiles it can be
    computed for every start and every height. -/
theorem viewport_band_covers (hgrid : g.isEmpty = false) (hfits : g.tileCount ≤ maxIndex)
    (hedge : 0 < edge) (hy : y ≤ 0x7FFFFFFF) (hheight : height ≤ maxLength) :
    ∃ r, g.viewportBandWithin edge y height = .ok (some r) ∧
      g.viewportBand edge y height = some r ∧ g.CoversWindow edge y height r := by
  obtain ⟨r, hband, hcovers⟩ := exists_coversWindow hgrid hedge y height
  have hwithin : g.viewportBandWithin edge y height = .ok (some r) := by
    rw [viewportBandWithin_eq hfits hedge hy hheight, hband]
  exact ⟨r, hwithin, hband, hcovers⟩

/-- Four columns and ten rows. -/
def fourByTen : Grid := { initial with columns := 4, rows := 10 }

/-- Twenty pixel rows from the middle of a tile on: the last of them lies in the row of
    tile 15, and the band has one row more. -/
theorem viewport_band_covers_misaligned :
    fourByTen.viewportBandWithin 16 40 20 = .ok (some ⟨8, 19⟩) ∧
      fourByTen.CoversWindow 16 40 20 ⟨8, 19⟩ := by
  have hband : fourByTen.viewportBand 16 40 20 = some ⟨8, 19⟩ := by decide
  obtain ⟨r, hwithin, hr, hcovers⟩ := @viewport_band_covers fourByTen 16 20 40
    (by decide) (by decide) (by decide) (by decide) (by decide)
  obtain rfl : r = ⟨8, 19⟩ := Option.some.inj (hr.symm.trans hband)
  exact ⟨hwithin, hcovers⟩

/-! ## 4. The band to prepare before a scroll -/

/-- The pixel row at which the band for a scroll to `y` starts. -/
def scrollStart (y : Int) (height : Nat) : Int :=
  max 0 (clampInt (y - Int.bmod height UInt32.size))

theorem prefetchBand_eq (g : Grid) (edge : Nat) (y : Int) (height : Nat) :
    g.prefetchBand edge y height =
      g.viewportBand edge (scrollStart y height) (min maxLength (3 * height)) := rfl

theorem bmod_of_lt (h : height < 0x80000000) : Int.bmod height UInt32.size = height := by
  apply Int.bmod_eq_of_le
  · simp only [UInt32.size]
    omega
  · simp only [UInt32.size]
    omega

/-- A length of `2 ^ 31` and more is negative as a signed number. -/
theorem bmod_of_le (h : 0x80000000 ≤ height) (hheight : height ≤ maxLength) :
    Int.bmod height UInt32.size = height - 0x100000000 := by
  have hmax : maxLength = 4294967295 := rfl
  have hshift : Int.bmod ((height : Int) - 0x100000000) UInt32.size = Int.bmod height UInt32.size :=
    Int.sub_bmod_right height UInt32.size
  rw [← hshift]
  apply Int.bmod_eq_of_le
  · simp only [UInt32.size]
    omega
  · simp only [UInt32.size]
    omega

theorem scrollStart_of_lt (hy : y ≤ 0x7FFFFFFF) (h : height < 0x80000000) :
    scrollStart y height = max 0 (y - height) := by
  rw [scrollStart, bmod_of_lt h, clampInt]
  omega

/-- From a height of `2 ^ 31` on the start is moved down instead of up. -/
theorem scrollStart_of_le (h : 0x80000000 ≤ height) (hheight : height ≤ maxLength) :
    scrollStart y height = max 0 (min 0x7FFFFFFF (y + 0x100000000 - height)) := by
  rw [scrollStart, bmod_of_le h hheight, clampInt]
  omega

/-- **The band never ends before the window does**, whatever becomes of its start. -/
theorem le_scrollStart_add (hy : y ≤ 0x7FFFFFFF) (hheight : height ≤ maxLength) :
    y + height ≤ scrollStart y height + (min maxLength (3 * height) : Nat) := by
  have hmax : maxLength = 4294967295 := rfl
  rcases Nat.lt_or_ge height 0x80000000 with h | h
  · rw [scrollStart_of_lt hy h]
    omega
  · rw [scrollStart_of_le h hheight]
    omega

/-- A tile of the grid that has pixel rows in common with the window that is scrolled to, or
    with the one of the same height above it. -/
def InReach (g : Grid) (edge : Nat) (y : Int) (height index : Nat) : Prop :=
  g.Meets edge y height index ∨ g.Meets edge (y - height) height index

/-- The pixel rows that put a tile into reach. -/
theorem inReach_iff :
    g.InReach edge y height index ↔ index < g.columns * g.rows ∧
      ∃ p : Nat, (y - height ≤ p ∧ (p : Int) < y + height) ∧
        g.row index * edge ≤ p ∧ p < (g.row index + 1) * edge := by
  constructor
  · rintro (⟨hin, p, ⟨hstart, hend⟩, hup, hdown⟩ | ⟨hin, p, ⟨hstart, hend⟩, hup, hdown⟩)
    · obtain ⟨p, rfl⟩ := Int.eq_ofNat_of_zero_le (Int.le_trans (Int.natCast_nonneg _) hup)
      exact ⟨hin, p, ⟨by omega, hend⟩, Int.ofNat_le.mp hup, Int.ofNat_lt.mp hdown⟩
    · obtain ⟨p, rfl⟩ := Int.eq_ofNat_of_zero_le (Int.le_trans (Int.natCast_nonneg _) hup)
      exact ⟨hin, p, ⟨hstart, by omega⟩, Int.ofNat_le.mp hup, Int.ofNat_lt.mp hdown⟩
  · rintro ⟨hin, p, ⟨hstart, hend⟩, hup, hdown⟩
    rcases Int.lt_or_le p y with habove | hbelow
    · exact Or.inr ⟨hin, p, ⟨hstart, by omega⟩, Int.ofNat_le.mpr hup, Int.ofNat_lt.mpr hdown⟩
    · exact Or.inl ⟨hin, p, ⟨hbelow, hend⟩, Int.ofNat_le.mpr hup, Int.ofNat_lt.mpr hdown⟩

/-- The band for a scroll: a range of whole rows from the one of its first pixel row on.  Of
    the tiles in reach it misses only those of rows before its own, and so none at all unless the
    height is negative as a signed number and the start falls behind the first row of tiles. -/
structure CoversScroll (g : Grid) (edge : Nat) (y : Int) (height : Nat) (r : TileRange) :
    Prop where
  whole : g.WholeRows r
  start : g.row r.first = min ((scrollStart y height).toNat / edge) (g.rows - 1)
  reach : ∀ index, g.InReach edge y height index → (index ∈ r ↔ g.row r.first ≤ g.row index)
  complete : (∀ index, g.InReach edge y height index → index ∈ r) ↔
    height < 0x80000000 ∨ g.rows = 1 ∨ min 0x7FFFFFFF (y + 0x100000000 - height) < edge

/-- Below a height of `2 ^ 31` no tile in reach lies before the row that the band starts
    from. -/
theorem scrollStart_le_row (hedge : 0 < edge) (hy : y ≤ 0x7FFFFFFF) (h : height < 0x80000000)
    (hreach : g.InReach edge y height index) :
    (scrollStart y height).toNat / edge ≤ g.row index := by
  obtain ⟨-, p, ⟨hstart, -⟩, -, hdown⟩ := inReach_iff.mp hreach
  have hbefore : scrollStart y height ≤ p := by
    simp only [scrollStart_of_lt hy h]
    omega
  exact @windowRows_le_row edge height _ _ hedge p hbefore hdown

/-- A start behind the first row of tiles loses a tile: the first one is in reach then. -/
theorem inReach_zero (hgrid : g.isEmpty = false) (hedge : 0 < edge) (h : 0x80000000 ≤ height)
    (hy : y ≤ 0x7FFFFFFF) (hlate : (edge : Int) ≤ y + 0x100000000 - height) :
    g.InReach edge y height 0 := by
  obtain ⟨hcolumns, hrows⟩ := isEmpty_eq_false_iff.mp hgrid
  have hrow : g.row 0 = 0 := Nat.zero_div _
  refine inReach_iff.mpr ⟨Nat.mul_pos hcolumns hrows, 0, ⟨by omega, by omega⟩, ?_, ?_⟩
  · simp only [hrow, Nat.zero_mul, Nat.le_refl]
  · simp only [hrow, Nat.zero_add, Nat.one_mul, hedge]

/-- The heights and starts with which no tile in reach is missing. -/
theorem inReach_complete_iff (hgrid : g.isEmpty = false) (hedge : 0 < edge)
    (hy : y ≤ 0x7FFFFFFF) (hheight : height ≤ maxLength)
    (hstart : g.row r.first = min ((scrollStart y height).toNat / edge) (g.rows - 1))
    (hreach : ∀ index, g.InReach edge y height index →
      (index ∈ r ↔ g.row r.first ≤ g.row index)) :
    (∀ index, g.InReach edge y height index → index ∈ r) ↔
      height < 0x80000000 ∨ g.rows = 1 ∨ min 0x7FFFFFFF (y + 0x100000000 - height) < edge := by
  rcases Nat.lt_or_ge height 0x80000000 with h | h
  · apply iff_of_true
    · intro index hindex
      apply (hreach index hindex).mpr
      have hle := scrollStart_le_row hedge hy h hindex
      omega
    · exact Or.inl h
  · have hbegin := scrollStart_of_le (y := y) h hheight
    constructor
    · intro hall
      -- otherwise the first tile of the grid would be in reach and yet before the band
      by_contra hnot
      obtain ⟨-, hrows, hlate⟩ := by simpa only [not_or, Int.not_lt] using hnot
      have hzero : g.InReach edge y height 0 := inReach_zero hgrid hedge h hy (by omega)
      have hfirst : g.row r.first ≤ 0 := by
        simpa only [row, Nat.zero_div] using (hreach 0 hzero).mp (hall 0 hzero)
      have hbehind : 0 < (scrollStart y height).toNat / edge := Nat.div_pos (by omega) hedge
      have hsome := (isEmpty_eq_false_iff.mp hgrid).2
      omega
    · rintro (hlt | hone | hearly) index hindex
      · exact absurd h (Nat.not_le_of_lt hlt)
      · apply (hreach index hindex).mpr
        omega
      · apply (hreach index hindex).mpr
        have hfirst : (scrollStart y height).toNat / edge = 0 := Nat.div_eq_of_lt (by omega)
        omega

theorem exists_coversScroll (hgrid : g.isEmpty = false) (hedge : 0 < edge) (hy : y ≤ 0x7FFFFFFF)
    (hheight : height ≤ maxLength) :
    ∃ r, g.prefetchBand edge y height = some r ∧ g.CoversScroll edge y height r := by
  have hordered : (windowRows edge (scrollStart y height) (min maxLength (3 * height))).1 ≤
      (windowRows edge (scrollStart y height) (min maxLength (3 * height))).2 := Nat.le_add_right ..
  obtain ⟨r, hband, hwhole, hfirst, hlast⟩ := exists_rowBand hgrid hordered
  have hreach : ∀ index, g.InReach edge y height index →
      (index ∈ r ↔ g.row r.first ≤ g.row index) := by
    intro index hindex
    obtain ⟨hin, p, ⟨-, hend⟩, hup, -⟩ := inReach_iff.mp hindex
    constructor
    · intro hmem
      exact Nat.div_le_div_right hmem.1
    · intro hrow
      apply hwhole.mem hin hrow
      have hbelow := row_le_windowRows hedge hup
        (Int.lt_of_lt_of_le hend (le_scrollStart_add hy hheight))
      have hrows : g.row index < g.rows := Nat.div_lt_of_lt_mul hin
      omega
  exact ⟨r, hband, hwhole, hfirst, hreach,
    inReach_complete_iff hgrid hedge hy hheight hfirst hreach⟩

/-- The band for a scroll in machine words, under the assertion that a range does not end
    before it starts. -/
def prefetchBandWithin (g : Grid) (edge : Nat) (y : Int) (height : Nat) :
    Except Fault (Option TileRange) := do
  let rows ← windowRowsWithin edge (scrollStart y height) (min maxLength (3 * height))
  if g.isEmpty then return none
  let lastRow ← subWithin g.rows 1
  let first ← mulWithin maxIndex (min rows.1 lastRow) g.columns
  let before ← mulWithin maxIndex (min rows.2 lastRow) g.columns
  let behind ← addWithin maxIndex before g.columns
  let last ← subWithin behind 1
  let range ← TileRange.ofBounds first last
  return some range

/-- The first and the last index of a row. -/
theorem rowEnds_within (hfits : g.tileCount ≤ maxIndex) (hcolumns : 0 < g.columns)
    (hrow : row < g.rows) :
    mulWithin maxIndex row g.columns = .ok (g.index 0 row) ∧
      addWithin maxIndex (g.index 0 row) g.columns = .ok (g.index (g.columns - 1) row + 1) := by
  have hlast : g.index (g.columns - 1) row < g.tileCount :=
    index_lt_tileCount (Nat.sub_one_lt_of_lt hcolumns) hrow
  simp only [index] at hlast
  constructor
  · apply mulWithin_eq_ok_iff.mpr
    simp only [index]
    omega
  · apply addWithin_eq_ok_iff.mpr
    simp only [index]
    omega

/-- **The band for a scroll can always be computed**, in a grid whose indices fit. -/
theorem prefetchBandWithin_eq (hfits : g.tileCount ≤ maxIndex) (hedge : 0 < edge) (y : Int)
    (height : Nat) : g.prefetchBandWithin edge y height = .ok (g.prefetchBand edge y height) := by
  have hstart : scrollStart y height ≤ 0x7FFFFFFF := by
    simp only [scrollStart, clampInt]
    omega
  rw [prefetchBandWithin, windowRowsWithin_eq hedge hstart (Nat.min_le_left _ _), prefetchBand_eq]
  cases hempty : g.isEmpty with
  | true => simp only [viewportBand, rowBand, hempty, bind, Except.bind, pure, Except.pure, if_true]
  | false =>
    obtain ⟨hcolumns, hrows⟩ := isEmpty_eq_false_iff.mp hempty
    -- rows are clipped to the grid, so no product or sum exceeds the number of tiles
    have hends : ∀ row,
        mulWithin maxIndex (min row (g.rows - 1)) g.columns =
            .ok (g.index 0 (min row (g.rows - 1))) ∧
          addWithin maxIndex (g.index 0 (min row (g.rows - 1))) g.columns =
            .ok (g.index (g.columns - 1) (min row (g.rows - 1)) + 1) := by
      intro row
      exact rowEnds_within hfits hcolumns (by omega)
    have hlast : ∀ index, subWithin (index + 1) 1 = .ok index := by
      intro index
      exact subWithin_eq_ok_iff.mpr (Nat.add_comm ..)
    have hordered : ∀ first rows, g.index 0 (min first (g.rows - 1)) ≤
        g.index (g.columns - 1) (min (first + rows) (g.rows - 1)) := by
      intro first rows
      exact index_le_index (Nat.zero_le _) (by omega)
    simp only [viewportBand, rowBand, windowRows, hempty, (last_within hempty).2, (hends _).1,
      (hends _).2, hlast, TileRange.ofBounds, hordered, bind, Except.bind, pure, Except.pure,
      if_true, Bool.false_eq_true, if_false]

/-- **The band for a scroll has the window scrolled to and the one above it**, for every start
    and every height below `2 ^ 31`.  For a greater height it starts `2 ^ 32 - height` pixel rows
    below `y`, and misses the tiles above. -/
theorem prefetch_band_covers (hgrid : g.isEmpty = false) (hfits : g.tileCount ≤ maxIndex)
    (hedge : 0 < edge) (hy : y ≤ 0x7FFFFFFF) (hheight : height ≤ maxLength) :
    ∃ r, g.prefetchBandWithin edge y height = .ok (some r) ∧
      g.prefetchBand edge y height = some r ∧ g.CoversScroll edge y height r := by
  obtain ⟨r, hband, hcovers⟩ := exists_coversScroll hgrid hedge hy hheight
  have hwithin := prefetchBandWithin_eq hfits hedge y height
  exact ⟨r, by simpa only [hband] using hwithin, hband, hcovers⟩

/-- Twenty pixel rows from the middle of a tile on, and the twenty above them. -/
theorem prefetch_band_covers_misaligned :
    fourByTen.prefetchBandWithin 16 40 20 = .ok (some ⟨4, 23⟩) ∧
      ∀ index, fourByTen.InReach 16 40 20 index → index ∈ (⟨4, 23⟩ : TileRange) := by
  have hband : fourByTen.prefetchBand 16 40 20 = some ⟨4, 23⟩ := by decide
  obtain ⟨r, hwithin, hr, hcovers⟩ := @prefetch_band_covers fourByTen 16 20 40
    (by decide) (by decide) (by decide) (by decide) (by decide)
  obtain rfl : r = ⟨4, 23⟩ := Option.some.inj (hr.symm.trans hband)
  exact ⟨hwithin, hcovers.complete.mpr (Or.inl (by decide))⟩

/-- **A window may be missed**: with a height of three billion the band is the last row of
    tiles, and the first tile of the pixel row scrolled to is not part of it. -/
theorem prefetch_band_may_miss_the_window :
    fourByTen.prefetchBand 16 64 3000000000 = some ⟨36, 39⟩ ∧
      fourByTen.Meets 16 64 3000000000 16 ∧ 16 ∉ (⟨36, 39⟩ : TileRange) := by
  refine ⟨by decide, ⟨by decide, 64, by decide, by decide⟩, by decide⟩

end Grid

/-- In particular it can be computed in every cache that has tiles. -/
theorem CacheSession.exists_viewportBand {s : CacheSession} (h : s.Reachable)
    (hgrid : s.cache.grid.isEmpty = false) {y : Int} {height : Nat} (hy : y ≤ 0x7FFFFFFF)
    (hheight : height ≤ maxLength) :
    ∃ r, s.cache.grid.viewportBandWithin s.cache.edge y height = .ok (some r) ∧
      s.cache.viewportBand y height = some r ∧
      s.cache.grid.CoversWindow s.cache.edge y height r := by
  obtain ⟨r, hband, hcovers⟩ :=
    Grid.exists_coversWindow hgrid s.cache.edge_pos y height
  have hfits : s.cache.grid.tileCount ≤ maxIndex :=
    Nat.le_of_lt (sound_of_reachable h).cache.fits
  have hwithin := Grid.viewportBandWithin_eq hfits s.cache.edge_pos hy hheight
  rw [hband] at hwithin
  exact ⟨r, hwithin, hband, hcovers⟩

theorem CacheSession.exists_prefetchBand {s : CacheSession} (h : s.Reachable)
    (hgrid : s.cache.grid.isEmpty = false) {y : Int} {height : Nat} (hy : y ≤ 0x7FFFFFFF)
    (hheight : height ≤ maxLength) :
    ∃ r, s.cache.grid.prefetchBandWithin s.cache.edge y height = .ok (some r) ∧
      s.cache.prefetchBand y height = some r ∧
      s.cache.grid.CoversScroll s.cache.edge y height r := by
  obtain ⟨r, hband, hcovers⟩ := Grid.exists_coversScroll hgrid s.cache.edge_pos hy hheight
  have hfits : s.cache.grid.tileCount ≤ maxIndex :=
    Nat.le_of_lt (sound_of_reachable h).cache.fits
  have hwithin := Grid.prefetchBandWithin_eq hfits s.cache.edge_pos y height
  exact ⟨r, by simpa only [hband] using hwithin, hband, hcovers⟩

end TilePaint
