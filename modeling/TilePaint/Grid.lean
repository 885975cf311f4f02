/-
  TilePaint/Grid.lean
  ===================
  **The grid of tiles over a scaled document.**

  The document surface, of a size in twips and at a scale, is cut into square
  tiles.  Tile `index` stands in column `index % columns` and row
  `index / columns`; the last column and the last row may stick out.

  A grid is replaced as a whole and never changed.  Its `generation` tells one
  grid from the next.  Positions and indices convert by `Grid.index`,
  `Grid.column` and `Grid.row`; `Grid.blockOf` and `Grid.rangeOf` lead from a
  rectangle to the tiles that it meets and on to the least range of indices with
  all of them.
-/
import TilePaint.Scale
import TilePaint.TileRange
import TilePaint.TileBlock

namespace TilePaint

/-- A document of some size at some scale, cut into tiles. -/
structure Grid where
  widthTwips : Int
  heightTwips : Int
  scale : Float32
  /-- The width of the scaled document in pixels. -/
  width : Float32
  /-- The height of the scaled document in pixels. -/
  height : Float32
  columns : Nat
  rows : Nat
  generation : Nat

namespace Grid

/-- The grid of no document at scale one. -/
def initial : Grid where
  widthTwips := 0
  heightTwips := 0
  scale := 1
  width := 0
  height := 0
  columns := 0
  rows := 0
  generation := 0

def ofDocument (edge : Nat) (widthTwips heightTwips : Int) (scale : Float32) (generation : Nat) :
    Grid :=
  let width := twipsToPixels (Float32.ofInt widthTwips) scale
  let height := twipsToPixels (Float32.ofInt heightTwips) scale
  { widthTwips, heightTwips, scale, width, height
    columns := tilesAcross width edge
    rows := tilesAcross height edge
    generation }

def tileCount (g : Grid) : Nat := g.columns * g.rows

def isEmpty (g : Grid) : Bool := g.columns == 0 || g.rows == 0

theorem isEmpty_eq_false_iff {g : Grid} : g.isEmpty = false ↔ 0 < g.columns ∧ 0 < g.rows := by
  simp only [isEmpty, Bool.or_eq_false_iff, beq_eq_false_iff_ne]
  omega

/-! ### Positions and indices -/

def index (g : Grid) (column row : Nat) : Nat := row * g.columns + column

def column (g : Grid) (index : Nat) : Nat := index % g.columns

def row (g : Grid) (index : Nat) : Nat := index / g.columns

theorem index_lt_tileCount {g : Grid} {column row : Nat} (hc : column < g.columns)
    (hr : row < g.rows) : g.index column row < g.tileCount := by
  have h : (row + 1) * g.columns ≤ g.rows * g.columns := Nat.mul_le_mul_right _ hr
  rw [index, tileCount, Nat.mul_comm g.columns]
  rw [Nat.add_mul, Nat.one_mul] at h
  omega

theorem column_index {g : Grid} {column row : Nat} (hc : column < g.columns) :
    g.column (g.index column row) = column := by
  rw [index, Grid.column, Nat.mul_comm, Nat.mul_add_mod, Nat.mod_eq_of_lt hc]

theorem row_index {g : Grid} {column row : Nat} (hc : column < g.columns) :
    g.row (g.index column row) = row := by
  have : 0 < g.columns := by omega
  rw [index, Grid.row, Nat.mul_comm, Nat.mul_add_div this, Nat.div_eq_of_lt hc, Nat.add_zero]

theorem index_column_row {g : Grid} {index : Nat} :
    g.index (g.column index) (g.row index) = index := by
  rw [Grid.index, column, row, Nat.mul_comm, Nat.div_add_mod]

/-! ### From rectangles to tiles -/

def blockOf (g : Grid) (edge : Nat) (rect : Rect) : Option TileBlock :=
  if g.isEmpty then none
  else (TileBlock.around rect g.width g.height (Float32.ofNat edge)).map
    (·.clamp g.columns g.rows)

/-- The tiles that a rectangle in twips meets.  The block is not yet cut to the
    grid. -/
def blockOfTwips (g : Grid) (edge : Nat) (rect : TwipRect) : Option TileBlock :=
  if g.isEmpty then none
  else TileBlock.around rect.toRect (Float32.ofInt g.widthTwips)
    (Float32.ofInt g.heightTwips) (pixelsToTwips (Float32.ofNat edge) g.scale)

/-- The range from the first to the last tile of a block, both moved into the
    grid.  It has at least the first tile. -/
def rangeOf (g : Grid) (s : TileBlock) : TileRange :=
  let first := g.index (min s.columnStart (g.columns - 1)) (min s.rowStart (g.rows - 1))
  let last := g.index (min (s.columnEnd - 1) (g.columns - 1)) (min (s.rowEnd - 1) (g.rows - 1))
  ⟨first, max first last⟩

/-- The range of a block lies in the grid, whatever the block. -/
theorem rangeOf_in_grid {g : Grid} (h : g.isEmpty = false) (s : TileBlock) :
    (g.rangeOf s).first ≤ (g.rangeOf s).last ∧ (g.rangeOf s).last < g.tileCount := by
  obtain ⟨hc, hr⟩ := isEmpty_eq_false_iff.mp h
  refine ⟨Nat.le_max_left .., Nat.max_lt.mpr ⟨?_, ?_⟩⟩ <;>
    exact index_lt_tileCount (by omega) (by omega)

/-! ### Bands of rows -/

/-- The first row of a window that starts at pixel row `y`, and the row behind the
    ones that its height takes up from there. -/
def windowRows (edge : Nat) (y : Int) (height : Nat) : Nat × Nat :=
  let start := y.toNat / edge
  (start, start + ceilDiv height edge)

/-- The range of all tiles of the rows `firstRow` to `lastRow`, both moved into
    the grid. -/
def rowBand (g : Grid) (firstRow lastRow : Nat) : Option TileRange :=
  if g.isEmpty then none
  else some ⟨g.index 0 (min firstRow (g.rows - 1)),
    g.index (g.columns - 1) (min lastRow (g.rows - 1))⟩

/-- The viewport band: whole rows of tiles around the window of height `height`
    that starts at pixel row `y`. -/
def viewportBand (g : Grid) (edge : Nat) (y : Int) (height : Nat) : Option TileRange :=
  let (first, last) := windowRows edge y height
  g.rowBand first last

def clampInt (n : Int) : Int := max (-0x80000000) (min 0x7FFFFFFF n)

/-- The band to prepare before scrolling to pixel row `y`: from one window height
    above it, three window heights down.  The height is taken as a signed number
    where it is subtracted. -/
def prefetchBand (g : Grid) (edge : Nat) (y : Int) (height : Nat) : Option TileRange :=
  -- a height of 2 ^ 31 and more is negative here, and the window starts below `y`
  let start := max 0 (clampInt (y - Int.bmod height UInt32.size))
  g.viewportBand edge start (min maxLength (3 * height))

end Grid

end TilePaint
