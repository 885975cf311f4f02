/-
  TilePaint/TileBlock.lean
  ========================
  **Blocks of whole tiles.**

  A block is a rectangle of columns and rows of tiles, each given by a first position
  and the position behind its last one.  `TileBlock.around` is the block of the
  tiles that a rectangle meets on a surface of given size.
-/
import TilePaint.Rect

namespace TilePaint

/-- The tiles of columns `columnStart ≤ c < columnEnd` and rows
    `rowStart ≤ r < rowEnd`. -/
structure TileBlock where
  columnStart : Nat
  columnEnd : Nat
  rowStart : Nat
  rowEnd : Nat
deriving DecidableEq, Repr, Inhabited

namespace TileBlock

/-- The tiles of edge `edge` that enclose the visible part of a rectangle: the
    part inside a surface of the given size whose corner is the origin.  Edge,
    surface and rectangle are in one unit. -/
def around (target : Rect) (surfaceWidth surfaceHeight edge : Float32) :
    Option TileBlock :=
  (target.intersect ⟨0, 0, surfaceWidth, surfaceHeight⟩).map fun visible =>
    { columnStart := floorIndex (visible.x / edge)
      columnEnd := ceilIndex (visible.right / edge)
      rowStart := floorIndex (visible.y / edge)
      rowEnd := ceilIndex (visible.bottom / edge) }

def columns (b : TileBlock) : Except Fault Nat := subWithin b.columnEnd b.columnStart

def rows (b : TileBlock) : Except Fault Nat := subWithin b.rowEnd b.rowStart

def clamp (b : TileBlock) (columns rows : Nat) : TileBlock where
  columnStart := min b.columnStart columns
  columnEnd := min b.columnEnd columns
  rowStart := min b.rowStart rows
  rowEnd := min b.rowEnd rows

/-- The positions of the block, row by row, each as column and row. -/
def positions (b : TileBlock) : List (Nat × Nat) :=
  (List.range' b.rowStart (b.rowEnd - b.rowStart)).flatMap fun row =>
    (List.range' b.columnStart (b.columnEnd - b.columnStart)).map fun column => (column, row)

theorem mem_positions {b : TileBlock} {column row : Nat} :
    (column, row) ∈ b.positions ↔
      (b.columnStart ≤ column ∧ column < b.columnEnd) ∧ b.rowStart ≤ row ∧ row < b.rowEnd := by
  simp only [positions, List.mem_flatMap, List.mem_map, List.mem_range'_1, Prod.mk.injEq]
  constructor
  · rintro ⟨r, hr, c, hc, rfl, rfl⟩
    omega
  · intro h
    exact ⟨row, by omega, column, by omega, rfl, rfl⟩

end TileBlock

end TilePaint
