/-
  TilePaint/TileCache/Snapshot.lean
  =================================
  **Snapshots: the tiles under a rectangle as one image.**

  A snapshot is taken of the tiles that a rectangle of the view meets, and only if
  all of them are resident.  It is a value of its own: later changes to the cache
  do not show in it.
-/
import TilePaint.TileCache.Basic

namespace TilePaint

/-- The composed image of a block of tiles. -/
structure Snapshot where
  /-- The pixels; the top left corner is that of the first tile of the block. -/
  image : Image
  scale : Float32
  block : TileBlock
  scrollY : Float32

namespace Snapshot

def tileCount (s : Snapshot) : Nat :=
  (s.block.columnEnd - s.block.columnStart) * (s.block.rowEnd - s.block.rowStart)

end Snapshot

namespace TileCache

/-- The tiles that a rectangle of the scrolled view meets. -/
def viewBlock (c : TileCache) (rect : Rect) : Option TileBlock :=
  c.grid.blockOf c.edge (rect.offset 0 c.scrollY)

/-- The length in pixels of `count` tiles; the count is taken modulo 2 ^ 32. -/
def lengthOf (c : TileCache) (count : Nat) : Except Fault Nat :=
  mulWithin maxLength (count % UInt32.size) c.edge

/-- Put the tiles at the given positions side by side on `base`, whose corner is
    that of `block`.  There is no result if one of them is not resident. -/
def compose (c : TileCache) (block : TileBlock) (base : Image) :
    List (Nat × Nat) → Option Image
  | [] => some base
  | (column, row) :: rest =>
      match c.image? (c.grid.index column row) with
      | none => none
      | some img =>
          c.compose block
            (base.paste img ((column - block.columnStart) * c.edge : Nat)
              ((row - block.rowStart) * c.edge : Nat)) rest

/-- Take a snapshot of the tiles under a rectangle of the view.  There is none if
    the rectangle misses the document, if a tile is not resident, or if the work
    was cancelled before the first tile. -/
def snapshot (c : TileCache) (cancelled : Bool) (rect : Rect) :
    Except Fault (Option Snapshot) :=
  match c.viewBlock rect with
  | none => .ok none
  | some block => do
      let width ← c.lengthOf (← block.columns)
      let height ← c.lengthOf (← block.rows)
      let positions := block.positions
      let complete := positions.all fun (column, row) =>
        (c.image? (c.grid.index column row)).isSome
      -- the cancellation is looked at for each tile, so not at all if there is none
      if cancelled && !positions.isEmpty || !complete then return none
      return (c.compose block (Image.blank width height) positions).map fun image =>
        { image, block, scale := c.grid.scale, scrollY := c.scrollY }

end TileCache

end TilePaint
