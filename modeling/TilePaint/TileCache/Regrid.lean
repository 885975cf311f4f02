/-
  TilePaint/TileCache/Regrid.lean
  ===============================
  **Replacing the grid.**

  A new document size or a new scale replaces the grid as a whole: the generation
  grows by one, no tile is valid, and every slot is empty.  The buffers of the
  pool stay.  If the number of tiles does not fit an index, the cache stays as it
  is and the call is a fault.
-/
import TilePaint.TileCache.Basic

namespace TilePaint.TileCache

def rebuild (c : TileCache) (widthTwips heightTwips : Int) (scale : Float32) :
    Except Fault TileCache := do
  let grid := Grid.ofDocument c.edge widthTwips heightTwips scale (c.grid.generation + 1)
  -- a count that does not fit ends the call before anything has changed
  let tiles ← mulWithin maxIndex grid.columns grid.rows
  let bits ← addWithin maxIndex tiles 1
  return { c.mapSlots Slot.evict with grid, valid := BitSet.ofSize bits }

/-- Take over a new document size at the scale in force.  Nothing changes if the
    size is the old one. -/
def resize (c : TileCache) (widthTwips heightTwips : Int) : Except Fault TileCache :=
  if c.grid.widthTwips = widthTwips ∧ c.grid.heightTwips = heightTwips then .ok c
  else c.rebuild widthTwips heightTwips c.grid.scale

/-- Take over a new document size and a new scale.  A scale close to the old one
    is not taken over. -/
def resizeScaled (c : TileCache) (widthTwips heightTwips : Int) (scale : Float32) :
    Except Fault TileCache :=
  if scalesClose c.grid.scale scale then c.resize widthTwips heightTwips
  else c.rebuild widthTwips heightTwips scale

/-- Show the document at a new scale and retire the active context.  Nothing
    changes unless the scale is far from the old one. -/
def rescale (c : TileCache) (scale : Float32) : Except Fault TileCache :=
  if scalesFar scale c.grid.scale then do
    let c ← c.rebuild c.grid.widthTwips c.grid.heightTwips scale
    return c.setContext Context.none
  else .ok c

end TilePaint.TileCache
