/-
  TilePaint/TileCache/Invalidate.lean
  ===================================
  **Marking tiles as stale.**

  An invalidation resets validity bits and leaves the slots alone: the stale
  pixels can still be shown until the tile is rendered again.  Invalidating
  everything also retires the active context, so that work in flight is not
  published.
-/
import TilePaint.TileCache.Basic

namespace TilePaint.TileCache

def invalidate (c : TileCache) (index : Nat) : Except Fault TileCache := do
  let (_, valid) ← c.valid.reset index
  return { c with valid }

def invalidateAt (c : TileCache) (column row : Nat) : Except Fault TileCache :=
  if column < c.grid.columns ∧ row < c.grid.rows then c.invalidate (c.grid.index column row)
  else .error (.outsideGrid column row c.grid.columns c.grid.rows)

def invalidateRange (c : TileCache) (range : TileRange) : Except Fault TileCache := do
  return { c with valid := ← c.valid.resetRange range.first range.last }

def rangeIn (c : TileCache) (rect : Rect) : Option TileRange :=
  (c.grid.blockOf c.edge rect).map c.grid.rangeOf

def rangeInTwips (c : TileCache) (rect : TwipRect) : Option TileRange :=
  (c.grid.blockOfTwips c.edge rect).map c.grid.rangeOf

def invalidateFound (c : TileCache) (range : Option TileRange) :
    Except Fault (Option TileRange × TileCache) :=
  match range with
  | none => .ok (none, c)
  | some r => do return (some r, ← c.invalidateRange r)

/-- Mark the tiles under a rectangle in pixels as stale; the answer is their
    range. -/
def invalidateIn (c : TileCache) (rect : Rect) :
    Except Fault (Option TileRange × TileCache) := c.invalidateFound (c.rangeIn rect)

def invalidateInTwips (c : TileCache) (rect : TwipRect) :
    Except Fault (Option TileRange × TileCache) := c.invalidateFound (c.rangeInTwips rect)

/-- Mark every tile as stale and retire the active context. -/
def invalidateAll (c : TileCache) : TileCache :=
  { c with valid := c.valid.clear, context := Context.none }

end TilePaint.TileCache
