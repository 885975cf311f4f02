/-
  TilePaint/Task.lean
  ===================
  **Paint requests and the tasks made of them.**

  A request asks for ranges of tiles of a document at a scale, for a viewport at
  some place.  A task is a request with its ranges in canonical form and with two
  flags: one stops its rendering, the other keeps its completion quiet.

  A task is never changed.  Adding ranges to it makes a new task with flags of its
  own (`Task.merge`); the result keeps to the viewport band of the task.
-/
import TilePaint.Flag
import TilePaint.TileCache.Basic

namespace TilePaint

/-- What a view asks to be painted. -/
structure Request where
  document : Document
  /-- The top of the viewport in pixels. -/
  y : Int
  /-- The height of the viewport in pixels. -/
  height : Nat
  scale : Float32
  full : Bool := false
  ranges : List TileRange := []

structure Task where
  document : Document
  y : Int
  height : Nat
  scale : Float32
  full : Bool
  /-- The tiles to paint, in canonical form. -/
  ranges : List TileRange
  /-- Once set, no more tiles of the task are rendered. -/
  skipPaint : Flag
  /-- Once set, nobody is told that the task is complete. -/
  skipInvalidation : Flag

namespace Task

def ofRequest (r : Request) (flags : FlagStore) : Task × FlagStore :=
  let (skipPaint, flags) := flags.fresh
  let (skipInvalidation, flags) := flags.fresh
  ({ document := r.document, y := r.y, height := r.height, scale := r.scale, full := r.full
     ranges := TileRange.normalize r.ranges, skipPaint, skipInvalidation }, flags)

/-- The context that the tiles of a task are painted under. -/
def context (t : Task) : Context := Context.ofTask t.document t.scale

/-- The pixel row below the viewport of a task. -/
def bottom (t : Task) : Int := t.y + t.height

/-- Two tasks for one document, at close scales, whose viewports overlap in
    height. -/
def compatible (a b : Task) : Bool :=
  a.document.same b.document && scalesClose a.scale b.scale &&
    decide (b.y < a.bottom) && decide (a.y < b.bottom)

/-- Two tasks for the same tiles of one document. -/
def sameTiles (a b : Task) : Bool :=
  a.document.same b.document && a.ranges == b.ranges

/-- The task with further ranges, kept to its viewport band if the grid has one,
    and with new flags. -/
def merge (t : Task) (extra : List TileRange) (c : TileCache) (flags : FlagStore) :
    Task × FlagStore :=
  let joined := t.ranges ++ extra
  let kept := match c.viewportBand t.y t.height with
    | some limit => TileRange.restrict joined limit
    | none => joined
  let (skipPaint, flags) := flags.fresh
  let (skipInvalidation, flags) := flags.fresh
  ({ t with ranges := TileRange.normalize kept, skipPaint, skipInvalidation }, flags)

def cancel (t : Task) (flags : FlagStore) : FlagStore :=
  (flags.set t.skipPaint).set t.skipInvalidation

end Task

end TilePaint
