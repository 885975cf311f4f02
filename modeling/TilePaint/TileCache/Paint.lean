/-
  TilePaint/TileCache/Paint.lean
  ==============================
  **Rendering a tile and publishing it.**

  A paint has two ends.  `start` decides whether the tile is rendered at all; if
  so it empties the slot, clears the slot's buffer and hands out a `Ticket`.  When
  the engine is done, `publish` puts the pixels into the slot and marks the tile
  as valid, unless the grid or the active context is no longer the one of the
  ticket: then the render is discarded.  When the engine gives up, `abandon` only
  leaves the buffer behind.

  Between the two ends anything may happen to the cache, also at the hands of the
  engine itself.  The one exception is another paint of a tile of the same slot:
  a slot is rendered into by one paint at a time.
-/
import TilePaint.TileCache.Basic

namespace TilePaint

/-- The order to render one tile. -/
structure Ticket where
  index : Nat
  generation : Nat
  context : Context
  /-- The part of the document that the tile shows. -/
  area : TwipRect
  edge : Nat
  /-- The cleared buffer. -/
  pixels : Array Pixel

/-- What became of an attempt to start a paint. -/
inductive Admission where
  | skip
  | render (ticket : Ticket)

namespace TileCache

/-- The part of the document that a tile shows. -/
def areaOf (c : TileCache) (index : Nat) : Except Fault TwipRect := do
  let side := roundLong (pixelsToTwips (Float32.ofNat c.edge) c.grid.scale)
  let x ← mulWithin maxIndex c.edge (c.grid.column index)
  let y ← mulWithin maxIndex c.edge (c.grid.row index)
  return {
    x := roundLong (pixelsToTwips (Float32.ofNat x) c.grid.scale)
    y := roundLong (pixelsToTwips (Float32.ofNat y) c.grid.scale)
    width := side
    height := side }

/-- Make the slot for a tile free of any other tile.  The tile that has to go is
    no longer valid. -/
def vacate (c : TileCache) (index : Nat) : TileCache :=
  if c.isResident index then c
  else
    let valid := match (c.slot index).occupant with
      | some other => c.valid.erase other
      | none => c.valid
    { c.modifySlot index Slot.evict with valid }

def clearBuffer (c : TileCache) (index : Nat) : TileCache :=
  c.modifySlot index fun s => { s with pixels := Array.replicate s.pixels.size Pixel.clear }

/-- Start to paint a tile.  Nothing is rendered if the work was cancelled, if its
    context is not the active one, if the grid does not have the tile, or if the
    tile is valid and resident.

    The flag of the work is looked at twice: `cancelled` is what the first look finds,
    `late` what the second one finds.  They differ if the flag is set in between. -/
def start (c : TileCache) (cancelled : Bool) (index : Nat) (context : Context)
    (late : Bool := cancelled) : TileCache × Except Fault Admission :=
  if cancelled || c.context ≠ context || c.tileCount ≤ index then (c, .ok .skip)
  else
    -- another tile of the slot is gone from here on, whatever becomes of this one
    let c := c.vacate index
    if late || c.isFresh index then (c, .ok .skip)
    else
      match c.areaOf index with
      | .error fault => (c, .error fault)
      | .ok area =>
          let c := c.clearBuffer index
          (c, .ok (.render {
            index, context, area
            generation := c.grid.generation
            edge := c.edge
            pixels := (c.slot index).pixels }))

/-- Leave the buffer of an abandoned render in its slot. -/
def abandon (c : TileCache) (t : Ticket) (pixels : Array Pixel) : TileCache :=
  c.modifySlot t.index fun s => { s with pixels }

/-- A ticket is in force while the grid and the active context are those it was
    written for. -/
def InForce (c : TileCache) (t : Ticket) : Prop :=
  c.grid.generation = t.generation ∧ c.context = t.context

instance (c : TileCache) (t : Ticket) : Decidable (c.InForce t) :=
  inferInstanceAs (Decidable (_ ∧ _))

def install (c : TileCache) (index : Nat) (img : Image) : TileCache :=
  { c.modifySlot index fun s => { s with occupant := some index, image := some (index, img) } with
    valid := if h : index < c.valid.size then c.valid.insert index h else c.valid }

/-- End a paint whose render is complete; the answer is whether the tile was
    published. -/
def publish (c : TileCache) (t : Ticket) (pixels : Array Pixel) : TileCache × Bool :=
  -- the buffer belongs to the slot, whether or not the image is taken
  let c := c.abandon t pixels
  match Image.ofPixels? c.edge c.edge pixels with
  | none => (c, false)
  | some img => if c.InForce t then (c.install t.index img, true) else (c, false)

/-! ### A paint as a whole -/

/-- What an engine leaves behind when it was given a ticket: the cache as it is
    after whatever the engine did to it, the buffer, which keeps its size, and the
    reason if the engine gave up. -/
structure Rendering (t : Ticket) where
  cache : TileCache
  pixels : Array Pixel
  size_pixels : pixels.size = t.pixels.size
  fault : Option Fault

/-- Paint one tile with an engine that may use the cache while it renders; the
    answer is whether the tile was published. -/
def paint (c : TileCache) (cancelled : Bool) (index : Nat) (context : Context)
    (engine : (t : Ticket) → TileCache → Rendering t) (late : Bool := cancelled) :
    TileCache × Except Fault Bool :=
  match c.start cancelled index context late with
  | (c, .error fault) => (c, .error fault)
  | (c, .ok .skip) => (c, .ok false)
  | (c, .ok (.render ticket)) =>
      let r := engine ticket c
      match r.fault with
      | some fault => (r.cache.abandon ticket r.pixels, .error fault)
      | none =>
          let (c, published) := r.cache.publish ticket r.pixels
          (c, .ok published)

end TileCache

end TilePaint
