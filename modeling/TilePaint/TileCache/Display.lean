/-
  TilePaint/TileCache/Display.lean
  ================================
  **Showing the resident tiles under a rectangle.**

  The tiles of the view are drawn row by row, down to the first row with a missing
  tile, so that no row is ever shown in part.  If tiles are missing and there is a
  snapshot at the current scale, the snapshot is drawn in place of them all.

  Between two drawings the cache may change and the work may be cancelled.  A
  `Display` is therefore a list of what is still to be drawn, and `Display.next`
  makes one drawing against the cache as it is then.  A tile that has gone missing
  in the meantime ends the display.
-/
import TilePaint.TileCache.Snapshot

namespace TilePaint

/-! ### Coordinates on the target -/

/-- A count as a signed 64-bit number. -/
def toLong (n : Nat) : Int := Int.bmod n UInt64.size

def mulLong (a b : Int) : Except Fault Int :=
  if minLong ≤ a * b ∧ a * b ≤ maxLong then .ok (a * b) else .error .mulOverflow

def subLong (a b : Int) : Except Fault Int :=
  if minLong ≤ a - b ∧ a - b ≤ maxLong then .ok (a - b) else .error .subOverflow

/-! ### Displays -/

inductive DisplayItem where
  /-- A snapshot in the place of the tiles. -/
  | snapshot (s : Snapshot)
  | tile (column row : Nat)

/-- An image and the place of its top left corner on the target. -/
structure Drawing where
  image : Image
  x : Int
  y : Int

structure Display where
  /-- The grid at the start. -/
  grid : Grid
  edge : Nat
  /-- How far everything is moved up. -/
  scroll : Int
  /-- The tiles known to be missing. -/
  missing : List TileRange
  items : List DisplayItem

inductive DisplayStep where
  /-- Nothing more is drawn; the answer is the missing tiles. -/
  | finished (missing : List TileRange)
  | draw (drawing : Drawing) (rest : Display)

namespace TileRange

/-- A list of ranges that ends with `index`: the last range grows if the index is
    its successor. -/
def pushIndex : List TileRange → Nat → List TileRange
  | [], index => [single index]
  | [r], index => if r.last + 1 = index then [⟨r.first, index⟩] else [r, single index]
  | r :: s :: rest, index => r :: pushIndex (s :: rest) index

end TileRange

namespace Display

def place (d : Display) (column row : Nat) : Except Fault (Int × Int) := do
  let x ← mulLong (toLong column) d.edge
  let y ← mulLong (toLong row) d.edge
  return (x, ← subLong y d.scroll)

/-- Draw an image with its corner in a column and a row, and go on with `rest`. -/
def drawAt (d : Display) (img : Image) (column row : Nat) (rest : List DisplayItem) :
    Except Fault DisplayStep :=
  (d.place column row).map fun corner =>
    .draw ⟨img, corner.1, corner.2⟩ { d with items := rest }

/-- The next step, against the cache as it is now. -/
def next (d : Display) (cancelled : Bool) (c : TileCache) : Except Fault DisplayStep :=
  match d.items with
  | [] => .ok (.finished d.missing)
  | .snapshot s :: _ => d.drawAt s.image s.block.columnStart s.block.rowStart []
  | .tile column row :: rest =>
      if cancelled then .ok (.finished d.missing)
      else
        match c.image? (d.grid.index column row) with
        | some img => d.drawAt img column row rest
        | none =>
            let missing := TileRange.pushIndex d.missing (d.grid.index column row)
            .ok (.finished (TileRange.normalize missing))

theorem items_drawAt {d rest : Display} {img : Image} {column row : Nat}
    {items : List DisplayItem} {drawing : Drawing}
    (h : d.drawAt img column row items = .ok (.draw drawing rest)) : rest.items = items := by
  rw [drawAt] at h
  cases hp : d.place column row with
  | error fault => rw [hp] at h; exact nomatch h
  | ok corner =>
    rw [hp] at h
    rw [← (DisplayStep.draw.inj (Except.ok.inj h)).2]

theorem length_items_next {d rest : Display} {cancelled : Bool} {c : TileCache}
    {drawing : Drawing} (h : d.next cancelled c = .ok (.draw drawing rest)) :
    rest.items.length < d.items.length := by
  rw [next] at h
  split at h
  · exact nomatch h
  · next hitems =>
    rw [items_drawAt h, hitems]
    exact Nat.zero_lt_succ _
  · next hitems =>
    split at h
    · exact nomatch h
    · split at h
      · rw [items_drawAt h, hitems]
        exact Nat.lt_succ_self _
      · exact nomatch h

/-- The whole display against a cache that does not change: the drawings in order
    and the missing tiles. -/
def run (d : Display) (cancelled : Bool) (c : TileCache) :
    Except Fault (List Drawing × List TileRange) :=
  match _ : d.next cancelled c with
  | .error fault => .error fault
  | .ok (.finished missing) => .ok ([], missing)
  | .ok (.draw drawing rest) => do
      let (drawings, missing) ← rest.run cancelled c
      return (drawing :: drawings, missing)
termination_by d.items.length
decreasing_by exact length_items_next (by assumption)

end Display

namespace TileCache

/-- Whether a tile has to be left out of a display. -/
def isMissing (c : TileCache) (position : Nat × Nat) : Bool :=
  !c.isResident (c.grid.index position.1 position.2)

/-- The display of the tiles under a rectangle of the view, with a snapshot to fall
    back on; there is none if the rectangle misses the document. -/
def display (c : TileCache) (rect : Rect) (fallback : Option Snapshot) : Option Display :=
  (c.viewBlock rect).map fun block =>
    let missing := block.positions.filter c.isMissing
    let complete := match missing with
      | [] => block.positions
      | (_, row) :: _ => block.positions.filter fun position => position.2 < row
    let tiles := complete.map fun (column, row) => DisplayItem.tile column row
    { grid := c.grid
      edge := c.edge
      scroll := roundLong c.scrollY
      missing := TileRange.runs (missing.map fun (column, row) => c.grid.index column row)
      items := match missing, fallback with
        | _ :: _, some s =>
            if scalesClose s.scale c.grid.scale then [.snapshot s] else tiles
        | _, _ => tiles }

/-- Draw the tiles under a rectangle of the view on a canvas; the answer is the
    canvas and the missing tiles. -/
def drawOn (c : TileCache) (cancelled : Bool) (canvas : Canvas) (rect : Rect)
    (fallback : Option Snapshot) : Except Fault (Canvas × List TileRange) :=
  match c.display rect fallback with
  | none => .ok (canvas, [])
  | some d => do
      let (drawings, missing) ← d.run cancelled c
      return (drawings.foldl (fun canvas d => canvas.draw d.image d.x d.y) canvas, missing)

end TileCache

end TilePaint
