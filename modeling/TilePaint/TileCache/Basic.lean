/-
  TilePaint/TileCache/Basic.lean
  ==============================
  **A bounded, direct-mapped cache of rendered tiles.**

  The cache has a fixed pool of slots.  The pixels of tile `index` can only be
  kept in slot `index % slots.size`, so of the tiles that share a slot at most one
  is resident, and caching one evicts the other.

  Validity is a bit of its own: an edit resets the bit of a tile while its stale
  pixels stay in the slot, and only a render into the slot sets it again.  The
  bitset has one bit more than the grid has tiles; that last bit belongs to no
  tile.

  Work that renders tiles carries the paint context it was started under.  It may
  publish a tile only while that context is the active one and the grid is still
  the one it was started against.
-/
import TilePaint.BitSet
import TilePaint.Config.Basic
import TilePaint.Document
import TilePaint.Grid
import TilePaint.Image

namespace TilePaint

/-! ### Slots -/

structure Slot where
  /-- The tile whose pixels the slot keeps. -/
  occupant : Option Nat
  /-- The buffer that tiles of this slot are rendered into. -/
  pixels : Array Pixel
  /-- The last tile published from this slot, and its image. -/
  image : Option (Nat × Image)

namespace Slot

def empty (count : Nat) : Slot := ⟨none, Array.replicate count Pixel.clear, none⟩

instance : Inhabited Slot := ⟨empty 0⟩

/-- The tag of the tile that a slot keeps.  An empty slot carries a tag that is no
    tile of any grid. -/
def tag (s : Slot) : Nat := s.occupant.getD maxIndex

def holds (s : Slot) (index : Nat) : Bool := s.tag == index

/-- The slot without its tile.  Buffer and image stay behind. -/
def evict (s : Slot) : Slot := { s with occupant := none }

end Slot

/-! ### The cache -/

structure TileCache where
  edge : Nat
  slots : Array Slot
  grid : Grid
  /-- The tiles whose last render is up to date. -/
  valid : BitSet
  context : Context
  /-- How far the view is scrolled down, in pixels. -/
  scrollY : Float32
  edge_pos : 0 < edge
  slots_pos : 0 < slots.size

namespace TileCache

/-- The cache that a configuration describes, for no document yet. -/
def ofConfig (config : Config) : Except Fault TileCache :=
  if h : 0 < config.edge then do
    let stride ← config.stride
    let count ← config.slots
    return {
      edge := config.edge
      slots := Array.replicate (max 1 count) (Slot.empty (stride / Config.bytesPerPixel))
      grid := Grid.initial
      valid := BitSet.ofSize 1
      context := Context.none
      scrollY := 0
      edge_pos := h
      slots_pos := by rw [Array.size_replicate]; omega }
  else .error .tileSizeZero

/-! ### Slots of tiles -/

def poolSize (c : TileCache) : Nat := c.slots.size

def slotIndex (c : TileCache) (index : Nat) : Nat := index % c.slots.size

theorem slotIndex_lt (c : TileCache) (index : Nat) : c.slotIndex index < c.slots.size :=
  Nat.mod_lt _ c.slots_pos

def slot (c : TileCache) (index : Nat) : Slot :=
  have := c.slotIndex_lt index
  c.slots[c.slotIndex index]

def modifySlot (c : TileCache) (index : Nat) (f : Slot → Slot) : TileCache :=
  { c with
    slots := c.slots.modify (c.slotIndex index) f
    slots_pos := by rw [Array.size_modify]; exact c.slots_pos }

def mapSlots (c : TileCache) (f : Slot → Slot) : TileCache :=
  { c with
    slots := c.slots.map f
    slots_pos := by rw [Array.size_map]; exact c.slots_pos }

theorem getElem?_slotIndex (c : TileCache) (index : Nat) :
    c.slots[c.slotIndex index]? = some (c.slot index) :=
  Array.getElem?_eq_getElem (c.slotIndex_lt index)

@[simp] theorem grid_modifySlot (c : TileCache) (index : Nat) (f : Slot → Slot) :
    (c.modifySlot index f).grid = c.grid := rfl

@[simp] theorem valid_modifySlot (c : TileCache) (index : Nat) (f : Slot → Slot) :
    (c.modifySlot index f).valid = c.valid := rfl

@[simp] theorem size_slots_modifySlot (c : TileCache) (index : Nat) (f : Slot → Slot) :
    (c.modifySlot index f).slots.size = c.slots.size := Array.size_modify

/-- Changing the slot for a tile shows at the tiles that share the slot. -/
theorem slot_modifySlot (c : TileCache) (i index : Nat) (f : Slot → Slot) :
    (c.modifySlot index f).slot i =
      if c.slotIndex index = c.slotIndex i then f (c.slot i) else c.slot i := by
  simp only [slot, slotIndex, modifySlot, Array.size_modify, Array.getElem_modify]
  rfl

theorem slot_mapSlots (c : TileCache) (i : Nat) (f : Slot → Slot) :
    (c.mapSlots f).slot i = f (c.slot i) := by
  simp only [slot, slotIndex, mapSlots, Array.size_map, Array.getElem_map]

/-! ### Questions about tiles -/

def tileCount (c : TileCache) : Nat := c.grid.tileCount

/-- Whether a tile of the grid is up to date. -/
def isValid (c : TileCache) (index : Nat) : Bool :=
  decide (index < c.tileCount) && decide (index ∈ c.valid)

def isResident (c : TileCache) (index : Nat) : Bool := (c.slot index).holds index

def image? (c : TileCache) (index : Nat) : Option Image :=
  if c.isResident index then
    match (c.slot index).image with
    | some (tagged, img) => if tagged = index then some img else none
    | none => none
  else none

/-- A tile that needs no render. -/
def isFresh (c : TileCache) (index : Nat) : Bool :=
  decide (index ∈ c.valid) && c.isResident index

/-- The tiles of some ranges that still need a render, in canonical form.  What
    lies beyond the grid is left out. -/
def remaining (c : TileCache) (ranges : List TileRange) : List TileRange :=
  let indices (r : TileRange) :=
    List.range' r.first (min (r.last + 1) c.tileCount - r.first)
  TileRange.normalize
    (TileRange.runs ((ranges.flatMap indices).filter fun index => !c.isFresh index))

/-! ### Settings -/

def setContext (c : TileCache) (context : Context) : TileCache := { c with context }

def setScroll (c : TileCache) (scrollY : Float32) : TileCache := { c with scrollY }

/-! ### Bands of tiles -/

/-- The rows that a window of the view covers: the first one and a bound for the
    last one. -/
def windowRows (c : TileCache) (y : Int) (height : Nat) : Nat × Nat :=
  Grid.windowRows c.edge y height

def viewportBand (c : TileCache) (y : Int) (height : Nat) : Option TileRange :=
  c.grid.viewportBand c.edge y height

def prefetchBand (c : TileCache) (y : Int) (height : Nat) : Option TileRange :=
  c.grid.prefetchBand c.edge y height

end TileCache

end TilePaint
