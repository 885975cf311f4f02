/-
  TilePaint/Proofs/SnapshotPixels.lean
  ====================================
  **What a snapshot shows.**

  A snapshot is put together tile by tile, each image drawn on one cell of a raster
  whose corner is that of the block of tiles.  A pixel `(p, q)` of the result lies in
  the cell of one tile of the block (`TileBlock.positionAt`).  It shows what was drawn
  on this cell last, or the base if nothing was (`pixel_compose`), and as the cells do
  not overlap that is the image of that tile.

  The size of the raster is computed in 32-bit words.  While it fits, the outcome
  depends on two things only: on the flag, and on whether all tiles of the block are
  resident (`snapshot_eq`, `snapshot_exact`).
-/
import TilePaint.Proofs.PixelProvenance
import TilePaint.TileCache.Snapshot

namespace TilePaint

/-! ## 1. A raster of square cells -/

theorem div_eq_iff_in_cell {edge n k : Nat} (hedge : 0 < edge) :
    n / edge = k ↔ k * edge ≤ n ∧ n < k * edge + edge := by
  rw [Nat.div_eq_iff hedge]
  omega

/-- An image that is as large as a cell and drawn on one cell shows there and nowhere
    else. -/
theorem Image.pixel_paste_cell {base img : Image} {edge i j p q : Nat} (hedge : 0 < edge)
    (hwidth : img.width = edge) (hheight : img.height = edge) (hp : p < base.width)
    (hq : q < base.height) :
    (base.paste img (i * edge : Nat) (j * edge : Nat)).pixel p q =
      if p / edge = i ∧ q / edge = j then img.pixel (p % edge) (q % edge)
      else base.pixel p q := by
  have hoffset : ∀ n k, n / edge = k → ((n : Int) - (k * edge : Nat)).toNat = n % edge := by
    intro n k hk
    have hmod := Nat.div_add_mod n edge
    rw [hk, Nat.mul_comm] at hmod
    omega
  have hx := div_eq_iff_in_cell (n := p) (k := i) hedge
  have hy := div_eq_iff_in_cell (n := q) (k := j) hedge
  rw [pixel_paste hp hq, hwidth, hheight]
  by_cases hcell : p / edge = i ∧ q / edge = j
  · rw [if_pos hcell, if_pos (by omega), hoffset p i hcell.1, hoffset q j hcell.2]
  · rw [if_neg hcell, if_neg (by omega)]

namespace TileBlock

variable {b : TileBlock} {edge p q : Nat}

/-- The position in the block whose cell holds a pixel. -/
def positionAt (b : TileBlock) (edge p q : Nat) : Nat × Nat :=
  (b.columnStart + p / edge, b.rowStart + q / edge)

theorem positionAt_mem (hp : p < (b.columnEnd - b.columnStart) * edge)
    (hq : q < (b.rowEnd - b.rowStart) * edge) : b.positionAt edge p q ∈ b.positions := by
  have hcolumn := Nat.div_lt_of_lt_mul (Nat.mul_comm _ edge ▸ hp)
  have hrow := Nat.div_lt_of_lt_mul (Nat.mul_comm _ edge ▸ hq)
  rw [positionAt, mem_positions]
  generalize p / edge = i at hcolumn ⊢
  generalize q / edge = j at hrow ⊢
  omega

theorem positionAt_eq_iff (edge p q : Nat) {position : Nat × Nat}
    (hcolumn : b.columnStart ≤ position.1) (hrow : b.rowStart ≤ position.2) :
    b.positionAt edge p q = position ↔
      p / edge = position.1 - b.columnStart ∧ q / edge = position.2 - b.rowStart := by
  rw [positionAt, Prod.ext_iff]
  omega

theorem start_le_of_mem (position : Nat × Nat) (h : position ∈ b.positions) :
    b.columnStart ≤ position.1 ∧ b.rowStart ≤ position.2 := by
  obtain ⟨hcolumn, hrow⟩ := mem_positions.mp h
  exact ⟨hcolumn.1, hrow.1⟩

theorem ordered_of_positions (h : b.positions ≠ []) :
    b.columnStart < b.columnEnd ∧ b.rowStart < b.rowEnd := by
  obtain ⟨⟨column, row⟩, hmem⟩ := List.exists_mem_of_ne_nil _ h
  have hin := mem_positions.mp hmem
  omega

end TileBlock

/-! ## 2. Composing the tiles of a block -/

namespace TileCache

variable {c : TileCache} {block : TileBlock} {base composed : Image} {rect : Rect}
  {positions : List (Nat × Nat)}

/-- The image of the tile at a position. -/
def imageAt? (c : TileCache) (position : Nat × Nat) : Option Image :=
  c.image? (c.grid.index position.1 position.2)

theorem isSome_compose :
    (c.compose block base positions).isSome = positions.all fun p => (c.imageAt? p).isSome := by
  induction positions generalizing base with
  | nil => rfl
  | cons position rest ih =>
    simp only [compose, List.all_cons, imageAt?]
    cases himage : c.image? (c.grid.index position.1 position.2) with
    | none => simp
    | some img => simp only [Option.isSome_some, Bool.true_and, ih, imageAt?]

theorem size_compose (h : c.compose block base positions = some composed) :
    composed.width = base.width ∧ composed.height = base.height := by
  induction positions generalizing base with
  | nil =>
    cases h
    exact ⟨rfl, rfl⟩
  | cons position rest ih =>
    simp only [compose] at h
    split at h
    · cases h
    · obtain ⟨hwidth, hheight⟩ := ih h
      exact ⟨hwidth, hheight⟩

/-- The pixels of a composed image, for any base and any positions of the block whose
    images are as large as a tile. -/
theorem pixel_compose (h : c.compose block base positions = some composed)
    (hsize : ∀ position ∈ positions, ∀ img, c.imageAt? position = some img →
      img.width = c.edge ∧ img.height = c.edge)
    (hblock : ∀ position ∈ positions,
      block.columnStart ≤ position.1 ∧ block.rowStart ≤ position.2)
    {p q : Nat} (hp : p < base.width) (hq : q < base.height) :
    composed.pixel p q =
      if block.positionAt c.edge p q ∈ positions then
        ((c.imageAt? (block.positionAt c.edge p q)).getD default).pixel (p % c.edge) (q % c.edge)
      else base.pixel p q := by
  induction positions generalizing base with
  | nil =>
    cases h
    simp
  | cons position rest ih =>
    simp only [compose] at h
    split at h
    · cases h
    · next img himage =>
      obtain ⟨hwidth, hheight⟩ := hsize position (List.mem_cons_self ..) img himage
      obtain ⟨hcolumn, hrow⟩ := hblock position (List.mem_cons_self ..)
      rw [ih h (fun other hother => hsize other (List.mem_cons_of_mem _ hother))
        (fun other hother => hblock other (List.mem_cons_of_mem _ hother)) hp hq,
        Image.pixel_paste_cell c.edge_pos hwidth hheight hp hq]
      have hcell := TileBlock.positionAt_eq_iff c.edge p q hcolumn hrow
      simp only [← hcell, List.mem_cons]
      -- what is pasted later lies on top
      by_cases hrest : block.positionAt c.edge p q ∈ rest
      · simp only [hrest, or_true, if_true]
      · by_cases hthis : block.positionAt c.edge p q = position
        · have hshown : c.imageAt? position = some img := himage
          rw [hthis] at hrest ⊢
          simp only [hrest, hshown, Option.getD_some, or_false, if_true, if_false]
        · simp only [hrest, hthis, or_false, if_false]

/-! ## 3. Taking a snapshot -/

/-- A view that is scrolled by `c.scrollY` shows its rectangles this much further down in the
    document. -/
theorem viewBlock_eq (c : TileCache) (rect : Rect) :
    c.viewBlock rect =
      c.grid.blockOf c.edge ⟨rect.x + 0, rect.y + c.scrollY, rect.width, rect.height⟩ := rfl

theorem viewBlock_le_grid (h : c.viewBlock rect = some block) :
    block.columnEnd ≤ c.grid.columns ∧ block.rowEnd ≤ c.grid.rows := by
  simp only [viewBlock, Grid.blockOf, Option.ite_none_left_eq_some, Option.map_eq_some_iff] at h
  obtain ⟨-, whole, -, rfl⟩ := h
  exact ⟨Nat.min_le_right .., Nat.min_le_right ..⟩

theorem viewBlock_in_grid (h : c.viewBlock rect = some block) {column row : Nat}
    (hmem : (column, row) ∈ block.positions) : c.grid.index column row < c.tileCount := by
  obtain ⟨hcolumns, hrows⟩ := viewBlock_le_grid h
  obtain ⟨hcolumn, hrow⟩ := TileBlock.mem_positions.mp hmem
  exact Grid.index_lt_tileCount (by omega) (by omega)

theorem lengthOf_eq {count : Nat} (h : count * c.edge ≤ maxLength) :
    c.lengthOf count = .ok (count * c.edge) := by
  have hcount : count < UInt32.size := by
    have hle : count * 1 ≤ count * c.edge := Nat.mul_le_mul_left _ c.edge_pos
    have hlimit : maxLength < UInt32.size := by decide
    omega
  rw [lengthOf, Nat.mod_eq_of_lt hcount]
  exact mulWithin_eq_ok_iff.mpr ⟨rfl, h⟩

/-- The block of a snapshot, under the rectangle shifted by the scroll position, has a tile,
    and its size in pixels fits. -/
structure Composable (c : TileCache) (rect : Rect) (block : TileBlock) : Prop where
  shifted : c.grid.blockOf c.edge ⟨rect.x + 0, rect.y + c.scrollY, rect.width, rect.height⟩ =
    some block
  tiles : block.positions ≠ []
  width : (block.columnEnd - block.columnStart) * c.edge ≤ maxLength
  height : (block.rowEnd - block.rowStart) * c.edge ≤ maxLength

theorem Composable.view (h : c.Composable rect block) : c.viewBlock rect = some block :=
  (viewBlock_eq c rect).trans h.shifted

/-- Without the flag a snapshot is what is composed on a blank image. -/
theorem snapshot_eq (h : c.Composable rect block) (cancelled : Bool) :
    c.snapshot cancelled rect = .ok (if cancelled then none else
      (c.compose block (Image.blank ((block.columnEnd - block.columnStart) * c.edge)
        ((block.rowEnd - block.rowStart) * c.edge)) block.positions).map fun image =>
          ⟨image, c.grid.scale, block, c.scrollY⟩) := by
  obtain ⟨hcolumns, hrows⟩ := TileBlock.ordered_of_positions h.tiles
  have hwide : block.columns = .ok (block.columnEnd - block.columnStart) :=
    subWithin_eq_ok_iff.mpr (by omega)
  have hhigh : block.rows = .ok (block.rowEnd - block.rowStart) :=
    subWithin_eq_ok_iff.mpr (by omega)
  have htiles : block.positions.isEmpty = false := List.isEmpty_eq_false_iff.mpr h.tiles
  -- the survey before the composition asks what the composition itself would find
  have hall : (c.compose block (Image.blank ((block.columnEnd - block.columnStart) * c.edge)
      ((block.rowEnd - block.rowStart) * c.edge)) block.positions).isSome =
        block.positions.all fun p => (c.image? (c.grid.index p.1 p.2)).isSome := isSome_compose
  simp only [snapshot, h.view, hwide, hhigh, htiles, bind, Except.bind, lengthOf_eq h.width,
    lengthOf_eq h.height, pure, Except.pure, Bool.not_false, Bool.and_true, ← hall]
  cases cancelled with
  | true => simp only [Bool.true_or, if_true]
  | false =>
    simp only [Bool.false_or, Bool.false_eq_true, if_false]
    cases c.compose block _ block.positions with
    | none => simp
    | some composed => simp

end TileCache

/-! ## 4. Snapshots in a session -/

namespace CacheSession

open TileCache

variable {s : CacheSession} {rect : Rect} {block : TileBlock}

/-- Everything in the block of a snapshot is found exactly if all of it is resident. -/
theorem complete_iff {c : TileCache} (hkept : WellKept c) (h : c.viewBlock rect = some block) :
    (block.positions.all fun p => (c.imageAt? p).isSome) = true ↔
      ∀ column row, block.columnStart ≤ column ∧ column < block.columnEnd →
        block.rowStart ≤ row ∧ row < block.rowEnd →
        c.isResident (c.grid.index column row) = true := by
  rw [List.all_eq_true]
  constructor
  · intro hall column row hcolumn hrow
    have hmem : (column, row) ∈ block.positions := TileBlock.mem_positions.mpr ⟨hcolumn, hrow⟩
    exact (isSome_image?_iff hkept (viewBlock_in_grid h hmem)).mp (hall (column, row) hmem)
  · intro hres position hmem
    obtain ⟨hcolumn, hrow⟩ := TileBlock.mem_positions.mp hmem
    exact (isSome_image?_iff hkept (viewBlock_in_grid h hmem)).mpr (hres _ _ hcolumn hrow)

theorem size_of_image (h : s.Reachable) {i : Nat} {img : Image} (hin : i < s.cache.tileCount)
    (himage : s.cache.image? i = some img) :
    img.width = s.cache.edge ∧ img.height = s.cache.edge := by
  have hkept := (sound_of_reachable h).cache
  have hres := (isSome_image?_iff hkept hin).mp (by rw [himage]; rfl)
  obtain ⟨img', himage', call, pixels, square, later, during, before, -, -, -, -, -, -, -, -,
    hsquare, hwidth, hheight, -⟩ := origin_of_resident h hin hres
  cases hsquare
  cases himage.symm.trans himage'
  exact ⟨hwidth, hheight⟩

/-- **A snapshot is all or nothing, and it shows the tiles.**  In every reachable session,
    for every rectangle of the view whose block of tiles is `Composable`, wherever the view is
    scrolled to, there is a result.
    It has an image exactly if the flag is not set and all tiles of the block are resident.
    Then the image is as large as the block.  Its pixel `(p, q)` is a pixel of the tile whose
    cell it lies in, at the same place in the tile as it has in the cell.  The scale, the
    block and the scroll position are those of the cache. -/
theorem snapshot_exact (h : s.Reachable) (hview : s.cache.Composable rect block)
    (cancelled : Bool) :
    let c := s.cache
    ∃ result, c.snapshot cancelled rect = .ok result ∧
      (result.isSome = true ↔ cancelled = false ∧ ∀ column row,
        block.columnStart ≤ column ∧ column < block.columnEnd →
        block.rowStart ≤ row ∧ row < block.rowEnd →
        c.isResident (c.grid.index column row) = true) ∧
      ∀ taken, result = some taken →
        taken.image.width = (block.columnEnd - block.columnStart) * c.edge ∧
        taken.image.height = (block.rowEnd - block.rowStart) * c.edge ∧
        (∀ p q, p < taken.image.width → q < taken.image.height → ∃ img,
          c.image? (c.grid.index (block.columnStart + p / c.edge)
            (block.rowStart + q / c.edge)) = some img ∧
          img.width = c.edge ∧ img.height = c.edge ∧
          taken.image.pixel p q = img.pixel (p % c.edge) (q % c.edge)) ∧
        taken.scale = c.grid.scale ∧ taken.block = block ∧ taken.scrollY = c.scrollY := by
  intro c
  have hcomplete := complete_iff (sound_of_reachable h).cache hview.view
  have hsize : ∀ position ∈ block.positions, ∀ img, c.imageAt? position = some img →
      img.width = c.edge ∧ img.height = c.edge := by
    intro position hmem img himage
    exact size_of_image h (viewBlock_in_grid hview.view hmem) himage
  refine ⟨_, snapshot_eq hview cancelled, ?_, ?_⟩
  · cases cancelled with
    | true => simp
    | false =>
      simp only [Bool.false_eq_true, if_false, Option.isSome_map, isSome_compose, true_and]
      exact hcomplete
  · intro taken htaken
    simp only [Option.ite_none_left_eq_some, Option.map_eq_some_iff] at htaken
    obtain ⟨-, composed, hcompose, rfl⟩ := htaken
    obtain ⟨hwidth, hheight⟩ := size_compose hcompose
    refine ⟨hwidth, hheight, ?_, rfl, rfl, rfl⟩
    intro p q hp hq
    simp only [hwidth, hheight] at hp hq
    have hmem := TileBlock.positionAt_mem hp hq
    have hall := isSome_compose.symm.trans (congrArg Option.isSome hcompose)
    obtain ⟨img, himage⟩ := Option.isSome_iff_exists.mp (List.all_eq_true.mp hall _ hmem)
    have hpixel := pixel_compose hcompose hsize TileBlock.start_le_of_mem hp hq
    rw [if_pos hmem, himage] at hpixel
    obtain ⟨hcellWidth, hcellHeight⟩ := hsize _ hmem img himage
    exact ⟨img, himage, hcellWidth, hcellHeight, hpixel⟩

/-! ### A view of four tiles

Two columns and two rows of tiles of one pixel, with a slot for each.  All are painted
but tile 2, the first one of the second row. -/

namespace Sample

def fourSlots : TileCache :=
  { twoSlots with slots := Array.replicate 4 (Slot.empty 1), slots_pos := by decide }

def fourTiles : CacheSession := (ofCache fourSlots).operate (.resize 30 30)

def callAt (number index : Nat) (x y : Int) : RenderCall where
  number
  ticket :=
    { index, generation := 1, context := Context.none, area := ⟨x, y, 15, 15⟩, edge := 1
      pixels := #[Pixel.clear] }

def rendered (s : CacheSession) (call : RenderCall) (pixel : Pixel) : CacheSession :=
  (s.start false call.ticket.index Context.none).finish call #[pixel] none

theorem reachable_rendered (call : RenderCall) (pixel : Pixel) (h : s.Reachable)
    (hfree : s.Free call.ticket.index)
    (hcall : call ∈ (s.start false call.ticket.index Context.none).rendering)
    (hsize : call.ticket.pixels.size = 1) : (rendered s call pixel).Reachable := by
  obtain ⟨config, cache, hcache, hrun⟩ := h
  have hstart := hrun.tail (Step.start _ false false call.ticket.index Context.none hfree)
  exact ⟨config, cache, hcache, hstart.tail (Step.finish _ call _ _ hcall hsize.symm)⟩

def topRow : CacheSession :=
  rendered (rendered fourTiles (callAt 1 0 0 0) ⟨10⟩) (callAt 3 1 15 0) ⟨11⟩

def allButOne : CacheSession := rendered topRow (callAt 5 3 15 15) ⟨13⟩

theorem reachable_allButOne : allButOne.Reachable := by
  have hgrid : fourTiles.Reachable :=
    ⟨{ edge := 1, budget := 20 }, fourSlots, rfl, .single (Step.operate _ _)⟩
  have hfirst := reachable_rendered (callAt 1 0 0 0) ⟨10⟩ hgrid
    (by decide +kernel) (by decide +kernel) rfl
  have hrow := reachable_rendered (callAt 3 1 15 0) ⟨11⟩ hfirst
    (by decide +kernel) (by decide +kernel) rfl
  exact reachable_rendered (callAt 5 3 15 15) ⟨13⟩ hrow (by decide +kernel) (by decide +kernel) rfl

/-- The view is scrolled down by a row. -/
def scrolled : CacheSession := allButOne.operate (.setScroll 1)

theorem reachable_scrolled : scrolled.Reachable := by
  obtain ⟨config, cache, hcache, hrun⟩ := reachable_allButOne
  exact ⟨config, cache, hcache, hrun.tail (Step.operate _ _)⟩

end Sample

/-- With the view scrolled down by a row, the second column has its tiles one row further up:
    the first one begins above the view. -/
theorem snapshot_exact_scrolled :
    Sample.scrolled.Reachable ∧ Sample.scrolled.cache.Composable ⟨1, -1, 1, 2⟩ ⟨1, 2, 0, 2⟩ ∧
      Sample.scrolled.cache.Composable ⟨1, 0, 1, 1⟩ ⟨1, 2, 1, 2⟩ ∧
      ∃ taken, Sample.scrolled.cache.snapshot false ⟨1, -1, 1, 2⟩ = .ok (some taken) ∧
        taken.image.width = 1 ∧ taken.image.height = 2 ∧
        taken.image.pixel 0 0 = ⟨11⟩ ∧ taken.image.pixel 0 1 = ⟨13⟩ ∧ taken.scrollY = 1 := by
  have hedge : Sample.scrolled.cache.edge = 1 := by decide +kernel
  have hview : Sample.scrolled.cache.Composable ⟨1, -1, 1, 2⟩ ⟨1, 2, 0, 2⟩ :=
    ⟨by decide +kernel, by decide, by decide +kernel, by decide +kernel⟩
  have hbelow : Sample.scrolled.cache.Composable ⟨1, 0, 1, 1⟩ ⟨1, 2, 1, 2⟩ :=
    ⟨by decide +kernel, by decide, by decide +kernel, by decide +kernel⟩
  obtain ⟨result, hresult, hiff, hshown⟩ :=
    snapshot_exact Sample.reachable_scrolled hview false
  have hsome : result.isSome = true := by
    refine hiff.mpr ⟨rfl, ?_⟩
    intro column row hcolumn hrow
    simp only at hcolumn hrow
    obtain rfl : column = 1 := by omega
    obtain rfl | rfl : row = 0 ∨ row = 1 := by omega
    · decide +kernel
    · decide +kernel
  obtain ⟨taken, rfl⟩ := Option.isSome_iff_exists.mp hsome
  obtain ⟨hwidth, hheight, hpixels, -, -, hscroll⟩ := hshown taken rfl
  have hwide : taken.image.width = 1 := hwidth.trans (congrArg (1 * ·) hedge)
  have hhigh : taken.image.height = 2 := hheight.trans (congrArg (2 * ·) hedge)
  have htop : (Sample.scrolled.cache.image?
      (Sample.scrolled.cache.grid.index (1 + 0 / 1) (0 + 0 / 1))).map (·.pixel 0 0) =
        some ⟨11⟩ := by decide +kernel
  have hbottom : (Sample.scrolled.cache.image?
      (Sample.scrolled.cache.grid.index (1 + 0 / 1) (0 + 1 / 1))).map (·.pixel 0 0) =
        some ⟨13⟩ := by decide +kernel
  refine ⟨Sample.reachable_scrolled, hview, hbelow, taken, hresult, hwide, hhigh, ?_, ?_,
    hscroll⟩
  · obtain ⟨img, himage, -, -, hpixel⟩ := hpixels 0 0 (by omega) (by omega)
    rw [hedge] at himage hpixel
    rw [himage] at htop
    exact hpixel.trans (Option.some.inj htop)
  · obtain ⟨img, himage, -, -, hpixel⟩ := hpixels 0 1 (by omega) (by omega)
    rw [hedge] at himage hpixel
    rw [himage] at hbottom
    exact hpixel.trans (Option.some.inj hbottom)

end CacheSession

end TilePaint
