/-
  TilePaint/Proofs/FallbackPixels.lean
  ====================================
  **A snapshot shows what its tiles showed.**

  A view can be painted in two ways: tile by tile, each image at its own corner, or with
  one snapshot at the corner of its block.  Scrolling moves all corners up, and the
  canvas cuts off what lies outside, so the two ways paste images of different sizes at
  different, possibly negative offsets.

  What they have in common is the cell of a pixel.  The canvas pixel `(p, q)` lies
  `q + scroll` pixels down in the document, and with that in one cell of the raster of
  tiles.  `tilePixel?` is the pixel of the tile in this cell, if it is among the tiles to
  be shown.  Drawing the tiles shows it (`pixel_drawAll`), and so does drawing what was
  composed of them (`pixel_draw_composed`).
-/
import TilePaint.Proofs.CanvasDisplay
import TilePaint.Proofs.RequestCoverage

namespace TilePaint

/-! ## 1. Images and their pixels -/

/-- Two images of one size with the same pixels are the same. -/
theorem Image.ext_pixel {a b : Image} (hwidth : a.width = b.width) (hheight : a.height = b.height)
    (h : ∀ p q, p < a.width → q < a.height → a.pixel p q = b.pixel p q) : a = b := by
  obtain ⟨width, height, as, has⟩ := a
  obtain ⟨_, _, bs, hbs⟩ := b
  obtain rfl : width = _ := hwidth
  obtain rfl : height = _ := hheight
  have hsame : as = bs := by
    refine Array.ext (has.trans hbs.symm) ?_
    intro i hi hi'
    have hpos : 0 < width := by
      refine Nat.pos_of_ne_zero ?_
      rintro rfl
      rw [has, Nat.zero_mul] at hi
      omega
    have hrow : i / width < height := Nat.div_lt_of_lt_mul (has ▸ hi)
    have hpixel := h (i % width) (i / width) (Nat.mod_lt _ hpos) hrow
    simp only [pixel, Nat.div_add_mod'] at hpixel
    rwa [Array.getD_eq_getD_getElem?, Array.getD_eq_getD_getElem?, Array.getElem?_eq_getElem hi,
      Array.getElem?_eq_getElem hi'] at hpixel
  subst hsame
  rfl

/-- A place that may lie before the raster, and the cell that it lies in. -/
theorem in_cell_iff {edge k : Nat} {n : Int} (hedge : 0 < edge) :
    (k * edge : Int) ≤ n ∧ n < k * edge + edge ↔ 0 ≤ n ∧ n.toNat / edge = k := by
  rw [div_eq_iff_in_cell hedge, ← Int.natCast_mul]
  omega

theorem offset_in_cell {edge k : Nat} {n : Int} (hn : 0 ≤ n) (hcell : n.toNat / edge = k) :
    (n - k * edge).toNat = n.toNat % edge := by
  have hmod := Nat.div_add_mod n.toNat edge
  rw [hcell, Nat.mul_comm] at hmod
  rw [← Int.natCast_mul]
  omega

/-- A place that may lie before the raster, and a row of cells that it lies in. -/
theorem in_cells_iff {edge : Nat} (hedge : 0 < edge) (first last : Nat) (n : Int) :
    (first * edge : Int) ≤ n ∧ n < first * edge + ((last - first) * edge : Nat) ↔
      0 ≤ n ∧ first ≤ n.toNat / edge ∧ n.toNat / edge < last := by
  rw [Nat.le_div_iff_mul_le hedge, Nat.div_lt_iff_lt_mul hedge, Nat.sub_mul, ← Int.natCast_mul]
  omega

/-- Counted from a cell before it, a place lies as many cells further on and at the same
    offset in its cell. -/
theorem offset_in_cells {edge first : Nat} {n : Int} (hedge : 0 < edge) (hn : 0 ≤ n)
    (hfirst : first ≤ n.toNat / edge) :
    first + (n - first * edge).toNat / edge = n.toNat / edge ∧
      (n - first * edge).toNat % edge = n.toNat % edge := by
  have hle : edge * first ≤ n.toNat := by
    rw [Nat.mul_comm]
    exact (Nat.le_div_iff_mul_le hedge).mp hfirst
  have hplace : (n - first * edge).toNat = n.toNat - edge * first := by
    rw [Int.mul_comm, ← Int.natCast_mul]
    omega
  rw [hplace, Nat.sub_mul_div, Nat.sub_mul_mod hle]
  exact ⟨by omega, rfl⟩

/-- Make drawings on a canvas, one after the other. -/
def Canvas.drawAll (canvas : Canvas) (sequence : List Drawing) : Canvas :=
  sequence.foldl (fun canvas d => canvas.draw d.image d.x d.y) canvas

theorem Canvas.size_drawAll (canvas : Canvas) (sequence : List Drawing) :
    (canvas.drawAll sequence).image.width = canvas.image.width ∧
      (canvas.drawAll sequence).image.height = canvas.image.height := by
  induction sequence generalizing canvas with
  | nil => exact ⟨rfl, rfl⟩
  | cons d rest ih => exact ih (canvas.draw d.image d.x d.y)

/-! ## 2. The tile under a pixel -/

theorem TileBlock.length_positions (b : TileBlock) :
    b.positions.length = (b.columnEnd - b.columnStart) * (b.rowEnd - b.rowStart) := by
  simp only [positions, List.length_flatMap, List.length_map, List.length_range', List.map_const',
    List.sum_replicate_nat]
  exact Nat.mul_comm _ _

namespace TileCache

variable {c : TileCache} {block : TileBlock} {tiles : List (Nat × Nat)} {position : Nat × Nat}
  {base img : Image} {canvas : Canvas} {p q : Nat}

/-- How far down in the document a row of the canvas is. -/
def depthOf (c : TileCache) (q : Nat) : Int := q + roundLong c.scrollY

/-- The position whose cell a pixel of the canvas lies in, if it is not above the
    document. -/
def positionUnder (c : TileCache) (p q : Nat) : Nat × Nat :=
  (p / c.edge, (c.depthOf q).toNat / c.edge)

/-- What a pixel of the canvas shows if the tiles at some positions are drawn on it. -/
def tilePixel? (c : TileCache) (tiles : List (Nat × Nat)) (p q : Nat) : Option Pixel :=
  if 0 ≤ c.depthOf q ∧ c.positionUnder p q ∈ tiles then
    (c.imageAt? (c.positionUnder p q)).map fun img =>
      img.pixel (p % c.edge) ((c.depthOf q).toNat % c.edge)
  else none

/-- The image of one tile shows in the cell of the tile and nowhere else. -/
theorem pixel_paste_tile (hwidth : img.width = c.edge) (hheight : img.height = c.edge)
    (hp : p < base.width) (hq : q < base.height) :
    (base.paste img (c.corner position).1 (c.corner position).2).pixel p q =
      if 0 ≤ c.depthOf q ∧ c.positionUnder p q = position then
        img.pixel (p % c.edge) ((c.depthOf q).toNat % c.edge)
      else base.pixel p q := by
  have hx := in_cell_iff (k := position.1) (n := p) c.edge_pos
  have hy := in_cell_iff (k := position.2) (n := c.depthOf q) c.edge_pos
  -- a pixel of the canvas belongs to the tile whose cell it falls into
  have hunder : c.positionUnder p q = position ↔
      p / c.edge = position.1 ∧ (c.depthOf q).toNat / c.edge = position.2 := Prod.ext_iff
  rw [Image.pixel_paste hp hq, hwidth, hheight, corner]
  simp only [Int.toNat_natCast] at hx
  by_cases hcell : 0 ≤ c.depthOf q ∧ c.positionUnder p q = position
  · obtain ⟨hdepth, hposition⟩ := hcell
    obtain ⟨hcolumn, hrow⟩ := hunder.mp hposition
    have hin := hx.mpr ⟨by omega, hcolumn⟩
    have hdown := hy.mpr ⟨hdepth, hrow⟩
    have hleft : ((p : Int) - position.1 * c.edge).toNat = p % c.edge :=
      offset_in_cell (Int.natCast_nonneg p) hcolumn
    have htop := offset_in_cell hdepth hrow
    -- scrolling moves the place of the tile and that of the pixel alike
    have hshift : (q : Int) - (position.2 * c.edge - roundLong c.scrollY) =
        c.depthOf q - position.2 * c.edge := by
      unfold depthOf
      omega
    rw [if_pos ⟨hin, by omega⟩, hleft, hshift, htop, if_pos ⟨hdepth, hposition⟩]
  · rw [if_neg hcell, if_neg ?_]
    rintro ⟨hin, hdown⟩
    obtain ⟨hdepth, hrow⟩ := hy.mp (by unfold depthOf; omega)
    exact hcell ⟨hdepth, hunder.mpr ⟨(hx.mp hin).2, hrow⟩⟩

/-- **Drawing tiles** shows at every pixel the tile under it, if it is one of them. -/
theorem pixel_drawAll {sequence : List Drawing}
    (hsequence : sequence.map (fun d => (some d.image, d.corner)) =
      tiles.map fun position => (c.imageAt? position, c.corner position))
    (hsize : ∀ position ∈ tiles, ∀ img, c.imageAt? position = some img →
      img.width = c.edge ∧ img.height = c.edge)
    (hp : p < canvas.image.width) (hq : q < canvas.image.height) :
    (canvas.drawAll sequence).image.pixel p q =
      (c.tilePixel? tiles p q).getD (canvas.image.pixel p q) := by
  induction tiles generalizing sequence canvas with
  | nil =>
    rw [List.map_nil, List.map_eq_nil_iff] at hsequence
    subst hsequence
    simp [Canvas.drawAll, tilePixel?]
  | cons position rest ih =>
    obtain ⟨d, drawn, rfl, hd, hdrawn⟩ := List.map_eq_cons_iff.mp hsequence
    obtain ⟨himage, hcorner⟩ := Prod.mk.inj hd
    obtain ⟨hwidth, hheight⟩ := hsize position (List.mem_cons_self ..) d.image himage.symm
    have hthis : (canvas.draw d.image d.x d.y).image.pixel p q =
        if 0 ≤ c.depthOf q ∧ c.positionUnder p q = position then
          d.image.pixel (p % c.edge) ((c.depthOf q).toNat % c.edge)
        else canvas.image.pixel p q := by
      rw [← pixel_paste_tile hwidth hheight hp hq, ← hcorner]
      rfl
    have hrest : ((canvas.draw d.image d.x d.y).drawAll drawn).image.pixel p q =
        (c.tilePixel? rest p q).getD ((canvas.draw d.image d.x d.y).image.pixel p q) :=
      ih hdrawn (fun other hother => hsize other (List.mem_cons_of_mem _ hother)) hp hq
    refine hrest.trans ?_
    rw [hthis]
    -- a tile that is among the rest as well shows its one image
    unfold tilePixel?
    by_cases hdepth : 0 ≤ c.depthOf q
    · by_cases hposition : c.positionUnder p q = position
      · by_cases hrest : position ∈ rest
        · simp [hdepth, hposition, hrest, ← himage]
        · simp [hdepth, hposition, hrest, ← himage]
      · simp [hdepth, hposition]
    · simp [hdepth]

/-- **Drawing what was composed of a block** shows the same as drawing its tiles. -/
theorem pixel_draw_composed {composed : Image}
    (hcompose : c.compose block (Image.blank ((block.columnEnd - block.columnStart) * c.edge)
      ((block.rowEnd - block.rowStart) * c.edge)) block.positions = some composed)
    (hsize : ∀ position ∈ block.positions, ∀ img, c.imageAt? position = some img →
      img.width = c.edge ∧ img.height = c.edge)
    (hp : p < base.width) (hq : q < base.height) :
    (base.paste composed (c.corner (block.columnStart, block.rowStart)).1
        (c.corner (block.columnStart, block.rowStart)).2).pixel p q =
      (c.tilePixel? block.positions p q).getD (base.pixel p q) := by
  have hwidth : composed.width = (block.columnEnd - block.columnStart) * c.edge :=
    (size_compose hcompose).1
  have hheight : composed.height = (block.rowEnd - block.rowStart) * c.edge :=
    (size_compose hcompose).2
  have hx := in_cells_iff c.edge_pos block.columnStart block.columnEnd p
  have hy := in_cells_iff c.edge_pos block.rowStart block.rowEnd (c.depthOf q)
  have hunder : c.positionUnder p q ∈ block.positions ↔
      (block.columnStart ≤ p / c.edge ∧ p / c.edge < block.columnEnd) ∧
        block.rowStart ≤ (c.depthOf q).toNat / c.edge ∧
        (c.depthOf q).toNat / c.edge < block.rowEnd := TileBlock.mem_positions
  have hdepth : c.depthOf q = q + roundLong c.scrollY := rfl
  have hshift : (q : Int) - (block.rowStart * c.edge - roundLong c.scrollY) =
      c.depthOf q - block.rowStart * c.edge := by omega
  simp only [Int.toNat_natCast] at hx
  rw [Image.pixel_paste hp hq, hwidth, hheight]
  simp only [corner]
  by_cases hcell : 0 ≤ c.depthOf q ∧ c.positionUnder p q ∈ block.positions
  · obtain ⟨hdown, hmem⟩ := hcell
    obtain ⟨hcolumns, hrows⟩ := hunder.mp hmem
    have hwide := hx.mpr ⟨by omega, hcolumns⟩
    have hhigh := hy.mpr ⟨hdown, hrows⟩
    -- the same pixel, seen from the corner of the block
    obtain ⟨hcolumn, hleft⟩ := offset_in_cells c.edge_pos (Int.natCast_nonneg p) hcolumns.1
    obtain ⟨hrow, htop⟩ := offset_in_cells c.edge_pos hdown hrows.1
    have hposition : block.positionAt c.edge ((p : Int) - block.columnStart * c.edge).toNat
        (c.depthOf q - block.rowStart * c.edge).toNat = c.positionUnder p q :=
      Prod.ext hcolumn hrow
    -- the block was composed, so every tile of it is there
    have hall := isSome_compose.symm.trans (congrArg Option.isSome hcompose)
    obtain ⟨img, himage⟩ := Option.isSome_iff_exists.mp (List.all_eq_true.mp hall _ hmem)
    have hpixel := pixel_compose hcompose hsize TileBlock.start_le_of_mem
      (p := ((p : Int) - block.columnStart * c.edge).toNat)
      (q := (c.depthOf q - block.rowStart * c.edge).toNat)
      (by dsimp only [Image.blank]; omega) (by dsimp only [Image.blank]; omega)
    rw [hposition, if_pos hmem, himage, hleft, htop] at hpixel
    rw [tilePixel?, if_pos ⟨hdown, hmem⟩, himage]
    refine (if_pos ⟨hwide, by omega⟩).trans ?_
    rw [hshift]
    exact hpixel
  · rw [tilePixel?, if_neg hcell]
    refine if_neg ?_
    rintro ⟨hwide, hhigh⟩
    obtain ⟨hdown, hrows⟩ := hy.mp (by omega)
    exact hcell ⟨hdown, hunder.mpr ⟨(hx.mp hwide).2, hrows⟩⟩

/-- A snapshot is composed of the tiles of its block, on an image whose sizes are those of
    the block in 32-bit words. -/
theorem snapshot_inv {cancelled : Bool} {rect : Rect} {taken : Snapshot}
    (h : c.snapshot cancelled rect = .ok (some taken)) :
    c.viewBlock rect = some taken.block ∧ ∃ width height,
      c.lengthOf (taken.block.columnEnd - taken.block.columnStart) = .ok width ∧
      c.lengthOf (taken.block.rowEnd - taken.block.rowStart) = .ok height ∧
      c.compose taken.block (Image.blank width height) taken.block.positions =
        some taken.image := by
  unfold snapshot at h
  split at h
  · cases h
  · next block hview =>
    obtain ⟨columns, hcolumns, h⟩ := bind_eq_ok_iff.mp h
    obtain ⟨width, hwidth, h⟩ := bind_eq_ok_iff.mp h
    obtain ⟨rows, hrows, h⟩ := bind_eq_ok_iff.mp h
    obtain ⟨height, hheight, h⟩ := bind_eq_ok_iff.mp h
    dsimp only at h
    split at h
    · cases h
    · obtain ⟨image, himage, rfl⟩ := Option.map_eq_some_iff.mp (Except.ok.inj h)
      obtain rfl : columns = block.columnEnd - block.columnStart := by
        have := subWithin_eq_ok_iff.mp hcolumns
        omega
      obtain rfl : rows = block.rowEnd - block.rowStart := by
        have := subWithin_eq_ok_iff.mp hrows
        omega
      exact ⟨hview, width, height, hwidth, hheight, himage⟩

/-- While the columns and rows of the block can be counted in 32-bit words, so can its
    pixels. -/
theorem composed_of_snapshot {cancelled : Bool} {rect : Rect} {taken : Snapshot}
    (h : c.snapshot cancelled rect = .ok (some taken)) (htiles : taken.block.positions ≠ [])
    (hcolumns : taken.block.columnEnd - taken.block.columnStart < UInt32.size)
    (hrows : taken.block.rowEnd - taken.block.rowStart < UInt32.size) :
    c.Composable rect taken.block ∧
      c.compose taken.block
        (Image.blank ((taken.block.columnEnd - taken.block.columnStart) * c.edge)
          ((taken.block.rowEnd - taken.block.rowStart) * c.edge)) taken.block.positions =
        some taken.image := by
  obtain ⟨hview, width, height, hwidth, hheight, hcompose⟩ := snapshot_inv h
  rw [lengthOf, Nat.mod_eq_of_lt hcolumns] at hwidth
  rw [lengthOf, Nat.mod_eq_of_lt hrows] at hheight
  obtain ⟨rfl, hwide⟩ := mulWithin_eq_ok_iff.mp hwidth
  obtain ⟨rfl, hhigh⟩ := mulWithin_eq_ok_iff.mp hheight
  exact ⟨⟨hview, htiles, hwide, hhigh⟩, hcompose⟩

/-! ## 3. Painting without a gap, and painting the snapshot -/

/-- Where no tile of a block is missing, all rows are whole. -/
theorem wholeRows_of_complete (h : c.missingIndices block = []) :
    c.wholeRows block = block.positions := by
  refine List.filter_eq_self.mpr ?_
  intro p _
  refine decide_eq_true ?_
  intro q hq hlacks
  have hmem : c.grid.index q.1 q.2 ∈ c.missingIndices block :=
    List.mem_map.mpr ⟨q, List.mem_filter.mpr ⟨hq, hlacks⟩, rfl⟩
  rw [h] at hmem
  cases hmem

/-- If the corners of all tiles of a block fit, so does the one of the block. -/
theorem fits_block {rect : Rect} (hview : c.Composable rect block)
    (hnone : c.missingIndices block = []) (hfits : c.DrawingsFit rect none) :
    (c.displayOf block none).Fits (block.columnStart, block.rowStart) := by
  obtain ⟨hcolumns, hrows⟩ := TileBlock.ordered_of_positions hview.tiles
  have hfirst : (block.columnStart, block.rowStart) ∈ c.wholeRows block := by
    rw [wholeRows_of_complete hnone, TileBlock.mem_positions]
    omega
  have hitem : .tile block.columnStart block.rowStart ∈ (c.displayOf block none).items := by
    simp only [displayOf, plan, standIn, if_pos hnone]
    exact List.mem_map_of_mem hfirst
  exact hfits _ (display_eq hview.view none) _ hitem

/-- Two caches put a tile in the same place if their tiles are of one size and their views
    scrolled equally far. -/
structure SamePlaces (c c' : TileCache) : Prop where
  edge : c'.edge = c.edge
  scroll : roundLong c'.scrollY = roundLong c.scrollY

variable {c' : TileCache}

theorem SamePlaces.corner (h : SamePlaces c c') (position : Nat × Nat) :
    c'.corner position = c.corner position := by
  simp only [TileCache.corner, h.edge, h.scroll]

theorem standIn_of_missing {f : Snapshot} (hlacking : c.missingIndices block ≠ [])
    (hscale : scalesClose f.scale c.grid.scale = true) : c.standIn block (some f) = some f := by
  simp only [standIn, if_neg hlacking, Option.filter_some, hscale, if_true]

/-- Where the corner of a tile fits, that of a snapshot fits too, later on. -/
theorem SamePlaces.drawingsFit (h : SamePlaces c c') {rect : Rect} {block' : TileBlock}
    {f : Snapshot} (hview : c'.viewBlock rect = some block')
    (hlacking : c'.missingIndices block' ≠ [])
    (hscale : scalesClose f.scale c'.grid.scale = true)
    (hfits : (c.displayOf block none).Fits (f.block.columnStart, f.block.rowStart)) :
    c'.DrawingsFit rect (some f) := by
  intro d hd item hitem
  obtain rfl : c'.displayOf block' (some f) = d :=
    Option.some.inj ((display_eq hview (some f)).symm.trans hd)
  simp only [displayOf, plan, standIn_of_missing hlacking hscale, List.mem_singleton] at hitem
  subst hitem
  simp only [Display.Fits, displayOf, DisplayItem.position, h.edge, h.scroll] at hfits ⊢
  exact hfits

/-- What was composed of tiles can only have been composed of tiles that are there. -/
theorem missingIndices_of_compose {composed : Image} (hkept : WellKept c) {rect : Rect}
    (hview : c.viewBlock rect = some block)
    (hcompose : c.compose block base block.positions = some composed) :
    c.missingIndices block = [] := by
  have hall := isSome_compose.symm.trans (congrArg Option.isSome hcompose)
  refine List.eq_nil_iff_forall_not_mem.mpr ?_
  intro i hi
  obtain ⟨position, hposition, rfl, hlacks⟩ := mem_missingIndices.mp hi
  have hin := viewBlock_in_grid hview hposition
  have hthere := (CacheSession.isSome_image?_iff hkept hin).mp
    (List.all_eq_true.mp hall _ hposition)
  rw [hlacks] at hthere
  cases hthere

/-- Without a gap a paint draws all tiles of the block. -/
theorem drawOn_complete (hkept : WellKept c) {rect : Rect} (hview : c.viewBlock rect = some block)
    (hnone : c.missingIndices block = []) (hfits : c.DrawingsFit rect none) (canvas : Canvas) :
    ∃ sequence, c.drawOn false canvas rect none = .ok (canvas.drawAll sequence, []) ∧
      sequence.map (fun d => (some d.image, d.corner)) =
        block.positions.map fun position => (c.imageAt? position, c.corner position) := by
  have hstand : c.standIn block none = none := if_pos hnone
  obtain ⟨sequence, hundisturbed, hshown, -⟩ := display_tiles hkept hview hstand hfits
  have hsequence := hundisturbed.tiles nofun
  rw [wholeRows_of_complete hnone] at hsequence
  refine ⟨sequence, ?_, hsequence⟩
  rw [drawOn_eq, hshown, hnone]
  rfl

/-- With a gap, and a snapshot for the scale to fall back on, a paint draws the snapshot at
    the corner of its block. -/
theorem drawOn_falls_back {rect : Rect} (hview : c.viewBlock rect = some block)
    (hlacking : c.missingIndices block ≠ []) {f : Snapshot}
    (hscale : scalesClose f.scale c.grid.scale = true) (hfits : c.DrawingsFit rect (some f))
    (cancelled : Bool) (canvas : Canvas) :
    c.drawOn cancelled canvas rect (some f) =
      .ok (canvas.draw f.image (c.corner (f.block.columnStart, f.block.rowStart)).1
          (c.corner (f.block.columnStart, f.block.rowStart)).2,
        TileRange.runs (c.missingIndices block)) := by
  obtain ⟨sequence, hundisturbed, hshown⟩ :=
    display_snapshot hview (standIn_of_missing hlacking hscale) hfits
  obtain ⟨d, rfl, hd⟩ := List.map_eq_singleton_iff.mp
    (hundisturbed.snapshot f rfl hscale (TileRange.runs_ne_nil hlacking))
  obtain ⟨himage, hcorner⟩ := Prod.mk.inj hd
  rw [drawOn_eq, hshown, ← hcorner, ← Option.some.inj himage]
  rfl

end TileCache

/-! ## 4. A snapshot in place of its tiles -/

namespace CacheSession

open TileCache

variable {s later : CacheSession} {rect rect' : Rect} {block' : TileBlock} {taken : Snapshot}
  {cancelled : Bool}

theorem cache_start (s : CacheSession) (cancelled late : Bool) (index : Nat)
    (context : Context) : (s.start cancelled index context late).cache =
      (s.cache.start cancelled index context late).1 := by
  unfold start
  rcases s.cache.start cancelled index context late with ⟨cache, fault | admission⟩
  · rfl
  · cases admission with
    | skip => rfl
    | render ticket => rfl

/-- The size of the tiles is set once and for all. -/
theorem edge_of_run (h : Run s later) : later.cache.edge = s.cache.edge := by
  induction h with
  | refl => rfl
  | tail _ hstep ih =>
    refine Eq.trans ?_ ih
    cases hstep with
    | operate op =>
      unfold operate
      split
      · rfl
      · next hop =>
        rcases CacheOp.apply_cases hop with ⟨-, htrim⟩ | ⟨-, hgrid⟩
        · exact htrim.edge
        · exact hgrid.edge
    | start cancelled late index context hfree =>
      rw [cache_start]
      exact (sameGrid_start _ cancelled late index context).edge
    | finish call pixels fault hcall hsize =>
      cases fault with
      | some fault => rfl
      | none => exact (sameGrid_publish _ call.ticket pixels).edge

/-- A snapshot has no more tiles than there are slots. -/
theorem tileCount_le_poolSize (h : s.Reachable)
    (htaken : s.cache.snapshot cancelled rect = .ok (some taken)) :
    taken.tileCount ≤ s.cache.poolSize := by
  have hkept := (sound_of_reachable h).cache
  obtain ⟨hview, width, height, -, -, hcompose⟩ := snapshot_inv htaken
  have hall := isSome_compose.symm.trans (congrArg Option.isSome hcompose)
  have hascending := TileBlock.pairwise_index (viewBlock_le_grid hview).1
  have hnodup : (taken.block.positions.map fun p => s.cache.grid.index p.1 p.2).Nodup :=
    List.pairwise_map.mpr (hascending.imp fun hlt => Nat.ne_of_lt hlt)
  have hslots : ∀ i ∈ taken.block.positions.map fun p => s.cache.grid.index p.1 p.2,
      (s.cache.slot i).occupant = some i := by
    intro i hi
    obtain ⟨position, hposition, rfl⟩ := List.mem_map.mp hi
    have hin := viewBlock_in_grid hview hposition
    have hresident := (isSome_image?_iff hkept hin).mp (List.all_eq_true.mp hall _ hposition)
    exact (isResident_iff (Nat.lt_trans hin hkept.fits)).mp hresident
  have hlength := length_kept_le hnodup hslots
  rw [List.length_map, TileBlock.length_positions] at hlength
  exact hlength

/-- A pool of fewer than `2 ^ 32` slots is small enough for all its snapshots. -/
theorem counts_of_pool (h : s.Reachable) (hpool : s.cache.poolSize < UInt32.size)
    (htaken : s.cache.snapshot cancelled rect = .ok (some taken))
    (htiles : taken.block.positions ≠ []) :
    taken.block.columnEnd - taken.block.columnStart < UInt32.size ∧
      taken.block.rowEnd - taken.block.rowStart < UInt32.size := by
  have hcount := Nat.lt_of_le_of_lt (tileCount_le_poolSize h htaken) hpool
  obtain ⟨hcolumns, hrows⟩ := TileBlock.ordered_of_positions htiles
  refine ⟨Nat.lt_of_le_of_lt (Nat.le_mul_of_pos_right _ ?_) hcount,
    Nat.lt_of_le_of_lt (Nat.le_mul_of_pos_left _ ?_) hcount⟩
  · omega
  · omega

/-- **A snapshot shows what its tiles showed.**  Take a snapshot of at least one tile in a
    reachable session.  The pool has fewer than `2 ^ 32` slots, or at least no more columns and
    rows of it are under the snapshot.  Paint the rectangle of the snapshot, as long as the
    corners of the tiles fit.  Some time later, paint any rectangle that meets
    tiles of which some are missing, with the snapshot to fall back on.  If the view is
    scrolled as far as it was and the scale is the one of the snapshot, then on empty canvases
    of any size both paints give the same image.  The first reports nothing missing; the
    second does, and makes one drawing. -/
theorem fallback_shows_tiles (h : s.Reachable) (hrun : Run s later)
    (htaken : s.cache.snapshot cancelled rect = .ok (some taken))
    (htiles : taken.block.positions ≠ [])
    (hcounts : s.cache.poolSize < UInt32.size ∨
      taken.block.columnEnd - taken.block.columnStart < UInt32.size ∧
        taken.block.rowEnd - taken.block.rowStart < UInt32.size)
    (hfits : s.cache.DrawingsFit rect none)
    (hscroll : roundLong later.cache.scrollY = roundLong s.cache.scrollY)
    (hscale : scalesClose taken.scale later.cache.grid.scale = true)
    (hview : later.cache.viewBlock rect' = some block')
    (hmissing : ∃ index, later.cache.Lacks block' index)
    (cancelled' : Bool) (width height : Nat) :
    ∃ shown shown' missing,
      s.cache.drawOn false (Canvas.ofSize width height) rect none = .ok (shown, []) ∧
      later.cache.drawOn cancelled' (Canvas.ofSize width height) rect' (some taken) =
        .ok (shown', missing) ∧
      missing ≠ [] ∧ shown'.draws = 1 ∧ shown'.image = shown.image := by
  have hkept := (sound_of_reachable h).cache
  obtain ⟨hcolumns, hrows⟩ := hcounts.elim (counts_of_pool h · htaken htiles) id
  obtain ⟨hcomposable, hcompose⟩ := composed_of_snapshot htaken htiles hcolumns hrows
  have hsize : ∀ position ∈ taken.block.positions, ∀ img, s.cache.imageAt? position = some img →
      img.width = s.cache.edge ∧ img.height = s.cache.edge := by
    intro position hmem img himage
    exact size_of_image h (viewBlock_in_grid hcomposable.view hmem) himage
  -- the tiles of the snapshot are all there, so they are what the first paint draws
  have hnone := missingIndices_of_compose hkept hcomposable.view hcompose
  obtain ⟨sequence, hfirst, hsequence⟩ :=
    drawOn_complete hkept hcomposable.view hnone hfits (Canvas.ofSize width height)
  -- the later paint draws the snapshot, where the first paint drew its first tile
  have hplaces : SamePlaces s.cache later.cache := ⟨edge_of_run hrun, hscroll⟩
  obtain ⟨i, hi⟩ := hmissing
  have hlacking : later.cache.missingIndices block' ≠ [] :=
    List.ne_nil_of_mem (mem_missingIndices.mpr hi)
  have hfits' := hplaces.drawingsFit hview hlacking hscale (fits_block hcomposable hnone hfits)
  have hlater := drawOn_falls_back hview hlacking hscale hfits' cancelled'
    (Canvas.ofSize width height)
  rw [hplaces.corner] at hlater
  refine ⟨_, _, _, hfirst, hlater, TileRange.runs_ne_nil hlacking, rfl, ?_⟩
  obtain ⟨hwidth, hheight⟩ := Canvas.size_drawAll (Canvas.ofSize width height) sequence
  refine Image.ext_pixel hwidth.symm hheight.symm ?_
  intro p q hp hq
  have hwide : p < (Canvas.ofSize width height).image.width := hp
  have hhigh : q < (Canvas.ofSize width height).image.height := hq
  exact (pixel_draw_composed hcompose hsize hwide hhigh).trans
    (pixel_drawAll hsequence hsize hwide hhigh).symm

/-- The second column of four tiles is there; a new document size empties all slots, and
    the column is shown from the snapshot. -/
theorem fallback_shows_tiles_allButOne :
    let c := Sample.allButOne.cache
    let regridded := Sample.allButOne.operate (.resize 45 30)
    Sample.allButOne.Reachable ∧ Run Sample.allButOne regridded ∧
      c.viewBlock ⟨1, 0, 1, 2⟩ = some ⟨1, 2, 0, 2⟩ ∧
      regridded.cache.viewBlock ⟨0, 0, 2, 2⟩ = some ⟨0, 2, 0, 2⟩ ∧
      regridded.cache.Lacks ⟨0, 2, 0, 2⟩ 0 ∧
      ∃ taken, c.snapshot false ⟨1, 0, 1, 2⟩ = .ok (some taken) ∧
        ∀ width height, ∃ shown shown' missing,
          c.drawOn false (Canvas.ofSize width height) ⟨1, 0, 1, 2⟩ none = .ok (shown, []) ∧
          regridded.cache.drawOn false (Canvas.ofSize width height) ⟨0, 0, 2, 2⟩ (some taken) =
            .ok (shown', missing) ∧
          missing ≠ [] ∧ shown'.draws = 1 ∧ shown'.image = shown.image := by
  intro c regridded
  have hreach := Sample.reachable_allButOne
  have hrun : Run Sample.allButOne regridded := .single (Step.operate _ _)
  have hview : Sample.allButOne.cache.viewBlock ⟨1, 0, 1, 2⟩ = some ⟨1, 2, 0, 2⟩ := by
    decide +kernel
  have hlater : (Sample.allButOne.operate (.resize 45 30)).cache.viewBlock ⟨0, 0, 2, 2⟩ =
      some ⟨0, 2, 0, 2⟩ := by decide +kernel
  have hlacks : (Sample.allButOne.operate (.resize 45 30)).cache.Lacks ⟨0, 2, 0, 2⟩ 0 :=
    ⟨(0, 0), by decide +kernel, by decide +kernel, by decide +kernel⟩
  have hfits : Sample.allButOne.cache.DrawingsFit ⟨1, 0, 1, 2⟩ none := by
    intro d hd
    rw [display_eq hview] at hd
    cases hd
    decide +kernel
  have hpool : Sample.allButOne.cache.poolSize < UInt32.size := by decide +kernel
  have hcomposable : Sample.allButOne.cache.Composable ⟨1, 0, 1, 2⟩ ⟨1, 2, 0, 2⟩ :=
    ⟨hview, by decide, by decide +kernel, by decide +kernel⟩
  have hthere : ((⟨1, 2, 0, 2⟩ : TileBlock).positions.all fun p =>
      (Sample.allButOne.cache.imageAt? p).isSome) = true := by decide +kernel
  have hresult : ∃ taken, Sample.allButOne.cache.snapshot false ⟨1, 0, 1, 2⟩ = .ok (some taken) ∧
      taken.block = ⟨1, 2, 0, 2⟩ ∧ taken.scale = Sample.allButOne.cache.grid.scale := by
    obtain ⟨image, himage⟩ := Option.isSome_iff_exists.mp (isSome_compose.trans hthere)
    refine ⟨⟨image, Sample.allButOne.cache.grid.scale, ⟨1, 2, 0, 2⟩,
      Sample.allButOne.cache.scrollY⟩, ?_, rfl, rfl⟩
    rw [snapshot_eq hcomposable, if_neg Bool.false_ne_true, himage]
    rfl
  obtain ⟨taken, htaken, hblock, hscale⟩ := hresult
  have htiles : taken.block.positions ≠ [] := by
    rw [hblock]
    decide
  have hclose : scalesClose taken.scale
      (Sample.allButOne.operate (.resize 45 30)).cache.grid.scale = true := by
    rw [hscale]
    decide +kernel
  refine ⟨hreach, hrun, hview, hlater, hlacks, taken, htaken, ?_⟩
  intro width height
  exact fallback_shows_tiles hreach hrun htaken htiles (.inl hpool) hfits (by decide +kernel)
    hclose hlater ⟨0, hlacks⟩ false width height

end CacheSession

end TilePaint
