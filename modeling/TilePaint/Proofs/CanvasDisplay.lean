/-
  TilePaint/Proofs/CanvasDisplay.lean
  ===================================
  **What a display shows, and what it reports missing.**

  A display first surveys the block of tiles under the rectangle and then draws.  In
  between, and between any two drawings, the cache may change and the flag may be set.
  What each step finds is therefore an input: a `Sight` for every step, about which
  nothing is assumed.  If all sights are the same, this is the display of a cache that
  nobody touches.

  The survey alone decides what may be drawn: the tiles of all rows before the first one
  with a gap (`wholeRows`), or a snapshot in place of them all.  The steps follow this
  plan from its start, and all that a change can do is to end it early
  (`runSeeing_tiles`): the flag is seen, or the next tile has gone missing in the
  meantime, which is then reported with the others (`display_exact`).
-/
import TilePaint.Proofs.RangeJoins
import TilePaint.Proofs.RemainingScan
import TilePaint.Proofs.SnapshotPixels

namespace TilePaint

/-! ## 1. Maximal runs -/

namespace TileRange

variable {ranges : List TileRange} {indices : List Nat}

/-- The maximal runs of a set of tiles, in ascending order: neighbours in the set share
    a range. -/
structure RunsOf (ranges : List TileRange) (tiles : Nat → Prop) : Prop where
  wellFormed : AllWellFormed ranges
  ascending : Ascending ranges
  covers : ∀ i, Covers ranges i ↔ tiles i
  joins : ∀ i, Joins ranges i ↔ tiles i ∧ tiles (i + 1)

/-- A set of tiles has only one list of maximal runs. -/
theorem RunsOf.unique {as bs : List TileRange} {tiles : Nat → Prop} (ha : RunsOf as tiles)
    (hb : RunsOf bs tiles) : as = bs :=
  ha.ascending.ext hb.ascending ha.wellFormed hb.wellFormed
    (fun i => (ha.covers i).trans (hb.covers i).symm)
    fun i => (ha.joins i).trans (hb.joins i).symm

theorem ascending_consIndex {index : Nat} (h : Ascending ranges)
    (hfirst : ∀ r ∈ ranges, index < r.first) : Ascending (consIndex index ranges) := by
  cases ranges with
  | nil => exact List.pairwise_singleton _ _
  | cons r rest =>
    have hr := List.pairwise_cons.mp h
    simp only [consIndex]
    split
    · exact List.pairwise_cons.mpr hr
    · exact List.pairwise_cons.mpr ⟨hfirst, h⟩

theorem runsOf_runs (h : indices.Pairwise (· < ·)) : RunsOf (runs indices) (· ∈ indices) := by
  refine ⟨wellFormed_runs indices, ?_, fun _ => covers_runs, fun _ => joins_runs h⟩
  induction indices with
  | nil => exact List.Pairwise.nil
  | cons i rest ih =>
    obtain ⟨hi, hrest⟩ := List.pairwise_cons.mp h
    refine ascending_consIndex (ih hrest) ?_
    intro r hr
    exact hi _ (covers_runs.mp ⟨r, hr, Nat.le_refl _, wellFormed_runs rest r hr⟩)

theorem runs_ne_nil (h : indices ≠ []) : runs indices ≠ [] := by
  cases indices with
  | nil => exact absurd rfl h
  | cons i rest => exact runs_cons_ne_nil i rest

end TileRange

/-! ## 2. The steps of a display -/

/-- What one step of a display finds. -/
structure Sight where
  cancelled : Bool
  cache : TileCache

def Drawing.corner (d : Drawing) : Int × Int := (d.x, d.y)

/-- The column and the row whose corner an image is put on. -/
def DisplayItem.position : DisplayItem → Nat × Nat
  | .snapshot s => (s.block.columnStart, s.block.rowStart)
  | .tile column row => (column, row)

namespace Display

variable {d rest : Display} {look : Nat → Sight} {step : Nat} {drawing : Drawing}
  {missing : List TileRange} {position : Nat × Nat} {tiles : List (Nat × Nat)}

/-- The corner of a position on the target. -/
def corner (d : Display) (position : Nat × Nat) : Int × Int :=
  (position.1 * d.edge, position.2 * d.edge - d.scroll)

/-- The corner of a position, in the document and on the target, in signed 64-bit
    numbers. -/
def Fits (d : Display) (position : Nat × Nat) : Prop :=
  (position.1 * d.edge : Int) ≤ maxLong ∧ (position.2 * d.edge : Int) ≤ maxLong ∧
    minLong ≤ (position.2 * d.edge - d.scroll : Int) ∧
    (position.2 * d.edge - d.scroll : Int) ≤ maxLong

instance (d : Display) (position : Nat × Nat) : Decidable (d.Fits position) :=
  inferInstanceAs (Decidable (_ ∧ _))

theorem toLong_eq {n : Nat} (h : (n : Int) ≤ maxLong) : toLong n = n := by
  have hsize : UInt64.size = 18446744073709551616 := rfl
  have hmax : maxLong = 9223372036854775807 := rfl
  unfold toLong
  rw [hsize, Int.bmod_eq_of_le (by omega) (by omega)]

theorem mulLong_toLong {n edge : Nat} (hedge : 0 < edge) (h : (n * edge : Int) ≤ maxLong) :
    mulLong (toLong n) edge = .ok (n * edge) := by
  have hmin : minLong = -9223372036854775808 := rfl
  have hmul : (0 : Int) ≤ n * edge := Int.mul_nonneg (by omega) (by omega)
  have hone : (n : Int) * 1 ≤ n * edge := Int.mul_le_mul_of_nonneg_left (by omega) (by omega)
  rw [toLong_eq (by omega)]
  exact if_pos ⟨by omega, h⟩

theorem place_eq (hedge : 0 < d.edge) (h : d.Fits position) :
    d.place position.1 position.2 = .ok (d.corner position) := by
  obtain ⟨hx, hy, hlow, hhigh⟩ := h
  have hsub : subLong (position.2 * d.edge) d.scroll = .ok (position.2 * d.edge - d.scroll) :=
    if_pos ⟨hlow, hhigh⟩
  unfold place
  rw [mulLong_toLong hedge hx, mulLong_toLong hedge hy]
  show (subLong (position.2 * d.edge) d.scroll).map _ = _
  rw [hsub]
  rfl

theorem drawAt_eq (hedge : 0 < d.edge) (h : d.Fits position) (img : Image)
    (items : List DisplayItem) :
    d.drawAt img position.1 position.2 items =
      .ok (.draw ⟨img, (d.corner position).1, (d.corner position).2⟩ { d with items }) := by
  rw [drawAt, place_eq hedge h]
  rfl

/-- The rest of a display, where every step has a sight of its own. -/
def runSeeing (look : Nat → Sight) (d : Display) (step : Nat) :
    Except Fault (List Drawing × List TileRange) :=
  match _ : d.next (look step).cancelled (look step).cache with
  | .error fault => .error fault
  | .ok (.finished missing) => .ok ([], missing)
  | .ok (.draw drawing rest) =>
      (rest.runSeeing look (step + 1)).map fun shown => (drawing :: shown.1, shown.2)
termination_by d.items.length
decreasing_by exact length_items_next (by assumption)

theorem runSeeing_eq (look : Nat → Sight) (d : Display) (step : Nat) :
    d.runSeeing look step = match d.next (look step).cancelled (look step).cache with
      | .error fault => .error fault
      | .ok (.finished missing) => .ok ([], missing)
      | .ok (.draw drawing rest) =>
          (rest.runSeeing look (step + 1)).map fun shown => (drawing :: shown.1, shown.2) := by
  rw [runSeeing]
  split
  · next h => rw [h]
  · next h => rw [h]
  · next h => rw [h]

/-- If all sights are the same, it is the display of one cache. -/
theorem run_eq_runSeeing (d : Display) (cancelled : Bool) (c : TileCache) (step : Nat) :
    d.run cancelled c = d.runSeeing (fun _ => ⟨cancelled, c⟩) step := by
  induction d using Display.run.induct cancelled c generalizing step with
  | case1 d fault h => rw [run, runSeeing_eq, h]
  | case2 d missing h => rw [run, runSeeing_eq, h]
  | case3 d drawing rest h ih =>
    rw [run, runSeeing_eq, h]
    dsimp only
    rw [ih (step + 1)]
    cases rest.runSeeing (fun _ => ⟨cancelled, c⟩) (step + 1) <;> rfl

/-! ## 3. A display of tiles -/

/-- Why the drawing of tiles ends, before the tile at `next?` if one is left: all are
    drawn, or the flag is seen, or the tile has gone missing. -/
inductive Ends (grid : Grid) (missing : List TileRange) (sight : Sight) :
    Option (Nat × Nat) → List TileRange → Prop
  | complete : Ends grid missing sight none missing
  | cancelled (position : Nat × Nat) : sight.cancelled = true →
      Ends grid missing sight (some position) missing
  | lost (position : Nat × Nat) : sight.cancelled = false →
      sight.cache.image? (grid.index position.1 position.2) = none →
      Ends grid missing sight (some position) (TileRange.normalize
        (TileRange.pushIndex missing (grid.index position.1 position.2)))

theorem next_nil (hitems : d.items = []) (sight : Sight) :
    d.next sight.cancelled sight.cache = .ok (.finished d.missing) := by
  rw [next, hitems]

/-- A step at a tile ends the display or draws the tile. -/
theorem next_tile (hedge : 0 < d.edge) (hfits : d.Fits position) {items : List DisplayItem}
    (hitems : d.items = .tile position.1 position.2 :: items) (sight : Sight) :
    (∃ answer, d.next sight.cancelled sight.cache = .ok (.finished answer) ∧
        Ends d.grid d.missing sight (some position) answer) ∨
      ∃ img, sight.cache.image? (d.grid.index position.1 position.2) = some img ∧
        d.next sight.cancelled sight.cache =
          .ok (.draw ⟨img, (d.corner position).1, (d.corner position).2⟩ { d with items }) := by
  unfold next
  rw [hitems]
  cases hcancelled : sight.cancelled with
  | true => exact Or.inl ⟨_, rfl, .cancelled position hcancelled⟩
  | false =>
    cases himage : sight.cache.image? (d.grid.index position.1 position.2) with
    | none =>
      simp only [Bool.false_eq_true, if_false, himage]
      exact Or.inl ⟨_, rfl, .lost position hcancelled himage⟩
    | some img =>
      simp only [Bool.false_eq_true, if_false, himage]
      exact Or.inr ⟨img, rfl, drawAt_eq hedge hfits img items⟩

/-- **Tiles are drawn in order, as far as they go.**  Whatever the steps find, the
    drawings are put where the first tiles belong, each with the image that its tile has by
    then, and the display ends with an answer. -/
theorem runSeeing_tiles (hedge : 0 < d.edge) (hfits : ∀ p ∈ tiles, d.Fits p)
    (hitems : d.items = tiles.map fun p => .tile p.1 p.2) (look : Nat → Sight) (step : Nat) :
    ∃ drawn answer, d.runSeeing look step = .ok (drawn, answer) ∧
      drawn.map Drawing.corner <+: tiles.map d.corner ∧
      Ends d.grid d.missing (look (step + drawn.length)) tiles[drawn.length]? answer ∧
      ∀ k drawing, drawn[k]? = some drawing → ∃ p, tiles[k]? = some p ∧
        (look (step + k)).cache.image? (d.grid.index p.1 p.2) = some drawing.image := by
  induction tiles generalizing d step with
  | nil =>
    refine ⟨[], d.missing, ?_, List.prefix_refl _, .complete, nofun⟩
    rw [runSeeing_eq, next_nil hitems]
  | cons position rest ih =>
    rw [List.map_cons] at hitems
    rcases next_tile hedge (hfits position (List.mem_cons_self ..)) hitems (look step) with
      ⟨answer, hnext, hends⟩ | ⟨img, himage, hnext⟩
    · refine ⟨[], answer, ?_, List.nil_prefix, hends, nofun⟩
      rw [runSeeing_eq, hnext]
    · -- the rest is drawn from the next look on
      obtain ⟨drawn, answer, hrun, hprefix, hends, himages⟩ :=
        ih (d := { d with items := rest.map fun p => .tile p.1 p.2 }) hedge
          (fun p hp => hfits p (List.mem_cons_of_mem _ hp)) rfl (step + 1)
      refine ⟨⟨img, (d.corner position).1, (d.corner position).2⟩ :: drawn, answer, ?_, ?_, ?_, ?_⟩
      · rw [runSeeing_eq, hnext]
        dsimp only
        rw [hrun]
        rfl
      · exact List.cons_prefix_cons.mpr ⟨rfl, hprefix⟩
      · rw [List.length_cons, List.getElem?_cons_succ, ← Nat.add_assoc, Nat.add_right_comm]
        exact hends
      · intro k drawing hk
        cases k with
        | zero =>
          cases hk
          exact ⟨position, rfl, himage⟩
        | succ k =>
          rw [← Nat.add_assoc, Nat.add_right_comm]
          exact himages k drawing hk

/-- A snapshot is drawn at once, whatever the step finds. -/
theorem runSeeing_snapshot (hedge : 0 < d.edge) {s : Snapshot}
    (hfits : d.Fits (s.block.columnStart, s.block.rowStart)) (hitems : d.items = [.snapshot s])
    (look : Nat → Sight) (step : Nat) :
    let corner := d.corner (s.block.columnStart, s.block.rowStart)
    d.runSeeing look step = .ok ([⟨s.image, corner.1, corner.2⟩], d.missing) := by
  intro corner
  have hnext : d.next (look step).cancelled (look step).cache =
      .ok (.draw ⟨s.image, corner.1, corner.2⟩ { d with items := [] }) := by
    rw [next, hitems]
    exact drawAt_eq hedge hfits s.image []
  rw [runSeeing_eq, hnext]
  dsimp only
  rw [runSeeing_eq, next_nil rfl]
  rfl

end Display

/-! ## 4. The survey -/

namespace TileBlock

variable {b : TileBlock}

theorem pairwise_row (b : TileBlock) : b.positions.Pairwise fun p q => p.2 ≤ q.2 := by
  simp only [positions, List.pairwise_flatMap, List.pairwise_map, List.mem_map]
  constructor
  · intro row _
    exact List.pairwise_of_forall fun _ _ => Nat.le_refl _
  · refine List.Pairwise.imp ?_ List.pairwise_lt_range'
    rintro row row' hrow _ ⟨column, -, rfl⟩ _ ⟨column', -, rfl⟩
    exact Nat.le_of_lt hrow

/-- The indices ascend from position to position. -/
theorem pairwise_index {g : Grid} (h : b.columnEnd ≤ g.columns) :
    b.positions.Pairwise fun p q => g.index p.1 p.2 < g.index q.1 q.2 := by
  simp only [positions, List.pairwise_flatMap, List.pairwise_map, List.mem_map, Grid.index]
  constructor
  · intro row _
    exact List.Pairwise.imp (fun hcolumn => Nat.add_lt_add_left hcolumn _) List.pairwise_lt_range'
  · refine List.Pairwise.imp ?_ List.pairwise_lt_range'
    rintro row row' hrow _ ⟨column, hcolumn, rfl⟩ _ ⟨column', -, rfl⟩
    have hin := List.mem_range'_1.mp hcolumn
    have hnext : (row + 1) * g.columns ≤ row' * g.columns := Nat.mul_le_mul_right _ hrow
    rw [Nat.add_mul, Nat.one_mul] at hnext
    dsimp only
    omega

end TileBlock

namespace TileCache

variable {c : TileCache} {rect : Rect} {block : TileBlock} {fallback : Option Snapshot}

/-- A tile of the block that is not resident. -/
def Lacks (c : TileCache) (block : TileBlock) (index : Nat) : Prop :=
  ∃ position ∈ block.positions, c.grid.index position.1 position.2 = index ∧
    c.isResident index = false

def missingIndices (c : TileCache) (block : TileBlock) : List Nat :=
  (block.positions.filter c.isMissing).map fun position => c.grid.index position.1 position.2

theorem mem_missingIndices {i : Nat} : i ∈ c.missingIndices block ↔ c.Lacks block i := by
  simp only [missingIndices, Lacks, List.mem_map, List.mem_filter, isMissing, Bool.not_eq_true']
  constructor
  · rintro ⟨position, ⟨hmem, hmissing⟩, rfl⟩
    exact ⟨position, hmem, rfl, hmissing⟩
  · rintro ⟨position, hmem, rfl, hmissing⟩
    exact ⟨position, ⟨hmem, hmissing⟩, rfl⟩

theorem runsOf_missing (h : c.viewBlock rect = some block) :
    TileRange.RunsOf (TileRange.runs (c.missingIndices block)) (c.Lacks block) := by
  have hascending : (c.missingIndices block).Pairwise (· < ·) :=
    List.pairwise_map.mpr ((TileBlock.pairwise_index (viewBlock_le_grid h).1).filter _)
  have hsame : (· ∈ c.missingIndices block) = c.Lacks block := by
    funext i
    exact propext mem_missingIndices
  exact hsame ▸ TileRange.runsOf_runs hascending

/-- Look at the tile at one position: its index is pushed if it is not resident. -/
def surveyTile (c : TileCache) (found : List TileRange) (position : Nat × Nat) :
    Except Fault (List TileRange) :=
  if c.isMissing position then
    TileRange.pushWithin found (c.grid.index position.1 position.2)
  else .ok found

/-- The survey of a block in machine words, tile by tile. -/
def survey (c : TileCache) (block : TileBlock) : Except Fault (List TileRange) :=
  block.positions.foldlM c.surveyTile []

/-- **The survey finds the maximal runs** of the tiles that are missing. -/
theorem survey_eq (hfits : c.tileCount < maxIndex) (h : c.viewBlock rect = some block) :
    c.survey block = .ok (TileRange.runs (c.missingIndices block)) := by
  refine TileRange.foldlM_pushWithin c.surveyTile c.isMissing
    (fun position => c.grid.index position.1 position.2) [] ?_ nofun ?_
  · intro position _ found
    rfl
  · intro position hposition
    exact Nat.lt_trans (viewBlock_in_grid h hposition) hfits

/-! ## 5. The plan -/

/-- The tiles of all rows before the first row with a missing tile, row by row. -/
def wholeRows (c : TileCache) (block : TileBlock) : List (Nat × Nat) :=
  block.positions.filter fun p => ∀ q ∈ block.positions, c.isMissing q = true → p.2 < q.2

theorem mem_wholeRows {position : Nat × Nat} : position ∈ c.wholeRows block ↔
    position ∈ block.positions ∧
      ∀ q ∈ block.positions, c.isMissing q = true → position.2 < q.2 := by
  rw [wholeRows, List.mem_filter, decide_eq_true_iff]

theorem resident_of_mem_wholeRows {position : Nat × Nat} (h : position ∈ c.wholeRows block) :
    c.isResident (c.grid.index position.1 position.2) = true := by
  obtain ⟨hmem, hbefore⟩ := mem_wholeRows.mp h
  cases hres : c.isResident (c.grid.index position.1 position.2) with
  | true => rfl
  | false => exact absurd (hbefore position hmem (by rw [isMissing, hres]; rfl)) (Nat.lt_irrefl _)

/-- It is enough to look at the first missing tile, since no later one is in an earlier
    row. -/
theorem wholeRows_eq (c : TileCache) (block : TileBlock) :
    (match block.positions.filter c.isMissing with
      | [] => block.positions
      | (_, row) :: _ => block.positions.filter fun position => position.2 < row) =
    c.wholeRows block := by
  have hmem : ∀ q, q ∈ block.positions.filter c.isMissing ↔
      q ∈ block.positions ∧ c.isMissing q = true := fun _ => List.mem_filter
  -- positions come row by row, so the first tile that is missing is in the topmost such row
  have hrows := (TileBlock.pairwise_row block).filter c.isMissing
  cases hmissing : block.positions.filter c.isMissing with
  | nil =>
    rw [hmissing] at hmem
    refine (List.filter_eq_self.mpr ?_).symm
    intro p _
    refine decide_eq_true ?_
    intro q hq hqmissing
    exact absurd ((hmem q).mpr ⟨hq, hqmissing⟩) List.not_mem_nil
  | cons first rest =>
    rw [hmissing] at hmem hrows
    refine List.filter_congr ?_
    intro p _
    refine decide_eq_decide.mpr ?_
    constructor
    · intro hbefore q hq hqmissing
      rcases List.mem_cons.mp ((hmem q).mpr ⟨hq, hqmissing⟩) with rfl | hq
      · exact hbefore
      · exact Nat.lt_of_lt_of_le hbefore ((List.pairwise_cons.mp hrows).1 q hq)
    · intro hbefore
      obtain ⟨hfirst, hfirstMissing⟩ := (hmem first).mp (List.mem_cons_self ..)
      exact hbefore first hfirst hfirstMissing

/-- The snapshot that is shown in place of tiles: one at the scale of the grid, if there
    are missing tiles. -/
def standIn (c : TileCache) (block : TileBlock) (fallback : Option Snapshot) : Option Snapshot :=
  if c.missingIndices block = [] then none
  else fallback.filter fun s => scalesClose s.scale c.grid.scale

/-- What a display sets out to draw. -/
def plan (c : TileCache) (block : TileBlock) (fallback : Option Snapshot) : List DisplayItem :=
  match c.standIn block fallback with
  | some s => [.snapshot s]
  | none => (c.wholeRows block).map fun p => .tile p.1 p.2

/-- The display of a block, before its first step. -/
def displayOf (c : TileCache) (block : TileBlock) (fallback : Option Snapshot) : Display where
  grid := c.grid
  edge := c.edge
  scroll := roundLong c.scrollY
  missing := TileRange.runs (c.missingIndices block)
  items := c.plan block fallback

theorem display_eq (h : c.viewBlock rect = some block) (fallback : Option Snapshot) :
    c.display rect fallback = some (c.displayOf block fallback) := by
  have hrows := wholeRows_eq c block
  unfold display
  rw [h, Option.map_some]
  unfold displayOf
  congr 2
  simp only [plan, standIn, missingIndices, List.map_eq_nil_iff]
  cases hmissing : block.positions.filter c.isMissing with
  | nil =>
    rw [hmissing] at hrows
    rw [← hrows]
    rfl
  | cons first rest =>
    rw [hmissing] at hrows
    cases fallback with
    | none =>
      rw [← hrows]
      rfl
    | some f =>
      rw [← hrows]
      -- the snapshot stands in only if it was taken at this scale
      by_cases hclose : scalesClose f.scale c.grid.scale = true
      · simp [hclose, Option.filter_some]
      · simp [hclose, Option.filter_some]

/-- The display of a rectangle, where every step has a sight of its own. -/
def displaySeeing (c : TileCache) (look : Nat → Sight) (rect : Rect)
    (fallback : Option Snapshot) : Except Fault (List Drawing × List TileRange) :=
  match c.display rect fallback with
  | none => .ok ([], [])
  | some d => d.runSeeing look 0

/-- The corners of all that is to be drawn fit. -/
def DrawingsFit (c : TileCache) (rect : Rect) (fallback : Option Snapshot) : Prop :=
  ∀ d ∈ c.display rect fallback, ∀ item ∈ d.items, d.Fits item.position

/-- Without changes the drawings are made on the canvas one after the other. -/
theorem drawOn_eq (c : TileCache) (cancelled : Bool) (canvas : Canvas) (rect : Rect)
    (fallback : Option Snapshot) :
    c.drawOn cancelled canvas rect fallback =
      (c.displaySeeing (fun _ => ⟨cancelled, c⟩) rect fallback).map fun shown =>
        (shown.1.foldl (fun canvas d => canvas.draw d.image d.x d.y) canvas, shown.2) := by
  unfold drawOn displaySeeing
  cases c.display rect fallback with
  | none => rfl
  | some d =>
    dsimp only
    rw [Display.run_eq_runSeeing d cancelled c 0]
    cases d.runSeeing _ 0 <;> rfl

/-- The corner of a tile in the scrolled view. -/
def corner (c : TileCache) (position : Nat × Nat) : Int × Int :=
  (position.1 * c.edge, position.2 * c.edge - roundLong c.scrollY)

/-- **A rectangle that meets no tile** shows nothing, and nothing is missing. -/
theorem displaySeeing_of_no_tile
    (h : ∀ block, c.viewBlock rect = some block → block.positions = []) (look : Nat → Sight) :
    c.displaySeeing look rect fallback = .ok ([], []) := by
  unfold displaySeeing
  cases hview : c.viewBlock rect with
  | none => simp only [display, hview, Option.map_none]
  | some block =>
    have hempty := h block hview
    have hmissing : c.missingIndices block = [] := by
      rw [missingIndices, hempty]
      rfl
    have hplan : c.plan block fallback = [] := by
      rw [plan, standIn, if_pos hmissing, wholeRows, hempty]
      rfl
    rw [display_eq hview]
    dsimp only
    rw [Display.runSeeing_eq, Display.next_nil hplan, displayOf, hmissing]
    rfl

/-- What a display draws if nothing changes: the snapshot alone, or the whole rows tile by
    tile. -/
structure Undisturbed (c : TileCache) (block : TileBlock) (fallback : Option Snapshot)
    (missing : List TileRange) (sequence : List Drawing) : Prop where
  snapshot : ∀ f, fallback = some f → scalesClose f.scale c.grid.scale = true → missing ≠ [] →
    sequence.map (fun d => (some d.image, d.corner)) =
      [(some f.image, c.corner (f.block.columnStart, f.block.rowStart))]
  tiles : (∀ f, fallback = some f → scalesClose f.scale c.grid.scale = true → missing = []) →
    sequence.map (fun d => (some d.image, d.corner)) =
      (c.wholeRows block).map fun p => (c.image? (c.grid.index p.1 p.2), c.corner p)

/-- A tile stops a display: the next one to be drawn is gone, and the answer has it too. -/
structure StoppedAt (c now : TileCache) (missing answer : List TileRange)
    (position : Nat × Nat) : Prop where
  gone : now.image? (c.grid.index position.1 position.2) = none
  pushed : ∃ pushed, TileRange.pushWithin missing (c.grid.index position.1 position.2) =
    .ok pushed ∧ answer = TileRange.normalize pushed
  covers : ∀ i, Covers answer i ↔
    Covers missing i ∨ i = c.grid.index position.1 position.2

/-- What a display draws and answers, whatever its steps find. -/
structure Disturbed (c : TileCache) (block : TileBlock) (missing : List TileRange)
    (sequence : List Drawing) (look : Nat → Sight) (drawn : List Drawing)
    (answer : List TileRange) : Prop where
  places : drawn.map Drawing.corner <+: sequence.map Drawing.corner
  answer : answer = missing ∧
      (drawn.length = sequence.length ∨ (look drawn.length).cancelled = true) ∨
    ∃ position, (c.wholeRows block)[drawn.length]? = some position ∧
      c.StoppedAt (look drawn.length).cache missing answer position

variable {sequence drawn : List Drawing} {answer : List TileRange}

theorem stoppedAt_of_gone {now : TileCache} {indices : List Nat} {position : Nat × Nat}
    (h : ∀ i ∈ indices, i < maxIndex)
    (hgone : now.image? (c.grid.index position.1 position.2) = none) :
    c.StoppedAt now (TileRange.runs indices) (TileRange.normalize (TileRange.pushIndex
      (TileRange.runs indices) (c.grid.index position.1 position.2))) position := by
  rw [TileRange.pushIndex_runs]
  refine ⟨hgone, ⟨_, TileRange.pushWithin_runs h _, rfl⟩, ?_⟩
  intro i
  rw [TileRange.covers_normalize, TileRange.covers_runs, TileRange.covers_runs, List.mem_append,
    List.mem_singleton]

/-- Nothing disturbs a display that shows a snapshot. -/
theorem display_snapshot (hview : c.viewBlock rect = some block) {f : Snapshot}
    (hstand : c.standIn block fallback = some f) (hfits : c.DrawingsFit rect fallback) :
    let missing := TileRange.runs (c.missingIndices block)
    ∃ sequence, c.Undisturbed block fallback missing sequence ∧
      ∀ look, c.displaySeeing look rect fallback = .ok (sequence, missing) := by
  intro missing
  have hdisplay := display_eq hview fallback
  have hitems : (c.displayOf block fallback).items = [.snapshot f] := by
    rw [displayOf, plan, hstand]
  have hcorner := hfits _ hdisplay (.snapshot f) (by rw [hitems]; exact List.mem_cons_self ..)
  simp only [standIn, Option.ite_none_left_eq_some, Option.filter_eq_some_iff] at hstand
  obtain ⟨hmissing, rfl, hclose⟩ := hstand
  let corner := c.corner (f.block.columnStart, f.block.rowStart)
  refine ⟨[⟨f.image, corner.1, corner.2⟩], ⟨?_, ?_⟩, ?_⟩
  · intro g hg _ _
    cases hg
    rfl
  · intro hnone
    exact absurd (hnone f rfl hclose) (TileRange.runs_ne_nil hmissing)
  · intro look
    rw [displaySeeing, hdisplay]
    exact Display.runSeeing_snapshot c.edge_pos hcorner hitems look 0

/-- Places and images of some drawings, put together. -/
theorem map_drawing_eq {tiles : List (Nat × Nat)} {corner : Nat × Nat → Int × Int}
    {image? : Nat × Nat → Option Image}
    (hcorners : sequence.map Drawing.corner = tiles.map corner)
    (himages : ∀ (k : Nat) drawing, sequence[k]? = some drawing →
      ∃ p, tiles[k]? = some p ∧ image? p = some drawing.image) :
    sequence.map (fun d => (some d.image, d.corner)) =
      tiles.map fun p => (image? p, corner p) := by
  refine List.ext_getElem? fun k => ?_
  have hcorner := congrArg (·[k]?) hcorners
  simp only [List.getElem?_map] at hcorner ⊢
  cases hdrawing : sequence[k]? with
  | none =>
    rw [hdrawing] at hcorner
    rw [Option.map_eq_none_iff.mp hcorner.symm]
    rfl
  | some drawing =>
    obtain ⟨p, hp, himage⟩ := himages k drawing hdrawing
    rw [hdrawing, hp] at hcorner
    rw [hp, Option.map_some, Option.map_some, himage, Option.some.inj hcorner]

theorem missingIndices_lt (hfits : c.tileCount < maxIndex) (hview : c.viewBlock rect = some block) :
    ∀ i ∈ c.missingIndices block, i < maxIndex := by
  intro i hi
  obtain ⟨position, hposition, rfl, -⟩ := mem_missingIndices.mp hi
  exact Nat.lt_trans (viewBlock_in_grid hview hposition) hfits

/-- Without a snapshot the steps of a display go along the whole rows. -/
theorem displaySeeing_tiles (hview : c.viewBlock rect = some block)
    (hstand : c.standIn block fallback = none) (hfits : c.DrawingsFit rect fallback)
    (look : Nat → Sight) :
    ∃ drawn answer, c.displaySeeing look rect fallback = .ok (drawn, answer) ∧
      drawn.map Drawing.corner <+: (c.wholeRows block).map c.corner ∧
      Display.Ends c.grid (TileRange.runs (c.missingIndices block)) (look drawn.length)
        (c.wholeRows block)[drawn.length]? answer ∧
      ∀ k drawing, drawn[k]? = some drawing → ∃ p, (c.wholeRows block)[k]? = some p ∧
        (look k).cache.image? (c.grid.index p.1 p.2) = some drawing.image := by
  have hdisplay := display_eq hview fallback
  have hitems : (c.displayOf block fallback).items =
      (c.wholeRows block).map fun p => .tile p.1 p.2 := by rw [displayOf, plan, hstand]
  have hcorners : ∀ p ∈ c.wholeRows block, (c.displayOf block fallback).Fits p := by
    intro p hp
    exact hfits _ hdisplay (.tile p.1 p.2) (by rw [hitems]; exact List.mem_map_of_mem hp)
  have hshown := Display.runSeeing_tiles c.edge_pos hcorners hitems look 0
  simp only [Nat.zero_add] at hshown
  rw [displaySeeing, hdisplay]
  exact hshown

/-- The images of whole rows are there, so without a change all of them are drawn. -/
theorem ends_of_undisturbed (hkept : WellKept c) (hview : c.viewBlock rect = some block)
    {missing : List TileRange} {n : Nat}
    (h : Display.Ends c.grid missing ⟨false, c⟩ (c.wholeRows block)[n]? answer) :
    (c.wholeRows block).length ≤ n ∧ answer = missing := by
  generalize hnext : (c.wholeRows block)[n]? = next? at h
  cases h with
  | complete => exact ⟨List.getElem?_eq_none_iff.mp hnext, rfl⟩
  | cancelled position hcancelled => cases hcancelled
  | lost position _ hgone =>
    have hmem := List.mem_of_getElem? hnext
    have hin := viewBlock_in_grid hview (mem_wholeRows.mp hmem).1
    have hsome := (CacheSession.isSome_image?_iff hkept hin).mpr (resident_of_mem_wholeRows hmem)
    rw [hgone] at hsome
    cases hsome

/-- Why a display ends is what its answer says. -/
theorem answer_of_ends (hkept : WellKept c) (hview : c.viewBlock rect = some block)
    {sight : Sight} {n : Nat} (h : Display.Ends c.grid
      (TileRange.runs (c.missingIndices block)) sight (c.wholeRows block)[n]? answer) :
    answer = TileRange.runs (c.missingIndices block) ∧
        ((c.wholeRows block).length ≤ n ∨ sight.cancelled = true) ∨
      ∃ position, (c.wholeRows block)[n]? = some position ∧
        c.StoppedAt sight.cache (TileRange.runs (c.missingIndices block)) answer position := by
  obtain ⟨next?, hnext⟩ : ∃ next?, (c.wholeRows block)[n]? = next? := ⟨_, rfl⟩
  rw [hnext] at h
  cases h with
  | complete => exact Or.inl ⟨rfl, Or.inl (List.getElem?_eq_none_iff.mp hnext)⟩
  | cancelled position hcancelled => exact Or.inl ⟨rfl, Or.inr hcancelled⟩
  | lost position _ hgone =>
    exact Or.inr ⟨position, hnext,
      stoppedAt_of_gone (missingIndices_lt hkept.fits hview) hgone⟩

theorem display_tiles (hkept : WellKept c) (hview : c.viewBlock rect = some block)
    (hstand : c.standIn block fallback = none) (hfits : c.DrawingsFit rect fallback) :
    let missing := TileRange.runs (c.missingIndices block)
    ∃ sequence, c.Undisturbed block fallback missing sequence ∧
      c.displaySeeing (fun _ => ⟨false, c⟩) rect fallback = .ok (sequence, missing) ∧
      ∀ look, ∃ drawn answer, c.displaySeeing look rect fallback = .ok (drawn, answer) ∧
        c.Disturbed block missing sequence look drawn answer := by
  intro missing
  have hshown := displaySeeing_tiles hview hstand hfits
  -- what is drawn undisturbed is the sequence; a disturbed run draws a prefix of its places
  obtain ⟨sequence, _, hrun, hprefix, hends, himages⟩ := hshown fun _ => ⟨false, c⟩
  obtain ⟨hall, rfl⟩ := ends_of_undisturbed hkept hview hends
  have hlength : sequence.length = (c.wholeRows block).length := by
    have hle := hprefix.length_le
    simp only [List.length_map] at hle
    omega
  have hplaces := hprefix.eq_of_length (by rw [List.length_map, List.length_map, hlength])
  refine ⟨sequence, ⟨?_, fun _ => map_drawing_eq hplaces himages⟩, hrun, ?_⟩
  · rintro f rfl hclose hmissing
    -- otherwise the snapshot would have stood in
    have hindices : c.missingIndices block ≠ [] := by
      intro hnil
      exact hmissing (congrArg TileRange.runs hnil)
    simp [standIn, hindices, Option.filter_some, hclose] at hstand
  · intro look
    obtain ⟨drawn, answer, hrun, hprefix, hends, -⟩ := hshown look
    refine ⟨drawn, answer, hrun, hplaces ▸ hprefix, ?_⟩
    have hle := hprefix.length_le
    simp only [List.length_map] at hle
    rcases answer_of_ends hkept hview hends with ⟨hanswer, hlast | hcancelled⟩ | hstopped
    · exact Or.inl ⟨hanswer, Or.inl (by omega)⟩
    · exact Or.inl ⟨hanswer, Or.inr hcancelled⟩
    · exact Or.inr hstopped

end TileCache

/-! ## 6. Displays in a session -/

namespace CacheSession

open TileCache TileRange

variable {s : CacheSession} {rect : Rect} {fallback : Option Snapshot}

/-- **A display never shows part of a row, and it reports what is missing.**  In every
    reachable session, for every rectangle of the view and every snapshot to fall back on,
    as long as the corners of the drawings fit:

    A rectangle that meets no tile, once it is shifted by the scroll position, shows nothing,
    and nothing is missing.

    Otherwise the survey finds the maximal runs of the tiles that are not resident.  If
    nothing changes and the flag is not set, the answer is these runs, and what is drawn on
    the canvas is `sequence`: the snapshot, if tiles are missing and it is at the scale of
    the grid, and else all rows before the first one with a missing tile, tile by tile.

    Whatever each step finds, there is an answer, and what is drawn lies where the first
    drawings of the sequence do.  The answer is the same runs, unless a tile that has gone
    missing stops the display; then this tile is in it as well. -/
theorem display_exact (h : s.Reachable) (hfits : s.cache.DrawingsFit rect fallback) :
    let c := s.cache
    let shifted : Rect := ⟨rect.x + 0, rect.y + c.scrollY, rect.width, rect.height⟩
    ((∀ block, c.grid.blockOf c.edge shifted = some block → block.positions = []) →
      (∀ cancelled canvas, c.drawOn cancelled canvas rect fallback = .ok (canvas, [])) ∧
        ∀ look, c.displaySeeing look rect fallback = .ok ([], [])) ∧
    ∀ block, c.grid.blockOf c.edge shifted = some block → block.positions ≠ [] →
      ∃ (missing : List TileRange) (sequence : List Drawing),
        c.survey block = .ok missing ∧
        (∀ ranges, RunsOf ranges (c.Lacks block) ↔ ranges = missing) ∧
        c.Undisturbed block fallback missing sequence ∧
        (∀ canvas, c.drawOn false canvas rect fallback =
          .ok (sequence.foldl (fun canvas d => canvas.draw d.image d.x d.y) canvas, missing)) ∧
        ∀ look, ∃ drawn answer, c.displaySeeing look rect fallback = .ok (drawn, answer) ∧
          c.Disturbed block missing sequence look drawn answer := by
  intro c shifted
  have hkept := (sound_of_reachable h).cache
  have hshifted : c.viewBlock rect = c.grid.blockOf c.edge shifted := viewBlock_eq c rect
  rw [← hshifted]
  refine ⟨?_, ?_⟩
  · intro hnone
    refine ⟨?_, displaySeeing_of_no_tile hnone⟩
    intro cancelled canvas
    rw [drawOn_eq, displaySeeing_of_no_tile hnone]
    rfl
  · intro block hview _
    have hsurvey := survey_eq hkept.fits hview
    -- the answer is determined by what is missing, not by how it is found
    have hruns : ∀ ranges, RunsOf ranges (c.Lacks block) ↔
        ranges = runs (c.missingIndices block) := by
      intro ranges
      constructor
      · intro hranges
        exact hranges.unique (runsOf_missing hview)
      · rintro rfl
        exact runsOf_missing hview
    cases hstand : c.standIn block fallback with
    | some f =>
      -- the snapshot is drawn whole, whatever happens to the cache in the meantime
      obtain ⟨sequence, hundisturbed, hshown⟩ := display_snapshot hview hstand hfits
      refine ⟨_, sequence, hsurvey, hruns, hundisturbed, ?_, ?_⟩
      · intro canvas
        rw [drawOn_eq, hshown]
        rfl
      · intro look
        exact ⟨sequence, _, hshown look, List.prefix_refl _, Or.inl ⟨rfl, Or.inl rfl⟩⟩
    | none =>
      obtain ⟨sequence, hundisturbed, hshown, hdisturbed⟩ :=
        display_tiles hkept hview hstand hfits
      refine ⟨_, sequence, hsurvey, hruns, hundisturbed, ?_, hdisturbed⟩
      intro canvas
      rw [drawOn_eq, hshown]
      rfl

/-- The view is scrolled down by a row.  The first row is shown, one pixel above the view, and
    the tile that is missing in the second one reported. -/
theorem display_exact_scrolled :
    let c := Sample.scrolled.cache
    Sample.scrolled.Reachable ∧ c.DrawingsFit ⟨0, -1, 2, 2⟩ none ∧
      ∃ sequence : List Drawing,
        sequence.map (fun d => (some d.image, d.corner)) =
          [(c.image? 0, (0, -1)), (c.image? 1, (1, -1))] ∧
        (∀ canvas, c.drawOn false canvas ⟨0, -1, 2, 2⟩ none =
          .ok (sequence.foldl (fun canvas d => canvas.draw d.image d.x d.y) canvas,
            [⟨2, 2⟩])) ∧
        ∀ look, ∃ drawn answer, c.displaySeeing look ⟨0, -1, 2, 2⟩ none = .ok (drawn, answer) ∧
          drawn.map Drawing.corner <+: sequence.map Drawing.corner := by
  intro c
  have hview : Sample.scrolled.cache.viewBlock ⟨0, -1, 2, 2⟩ = some ⟨0, 2, 0, 2⟩ := by
    decide +kernel
  have hfits : Sample.scrolled.cache.DrawingsFit ⟨0, -1, 2, 2⟩ none := by
    intro d hd
    rw [display_eq hview] at hd
    cases hd
    decide +kernel
  have hsurvey : Sample.scrolled.cache.survey ⟨0, 2, 0, 2⟩ = .ok [⟨2, 2⟩] := by decide +kernel
  have hrows : Sample.scrolled.cache.wholeRows ⟨0, 2, 0, 2⟩ = [(0, 0), (1, 0)] := by
    decide +kernel
  obtain ⟨-, hshows⟩ := display_exact Sample.reachable_scrolled hfits
  obtain ⟨missing, sequence, hmissing, -, hundisturbed, hcanvas, hdisturbed⟩ :=
    hshows _ hview (by decide)
  cases hmissing.symm.trans hsurvey
  have hsequence := hundisturbed.tiles nofun
  rw [hrows] at hsequence
  refine ⟨Sample.reachable_scrolled, hfits, sequence, ?_, hcanvas, ?_⟩
  · have hindex : Sample.scrolled.cache.grid.index 0 0 = 0 ∧
        Sample.scrolled.cache.grid.index 1 0 = 1 := by decide +kernel
    have hcorner : Sample.scrolled.cache.corner (0, 0) = (0, -1) ∧
        Sample.scrolled.cache.corner (1, 0) = (1, -1) := by decide +kernel
    rw [hsequence]
    simp only [List.map_cons, List.map_nil, hindex, hcorner]
    rfl
  · intro look
    obtain ⟨drawn, answer, hrun, hends⟩ := hdisturbed look
    exact ⟨drawn, answer, hrun, hends.places⟩

end CacheSession

end TilePaint
