/-
  TilePaint/Proofs/RegridOutcome.lean
  ===================================
  **A new grid comes as a whole, or not at all.**

  A call for a new grid writes the cache in several places: the grid with its validity
  bits, the slots, and for `rescale` the active context.  The number of tiles may fail to
  fit an index, and then the call ends in a fault in the middle of its work.  What it
  leaves behind depends on the order of its writes.

  So the calls are given here a second time, as programs that write piece by piece and
  keep what they have written when a fault ends them (`Regrid.program`).  They leave what
  the operations of the cache say (`run_program`), because all that can fail is computed
  before the first write.  From this the three outcomes follow, and each of them by its
  own condition (`regrid_outcomes`).
-/
import TilePaint.Proofs.CacheRun

namespace TilePaint

/-! ## 1. Calls for a new grid -/

/-- The three ways to ask for a new grid. -/
inductive Regrid where
  | resize (widthTwips heightTwips : Int)
  | resizeScaled (widthTwips heightTwips : Int) (scale : Float32)
  | rescale (scale : Float32)

namespace Regrid

def op : Regrid → CacheOp
  | resize width height => .resize width height
  | resizeScaled width height scale => .resizeScaled width height scale
  | rescale scale => .rescale scale

/-- The size of the document that the new grid is for. -/
def size (c : TileCache) : Regrid → Int × Int
  | resize width height => (width, height)
  | resizeScaled width height _ => (width, height)
  | rescale _ => (c.grid.widthTwips, c.grid.heightTwips)

/-- The scale of the new grid.  A scale close to the old one is not taken over with a
    size. -/
def scale (c : TileCache) : Regrid → Float32
  | resize _ _ => c.grid.scale
  | resizeScaled _ _ scale => if scalesClose c.grid.scale scale then c.grid.scale else scale
  | rescale scale => scale

/-- The active context once the new grid is there. -/
def context (c : TileCache) : Regrid → Context
  | rescale _ => Context.none
  | _ => c.context

/-- The grid that is asked for. -/
def target (c : TileCache) (r : Regrid) : Grid :=
  Grid.ofDocument c.edge (r.size c).1 (r.size c).2 (r.scale c) (c.grid.generation + 1)

end Regrid

/-! ## 2. Programs that write piece by piece -/

namespace TileCache

variable {c : TileCache}

/-- A program on a cache.  A fault ends it, and what it has written by then stays. -/
abbrev Program := ExceptT Fault (StateM TileCache)

/-- Run a program to its end or to its first fault. -/
def Program.runOn {α : Type} (p : Program α) (c : TileCache) : Except Fault α × TileCache :=
  p.run.run c

namespace Program

variable {α β : Type}

@[simp] theorem runOn_get : (get : Program TileCache).runOn c = (.ok c, c) := rfl

@[simp] theorem runOn_modify (f : TileCache → TileCache) :
    (modify f : Program Unit).runOn c = (.ok (), f c) := rfl

@[simp] theorem runOn_ofExcept (result : Except Fault α) :
    (MonadExcept.ofExcept result : Program α).runOn c = (result, c) := by
  cases result with
  | error fault => rfl
  | ok a => rfl

/-- What comes after a fault is left out. -/
theorem runOn_bind (p : Program α) (next : α → Program β) :
    (p >>= next).runOn c = match p.runOn c with
      | (.ok a, c') => (next a).runOn c'
      | (.error fault, c') => (.error fault, c') := by
  show StateT.run (ExceptT.run (p >>= next)) c = _
  rw [ExceptT.run_bind, StateT.run_bind]
  unfold runOn
  rcases p.run.run c with ⟨fault | a, c'⟩
  · rfl
  · rfl

end Program

/-- What a call leaves behind that only writes when nothing can fail any more. -/
def settle (c : TileCache) : Except Fault TileCache → Except Fault Unit × TileCache
  | .ok c' => (.ok (), c')
  | .error fault => (.error fault, c)

def rebuildProgram (widthTwips heightTwips : Int) (scale : Float32) : Program Unit := do
  let c ← get
  let grid := Grid.ofDocument c.edge widthTwips heightTwips scale (c.grid.generation + 1)
  let tiles ← MonadExcept.ofExcept (mulWithin maxIndex grid.columns grid.rows)
  let bits ← MonadExcept.ofExcept (addWithin maxIndex tiles 1)
  modify fun c => { c with grid, valid := BitSet.ofSize bits }
  modify fun c => c.mapSlots Slot.evict

def resizeProgram (widthTwips heightTwips : Int) : Program Unit := do
  let c ← get
  if c.grid.widthTwips = widthTwips ∧ c.grid.heightTwips = heightTwips then pure ()
  else rebuildProgram widthTwips heightTwips c.grid.scale

def resizeScaledProgram (widthTwips heightTwips : Int) (scale : Float32) : Program Unit := do
  let c ← get
  if scalesClose c.grid.scale scale then resizeProgram widthTwips heightTwips
  else rebuildProgram widthTwips heightTwips scale

def rescaleProgram (scale : Float32) : Program Unit := do
  let c ← get
  if scalesFar scale c.grid.scale then
    rebuildProgram c.grid.widthTwips c.grid.heightTwips scale
    modify fun c => c.setContext Context.none

/-- The numbers are computed first, so a fault comes before the first write. -/
theorem run_rebuild (widthTwips heightTwips : Int) (scale : Float32) :
    (rebuildProgram widthTwips heightTwips scale).runOn c =
      c.settle (c.rebuild widthTwips heightTwips scale) := by
  simp only [rebuildProgram, Program.runOn_bind, Program.runOn_get, Program.runOn_ofExcept,
    Program.runOn_modify, rebuild]
  generalize Grid.ofDocument c.edge widthTwips heightTwips scale (c.grid.generation + 1) = grid
  cases mulWithin maxIndex grid.columns grid.rows with
  | error fault => rfl
  | ok tiles =>
    cases hadd : addWithin maxIndex tiles 1 with
    | error fault =>
      simp only [bind, Except.bind, hadd]
      rfl
    | ok bits =>
      simp only [bind, Except.bind, hadd]
      rfl

theorem run_resize (widthTwips heightTwips : Int) :
    (resizeProgram widthTwips heightTwips).runOn c =
      c.settle (c.resize widthTwips heightTwips) := by
  simp only [resizeProgram, Program.runOn_bind, Program.runOn_get, resize]
  split
  · rfl
  · exact run_rebuild widthTwips heightTwips c.grid.scale

theorem run_resizeScaled (widthTwips heightTwips : Int) (scale : Float32) :
    (resizeScaledProgram widthTwips heightTwips scale).runOn c =
      c.settle (c.resizeScaled widthTwips heightTwips scale) := by
  simp only [resizeScaledProgram, Program.runOn_bind, Program.runOn_get, resizeScaled]
  split
  · exact run_resize widthTwips heightTwips
  · exact run_rebuild widthTwips heightTwips scale

/-- The context is retired last, so it stays if there is no new grid. -/
theorem run_rescale (scale : Float32) :
    (rescaleProgram scale).runOn c = c.settle (c.rescale scale) := by
  simp only [rescaleProgram, Program.runOn_bind, Program.runOn_get, rescale]
  split
  · rw [Program.runOn_bind, run_rebuild]
    cases c.rebuild c.grid.widthTwips c.grid.heightTwips scale with
    | error fault => rfl
    | ok c' => rfl
  · rfl

/-- A new grid without a fault, or a fault: it depends on the number of tiles. -/
theorem rebuild_eq (width height : Int) (scale : Float32) :
    let grid := Grid.ofDocument c.edge width height scale (c.grid.generation + 1)
    c.rebuild width height scale =
      if grid.tileCount + 1 ≤ maxIndex then
        .ok { c.mapSlots Slot.evict with grid, valid := BitSet.ofSize (grid.tileCount + 1) }
      else .error (if grid.tileCount ≤ maxIndex then .addOverflow else .mulOverflow) := by
  intro grid
  have hbind : c.rebuild width height scale = mulWithin maxIndex grid.columns grid.rows >>=
      fun tiles => addWithin maxIndex tiles 1 >>= fun bits =>
        .ok { c.mapSlots Slot.evict with grid, valid := BitSet.ofSize bits } := rfl
  rw [hbind]
  by_cases htiles : grid.tileCount ≤ maxIndex
  · have hmul : mulWithin maxIndex grid.columns grid.rows = .ok grid.tileCount := if_pos htiles
    rw [hmul, if_pos htiles]
    by_cases hbits : grid.tileCount + 1 ≤ maxIndex
    · have hadd : addWithin maxIndex grid.tileCount 1 = .ok (grid.tileCount + 1) := if_pos hbits
      rw [if_pos hbits]
      exact bind_eq_ok_iff.mpr ⟨_, rfl, bind_eq_ok_iff.mpr ⟨_, hadd, rfl⟩⟩
    · have hadd : addWithin maxIndex grid.tileCount 1 = .error .addOverflow := if_neg hbits
      rw [if_neg hbits]
      show (addWithin maxIndex grid.tileCount 1 >>= _) = _
      rw [hadd]
      rfl
  · have hmul : mulWithin maxIndex grid.columns grid.rows = .error .mulOverflow := if_neg htiles
    rw [hmul, if_neg htiles, if_neg (by omega)]
    rfl

theorem map_setContext_rebuild {width height : Int} {scale : Float32} :
    (c.rebuild width height scale).map (fun c' => c'.setContext c.context) =
      c.rebuild width height scale := by
  rw [rebuild_eq]
  dsimp only
  split
  · rfl
  · rfl

end TileCache

namespace Regrid

open TileCache

variable {c : TileCache}

def program : Regrid → Program Unit
  | resize width height => resizeProgram width height
  | resizeScaled width height scale => resizeScaledProgram width height scale
  | rescale scale => rescaleProgram scale

/-- **Nothing is written before a fault**: the programs leave what the operations say. -/
theorem run_program (r : Regrid) (c : TileCache) :
    r.program.runOn c = c.settle (r.op.apply c) := by
  cases r with
  | resize width height => exact run_resize width height
  | resizeScaled width height scale => exact run_resizeScaled width height scale
  | rescale scale => exact run_rescale scale

/-! ## 3. The three outcomes -/

/-- The cache with the grid that is asked for. -/
def replaced (r : Regrid) (c : TileCache) : TileCache :=
  { c.mapSlots Slot.evict with
    grid := r.target c
    valid := BitSet.ofSize ((r.target c).tileCount + 1)
    context := r.context c }

theorem apply_of_kept {r : Regrid} (h : ¬r.op.replacesGrid c) : r.op.apply c = .ok c := by
  have hresize : ∀ width height,
      ¬(c.grid.widthTwips ≠ width ∨ c.grid.heightTwips ≠ height) →
        c.resize width height = .ok c := by
    intro width height hsame
    exact if_pos (by omega)
  cases r with
  | resize width height => exact hresize width height h
  | resizeScaled width height scale =>
    obtain ⟨hclose, hsame⟩ := not_or.mp h
    rw [Bool.not_eq_false] at hclose
    exact (if_pos hclose).trans (hresize width height hsame)
  | rescale scale => exact if_neg h

/-- All three calls are one: they put the new grid there and then set the context. -/
theorem apply_of_replacesGrid {r : Regrid} (h : r.op.replacesGrid c) :
    r.op.apply c =
      (c.rebuild (r.size c).1 (r.size c).2 (r.scale c)).map fun c' =>
        c'.setContext (r.context c) := by
  have hresize : ∀ width height,
      c.grid.widthTwips ≠ width ∨ c.grid.heightTwips ≠ height →
        c.resize width height = c.rebuild width height c.grid.scale := by
    intro width height hnew
    exact if_neg (by omega)
  cases r with
  | resize width height =>
    exact (hresize width height h).trans map_setContext_rebuild.symm
  | resizeScaled width height scale =>
    refine Eq.trans ?_ map_setContext_rebuild.symm
    by_cases hclose : scalesClose c.grid.scale scale = true
    · -- the scale counts as the same and stays, so the size must be new
      have hnew := Or.resolve_left h (Bool.not_eq_false _ ▸ hclose)
      have hscale : (resizeScaled width height scale).scale c = c.grid.scale := if_pos hclose
      rw [hscale]
      exact (if_pos hclose).trans (hresize width height hnew)
    · have hscale : (resizeScaled width height scale).scale c = scale := if_neg hclose
      rw [hscale]
      exact if_neg hclose
  | rescale scale =>
    refine (if_pos h).trans ?_
    dsimp only [size, Regrid.scale]
    cases c.rebuild c.grid.widthTwips c.grid.heightTwips scale with
    | error fault => rfl
    | ok c' => rfl

theorem apply_of_fits {r : Regrid} (h : r.op.replacesGrid c)
    (hfits : (r.target c).tileCount + 1 ≤ maxIndex) : r.op.apply c = .ok (r.replaced c) := by
  rw [apply_of_replacesGrid h, rebuild_eq]
  exact congrArg (Except.map _) (if_pos hfits)

theorem apply_of_overflow {r : Regrid} (h : r.op.replacesGrid c)
    (hover : ¬(r.target c).tileCount + 1 ≤ maxIndex) :
    r.op.apply c =
      .error (if (r.target c).tileCount ≤ maxIndex then .addOverflow else .mulOverflow) := by
  rw [apply_of_replacesGrid h, rebuild_eq]
  exact congrArg (Except.map _) (if_neg hover)

/-- The new grid is in place and no tile of it is, with the sizes and the scale that were
    asked for. -/
structure Replaced (r : Regrid) (c c' : TileCache) : Prop where
  grid : c'.grid = r.target c
  generation : c'.grid.generation = c.grid.generation + 1
  size : (c'.grid.widthTwips, c'.grid.heightTwips) = r.size c
  scale : c'.grid.scale = r.scale c
  bits : c'.valid.size = c'.grid.columns * c'.grid.rows + 1
  clear : ∀ i, ¬i ∈ c'.valid
  tiles : ∀ i, i < c'.grid.columns * c'.grid.rows →
    c'.isValid i = false ∧ c'.isResident i = false ∧ c'.image? i = none
  context : c'.context = r.context c
  /-- Buffers and images stay behind in the slots. -/
  slots : c'.slots = c.slots.map Slot.evict
  scroll : c'.scrollY = c.scrollY
  edge : c'.edge = c.edge

theorem replaced_replaced {r : Regrid} (hfits : (r.target c).tileCount + 1 ≤ maxIndex) :
    r.Replaced c (r.replaced c) := by
  have hclear : ∀ i, ¬i ∈ (r.replaced c).valid := fun i => BitSet.not_mem_ofSize
  refine ⟨rfl, rfl, rfl, rfl, BitSet.size_ofSize, hclear, ?_, rfl, rfl, rfl, rfl⟩
  intro i hi
  have hsmall : i < maxIndex := Nat.lt_of_lt_of_le hi (Nat.le_of_succ_le hfits)
  have hslot : (r.replaced c).slot i = (c.slot i).evict := c.slot_mapSlots i Slot.evict
  have hresident : (r.replaced c).isResident i = false := by
    refine Bool.eq_false_iff.mpr ?_
    intro hresident
    have hkept := (isResident_iff hsmall).mp hresident
    rw [hslot] at hkept
    cases hkept
  have hvalid : (r.replaced c).isValid i = false := by
    simp only [isValid, hclear i, decide_false, Bool.and_false]
  have himage : (r.replaced c).image? i = none := by
    simp only [image?, hresident, Bool.false_eq_true, if_false]
  exact ⟨hvalid, hresident, himage⟩

/-- **A new grid comes as a whole, or not at all.**  In every session a call for a new grid,
    whatever the size and the scale, has one of three outcomes, and each by its own condition.
    The size and the scale are those of the grid already, within the tolerance: then nothing
    changes.  Or the tiles of the new grid and one bit more can be counted: then the new grid
    is `Replaced` for the old one.  Or they cannot: then the call ends in a fault, everything is
    as before, and all that comes later comes as if the call had not been made. -/
theorem regrid_outcomes (s : CacheSession) (r : Regrid) :
    let c := s.cache
    let tiles := (r.target c).columns * (r.target c).rows
    let outcome := r.program.runOn c
    (s.operate r.op).cache = outcome.2 ∧
    (¬r.op.replacesGrid c ∧ outcome = (.ok (), c) ∧ s.operate r.op = s ∨
      r.op.replacesGrid c ∧ tiles + 1 ≤ maxIndex ∧
        (∃ c', outcome = (.ok (), c') ∧ r.Replaced c c') ∨
      r.op.replacesGrid c ∧ maxIndex < tiles + 1 ∧
        outcome = (.error (if tiles ≤ maxIndex then .addOverflow else .mulOverflow), c) ∧
        s.operate r.op = s) := by
  intro c tiles outcome
  have houtcome : outcome = c.settle (r.op.apply c) := r.run_program c
  refine ⟨?_, ?_⟩
  · rw [houtcome]
    unfold CacheSession.operate
    cases r.op.apply s.cache with
    | error fault => rfl
    | ok c' => rfl
  · by_cases hnew : r.op.replacesGrid c
    · by_cases hfits : tiles + 1 ≤ maxIndex
      · have happly := apply_of_fits hnew hfits
        refine Or.inr (Or.inl ⟨hnew, hfits, r.replaced c, ?_, replaced_replaced hfits⟩)
        rw [houtcome, happly]
        rfl
      · have happly := apply_of_overflow hnew hfits
        refine Or.inr (Or.inr ⟨hnew, Nat.lt_of_not_le hfits, ?_, ?_⟩)
        · rw [houtcome, happly]
          rfl
        · unfold CacheSession.operate
          rw [happly]
    · have happly := apply_of_kept hnew
      refine Or.inl ⟨hnew, ?_, ?_⟩
      · rw [houtcome, happly]
        rfl
      · unfold CacheSession.operate
        rw [happly]
        dsimp only
        rw [if_neg hnew]

/-- With an infinite scale the tiles cannot be counted. -/
example :
    let c := CacheSession.Sample.threeTiles.cache
    let r := resizeScaled 45 15 (1 / 0)
    r.op.replacesGrid c ∧ maxIndex < (r.target c).columns * (r.target c).rows + 1 := by
  decide +kernel

end Regrid

end TilePaint
