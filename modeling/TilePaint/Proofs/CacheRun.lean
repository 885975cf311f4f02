/-
  TilePaint/Proofs/CacheRun.lean
  ==============================
  **Runs of a cache with renders in progress.**

  A paint is cut at its render, so that everything an engine does to the cache
  while it renders is a step of its own.  A `CacheSession` is a cache together
  with the engine calls that have not come back yet and the events so far, newest
  first.  Its steps are

    * the operations other than paints (`CacheOp`), which either keep the grid or
      put a new one in its place (`CacheOp.apply_cases`);
    * the start of a paint, which may call an engine;
    * the end of an engine call, with any contents of the buffer, by a return or
      by giving up.

  The one thing left out is a second paint into a slot that is being rendered
  into.  Calls may come back in any order; renders nested in one another are the
  case where the latest call comes back first.  `paint_run` says that a whole
  paint, with an engine that itself runs steps, is a run.

  The lemmas of the first two sections say what each operation, and each end of a
  paint, does to grid, slots and validity.  Everything later is derived from them.
-/
import Mathlib.Logic.Relation
import TilePaint.TileCache.Invalidate
import TilePaint.TileCache.Paint
import TilePaint.TileCache.Regrid

namespace TilePaint

/-! ## 1. What the parts of a paint do to the cache -/

namespace TileCache

variable {c c' : TileCache} {index i j : Nat}

theorem isResident_iff (hi : i < maxIndex) :
    c.isResident i = true ↔ (c.slot i).occupant = some i := by
  simp only [isResident, Slot.holds, Slot.tag, beq_iff_eq]
  constructor
  · intro h
    cases hocc : (c.slot i).occupant with
    | none =>
      rw [hocc, Option.getD_none] at h
      omega
    | some k =>
      rw [hocc, Option.getD_some] at h
      rw [h]
  · intro h
    rw [h, Option.getD_some]

theorem slot_congr (h : c.slotIndex i = c.slotIndex j) : c.slot i = c.slot j := by
  have hi := c.getElem?_slotIndex i
  have hj := c.getElem?_slotIndex j
  rw [h, hj] at hi
  exact (Option.some.inj hi).symm

theorem areaOf_congr (hedge : c'.edge = c.edge) (hgrid : c'.grid = c.grid) (index : Nat) :
    c'.areaOf index = c.areaOf index := by
  simp only [areaOf, hedge, hgrid]

theorem slot_vacate_of_ne (h : c.slotIndex index ≠ c.slotIndex j) :
    (c.vacate index).slot j = c.slot j := by
  unfold vacate
  split
  · rfl
  · exact (c.slot_modifySlot j index Slot.evict).trans (if_neg h)

/-- A slot that has been vacated keeps the tile it is vacated for or none. -/
theorem occupant_vacate (hi : index < maxIndex) (h : c.slotIndex index = c.slotIndex j) :
    ((c.vacate index).slot j).occupant =
      if c.isResident index then some index else none := by
  unfold vacate
  by_cases hres : c.isResident index = true
  · rw [if_pos hres, if_pos hres, ← slot_congr h]
    exact (isResident_iff hi).mp hres
  · rw [if_neg hres, if_neg hres]
    have hslot : (c.modifySlot index Slot.evict).slot j = (c.slot j).evict :=
      (c.slot_modifySlot j index Slot.evict).trans (if_pos h)
    exact congrArg Slot.occupant hslot

theorem occupant_vacate_cases (hi : index < maxIndex) (j : Nat) :
    ((c.vacate index).slot j).occupant = (c.slot j).occupant ∨
      ((c.vacate index).slot j).occupant = none := by
  by_cases hj : c.slotIndex index = c.slotIndex j
  · rw [occupant_vacate hi hj]
    by_cases hres : c.isResident index = true
    · rw [if_pos hres, ← slot_congr hj]
      exact Or.inl ((isResident_iff hi).mp hres).symm
    · rw [if_neg hres]
      exact Or.inr rfl
  · rw [slot_vacate_of_ne hj]
    exact Or.inl rfl

theorem slot_vacate_rest (index j : Nat) :
    ((c.vacate index).slot j).pixels = (c.slot j).pixels ∧
      ((c.vacate index).slot j).image = (c.slot j).image := by
  unfold vacate
  split
  · exact ⟨rfl, rfl⟩
  · have hslot := c.slot_modifySlot j index Slot.evict
    constructor
    · refine (congrArg Slot.pixels hslot).trans ?_
      split <;> rfl
    · refine (congrArg Slot.image hslot).trans ?_
      split <;> rfl

theorem mem_valid_vacate :
    i ∈ (c.vacate index).valid ↔
      i ∈ c.valid ∧ (c.isResident index = true ∨ (c.slot index).occupant ≠ some i) := by
  unfold vacate
  by_cases hres : c.isResident index = true
  · simp [hres]
  · rw [if_neg hres]
    cases hocc : (c.slot index).occupant with
    | none => simp [hres]
    | some other =>
      simp only [BitSet.mem_erase, ne_eq, Option.some.injEq]
      constructor
      · rintro ⟨hne, hmem⟩
        exact ⟨hmem, Or.inr fun h => hne h.symm⟩
      · rintro ⟨hmem, h | hne⟩
        · exact absurd h hres
        · exact ⟨fun h => hne h.symm, hmem⟩

theorem vacate_of_resident (h : c.isResident index = true) : c.vacate index = c := by
  rw [vacate, if_pos h]

/-- Vacating the slot of a tile does not make the tile fresh, or less fresh. -/
theorem isFresh_vacate (hi : index < maxIndex) :
    (c.vacate index).isFresh index = c.isFresh index := by
  by_cases hres : c.isResident index = true
  · rw [vacate_of_resident hres]
  · have hgone : ¬(c.vacate index).isResident index = true := by
      rw [isResident_iff hi, occupant_vacate hi rfl, if_neg hres]
      exact nofun
    rw [isFresh, isFresh, Bool.eq_false_iff.mpr hres, Bool.eq_false_iff.mpr hgone,
      Bool.and_false, Bool.and_false]

theorem vacate_rest (c : TileCache) (index : Nat) :
    (c.vacate index).grid = c.grid ∧ (c.vacate index).edge = c.edge ∧
      (c.vacate index).context = c.context ∧ (c.vacate index).valid.size = c.valid.size ∧
      (c.vacate index).slots.size = c.slots.size := by
  unfold vacate
  split
  · exact ⟨rfl, rfl, rfl, rfl, rfl⟩
  · refine ⟨rfl, rfl, rfl, ?_, c.size_slots_modifySlot index Slot.evict⟩
    cases (c.slot index).occupant <;> rfl

/-- What the start of a paint can do.  A tile that is fresh after its slot was
    vacated was fresh before, so a paint that is skipped changes nothing, unless it was
    cancelled in between. -/
theorem start_cases {cancelled late : Bool} {context : Context}
    {outcome : Except Fault Admission} (hfits : c.tileCount < maxIndex)
    (h : c.start cancelled index context late = (c', outcome)) :
    (c' = c ∧ outcome = .ok .skip) ∨
      (index < c.tileCount ∧ cancelled = false ∧ c.context = context ∧
        c.isFresh index = false ∧
        ((late = true ∧ c' = c.vacate index ∧ outcome = .ok .skip) ∨
          (late = false ∧ ∃ fault, c.areaOf index = .error fault ∧ c' = c.vacate index ∧
            outcome = .error fault) ∨
          late = false ∧
            ∃ area, c.areaOf index = .ok area ∧ c' = (c.vacate index).clearBuffer index ∧
            outcome = .ok (.render {
              index, context, area
              generation := c.grid.generation
              edge := c.edge
              pixels := Array.replicate (c.slot index).pixels.size Pixel.clear }))) := by
  obtain ⟨hgrid, hedge, -, -, -⟩ := vacate_rest c index
  unfold start at h
  split at h
  · cases h
    exact Or.inl ⟨rfl, rfl⟩
  · next hgo =>
    simp only [ne_eq, Bool.or_eq_true, decide_eq_true_eq, not_or, Bool.not_eq_true,
      Decidable.not_not, Nat.not_le] at hgo
    obtain ⟨⟨hcancel, hcontext⟩, hin⟩ := hgo
    have hsmall : index < maxIndex := Nat.lt_trans hin hfits
    have harea := areaOf_congr hedge hgrid index
    -- a tile whose slot is vacated is as fresh afterwards as before
    have hsame : (c.vacate index).isFresh index = c.isFresh index := isFresh_vacate hsmall
    dsimp only at h
    split at h
    · next hskip =>
      cases h
      by_cases hfresh : c.isFresh index = true
      · exact Or.inl ⟨vacate_of_resident (Bool.and_eq_true_iff.mp hfresh).2, rfl⟩
      · rw [hsame, Bool.eq_false_iff.mpr hfresh, Bool.or_false] at hskip
        exact Or.inr ⟨hin, hcancel, hcontext, Bool.eq_false_iff.mpr hfresh,
          Or.inl ⟨hskip, rfl, rfl⟩⟩
    · next hgo =>
      rw [hsame, Bool.not_eq_true, Bool.or_eq_false_iff] at hgo
      refine Or.inr ⟨hin, hcancel, hcontext, hgo.2, Or.inr ?_⟩
      rw [harea] at h
      split at h
      · next fault hfault =>
        cases h
        exact Or.inl ⟨hgo.1, fault, hfault, rfl, rfl⟩
      · next area hok =>
        cases h
        refine Or.inr ⟨hgo.1, area, hok, rfl, ?_⟩
        have hslot := (c.vacate index).slot_modifySlot index index fun s =>
          { s with pixels := Array.replicate s.pixels.size Pixel.clear }
        rw [if_pos rfl] at hslot
        have hpixels := congrArg Slot.pixels hslot
        dsimp only at hpixels
        rw [(slot_vacate_rest index index).1] at hpixels
        have hgen : ((c.vacate index).clearBuffer index).grid.generation =
            c.grid.generation := congrArg Grid.generation hgrid
        simp only [clearBuffer] at hgen ⊢
        rw [hpixels, hgen]
        simp only [modifySlot, hedge]

theorem slot_install (c : TileCache) (index : Nat) (img : Image) (j : Nat) :
    (c.install index img).slot j =
      if c.slotIndex index = c.slotIndex j then
        { c.slot j with occupant := some index, image := some (index, img) }
      else c.slot j :=
  c.slot_modifySlot j index fun s =>
    { s with occupant := some index, image := some (index, img) }

theorem mem_valid_install {img : Image} (h : index < c.valid.size) :
    i ∈ (c.install index img).valid ↔ i = index ∨ i ∈ c.valid := by
  simp only [install, dif_pos h, BitSet.mem_insert]

theorem size_valid_install (c : TileCache) (index : Nat) (img : Image) :
    (c.install index img).valid.size = c.valid.size := by
  unfold install
  dsimp only
  split <;> rfl

/-- What the end of a completed render does, for a buffer of the right size. -/
theorem publish_cases {t : Ticket} {pixels : Array Pixel}
    (hsize : pixels.size = c.edge * c.edge) :
    ∃ img : Image, img.width = c.edge ∧ img.height = c.edge ∧ img.pixels = pixels ∧
      c.publish t pixels =
        if c.InForce t then ((c.abandon t pixels).install t.index img, true)
        else (c.abandon t pixels, false) := by
  refine ⟨⟨c.edge, c.edge, pixels, hsize⟩, rfl, rfl, rfl, ?_⟩
  have himage : Image.ofPixels? c.edge c.edge pixels = some ⟨c.edge, c.edge, pixels, hsize⟩ :=
    dif_pos hsize
  simp only [publish]
  rw [show (c.abandon t pixels).edge = c.edge from rfl, himage]
  rfl

/-! ## 2. Operations other than paints

An operation either at most resets validity bits, or it replaces the grid. -/

/-- Grid and slots are the same, and no validity bit was set. -/
structure Trimmed (c c' : TileCache) : Prop where
  edge : c'.edge = c.edge
  grid : c'.grid = c.grid
  slots : c'.slots = c.slots
  valid : ∀ i, i ∈ c'.valid → i ∈ c.valid
  size : c'.valid.size = c.valid.size

/-- There is a new grid with no valid tile, and every slot was emptied. -/
structure Regridded (c c' : TileCache) : Prop where
  edge : c'.edge = c.edge
  generation : c'.grid.generation = c.grid.generation + 1
  fits : c'.tileCount < maxIndex
  slots : c'.slots = c.slots.map Slot.evict
  valid : c'.valid = BitSet.ofSize (c'.tileCount + 1)

theorem Trimmed.refl (c : TileCache) : Trimmed c c := ⟨rfl, rfl, rfl, fun _ h => h, rfl⟩

theorem Regridded.slot (h : Regridded c c') (j : Nat) : c'.slot j = (c.slot j).evict := by
  have hsize : c'.slots.size = c.slots.size := by rw [h.slots, Array.size_map]
  have hthere := c'.getElem?_slotIndex j
  rw [slotIndex, hsize, h.slots, Array.getElem?_map, ← slotIndex, c.getElem?_slotIndex] at hthere
  exact (Option.some.inj hthere).symm

theorem Trimmed.slot (h : Trimmed c c') (j : Nat) : c'.slot j = c.slot j := by
  have hthere := c'.getElem?_slotIndex j
  rw [slotIndex, h.slots, ← slotIndex, c.getElem?_slotIndex] at hthere
  exact (Option.some.inj hthere).symm

theorem rebuild_regridded {width height : Int} {scale : Float32}
    (h : c.rebuild width height scale = .ok c') : Regridded c c' := by
  unfold rebuild at h
  obtain ⟨tiles, htiles, h⟩ := bind_eq_ok_iff.mp h
  obtain ⟨bits, hbits, h⟩ := bind_eq_ok_iff.mp h
  obtain ⟨rfl, -⟩ := mulWithin_eq_ok_iff.mp htiles
  obtain ⟨rfl, hle⟩ := addWithin_eq_ok_iff.mp hbits
  cases h
  exact ⟨rfl, rfl, hle, rfl, rfl⟩

theorem invalidate_trimmed (h : c.invalidate index = .ok c') : Trimmed c c' := by
  unfold invalidate BitSet.reset at h
  split at h
  · cases h
    exact ⟨rfl, rfl, rfl, fun i hi => (BitSet.mem_erase.mp hi).2, rfl⟩
  · cases h

theorem invalidateAt_trimmed {column row : Nat} (h : c.invalidateAt column row = .ok c') :
    Trimmed c c' := by
  unfold invalidateAt at h
  split at h
  · exact invalidate_trimmed h
  · cases h

theorem invalidateFound_trimmed {range found : Option TileRange}
    (h : c.invalidateFound range = .ok (found, c')) : Trimmed c c' := by
  cases range with
  | none =>
    cases h
    exact Trimmed.refl c
  | some r =>
    simp only [invalidateFound, invalidateRange, BitSet.resetRange] at h
    split at h
    · cases h
    · next hle =>
      split at h
      · cases h
      · cases h
        have hfirst : r.first ≤ r.last := Nat.le_of_not_lt hle
        exact ⟨rfl, rfl, rfl, fun i hi => (BitSet.mem_eraseRange (h := hfirst).mp hi).2, rfl⟩

theorem invalidateAll_trimmed (c : TileCache) : Trimmed c c.invalidateAll :=
  ⟨rfl, rfl, rfl, fun _ hi => absurd hi BitSet.not_mem_clear, rfl⟩

end TileCache

inductive CacheOp where
  | resize (widthTwips heightTwips : Int)
  | resizeScaled (widthTwips heightTwips : Int) (scale : Float32)
  | rescale (scale : Float32)
  | invalidate (index : Nat)
  | invalidateAt (column row : Nat)
  | invalidateIn (rect : Rect)
  | invalidateInTwips (rect : TwipRect)
  | invalidateAll
  | setContext (context : Context)
  | setScroll (scrollY : Float32)

namespace CacheOp

variable {c c' : TileCache} {op : CacheOp}

def apply (c : TileCache) : CacheOp → Except Fault TileCache
  | .resize width height => c.resize width height
  | .resizeScaled width height scale => c.resizeScaled width height scale
  | .rescale scale => c.rescale scale
  | .invalidate index => c.invalidate index
  | .invalidateAt column row => c.invalidateAt column row
  | .invalidateIn rect => (c.invalidateIn rect).map Prod.snd
  | .invalidateInTwips rect => (c.invalidateInTwips rect).map Prod.snd
  | .invalidateAll => .ok c.invalidateAll
  | .setContext context => .ok (c.setContext context)
  | .setScroll scrollY => .ok (c.setScroll scrollY)

/-- The operations that put a new grid in the place of the old one, if nothing
    overflows: a new size, a scale that is not close to the old one, and, for
    `rescale`, a scale that is far from it. -/
def replacesGrid (c : TileCache) : CacheOp → Prop
  | .resize width height => c.grid.widthTwips ≠ width ∨ c.grid.heightTwips ≠ height
  | .resizeScaled width height scale =>
      scalesClose c.grid.scale scale = false ∨
        c.grid.widthTwips ≠ width ∨ c.grid.heightTwips ≠ height
  | .rescale scale => scalesFar scale c.grid.scale = true
  | _ => False

instance (c : TileCache) : DecidablePred (replacesGrid c)
  | .resize _ _ => inferInstanceAs (Decidable (_ ∨ _))
  | .resizeScaled _ _ _ => inferInstanceAs (Decidable (_ ∨ _))
  | .rescale _ => inferInstanceAs (Decidable (_ = _))
  | .invalidate _ | .invalidateAt _ _ | .invalidateIn _ | .invalidateInTwips _
  | .invalidateAll | .setContext _ | .setScroll _ => inferInstanceAs (Decidable False)

theorem resize_cases {width height : Int} (h : c.resize width height = .ok c') :
    (¬(c.grid.widthTwips ≠ width ∨ c.grid.heightTwips ≠ height) ∧ TileCache.Trimmed c c') ∨
      ((c.grid.widthTwips ≠ width ∨ c.grid.heightTwips ≠ height) ∧
        TileCache.Regridded c c') := by
  unfold TileCache.resize at h
  split at h
  · next hsame =>
    cases h
    exact Or.inl ⟨by omega, TileCache.Trimmed.refl c⟩
  · next hnew => exact Or.inr ⟨by omega, TileCache.rebuild_regridded h⟩

/-- **What an operation does**, by whether it replaces the grid. -/
theorem apply_cases (h : op.apply c = .ok c') :
    (¬op.replacesGrid c ∧ TileCache.Trimmed c c') ∨
      (op.replacesGrid c ∧ TileCache.Regridded c c') := by
  cases op with
  | resize width height => exact resize_cases h
  | resizeScaled width height scale =>
    simp only [apply, TileCache.resizeScaled] at h
    split at h
    · next hclose =>
      rcases resize_cases h with ⟨hsame, htrim⟩ | ⟨hnew, hgrid⟩
      · refine Or.inl ⟨?_, htrim⟩
        -- the scale stays, so only the size could replace the grid
        rintro (hfar | hnew)
        · rw [hclose] at hfar
          cases hfar
        · exact hsame hnew
      · exact Or.inr ⟨Or.inr hnew, hgrid⟩
    · next hfar =>
      exact Or.inr ⟨Or.inl (Bool.eq_false_iff.mpr hfar), TileCache.rebuild_regridded h⟩
  | rescale scale =>
    simp only [apply, TileCache.rescale] at h
    split at h
    · next hfar =>
      obtain ⟨cache, hcache, h⟩ := bind_eq_ok_iff.mp h
      cases h
      -- the context that is set afterwards is no part of the grid
      obtain ⟨hedge, hgen, hfits, hslots, hvalid⟩ := TileCache.rebuild_regridded hcache
      exact Or.inr ⟨hfar, hedge, hgen, hfits, hslots, hvalid⟩
    · next hnear =>
      cases h
      exact Or.inl ⟨hnear, TileCache.Trimmed.refl c⟩
  | invalidate index => exact Or.inl ⟨id, TileCache.invalidate_trimmed h⟩
  | invalidateAt column row => exact Or.inl ⟨id, TileCache.invalidateAt_trimmed h⟩
  | invalidateIn rect =>
    cases hfound : c.invalidateIn rect with
    | error fault =>
      rw [apply, hfound] at h
      cases h
    | ok found =>
      rw [apply, hfound] at h
      cases h
      exact Or.inl ⟨id, TileCache.invalidateFound_trimmed hfound⟩
  | invalidateInTwips rect =>
    cases hfound : c.invalidateInTwips rect with
    | error fault =>
      rw [apply, hfound] at h
      cases h
    | ok found =>
      rw [apply, hfound] at h
      cases h
      exact Or.inl ⟨id, TileCache.invalidateFound_trimmed hfound⟩
  | invalidateAll =>
    cases h
    exact Or.inl ⟨id, TileCache.invalidateAll_trimmed c⟩
  | setContext context =>
    cases h
    exact Or.inl ⟨id, rfl, rfl, rfl, fun _ hi => hi, rfl⟩
  | setScroll scrollY =>
    cases h
    exact Or.inl ⟨id, rfl, rfl, rfl, fun _ hi => hi, rfl⟩

end CacheOp

/-! ## 3. Sessions

A call is numbered by the length of the history at its start, so no two calls of
a session have the same number. -/

deriving instance DecidableEq for Ticket

structure RenderCall where
  number : Nat
  ticket : Ticket
deriving DecidableEq

inductive CacheEvent where
  | regridded
  | called (call : RenderCall)
  /-- An engine came back, and what it left in the buffer was published. -/
  | published (call : RenderCall) (pixels : Array Pixel)
  /-- An engine came back, and its work was thrown away. -/
  | discarded (call : RenderCall) (pixels : Array Pixel)
  /-- An engine gave up. -/
  | raised (call : RenderCall) (pixels : Array Pixel) (fault : Fault)

structure CacheSession where
  cache : TileCache
  /-- The engine calls that have not come back. -/
  rendering : List RenderCall
  /-- The events so far, newest first. -/
  history : List CacheEvent

namespace CacheSession

def ofCache (cache : TileCache) : CacheSession := ⟨cache, [], []⟩

/-- An operation that ends with a fault changes nothing. -/
def operate (s : CacheSession) (op : CacheOp) : CacheSession :=
  match op.apply s.cache with
  | .error _ => s
  | .ok cache =>
      { s with
        cache
        history := if op.replacesGrid s.cache then .regridded :: s.history else s.history }

def start (s : CacheSession) (cancelled : Bool) (index : Nat) (context : Context)
    (late : Bool := cancelled) : CacheSession :=
  match s.cache.start cancelled index context late with
  | (cache, .ok (.render ticket)) =>
      let call : RenderCall := ⟨s.history.length, ticket⟩
      { cache, rendering := call :: s.rendering, history := .called call :: s.history }
  | (cache, _) => { s with cache }

/-- The calls in progress but one. -/
def without (s : CacheSession) (call : RenderCall) : List RenderCall :=
  s.rendering.filter fun other => other.number ≠ call.number

def finish (s : CacheSession) (call : RenderCall) (pixels : Array Pixel) :
    Option Fault → CacheSession
  | some fault =>
      { cache := s.cache.abandon call.ticket pixels
        rendering := s.without call
        history := .raised call pixels fault :: s.history }
  | none =>
      let (cache, published) := s.cache.publish call.ticket pixels
      { cache
        rendering := s.without call
        history :=
          (if published then .published call pixels else .discarded call pixels) :: s.history }

/-- Nobody renders into the slot for a tile. -/
def Free (s : CacheSession) (index : Nat) : Prop :=
  ∀ call ∈ s.rendering, s.cache.slotIndex call.ticket.index ≠ s.cache.slotIndex index

instance (s : CacheSession) (index : Nat) : Decidable (s.Free index) :=
  inferInstanceAs (Decidable (∀ _ ∈ _, _))

inductive Step : CacheSession → CacheSession → Prop
  | operate (s : CacheSession) (op : CacheOp) : Step s (s.operate op)
  /-- The flag of the work may be set between the two looks at it. -/
  | start (s : CacheSession) (cancelled late : Bool) (index : Nat) (context : Context) :
      s.Free index → Step s (s.start cancelled index context late)
  /-- An engine may leave anything in the buffer, but it cannot change its size. -/
  | finish (s : CacheSession) (call : RenderCall) (pixels : Array Pixel)
      (fault : Option Fault) :
      call ∈ s.rendering → pixels.size = call.ticket.pixels.size →
        Step s (s.finish call pixels fault)

abbrev Run : CacheSession → CacheSession → Prop := Relation.ReflTransGen Step

/-- The sessions that some run reaches from a new cache. -/
def Reachable (s : CacheSession) : Prop :=
  ∃ config cache, TileCache.ofConfig config = .ok cache ∧ Run (ofCache cache) s

theorem Reachable.invariant {P : CacheSession → Prop}
    (hnew : ∀ config cache, TileCache.ofConfig config = .ok cache → P (ofCache cache))
    (hstep : ∀ s s', P s → Step s s' → P s') {s : CacheSession} (h : s.Reachable) : P s := by
  obtain ⟨config, cache, hcache, hrun⟩ := h
  induction hrun with
  | refl => exact hnew config cache hcache
  | tail _ hlast ih => exact hstep _ _ ih hlast

/-- A whole paint is a run, for an engine that itself runs steps and leaves its
    own call in progress. -/
theorem paint_run {s : CacheSession} {cancelled late : Bool} {index : Nat} {context : Context}
    {engine : (t : Ticket) → TileCache → TileCache.Rendering t} (hfree : s.Free index)
    (hengine : ∀ t cache, s.cache.start cancelled index context late = (cache, .ok (.render t)) →
      ∃ s', Run (s.start cancelled index context late) s' ∧ s'.cache = (engine t cache).cache ∧
        (⟨s.history.length, t⟩ : RenderCall) ∈ s'.rendering) :
    ∃ s', Run s s' ∧ s'.cache = (s.cache.paint cancelled index context engine late).1 := by
  have hstep := Step.start s cancelled late index context hfree
  rcases hstart : s.cache.start cancelled index context late with ⟨cache, outcome⟩
  rcases outcome with fault | admission
  · refine ⟨_, .single hstep, ?_⟩
    simp only [start, TileCache.paint, hstart]
  · cases admission with
    | skip =>
      refine ⟨_, .single hstep, ?_⟩
      simp only [start, TileCache.paint, hstart]
    | render t =>
      obtain ⟨s', hrun, hcache, hcall⟩ := hengine t cache hstart
      have hend := Step.finish s' ⟨s.history.length, t⟩ (engine t cache).pixels
        (engine t cache).fault hcall (engine t cache).size_pixels
      refine ⟨_, (Relation.ReflTransGen.head hstep hrun).tail hend, ?_⟩
      simp only [TileCache.paint, hstart]
      cases (engine t cache).fault with
      | some fault => simp only [finish, hcache]
      | none => simp only [finish, hcache]

/-! ## 4. A small session

Three tiles of one pixel share two slots.  Tile 0 is painted; then tile 2 takes its
slot, and the engine makes tile 1 stale while it renders. -/

namespace Sample

def twoSlots : TileCache where
  edge := 1
  slots := Array.replicate 2 (Slot.empty 1)
  grid := Grid.initial
  valid := BitSet.ofSize 1
  context := Context.none
  scrollY := 0
  edge_pos := by decide
  slots_pos := by decide

def threeTiles : CacheSession := (ofCache twoSlots).operate (.resize 45 15)

def callOf (number index : Nat) (x : Int) : RenderCall where
  number
  ticket :=
    { index, generation := 1, context := Context.none, area := ⟨x, 0, 15, 15⟩, edge := 1
      pixels := #[Pixel.clear] }

def first : CacheSession :=
  (threeTiles.start false 0 Context.none).finish (callOf 1 0 0) #[⟨1⟩] none

def second : CacheSession :=
  ((first.start false 2 Context.none).operate (.invalidate 1)).finish (callOf 3 2 30) #[⟨2⟩] none

theorem reachable_first : first.Reachable := by
  refine ⟨{ edge := 1, budget := 12 }, twoSlots, rfl, ?_⟩
  have hgrid : Run (ofCache twoSlots) threeTiles := .single (Step.operate _ _)
  have hstart := hgrid.tail (Step.start _ false false 0 Context.none (by decide +kernel))
  exact hstart.tail (Step.finish _ (callOf 1 0 0) _ _ (by decide +kernel) rfl)

theorem reachable_second : second.Reachable := by
  obtain ⟨config, cache, hcache, hrun⟩ := reachable_first
  have hstart := hrun.tail (Step.start _ false false 2 Context.none (by decide +kernel))
  have hstale := hstart.tail (Step.operate _ (.invalidate 1))
  exact ⟨config, cache, hcache,
    hstale.tail (Step.finish _ (callOf 3 2 30) _ _ (by decide +kernel) rfl)⟩

end Sample

end CacheSession

end TilePaint
