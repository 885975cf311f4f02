/-
  TilePaint/Proofs/PixelProvenance.lean
  =====================================
  **Where the pixels of a tile come from.**

  The buffer of a slot outlives the tiles that are rendered into it: it is used
  for the next tile, it survives a new grid, and a render that gave up or was
  thrown away leaves its bytes behind.  None of that shows.  The image of a
  resident tile is what one engine call left in a buffer that was handed to it
  cleared, for the part of the document that the tile shows under the grid of now
  (`Shows`).

  `Origin` is this statement for one tile, with the history cut at the two events
  that matter: the call and its publication.  It is stable under every event but a
  new grid, which leaves no tile resident, and a publication of the same tile,
  which starts it anew.  For a call in progress the history is cut at the call
  (`Pending`), so that its publication finds the first half of an `Origin` ready.
-/
import TilePaint.Proofs.CacheInvariant

namespace TilePaint.CacheSession

open TileCache

variable {s s' : CacheSession}

/-! ## 1. The last published render of a tile -/

/-- The pixels that an event publishes for a tile. -/
def pixelsOf (index : Nat) : CacheEvent → Option (Array Pixel)
  | .published call pixels => if call.ticket.index = index then some pixels else none
  | _ => none

/-- The pixels of the last published render of a tile. -/
def lastPublished (s : CacheSession) (index : Nat) : Option (Array Pixel) :=
  s.history.findSome? (pixelsOf index)

theorem lastPublished_eq {history later earlier : List CacheEvent} {call : RenderCall}
    {pixels : Array Pixel} {index : Nat}
    (hhistory : history = later ++ .published call pixels :: earlier)
    (hlater : ∀ event ∈ later, pixelsOf index event = none)
    (hindex : call.ticket.index = index) :
    history.findSome? (pixelsOf index) = some pixels := by
  have hnone : later.findSome? (pixelsOf index) = none := List.findSome?_eq_none_iff.mpr hlater
  rw [hhistory, List.findSome?_append, hnone, List.findSome?_cons, pixelsOf, if_pos hindex]
  rfl

/-! ## 2. The invariant -/

/-- The part of the document that tile `index` of a grid shows, in twips: a square as
    wide as a tile, with its corner as many tiles to the right and below as the tile has
    to its left and above it. -/
structure Shows (g : Grid) (edge index : Nat) (area : TwipRect) : Prop where
  x : area.x = roundLong (pixelsToTwips (Float32.ofNat (edge * (index % g.columns))) g.scale)
  y : area.y = roundLong (pixelsToTwips (Float32.ofNat (edge * (index / g.columns))) g.scale)
  width : area.width = roundLong (pixelsToTwips (Float32.ofNat edge) g.scale)
  height : area.height = roundLong (pixelsToTwips (Float32.ofNat edge) g.scale)

theorem shows_of_areaOf {c : TileCache} {index : Nat} {area : TwipRect}
    (h : c.areaOf index = .ok area) : Shows c.grid c.edge index area := by
  unfold areaOf at h
  obtain ⟨x, hx, h⟩ := bind_eq_ok_iff.mp h
  obtain ⟨y, hy, h⟩ := bind_eq_ok_iff.mp h
  obtain ⟨rfl, -⟩ := mulWithin_eq_ok_iff.mp hx
  obtain ⟨rfl, -⟩ := mulWithin_eq_ok_iff.mp hy
  cases h
  exact ⟨rfl, rfl, rfl, rfl⟩

/-- The history since the start of a call: no new grid, if the grid of the call is
    the one of now. -/
def Pending (c : TileCache) (history : List CacheEvent) (call : RenderCall) : Prop :=
  ∃ during before, history = during ++ .called call :: before ∧
    before.length = call.number ∧
    (call.ticket.generation = c.grid.generation → CacheEvent.regridded ∉ during)

/-- The image that a slot keeps of a tile is the buffer that a call left. -/
def Origin (c : TileCache) (history : List CacheEvent) (index : Nat)
    (image : Option (Nat × Image)) : Prop :=
  ∃ call pixels img later during before,
    history = later ++ .published call pixels :: (during ++ .called call :: before) ∧
    before.length = call.number ∧
    CacheEvent.regridded ∉ later ++ during ∧
    (∀ event ∈ later, pixelsOf index event = none) ∧
    call.ticket.index = index ∧
    call.ticket.edge = c.edge ∧
    call.ticket.pixels = Array.replicate (c.edge * c.edge) Pixel.clear ∧
    Shows c.grid c.edge index call.ticket.area ∧
    image = some (index, img) ∧
    img.width = c.edge ∧ img.height = c.edge ∧ img.pixels = pixels

structure Recorded (s : CacheSession) : Prop where
  calls : ∀ call ∈ s.rendering, Pending s.cache s.history call
  images : ∀ j i, (s.cache.slot j).occupant = some i →
    Origin s.cache s.history i (s.cache.slot j).image

theorem Pending.keep {c c' : TileCache} {history : List CacheEvent} {call : RenderCall}
    (h : Pending c history call) (hgrid : c'.grid = c.grid) : Pending c' history call := by
  obtain ⟨during, before, hhistory, hnumber, hsame⟩ := h
  refine ⟨during, before, hhistory, hnumber, ?_⟩
  rw [hgrid]
  exact hsame

theorem Pending.push {c : TileCache} {history : List CacheEvent} {call : RenderCall}
    (h : Pending c history call) {event : CacheEvent} (hevent : event ≠ .regridded) :
    Pending c (event :: history) call := by
  obtain ⟨during, before, rfl, hnumber, hsame⟩ := h
  refine ⟨event :: during, before, rfl, hnumber, ?_⟩
  intro hgen hmem
  rcases List.mem_cons.mp hmem with heq | hmem
  · exact hevent heq.symm
  · exact hsame hgen hmem

theorem Origin.keep {c c' : TileCache} {history : List CacheEvent} {index : Nat}
    {image : Option (Nat × Image)} (h : Origin c history index image)
    (hedge : c'.edge = c.edge) (hgrid : c'.grid = c.grid) : Origin c' history index image := by
  unfold Origin
  rw [hgrid, hedge]
  exact h

theorem Origin.push {c : TileCache} {history : List CacheEvent} {index : Nat}
    {image : Option (Nat × Image)} (h : Origin c history index image) {event : CacheEvent}
    (hevent : event ≠ .regridded) (hother : pixelsOf index event = none) :
    Origin c (event :: history) index image := by
  obtain ⟨call, pixels, img, later, during, before, rfl, hnumber, hgrid, hlater, hrest⟩ := h
  refine ⟨call, pixels, img, event :: later, during, before, rfl, hnumber, ?_, ?_, hrest⟩
  · intro hmem
    rcases List.mem_cons.mp hmem with heq | hmem
    · exact hevent heq.symm
    · exact hgrid hmem
  · intro other hmem
    rcases List.mem_cons.mp hmem with rfl | hmem
    · exact hother
    · exact hlater other hmem

/-- The publication of a call in progress, whose ticket is in force. -/
theorem Pending.publish {c : TileCache} {history : List CacheEvent} {call : RenderCall}
    (h : Pending c history call) (hadm : c.Admitted call.ticket)
    (hgen : call.ticket.generation = c.grid.generation) (img : Image)
    (hwidth : img.width = c.edge) (hheight : img.height = c.edge) :
    Origin c (.published call img.pixels :: history) call.ticket.index
      (some (call.ticket.index, img)) := by
  obtain ⟨during, before, rfl, hnumber, hsame⟩ := h
  obtain ⟨-, harea⟩ := hadm.current hgen
  exact ⟨call, img.pixels, img, [], during, before, rfl, hnumber, hsame hgen,
    fun _ hmem => absurd hmem List.not_mem_nil, rfl, hadm.edge, hadm.buffer,
    shows_of_areaOf harea, rfl, hwidth, hheight, rfl⟩

/-! ## 3. Every step keeps the invariant -/

theorem Recorded.operate (hsound : s.Sound) (h : s.Recorded) (op : CacheOp) :
    (s.operate op).Recorded := by
  unfold CacheSession.operate
  split
  · exact h
  · next cache happly =>
    rcases CacheOp.apply_cases happly with ⟨hkeep, htrim⟩ | ⟨hnew, hgrid⟩
    · rw [if_neg hkeep]
      refine ⟨?_, ?_⟩
      · intro call hcall
        exact (h.calls call hcall).keep htrim.grid
      · intro j i hocc
        simp only [htrim.slot] at hocc ⊢
        exact (h.images j i hocc).keep htrim.edge htrim.grid
    · rw [if_pos hnew]
      refine ⟨?_, ?_⟩
      · intro call hcall
        obtain ⟨during, before, hhistory, hnumber, -⟩ := h.calls call hcall
        refine ⟨.regridded :: during, before, ?_, hnumber, ?_⟩
        · simp only [hhistory, List.cons_append]
        · intro hgen
          -- the ticket is older than the new grid
          have hold := (hsound.calls call hcall).generation
          have hlater := hgrid.generation
          simp only at hgen
          omega
      · intro j i hocc
        simp only [hgrid.slot] at hocc
        cases hocc

theorem Recorded.start (hsound : s.Sound) (h : s.Recorded) {cancelled late : Bool}
    {index : Nat} {context : Context} : (s.start cancelled index context late).Recorded := by
  obtain ⟨hgrid, hedge, -, -, -⟩ := vacate_rest s.cache index
  have hcalls : ∀ call ∈ s.rendering, Pending (s.cache.vacate index) s.history call := by
    intro call hcall
    exact (h.calls call hcall).keep hgrid
  -- the vacated slot has lost its tile; the others keep theirs, with their calls
  have himages : index < s.cache.tileCount → ∀ j i,
      ((s.cache.vacate index).slot j).occupant = some i →
        Origin (s.cache.vacate index) s.history i ((s.cache.vacate index).slot j).image := by
    intro hin j i hocc
    rw [(slot_vacate_rest index j).2]
    rcases occupant_vacate_cases (Nat.lt_trans hin hsound.cache.fits) j with hsame | hnone
    · rw [hsame] at hocc
      exact (h.images j i hocc).keep hedge hgrid
    · rw [hnone] at hocc
      cases hocc
  have hcalled : ∀ call, CacheEvent.called call ≠ .regridded := by
    intro call h
    cases h
  rcases hstart : s.cache.start cancelled index context late with ⟨cache, outcome⟩
  rcases start_cases hsound.cache.fits hstart with
    ⟨rfl, rfl⟩ | ⟨hin, -, -, -, ⟨-, rfl, rfl⟩ | ⟨-, fault, -, rfl, rfl⟩ | ⟨-, area, -, rfl, rfl⟩⟩
  · simp only [CacheSession.start, hstart]
    exact h
  · simp only [CacheSession.start, hstart]
    exact ⟨hcalls, himages hin⟩
  · simp only [CacheSession.start, hstart]
    exact ⟨hcalls, himages hin⟩
  · simp only [CacheSession.start, hstart]
    refine ⟨?_, ?_⟩
    · intro call hcall
      rcases List.mem_cons.mp hcall with rfl | hcall
      · -- the call is the latest entry, so the grid has not been replaced since
        exact ⟨[], s.history, rfl, rfl, fun _ => List.not_mem_nil⟩
      · exact ((hcalls call hcall).keep rfl).push (hcalled _)
    · intro j i hocc
      have hslot := slot_refill (s.cache.vacate index) index
        (fun slot => Array.replicate slot.pixels.size Pixel.clear) j
      simp only [clearBuffer, hslot] at hocc ⊢
      exact ((himages hin j i hocc).keep rfl rfl).push (hcalled _) rfl

theorem Recorded.finish (hsound : s.Sound) (h : s.Recorded) {call : RenderCall}
    {pixels : Array Pixel} {fault : Option Fault} (hcall : call ∈ s.rendering)
    (hsize : pixels.size = call.ticket.pixels.size) :
    (s.finish call pixels fault).Recorded := by
  have hadm := hsound.calls call hcall
  have hfull : pixels.size = s.cache.edge * s.cache.edge := by
    rw [hsize, hadm.buffer, Array.size_replicate]
  have hcalls : ∀ event, event ≠ CacheEvent.regridded → ∀ other ∈ s.without call,
      Pending (s.cache.abandon call.ticket pixels) (event :: s.history) other := by
    intro event hevent other hother
    exact ((h.calls other (hsound.without hcall hother).1).keep rfl).push hevent
  -- the buffer alone changed, so what the slots keep is what they kept before
  have himages : ∀ event, event ≠ CacheEvent.regridded → ∀ j i, pixelsOf i event = none →
      ((s.cache.abandon call.ticket pixels).slot j).occupant = some i →
        Origin (s.cache.abandon call.ticket pixels) (event :: s.history) i
          ((s.cache.abandon call.ticket pixels).slot j).image := by
    intro event hevent j i hother hocc
    have hslot : (s.cache.abandon call.ticket pixels).slot j = { s.cache.slot j with
        pixels := if s.cache.slotIndex call.ticket.index = s.cache.slotIndex j then pixels
          else (s.cache.slot j).pixels } :=
      slot_refill s.cache call.ticket.index (fun _ => pixels) j
    rw [hslot] at hocc ⊢
    exact ((h.images j i hocc).keep rfl rfl).push hevent hother
  cases fault with
  | some fault =>
    have hraised : CacheEvent.raised call pixels fault ≠ .regridded := by
      intro h
      cases h
    exact ⟨hcalls _ hraised, fun j i => himages _ hraised j i rfl⟩
  | none =>
    obtain ⟨img, hwidth, hheight, rfl, hpublish⟩ := publish_cases (t := call.ticket) hfull
    simp only [CacheSession.finish, hpublish]
    split
    · next hforce =>
      have hpublished : CacheEvent.published call img.pixels ≠ .regridded := by
        intro h
        cases h
      refine ⟨?_, ?_⟩
      · intro other hother
        exact hcalls _ hpublished other hother
      · intro j i hocc
        simp only [slot_install] at hocc ⊢
        split at hocc
        · next hj =>
          cases hocc
          rw [if_pos hj]
          exact ((h.calls call hcall).publish hadm hforce.1.symm img hwidth hheight).keep rfl rfl
        · next hj =>
          rw [if_neg hj]
          refine (himages _ hpublished j i ?_ hocc).keep rfl rfl
          -- a tile kept by another slot is another tile
          refine if_neg ?_
          rintro rfl
          have habandon := hsound.cache.abandon call.ticket hfull
          exact hj (habandon.occupant j _ hocc).2
    · have hdiscarded : CacheEvent.discarded call img.pixels ≠ .regridded := by
        intro h
        cases h
      exact ⟨hcalls _ hdiscarded, fun j i => himages _ hdiscarded j i rfl⟩

theorem recorded_of_reachable (h : s.Reachable) : s.Sound ∧ s.Recorded := by
  refine Reachable.invariant (P := fun s => s.Sound ∧ s.Recorded) ?_ ?_ h
  · intro config cache hcache
    refine ⟨sound_of_reachable ⟨config, cache, hcache, .refl⟩, ?_, ?_⟩
    · intro call hcall
      cases hcall
    · intro j i hocc
      simp only [ofCache, (ofConfig_cases hcache).2.2] at hocc
      cases hocc
  · rintro s s' ⟨hsound, h⟩ hstep
    refine ⟨hsound.step hstep, ?_⟩
    cases hstep with
    | operate op => exact h.operate hsound op
    | start cancelled late index context hfree => exact h.start hsound
    | finish call pixels fault hcall hsize => exact h.finish hsound hcall hsize

/-! ## 4. Images of resident tiles -/

theorem origin_of_resident (h : s.Reachable) {i : Nat} (hin : i < s.cache.tileCount)
    (hres : s.cache.isResident i = true) :
    ∃ img, s.cache.image? i = some img ∧ Origin s.cache s.history i (some (i, img)) := by
  obtain ⟨hsound, hrec⟩ := recorded_of_reachable h
  have hocc := (isResident_iff (Nat.lt_trans hin hsound.cache.fits)).mp hres
  obtain ⟨img, himg⟩ := hsound.cache.image i i hocc
  have horigin := hrec.images i i hocc
  rw [himg] at horigin
  refine ⟨img, ?_, horigin⟩
  simp only [TileCache.image?, hres, if_true, himg]

/-- The image of a tile is square, so its pixels determine it. -/
theorem Origin.image_eq {c c' : TileCache} {history history' : List CacheEvent} {i : Nat}
    {img img' : Image} (h : Origin c history i (some (i, img)))
    (h' : Origin c' history' i (some (i, img')))
    (hsame : history'.findSome? (pixelsOf i) = history.findSome? (pixelsOf i)) : img' = img := by
  obtain ⟨call, pixels, img₀, later, during, before, hhistory, -, -, hlater, hindex, -, -, -,
    himg, hwidth, hheight, rfl⟩ := h
  obtain ⟨call', pixels', img₁, later', during', before', hhistory', -, -, hlater', hindex', -,
    -, -, himg', hwidth', hheight', rfl⟩ := h'
  cases himg
  cases himg'
  rw [lastPublished_eq hhistory hlater hindex, lastPublished_eq hhistory' hlater' hindex'] at hsame
  have hpixels : img'.pixels = img.pixels := Option.some.inj hsame
  have hedge : c'.edge = c.edge := by
    have hsize := img.size_pixels
    rw [← hpixels, img'.size_pixels, hwidth', hheight', hwidth, hheight] at hsize
    exact Nat.mul_self_inj.mp hsize
  cases img
  cases img'
  simp only at hwidth hheight hwidth' hheight' hpixels
  subst hwidth hheight hpixels
  simp only [hwidth', hheight', hedge]

/-- **The provenance of pixels.**  The image of a resident tile is the buffer that
    one engine call left.  The history shows the call, and after it the publication,
    and after the call no new grid; the engine was given a cleared buffer, the edge of
    a tile, and the part of the document that the tile shows under the grid of now.
    So the pixels are a function of the last published render of the tile alone: two
    sessions, whatever else happened in them, that agree on it show the same image. -/
theorem image_provenance (h : s.Reachable) {i : Nat} (hin : i < s.cache.tileCount)
    (hres : s.cache.isResident i = true) :
    (∃ call pixels img later during before,
      s.history = later ++ .published call pixels :: (during ++ .called call :: before) ∧
      before.length = call.number ∧
      CacheEvent.regridded ∉ later ++ during ∧
      call.ticket.index = i ∧
      call.ticket.edge = s.cache.edge ∧
      call.ticket.pixels = Array.replicate (s.cache.edge * s.cache.edge) Pixel.clear ∧
      Shows s.cache.grid s.cache.edge i call.ticket.area ∧
      s.cache.image? i = some img ∧
      img.width = s.cache.edge ∧ img.height = s.cache.edge ∧ img.pixels = pixels ∧
      s.lastPublished i = some pixels) ∧
    ∀ s' : CacheSession, s'.Reachable → i < s'.cache.tileCount →
      s'.cache.isResident i = true → s'.lastPublished i = s.lastPublished i →
      s'.cache.image? i = s.cache.image? i := by
  obtain ⟨img, himage, horigin⟩ := origin_of_resident h hin hres
  constructor
  · obtain ⟨call, pixels, img', later, during, before, hhistory, hnumber, hgrid, hlater, hindex,
      hedge, hbuffer, harea, himg, hwidth, hheight, hpixels⟩ := horigin
    cases himg
    exact ⟨call, pixels, img, later, during, before, hhistory, hnumber, hgrid, hindex, hedge,
      hbuffer, harea, himage, hwidth, hheight, hpixels, lastPublished_eq hhistory hlater hindex⟩
  · intro s' h' hin' hres' hsame
    obtain ⟨img', himage', horigin'⟩ := origin_of_resident h' hin' hres'
    rw [himage, himage', horigin.image_eq horigin' hsame]

theorem image_provenance_second :
    2 < Sample.second.cache.tileCount ∧ Sample.second.cache.isResident 2 = true ∧
      (∃ call img, CacheEvent.called call ∈ Sample.second.history ∧ call.ticket.index = 2 ∧
        call.ticket.area = ⟨30, 0, 15, 15⟩ ∧
        Sample.second.cache.image? 2 = some img ∧ img.pixels = #[⟨2⟩]) := by
  have hin : 2 < Sample.second.cache.tileCount := by decide +kernel
  have hres : Sample.second.cache.isResident 2 = true := by decide +kernel
  have hlast : Sample.second.lastPublished 2 = some #[⟨2⟩] := by decide +kernel
  obtain ⟨⟨call, pixels, img, later, during, before, hhistory, -, -, hindex, -, -, harea, himage,
    -, -, hpixels, hpublished⟩, -⟩ := image_provenance Sample.reachable_second hin hres
  refine ⟨hin, hres, call, img, ?_, hindex, ?_, himage, ?_⟩
  · rw [hhistory]
    simp
  · exact TwipRect.ext (harea.x.trans (by decide +kernel)) (harea.y.trans (by decide +kernel))
      (harea.width.trans (by decide +kernel)) (harea.height.trans (by decide +kernel))
  · rw [hlast] at hpublished
    rw [hpixels, ← Option.some.inj hpublished]

end TilePaint.CacheSession
