/-
  TilePaint/Proofs/PublicationGate.lean
  =====================================
  **When one paint publishes, and what it leaves alone.**

  A paint touches the cache twice: before its render it vacates the slot of its
  tile (`Vacates`), and after it either publishes the tile (`Publishes`) or leaves
  nothing but the contents of a buffer behind (`Discards`).  What happens between
  the two is the engine's doing.

  Who gets as far as the engine is decided by `Refused`, and by a second look at
  the flag of the work, once the slot is vacated.  Whether the render is
  published is decided at its end alone, by the grid and the context of that
  moment; the call in progress keeps every other tile out of the slot until then,
  so a publication never costs another tile its place.

  `paint_gate` puts this together for an engine that may run any steps of the
  session.
-/
import Mathlib.Algebra.Group.Nat.Defs
import TilePaint.Proofs.CacheInvariant

namespace TilePaint

namespace TileCache

variable {c c' c'' : TileCache} {index i j : Nat} {cancelled late : Bool} {context : Context}

/-! ## 1. Who is turned away -/

/-- A paint that is refused: it was cancelled, its context is not the active one,
    the grid does not have the tile, or the tile is valid and resident. -/
def Refused (c : TileCache) (cancelled : Bool) (index : Nat) (context : Context) : Prop :=
  cancelled = true ∨ c.context ≠ context ∨ c.tileCount ≤ index ∨
    (c.isValid index = true ∧ c.isResident index = true)

instance (c : TileCache) (cancelled : Bool) (index : Nat) (context : Context) :
    Decidable (c.Refused cancelled index context) :=
  inferInstanceAs (Decidable (_ ∨ _))

theorem isFresh_iff (hin : index < c.tileCount) :
    c.isFresh index = true ↔ c.isValid index = true ∧ c.isResident index = true := by
  rw [isFresh, isValid, decide_eq_true hin, Bool.true_and, Bool.and_eq_true]

/-- A paint of a tile that is to be rendered is skipped only if the second look at its
    flag finds it cancelled. -/
theorem refused_of_skip (hfits : c.tileCount < maxIndex)
    (h : (c.start cancelled index context late).2 = .ok .skip) :
    c.Refused cancelled index context ∨ late = true := by
  unfold start at h
  split at h
  · next hstop =>
    simp only [ne_eq, Bool.or_eq_true, decide_eq_true_eq] at hstop
    rcases hstop with (hcancelled | hcontext) | hout
    · exact Or.inl (Or.inl hcancelled)
    · exact Or.inl (Or.inr (Or.inl hcontext))
    · exact Or.inl (Or.inr (Or.inr (Or.inl hout)))
  · next hgo =>
    simp only [ne_eq, Bool.or_eq_true, decide_eq_true_eq, not_or, Nat.not_le] at hgo
    have hin : index < c.tileCount := hgo.2
    dsimp only at h
    split at h
    · next hskip =>
      rw [isFresh_vacate (Nat.lt_trans hin hfits), Bool.or_eq_true] at hskip
      exact hskip.symm.imp_left fun hfresh =>
        Or.inr (Or.inr (Or.inr ((isFresh_iff hin).mp hfresh)))
    · split at h
      · cases h
      · cases h

theorem start_of_refused (hfits : c.tileCount < maxIndex)
    (h : c.Refused cancelled index context) (late : Bool) :
    c.start cancelled index context late = (c, .ok .skip) := by
  rcases hstart : c.start cancelled index context late with ⟨c', outcome⟩
  rcases start_cases hfits hstart with
    ⟨rfl, rfl⟩ | ⟨hin, hcancelled, hcontext, hstale, -⟩
  · rfl
  · exfalso
    rcases h with hset | hother | hout | hfresh
    · rw [hcancelled] at hset
      cases hset
    · exact hother hcontext
    · exact Nat.lt_irrefl _ (Nat.lt_of_lt_of_le hin hout)
    · rw [(isFresh_iff hin).mpr hfresh] at hstale
      cases hstale

/-! ## 2. The corner of a tile -/

/-- The pixels to the left of a tile and those above it are counted by words. -/
def HasCorner (c : TileCache) (index : Nat) : Prop :=
  c.edge * c.grid.column index ≤ maxIndex ∧ c.edge * c.grid.row index ≤ maxIndex

instance (c : TileCache) (index : Nat) : Decidable (c.HasCorner index) :=
  inferInstanceAs (Decidable (_ ∧ _))

theorem areaOf_cases (c : TileCache) (index : Nat) :
    (c.HasCorner index ∧ ∃ area, c.areaOf index = .ok area) ∨
      (¬c.HasCorner index ∧ c.areaOf index = .error .mulOverflow) := by
  unfold areaOf HasCorner mulWithin
  by_cases hcolumn : c.edge * c.grid.column index ≤ maxIndex
  · by_cases hrow : c.edge * c.grid.row index ≤ maxIndex
    · rw [if_pos hcolumn, if_pos hrow]
      exact Or.inl ⟨⟨hcolumn, hrow⟩, _, rfl⟩
    · rw [if_pos hcolumn, if_neg hrow]
      exact Or.inr ⟨fun h => hrow h.2, rfl⟩
  · rw [if_neg hcolumn]
    exact Or.inr ⟨fun h => hcolumn h.1, rfl⟩

theorem cancelled_of_not_refused (h : ¬c.Refused cancelled index context) :
    cancelled = false :=
  Bool.eq_false_iff.mpr fun hcancelled => h (Or.inl hcancelled)

/-- A paint that is not refused either fails at the corner of its tile or calls the
    engine. -/
theorem start_of_not_refused (hfits : c.tileCount < maxIndex)
    (h : ¬c.Refused cancelled index context) :
    index < c.tileCount ∧ c.context = context ∧
      ((¬c.HasCorner index ∧
          c.start cancelled index context = (c.vacate index, .error .mulOverflow)) ∨
        ∃ t, c.HasCorner index ∧ t.index = index ∧
          t.generation = c.grid.generation ∧ t.context = context ∧
          c.start cancelled index context =
            ((c.vacate index).clearBuffer index, .ok (.render t))) := by
  have hunset := cancelled_of_not_refused h
  rcases hstart : c.start cancelled index context with ⟨c', outcome⟩
  rcases start_cases hfits hstart with
    ⟨rfl, rfl⟩ | ⟨hin, -, hcontext, -, ⟨hlate, -⟩ | ⟨-, fault, harea, rfl, rfl⟩ |
      ⟨-, area, harea, rfl, rfl⟩⟩
  · rcases refused_of_skip hfits (congrArg Prod.snd hstart) with hrefused | hset
    · exact absurd hrefused h
    · exact nomatch hunset.symm.trans hset
  · exact nomatch hunset.symm.trans hlate
  · refine ⟨hin, hcontext, Or.inl ?_⟩
    rcases areaOf_cases c index with ⟨-, area, hok⟩ | ⟨hcorner, hfault⟩
    · rw [hok] at harea
      cases harea
    · rw [hfault] at harea
      cases harea
      exact ⟨hcorner, rfl⟩
  · refine ⟨hin, hcontext, Or.inr ⟨_, ?_, rfl, rfl, rfl, rfl⟩⟩
    rcases areaOf_cases c index with ⟨hcorner, -⟩ | ⟨-, hfault⟩
    · exact hcorner
    · rw [hfault] at harea
      cases harea

/-- A paint that is cancelled once its slot is vacated goes no further. -/
theorem start_of_late (h : ¬c.Refused cancelled index context) :
    index < c.tileCount ∧
      c.start cancelled index context true = (c.vacate index, .ok .skip) := by
  refine ⟨Nat.lt_of_not_le fun hout => h (Or.inr (Or.inr (Or.inl hout))), ?_⟩
  have hgo : ¬(cancelled || c.context ≠ context || c.tileCount ≤ index) = true := by
    simp only [ne_eq, Bool.or_eq_true, decide_eq_true_eq]
    rintro ((hcancelled | hother) | hout)
    · exact h (Or.inl hcancelled)
    · exact h (Or.inr (Or.inl hother))
    · exact h (Or.inr (Or.inr (Or.inl hout)))
  unfold start
  rw [if_neg hgo]
  dsimp only
  rw [Bool.true_or, if_pos rfl]

/-- The bytes of one slot and of the validity bits. -/
def slotAndBitBytes (c : TileCache) : Nat :=
  Config.bytesPerPixel * (c.edge * c.edge) + c.valid.size / 8

/-- **Every tile has a corner**, unless a single slot and the validity bits take
    more than two tebibytes. -/
theorem hasCorner_of_bytes (h : WellKept c) (hin : index < c.tileCount)
    (hbytes : c.slotAndBitBytes ≤ 2 ^ 41) : c.HasCorner index := by
  have hbits := h.bits
  simp only [slotAndBitBytes, Config.bytesPerPixel] at hbytes
  have hedge : c.edge ≤ 2 ^ 20 - 1 := by
    by_contra hlarge
    have hsquare : 2 ^ 20 * 2 ^ 20 ≤ c.edge * c.edge :=
      Nat.mul_le_mul (by omega) (by omega)
    omega
  have hcorner : ∀ n, n ≤ index → c.edge * n ≤ maxIndex := by
    intro n hn
    calc c.edge * n ≤ (2 ^ 20 - 1) * (2 ^ 44 + 7) := Nat.mul_le_mul hedge (by omega)
      _ ≤ maxIndex := by decide
  exact ⟨hcorner _ (Nat.mod_le ..), hcorner _ (Nat.div_le_self ..)⟩

/-! ## 3. What shows of a tile -/

/-- A tile is as valid and as resident in one cache as in the other, and has the
    same image. -/
structure SameTile (c c' : TileCache) (j : Nat) : Prop where
  valid : c'.isValid j = c.isValid j
  resident : c'.isResident j = c.isResident j
  image : c'.image? j = c.image? j

theorem SameTile.trans (h : SameTile c c' j) (h' : SameTile c' c'' j) : SameTile c c'' j :=
  ⟨h'.valid.trans h.valid, h'.resident.trans h.resident, h'.image.trans h.image⟩

theorem isValid_eq (hcount : c'.tileCount = c.tileCount) (hvalid : j ∈ c'.valid ↔ j ∈ c.valid) :
    c'.isValid j = c.isValid j := by
  simp only [isValid, hcount, hvalid]

theorem image?_eq_none (h : c.isResident j = false) : c.image? j = none := by
  rw [image?, h]
  rfl

/-- The slot of the tile keeps the same. -/
theorem SameTile.of_slot (hcount : c'.tileCount = c.tileCount)
    (hvalid : j ∈ c'.valid ↔ j ∈ c.valid)
    (hocc : (c'.slot j).occupant = (c.slot j).occupant)
    (himage : (c'.slot j).image = (c.slot j).image) : SameTile c c' j := by
  have hres : c'.isResident j = c.isResident j := by
    rw [isResident, Slot.holds, Slot.tag, hocc]
    rfl
  refine ⟨isValid_eq hcount hvalid, hres, ?_⟩
  rw [image?, image?, hres, himage]

/-- The slot of the tile keeps it neither before nor after. -/
theorem SameTile.of_absent (hj : j < maxIndex) (hcount : c'.tileCount = c.tileCount)
    (hvalid : j ∈ c'.valid ↔ j ∈ c.valid) (hbefore : (c.slot j).occupant ≠ some j)
    (hafter : (c'.slot j).occupant ≠ some j) : SameTile c c' j := by
  have hbefore : c.isResident j = false :=
    Bool.eq_false_iff.mpr fun hres => hbefore ((isResident_iff hj).mp hres)
  have hafter : c'.isResident j = false :=
    Bool.eq_false_iff.mpr fun hres => hafter ((isResident_iff hj).mp hres)
  exact ⟨isValid_eq hcount hvalid, hafter.trans hbefore.symm,
    (image?_eq_none hafter).trans (image?_eq_none hbefore).symm⟩

/-! ## 4. The two ends of a paint -/

/-- The slot of a tile was emptied of any other tile, and that is all. -/
structure Vacates (c c' : TileCache) (index : Nat) : Prop where
  edge : c'.edge = c.edge
  grid : c'.grid = c.grid
  context : c'.context = c.context
  scrollY : c'.scrollY = c.scrollY
  /-- No bit was set. -/
  valid : ∀ j, j ∈ c'.valid → j ∈ c.valid
  /-- No slot was tagged. -/
  occupant : ∀ j, (c'.slot j).occupant = (c.slot j).occupant ∨ (c'.slot j).occupant = none
  /-- No image was stored. -/
  image : ∀ j, (c'.slot j).image = (c.slot j).image
  evicted : ∀ k, k ≠ index → (c.slot index).occupant = some k →
    c'.isValid k = false ∧ c'.isResident k = false ∧ c'.image? k = none
  others : ∀ j, j < maxIndex → (j = index ∨ (c.slot index).occupant ≠ some j) → SameTile c c' j

/-- Two caches that differ in the contents of buffers only. -/
structure Discards (c c' : TileCache) : Prop where
  edge : c'.edge = c.edge
  grid : c'.grid = c.grid
  context : c'.context = c.context
  scrollY : c'.scrollY = c.scrollY
  valid : c'.valid = c.valid
  occupant : ∀ j, (c'.slot j).occupant = (c.slot j).occupant
  image : ∀ j, (c'.slot j).image = (c.slot j).image

/-- A tile was published with some pixels, and nothing shows of that at any other
    tile. -/
structure Publishes (c c' : TileCache) (index : Nat) (pixels : Array Pixel) : Prop where
  grid : c'.grid = c.grid
  context : c'.context = c.context
  scrollY : c'.scrollY = c.scrollY
  valid : c'.isValid index = true
  resident : c'.isResident index = true
  image : ∃ img, c'.image? index = some img ∧ img.width = c.edge ∧ img.height = c.edge ∧
    img.pixels = pixels
  others : ∀ j, j < maxIndex → j ≠ index → SameTile c c' j

theorem Discards.sameTile (h : Discards c c') (j : Nat) : SameTile c c' j :=
  SameTile.of_slot (tileCount_eq_of_grid h.grid) (by rw [h.valid]) (h.occupant j) (h.image j)

theorem discards_refill (c : TileCache) (index : Nat) (g : Slot → Array Pixel) :
    Discards c (c.modifySlot index fun s => { s with pixels := g s }) where
  edge := rfl
  grid := rfl
  context := rfl
  scrollY := rfl
  valid := rfl
  occupant j := by rw [slot_refill]
  image j := by rw [slot_refill]

theorem vacates_vacate (h : WellKept c) (hin : index < c.tileCount) :
    Vacates c (c.vacate index) index := by
  obtain ⟨hgrid, hedge, hcontext, -, -⟩ := vacate_rest c index
  have hsmall : index < maxIndex := Nat.lt_trans hin h.fits
  have hcount := tileCount_eq_of_grid hgrid
  have hscroll : (c.vacate index).scrollY = c.scrollY := by
    unfold vacate
    split <;> rfl
  refine ⟨hedge, hgrid, hcontext, hscroll, fun j hj => (mem_valid_vacate.mp hj).1,
    occupant_vacate_cases hsmall, fun j => (slot_vacate_rest index j).2, ?_, ?_⟩
  · intro k hk hocc
    -- the occupant is another tile, and that one is evicted
    have hres : ¬c.isResident index = true := by
      rw [isResident_iff hsmall, hocc]
      exact fun heq => hk (Option.some.inj heq)
    obtain ⟨hlt, hslot⟩ := h.occupant index k hocc
    have hgone : (c.vacate index).isResident k = false := by
      refine Bool.eq_false_iff.mpr fun hthere => ?_
      rw [isResident_iff (Nat.lt_trans hlt h.fits), occupant_vacate hsmall hslot.symm,
        if_neg hres] at hthere
      cases hthere
    refine ⟨Bool.eq_false_iff.mpr fun hvalid => ?_, hgone, image?_eq_none hgone⟩
    have hmem := of_decide_eq_true (Bool.and_eq_true_iff.mp hvalid).2
    exact (mem_valid_vacate.mp hmem).2.elim hres fun hne => hne hocc
  · intro j hj hother
    by_cases hres : c.isResident index = true
    · rw [vacate_of_resident hres]
      exact ⟨rfl, rfl, rfl⟩
    · -- the slot keeps a tile other than `j`, or none
      have hne : (c.slot index).occupant ≠ some j := by
        rcases hother with rfl | hne
        · exact fun hocc => hres ((isResident_iff hsmall).mpr hocc)
        · exact hne
      have hvalid : j ∈ (c.vacate index).valid ↔ j ∈ c.valid := by
        rw [mem_valid_vacate]
        exact ⟨And.left, fun hmem => ⟨hmem, Or.inr hne⟩⟩
      by_cases hslot : c.slotIndex index = c.slotIndex j
      · refine SameTile.of_absent hj hcount hvalid ?_ ?_
        · rw [← slot_congr hslot]
          exact hne
        · rw [occupant_vacate hsmall hslot, if_neg hres]
          exact (Option.some_ne_none j).symm
      · have hsame := slot_vacate_of_ne (c := c) hslot
        exact SameTile.of_slot hcount hvalid (by rw [hsame]) (by rw [hsame])

theorem Vacates.trans (h : Vacates c c' index) (h' : Discards c' c'') : Vacates c c'' index where
  edge := h'.edge.trans h.edge
  grid := h'.grid.trans h.grid
  context := h'.context.trans h.context
  scrollY := h'.scrollY.trans h.scrollY
  valid j hj := h.valid j (h'.valid ▸ hj)
  occupant j := by
    rw [h'.occupant]
    exact h.occupant j
  image j := (h'.image j).trans (h.image j)
  evicted k hk hocc := by
    obtain ⟨hvalid, hres, himage⟩ := h.evicted k hk hocc
    have hsame := h'.sameTile k
    exact ⟨hsame.valid.trans hvalid, hsame.resident.trans hres, hsame.image.trans himage⟩
  others j hj hother := (h.others j hj hother).trans (h'.sameTile j)

/-- Storing the image of a tile whose slot keeps no other tile. -/
theorem publishes_install (h : WellKept c) (hin : index < c.tileCount)
    (hslot : (c.slot index).occupant = none ∨ (c.slot index).occupant = some index)
    {img : Image} (hwidth : img.width = c.edge) (hheight : img.height = c.edge) :
    Publishes c (c.install index img) index img.pixels := by
  have hbit : index < c.valid.size := by
    rw [h.bits]
    omega
  have hsmall : index < maxIndex := Nat.lt_trans hin h.fits
  have hthere : (c.install index img).slot index =
      { c.slot index with occupant := some index, image := some (index, img) } := by
    rw [slot_install, if_pos rfl]
  have hres : (c.install index img).isResident index = true := by
    rw [isResident_iff hsmall, hthere]
  refine ⟨rfl, rfl, rfl, ?_, hres, ⟨img, ?_, hwidth, hheight, rfl⟩, ?_⟩
  · have hmem : index ∈ (c.install index img).valid := (mem_valid_install hbit).mpr (Or.inl rfl)
    rw [isValid, decide_eq_true hmem, Bool.and_true, decide_eq_true_eq]
    exact hin
  · rw [image?, hres, hthere]
    simp only [if_true]
  · intro j hj hne
    have hvalid : j ∈ (c.install index img).valid ↔ j ∈ c.valid := by
      rw [mem_valid_install hbit, or_iff_right hne]
    by_cases hsame : c.slotIndex index = c.slotIndex j
    · -- a tile of the same slot was not there before and is not there now
      refine SameTile.of_absent hj rfl hvalid ?_ ?_
      · rw [← slot_congr hsame]
        rcases hslot with hnone | hsome
        · rw [hnone]
          exact nofun
        · rw [hsome]
          exact fun heq => hne (Option.some.inj heq).symm
      · rw [slot_install, if_pos hsame]
        exact fun heq => hne (Option.some.inj heq).symm
    · refine SameTile.of_slot rfl hvalid ?_ ?_
      · rw [slot_install, if_neg hsame]
      · rw [slot_install, if_neg hsame]

theorem Publishes.after (h : Discards c c') {pixels : Array Pixel}
    (h' : Publishes c' c'' index pixels) : Publishes c c'' index pixels where
  grid := h'.grid.trans h.grid
  context := h'.context.trans h.context
  scrollY := h'.scrollY.trans h.scrollY
  valid := h'.valid
  resident := h'.resident
  image := by
    rw [← h.edge]
    exact h'.image
  others j hj hne := (h.sameTile j).trans (h'.others j hj hne)

/-- **The end of a completed render**: the tile of a ticket in force is published,
    any other render is discarded. -/
theorem publish_outcome (h : WellKept c) {t : Ticket} (ht : Admitted c t) {pixels : Array Pixel}
    (hsize : pixels.size = t.pixels.size) :
    (c.InForce t ∧ (c.publish t pixels).2 = true ∧
        Publishes c (c.publish t pixels).1 t.index pixels) ∨
      (¬c.InForce t ∧ (c.publish t pixels).2 = false ∧ Discards c (c.publish t pixels).1) := by
  have hfull : pixels.size = c.edge * c.edge := by
    rw [hsize, ht.buffer, Array.size_replicate]
  have hdiscards : Discards c (c.abandon t pixels) := discards_refill c t.index fun _ => pixels
  obtain ⟨img, hwidth, hheight, rfl, hpublish⟩ := publish_cases (t := t) hfull
  by_cases hforce : c.InForce t
  · rw [if_pos hforce] at hpublish
    rw [hpublish]
    have ht' := ht.refill t.index fun _ => img.pixels
    exact Or.inl ⟨hforce, rfl, Publishes.after hdiscards
      (publishes_install (h.abandon t hfull) (ht.current hforce.1.symm).1 ht'.slot hwidth hheight)⟩
  · rw [if_neg hforce] at hpublish
    rw [hpublish]
    exact Or.inr ⟨hforce, rfl, hdiscards⟩

end TileCache

/-! ## 5. A paint as a whole -/

namespace CacheSession

open TileCache

/-- The engine works on the cache by steps of the session, and comes back while its
    own call is still in progress. -/
def WorksOn (s : CacheSession) (cancelled : Bool) (index : Nat) (context : Context)
    (engine : (t : Ticket) → TileCache → Rendering t) : Prop :=
  ∀ t cache, s.cache.start cancelled index context = (cache, .ok (.render t)) →
    ∃ s', Run (s.start cancelled index context) s' ∧ s'.cache = (engine t cache).cache ∧
      (⟨s.history.length, t⟩ : RenderCall) ∈ s'.rendering

/-- What becomes of a paint that found the cache as `before`, called the engine with
    the cache `called`, and left it as `after`. -/
structure Rendered {t : Ticket} (before called : TileCache) (index : Nat) (r : Rendering t)
    (after : TileCache) (outcome : Except Fault Bool) : Prop where
  vacates : Vacates before called index
  ticket : t.index = index
  published_iff : outcome = .ok true ↔ r.fault = none ∧
    r.cache.grid.generation = before.grid.generation ∧ r.cache.context = before.context
  returned : r.fault = none → ∃ published, outcome = .ok published
  raised : ∀ fault, r.fault = some fault → outcome = .error fault
  publishes : outcome = .ok true → Publishes r.cache after index r.pixels
  discards : outcome ≠ .ok true → Discards r.cache after

variable {s : CacheSession} {cancelled : Bool} {index : Nat} {context : Context}
  {engine : (t : Ticket) → TileCache → Rendering t}

theorem sound_of_run {s' : CacheSession} (h : s.Sound) (hrun : Run s s') : s'.Sound := by
  induction hrun with
  | refl => exact h
  | tail _ hlast ih => exact ih.step hlast

theorem paint_of_refused (hs : s.Sound) (h : s.cache.Refused cancelled index context)
    (late : Bool) : s.start cancelled index context late = s ∧
      ∀ other, s.cache.paint cancelled index context other late = (s.cache, .ok false) := by
  have hstart := start_of_refused hs.cache.fits h late
  refine ⟨?_, fun other => ?_⟩
  · simp only [CacheSession.start, hstart]
  · simp only [paint, hstart]

/-- The end of a paint whose engine was called with a ticket. -/
theorem rendered_of_call {t : Ticket} {called : TileCache} (hs : s.Sound) (hfree : s.Free index)
    (hengine : s.WorksOn cancelled index context engine)
    (hstart : s.cache.start cancelled index context = (called, .ok (.render t)))
    (hvacates : Vacates s.cache called index) (hindex : t.index = index)
    (hgeneration : t.generation = s.cache.grid.generation)
    (hcontext : t.context = s.cache.context) :
    Rendered s.cache called index (engine t called)
      (s.cache.paint cancelled index context engine).1
      (s.cache.paint cancelled index context engine).2 := by
  obtain ⟨s', hrun, hcache, hcall⟩ := hengine t called hstart
  -- the cache after the engine is one that a run has reached, whatever the engine did
  have hs' := sound_of_run (hs.start hfree) hrun
  have hpublish := publish_outcome hs'.cache (hs'.calls _ hcall) (engine t called).size_pixels
  simp only [hcache, InForce, hgeneration, hcontext, hindex] at hpublish
  simp only [paint, hstart]
  cases hfault : (engine t called).fault with
  | some fault =>
    refine ⟨hvacates, hindex, ?_, ?_, ?_, ?_, ?_⟩
    · simp only [hfault, reduceCtorEq, false_and]
    · intro hnone
      cases hfault.symm.trans hnone
    · intro other hother
      cases hfault.symm.trans hother
      rfl
    · intro hpublished
      cases hpublished
    · intro _
      exact discards_refill _ t.index fun _ => (engine t called).pixels
  | none =>
    simp only
    rcases hpublish with ⟨hforce, htrue, hpublishes⟩ | ⟨hforce, hfalse, hdiscards⟩
    · rw [htrue]
      refine ⟨hvacates, hindex, ?_, fun _ => ⟨true, rfl⟩, ?_, fun _ => hpublishes, ?_⟩
      · simp only [hfault, hforce, and_self]
      · intro fault hsome
        cases hfault.symm.trans hsome
      · intro hne
        exact absurd rfl hne
    · rw [hfalse]
      refine ⟨hvacates, hindex, ?_, fun _ => ⟨false, rfl⟩, ?_, ?_, fun _ => hdiscards⟩
      · simp only [Except.ok.injEq, Bool.false_eq_true, false_iff, not_and]
        intro _ hgrid hthere
        exact hforce ⟨hgrid, hthere⟩
      · intro fault hsome
        cases hfault.symm.trans hsome
      · intro hpublished
        cases hpublished

/-- **The gate of a paint.**  A paint that is refused changes nothing and calls no
    engine.  One whose flag is set by somebody else between the two looks at it vacates
    its slot and goes no further.  Any other one calls the engine once: the session
    records one call, and the paint depends on the engine through its answer to this call
    alone.  It publishes the tile if the engine comes back, and grid and context are by
    then the ones it started with; otherwise it leaves nothing but a buffer behind.
    Either way no other tile changes at its hands, apart from the one that had the slot
    before.

    The corner of a tile is a number of pixels.  In a cache of more than two tebibytes
    that number need not be a word; then the paint fails instead of calling the engine. -/
theorem paint_gate (hs : s.Reachable) (hfree : s.Free index)
    (hengine : s.WorksOn cancelled index context engine) :
    let c := s.cache
    let started := s.start cancelled index context
    (c.Refused cancelled index context → ∀ late,
      s.start cancelled index context late = s ∧
        ∀ other, c.paint cancelled index context other late = (c, .ok false)) ∧
    (¬c.Refused cancelled index context →
      (s.start cancelled index context true).history = s.history ∧
        Vacates c (s.start cancelled index context true).cache index ∧
        ∀ other, c.paint cancelled index context other true =
          ((s.start cancelled index context true).cache, .ok false)) ∧
    (¬c.Refused cancelled index context → ¬c.HasCorner index →
      2 ^ 41 < c.slotAndBitBytes ∧ started.history = s.history ∧
        Vacates c started.cache index ∧
        ∀ other, c.paint cancelled index context other = (started.cache, .error .mulOverflow)) ∧
    (¬c.Refused cancelled index context → c.HasCorner index →
      ∃ t, started.history = .called ⟨s.history.length, t⟩ :: s.history ∧
        (∀ other, other t started.cache = engine t started.cache →
          c.paint cancelled index context other = c.paint cancelled index context engine) ∧
        Rendered c started.cache index (engine t started.cache)
          (c.paint cancelled index context engine).1
          (c.paint cancelled index context engine).2) := by
  have hsound := sound_of_reachable hs
  refine ⟨paint_of_refused hsound, ?_, ?_, ?_⟩
  · intro hadmitted
    obtain ⟨hin, hstart⟩ := start_of_late hadmitted
    simp only [CacheSession.start, paint, hstart]
    exact ⟨trivial, vacates_vacate hsound.cache hin, fun _ => trivial⟩
  · intro hadmitted hcorner
    obtain ⟨hin, -, ⟨-, hstart⟩ | ⟨t, hthere, -⟩⟩ :=
      start_of_not_refused hsound.cache.fits hadmitted
    · -- a pool whose bytes fit has a corner for every tile
      have hbytes : 2 ^ 41 < s.cache.slotAndBitBytes :=
        Nat.lt_of_not_le fun hbytes => hcorner (hasCorner_of_bytes hsound.cache hin hbytes)
      simp only [CacheSession.start, paint, hstart]
      exact ⟨hbytes, trivial, vacates_vacate hsound.cache hin, fun _ => trivial⟩
    · exact absurd hthere hcorner
  · intro hadmitted hcorner
    obtain ⟨hin, hcontext, ⟨hnone, -⟩ | ⟨t, -, hindex, hgeneration, hticket, hstart⟩⟩ :=
      start_of_not_refused hsound.cache.fits hadmitted
    · exact absurd hcorner hnone
    · have hvacates := (vacates_vacate hsound.cache hin).trans
        (discards_refill (s.cache.vacate index) index fun slot =>
          Array.replicate slot.pixels.size Pixel.clear)
      have hrendered := rendered_of_call hsound hfree hengine hstart hvacates hindex hgeneration
        (hticket.trans hcontext.symm)
      have hcache : (s.start cancelled index context).cache =
          (s.cache.vacate index).clearBuffer index := by
        simp only [CacheSession.start, hstart]
      refine ⟨t, ?_, ?_, ?_⟩
      · simp only [CacheSession.start, hstart]
      · intro other hother
        rw [hcache] at hother
        simp only [paint, hstart, hother]
      · rw [hcache]
        exact hrendered

namespace Sample

def staleOne (c : TileCache) : TileCache :=
  match CacheOp.apply c (.invalidate 1) with
  | .ok c => c
  | .error _ => c

/-- An engine that makes tile 1 stale while it renders. -/
def editing (t : Ticket) (c : TileCache) : Rendering t where
  cache := staleOne c
  pixels := Array.replicate t.pixels.size ⟨2⟩
  size_pixels := Array.size_replicate
  fault := none

theorem editing_worksOn : first.WorksOn false 2 Context.none editing := by
  intro t cache hstart
  refine ⟨(first.start false 2 Context.none).operate (.invalidate 1),
    .single (Step.operate _ _), ?_, ?_⟩
  · simp only [CacheSession.start, hstart, operate, editing, staleOne]
    cases CacheOp.apply cache (.invalidate 1) <;> rfl
  · simp only [CacheSession.start, hstart, operate]
    cases CacheOp.apply cache (.invalidate 1) <;> exact List.mem_cons_self

end Sample

theorem paint_gate_first :
    Sample.first.Reachable ∧ Sample.first.Free 2 ∧
      Sample.first.WorksOn false 2 Context.none Sample.editing ∧
      Sample.first.cache.isResident 0 = true ∧
      (Sample.first.cache.paint false 2 Context.none Sample.editing).2 = .ok true ∧
      (Sample.first.cache.paint false 2 Context.none Sample.editing).1.isValid 2 = true ∧
      (Sample.first.start false 2 Context.none).cache.isResident 0 = false := by
  have hfree : Sample.first.Free 2 := by decide +kernel
  obtain ⟨-, -, -, hgate⟩ :=
    paint_gate Sample.reachable_first hfree Sample.editing_worksOn
  obtain ⟨t, -, -, hrendered⟩ := hgate (by decide +kernel) (by decide +kernel)
  have hsame : (Sample.staleOne (Sample.first.start false 2 Context.none).cache).grid.generation =
      Sample.first.cache.grid.generation ∧
      (Sample.staleOne (Sample.first.start false 2 Context.none).cache).context =
        Sample.first.cache.context := by decide +kernel
  have htrue := hrendered.published_iff.mpr ⟨rfl, hsame⟩
  have hocc : (Sample.first.cache.slot 2).occupant = some 0 := by decide +kernel
  exact ⟨Sample.reachable_first, hfree, Sample.editing_worksOn, by decide +kernel, htrue,
    (hrendered.publishes htrue).valid, (hrendered.vacates.evicted 0 (by decide) hocc).2.1⟩

end CacheSession

end TilePaint
