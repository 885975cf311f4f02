/-
  TilePaint/Proofs/CacheInvariant.lean
  ====================================
  **What bits, tags and images always agree on.**

  Validity bits, occupant tags, tagged images and the grid are changed by
  different operations, and a paint leaves them in an intermediate state while its
  engine runs.  `WellKept` is what they agree on all the same.  It holds in every
  reachable session, in the middle of renders too (`sound_of_reachable`).

  The part of the invariant that carries a paint through its render is about the
  call in progress (`Admitted`): as long as the grid is the one of the ticket, its
  tile is in the grid, and the slot keeps this tile or none.  So a publication
  never makes a second tile of the slot valid.  A new grid empties every slot and
  outdates every ticket, so nothing is left to check for the calls in progress.

  `reachable_representation` spells out what this means for the slots, for the
  images and for the number of valid tiles.
-/
import Mathlib.Data.List.Nodup
import Mathlib.Data.List.Pairwise
import TilePaint.Proofs.CacheRun

namespace TilePaint

namespace TileCache

variable {c c' : TileCache} {t : Ticket}

/-! ## 1. The invariant of a cache -/

structure WellKept (c : TileCache) : Prop where
  fits : c.tileCount < maxIndex
  bits : c.valid.size = c.tileCount + 1
  occupant : ∀ j i, (c.slot j).occupant = some i →
    i < c.tileCount ∧ c.slotIndex i = c.slotIndex j
  image : ∀ j i, (c.slot j).occupant = some i → ∃ img, (c.slot j).image = some (i, img)
  resident : ∀ i, i ∈ c.valid → (c.slot i).occupant = some i
  buffer : ∀ j, (c.slot j).pixels.size = c.edge * c.edge

/-- What stays true of the ticket of a call in progress. -/
structure Admitted (c : TileCache) (t : Ticket) : Prop where
  edge : t.edge = c.edge
  buffer : t.pixels = Array.replicate (c.edge * c.edge) Pixel.clear
  generation : t.generation ≤ c.grid.generation
  slot : (c.slot t.index).occupant = none ∨ (c.slot t.index).occupant = some t.index
  current : t.generation = c.grid.generation →
    t.index < c.tileCount ∧ c.areaOf t.index = .ok t.area

theorem slotIndex_eq_of_size (h : c'.slots.size = c.slots.size) (i : Nat) :
    c'.slotIndex i = c.slotIndex i := by
  rw [slotIndex, slotIndex, h]

theorem tileCount_eq_of_grid (h : c'.grid = c.grid) : c'.tileCount = c.tileCount := by
  rw [tileCount, tileCount, h]

/-- A change that leaves grid, images and buffer sizes alone, and at most empties
    slots whose tiles are not valid any more. -/
theorem WellKept.shrink (h : WellKept c) (hedge : c'.edge = c.edge) (hgrid : c'.grid = c.grid)
    (hslots : c'.slots.size = c.slots.size) (hbits : c'.valid.size = c.valid.size)
    (hocc : ∀ j, (c'.slot j).occupant = (c.slot j).occupant ∨ (c'.slot j).occupant = none)
    (himage : ∀ j, (c'.slot j).image = (c.slot j).image)
    (hbuffer : ∀ j, (c'.slot j).pixels.size = c.edge * c.edge)
    (hvalid : ∀ i, i ∈ c'.valid →
      i ∈ c.valid ∧ (c'.slot i).occupant = (c.slot i).occupant) : WellKept c' := by
  have hcount : c'.tileCount = c.tileCount := tileCount_eq_of_grid hgrid
  -- whoever is in a slot now was there before
  have hthere : ∀ j i, (c'.slot j).occupant = some i → (c.slot j).occupant = some i := by
    intro j i hi
    rcases hocc j with hsame | hnone
    · rw [← hsame, hi]
    · rw [hnone] at hi
      cases hi
  refine ⟨?_, ?_, ?_, ?_, ?_, ?_⟩
  · rw [hcount]
    exact h.fits
  · rw [hbits, hcount]
    exact h.bits
  · intro j i hi
    rw [hcount, slotIndex_eq_of_size hslots, slotIndex_eq_of_size hslots]
    exact h.occupant j i (hthere j i hi)
  · intro j i hi
    rw [himage]
    exact h.image j i (hthere j i hi)
  · intro i hi
    obtain ⟨hmem, hsame⟩ := hvalid i hi
    rw [hsame]
    exact h.resident i hmem
  · intro j
    rw [hedge]
    exact hbuffer j

theorem Admitted.shrink (h : Admitted c t) (hedge : c'.edge = c.edge) (hgrid : c'.grid = c.grid)
    (hocc : (c'.slot t.index).occupant = (c.slot t.index).occupant ∨
      (c'.slot t.index).occupant = none) : Admitted c' t := by
  refine ⟨?_, ?_, ?_, ?_, ?_⟩
  · rw [hedge]
    exact h.edge
  · rw [hedge]
    exact h.buffer
  · rw [hgrid]
    exact h.generation
  · rcases hocc with hsame | hnone
    · rw [hsame]
      exact h.slot
    · exact Or.inl hnone
  · intro hgen
    rw [hgrid] at hgen
    obtain ⟨hin, harea⟩ := h.current hgen
    refine ⟨?_, ?_⟩
    · rw [tileCount_eq_of_grid hgrid]
      exact hin
    · rw [areaOf_congr hedge hgrid]
      exact harea

theorem WellKept.trimmed (h : WellKept c) (hop : Trimmed c c') : WellKept c' := by
  refine h.shrink hop.edge hop.grid (by rw [hop.slots]) hop.size ?_ ?_ ?_ ?_
  · intro j
    exact Or.inl (congrArg Slot.occupant (hop.slot j))
  · intro j
    rw [hop.slot]
  · intro j
    rw [hop.slot]
    exact h.buffer j
  · intro i hi
    exact ⟨hop.valid i hi, congrArg Slot.occupant (hop.slot i)⟩

theorem WellKept.regridded (h : WellKept c) (hop : Regridded c c') : WellKept c' := by
  have hempty : ∀ j, (c'.slot j).occupant = none := by
    intro j
    rw [hop.slot]
    rfl
  refine ⟨hop.fits, ?_, ?_, ?_, ?_, ?_⟩
  · rw [hop.valid]
    rfl
  · intro j i hi
    rw [hempty] at hi
    cases hi
  · intro j i hi
    rw [hempty] at hi
    cases hi
  · intro i hi
    rw [hop.valid] at hi
    exact absurd hi BitSet.not_mem_ofSize
  · intro j
    rw [hop.slot, hop.edge]
    exact h.buffer j

theorem Admitted.trimmed (h : Admitted c t) (hop : Trimmed c c') : Admitted c' t :=
  h.shrink hop.edge hop.grid (Or.inl (congrArg Slot.occupant (hop.slot t.index)))

/-- A new grid outdates the ticket. -/
theorem Admitted.regridded (h : Admitted c t) (hop : Regridded c c') : Admitted c' t := by
  have hold := h.generation
  have hnew := hop.generation
  refine ⟨?_, ?_, by omega, Or.inl ?_, ?_⟩
  · rw [hop.edge]
    exact h.edge
  · rw [hop.edge]
    exact h.buffer
  · rw [hop.slot]
    rfl
  · intro hgen
    omega

/-! ## 2. The parts of a paint -/

variable {index j : Nat}

theorem WellKept.vacate (h : WellKept c) (hin : index < c.tileCount) :
    WellKept (c.vacate index) := by
  obtain ⟨hgrid, hedge, -, hbits, hslots⟩ := vacate_rest c index
  have hsmall : index < maxIndex := Nat.lt_trans hin h.fits
  refine h.shrink hedge hgrid hslots hbits (occupant_vacate_cases hsmall) ?_ ?_ ?_
  · intro j
    exact (slot_vacate_rest index j).2
  · intro j
    rw [(slot_vacate_rest index j).1]
    exact h.buffer j
  · intro i hi
    obtain ⟨hmem, hkeep⟩ := mem_valid_vacate.mp hi
    refine ⟨hmem, ?_⟩
    by_cases hres : c.isResident index = true
    · rw [vacate_of_resident hres]
    · have hne : c.slotIndex index ≠ c.slotIndex i := by
        intro heq
        have hocc := h.resident i hmem
        rw [← slot_congr heq] at hocc
        exact hkeep.elim hres fun hother => hother hocc
      rw [slot_vacate_of_ne hne]

theorem slot_refill (c : TileCache) (index : Nat) (g : Slot → Array Pixel) (j : Nat) :
    (c.modifySlot index fun s => { s with pixels := g s }).slot j =
      { c.slot j with
        pixels := if c.slotIndex index = c.slotIndex j then g (c.slot j)
          else (c.slot j).pixels } := by
  rw [slot_modifySlot]
  split <;> rfl

/-- New contents of a buffer change nothing that the invariant speaks of. -/
theorem WellKept.refill (h : WellKept c) (index : Nat) {g : Slot → Array Pixel}
    (hsize : ∀ s : Slot, s.pixels.size = c.edge * c.edge → (g s).size = c.edge * c.edge) :
    WellKept (c.modifySlot index fun s => { s with pixels := g s }) := by
  refine h.shrink rfl rfl (c.size_slots_modifySlot index _) rfl ?_ ?_ ?_ ?_
  · intro j
    rw [slot_refill]
    exact Or.inl rfl
  · intro j
    rw [slot_refill]
  · intro j
    rw [slot_refill]
    dsimp only
    split
    · exact hsize _ (h.buffer j)
    · exact h.buffer j
  · intro i hi
    rw [slot_refill]
    exact ⟨hi, rfl⟩

theorem WellKept.clearBuffer (h : WellKept c) (index : Nat) : WellKept (c.clearBuffer index) :=
  h.refill index fun s hs => by rw [Array.size_replicate, hs]

theorem WellKept.abandon (h : WellKept c) (t : Ticket) {pixels : Array Pixel}
    (hsize : pixels.size = c.edge * c.edge) : WellKept (c.abandon t pixels) :=
  h.refill t.index fun _ _ => hsize

theorem WellKept.install (h : WellKept c) (hin : index < c.tileCount)
    (hslot : (c.slot index).occupant = none ∨ (c.slot index).occupant = some index)
    (img : Image) : WellKept (c.install index img) := by
  have hslots : (c.install index img).slots.size = c.slots.size :=
    c.size_slots_modifySlot index _
  have hbit : index < c.valid.size := by
    rw [h.bits]
    omega
  refine ⟨h.fits, ?_, ?_, ?_, ?_, ?_⟩
  · rw [size_valid_install]
    exact h.bits
  · intro j i hi
    rw [slotIndex_eq_of_size hslots, slotIndex_eq_of_size hslots]
    rw [slot_install] at hi
    split at hi
    · next hj =>
      cases hi
      exact ⟨hin, hj⟩
    · exact h.occupant j i hi
  · intro j i hi
    rw [slot_install] at hi ⊢
    split at hi
    · next hj =>
      cases hi
      rw [if_pos hj]
      exact ⟨img, rfl⟩
    · next hj =>
      rw [if_neg hj]
      exact h.image j i hi
  · intro i hi
    rw [slot_install]
    rcases (mem_valid_install hbit).mp hi with rfl | hmem
    · rw [if_pos rfl]
    · have hocc := h.resident i hmem
      by_cases hi : c.slotIndex index = c.slotIndex i
      · -- the slot keeps `index` or nothing, so a valid tile of it is `index`
        rw [← slot_congr hi] at hocc
        rw [if_pos hi]
        rcases hslot with hnone | hsome
        · rw [hnone] at hocc
          cases hocc
        · rw [← hsome]
          exact hocc
      · rw [if_neg hi]
        exact hocc
  · intro j
    rw [slot_install]
    split
    · exact h.buffer j
    · exact h.buffer j

theorem Admitted.vacate (h : Admitted c t) (hne : c.slotIndex index ≠ c.slotIndex t.index) :
    Admitted (c.vacate index) t := by
  obtain ⟨hgrid, hedge, -, -, -⟩ := vacate_rest c index
  refine h.shrink hedge hgrid (Or.inl ?_)
  rw [slot_vacate_of_ne hne]

theorem Admitted.refill (h : Admitted c t) (index : Nat) (g : Slot → Array Pixel) :
    Admitted (c.modifySlot index fun s => { s with pixels := g s }) t := by
  refine h.shrink rfl rfl (Or.inl ?_)
  rw [slot_refill]

theorem Admitted.install (h : Admitted c t) (hne : c.slotIndex index ≠ c.slotIndex t.index)
    (img : Image) : Admitted (c.install index img) t := by
  refine h.shrink rfl rfl (Or.inl ?_)
  rw [slot_install, if_neg hne]

/-- The ticket that a paint starts with. -/
theorem admitted_start (h : WellKept c) {context : Context} {area : TwipRect}
    (hin : index < c.tileCount) (harea : c.areaOf index = .ok area) :
    Admitted ((c.vacate index).clearBuffer index) {
      index, context, area
      generation := c.grid.generation
      edge := c.edge
      pixels := Array.replicate (c.slot index).pixels.size Pixel.clear } := by
  obtain ⟨hgrid, hedge, -, -, -⟩ := vacate_rest c index
  have hstart : Admitted (c.vacate index) {
      index, context, area
      generation := c.grid.generation
      edge := c.edge
      pixels := Array.replicate (c.slot index).pixels.size Pixel.clear } := by
    refine ⟨hedge.symm, ?_, ?_, ?_, ?_⟩
    · rw [h.buffer, hedge]
    · exact Nat.le_of_eq (congrArg Grid.generation hgrid).symm
    · rw [occupant_vacate (Nat.lt_trans hin h.fits) rfl]
      split
      · exact Or.inr rfl
      · exact Or.inl rfl
    · intro _
      refine ⟨?_, ?_⟩
      · rw [tileCount_eq_of_grid hgrid]
        exact hin
      · simp only [areaOf, hedge, hgrid] at harea ⊢
        exact harea
  exact hstart.refill index _

/-- A new cache has no tile at all, and an empty slot is as large as a tile. -/
theorem ofConfig_cases {config : Config} (h : ofConfig config = .ok c) :
    c.grid = Grid.initial ∧ c.valid = BitSet.ofSize 1 ∧
      ∀ j, c.slot j = Slot.empty (c.edge * c.edge) := by
  unfold ofConfig at h
  split at h
  · obtain ⟨stride, hstride, h⟩ := bind_eq_ok_iff.mp h
    obtain ⟨count, -, h⟩ := bind_eq_ok_iff.mp h
    obtain ⟨square, hsquare, hstride⟩ := bind_eq_ok_iff.mp hstride
    obtain ⟨rfl, -⟩ := mulWithin_eq_ok_iff.mp hsquare
    obtain ⟨rfl, -⟩ := mulWithin_eq_ok_iff.mp hstride
    have hslots : c.slots = Array.replicate (max 1 count) (Slot.empty
        (config.edge * config.edge * Config.bytesPerPixel / Config.bytesPerPixel)) := by
      cases h
      rfl
    have hedge : c.edge = config.edge := by
      cases h
      rfl
    refine ⟨?_, ?_, ?_⟩
    · cases h
      rfl
    · cases h
      rfl
    · intro j
      have hthere := c.getElem?_slotIndex j
      have hlt := c.slotIndex_lt j
      rw [hslots, Array.size_replicate] at hlt
      rw [hslots, Array.getElem?_replicate, if_pos hlt,
        Nat.mul_div_cancel _ (by decide), ← hedge] at hthere
      exact (Option.some.inj hthere).symm
  · cases h

theorem wellKept_ofConfig {config : Config} (h : ofConfig config = .ok c) : WellKept c := by
  obtain ⟨hgrid, hvalid, hslot⟩ := ofConfig_cases h
  refine ⟨?_, ?_, ?_, ?_, ?_, ?_⟩
  · rw [tileCount, hgrid]
    decide
  · rw [tileCount, hgrid, hvalid]
    rfl
  · intro j i hi
    rw [hslot] at hi
    cases hi
  · intro j i hi
    rw [hslot] at hi
    cases hi
  · intro i hi
    rw [hvalid] at hi
    exact absurd hi BitSet.not_mem_ofSize
  · intro j
    rw [hslot]
    exact Array.size_replicate

end TileCache

/-! ## 3. Sessions -/

namespace CacheSession

open TileCache

/-- The invariant of a session: no two calls in progress share a slot. -/
structure Sound (s : CacheSession) : Prop where
  cache : s.cache.WellKept
  calls : ∀ call ∈ s.rendering, s.cache.Admitted call.ticket
  apart : s.rendering.Pairwise fun a b =>
    s.cache.slotIndex a.ticket.index ≠ s.cache.slotIndex b.ticket.index

variable {s s' : CacheSession}

theorem Sound.operate (h : s.Sound) (op : CacheOp) : (s.operate op).Sound := by
  unfold CacheSession.operate
  split
  · exact h
  · next cache happly =>
    rcases CacheOp.apply_cases happly with ⟨-, htrim⟩ | ⟨-, hgrid⟩
    · have hslots : cache.slots.size = s.cache.slots.size := by rw [htrim.slots]
      refine ⟨h.cache.trimmed htrim, ?_, ?_⟩
      · intro call hcall
        exact (h.calls call hcall).trimmed htrim
      · simp only [slotIndex_eq_of_size hslots]
        exact h.apart
    · have hslots : cache.slots.size = s.cache.slots.size := by
        rw [hgrid.slots, Array.size_map]
      refine ⟨h.cache.regridded hgrid, ?_, ?_⟩
      · intro call hcall
        exact (h.calls call hcall).regridded hgrid
      · simp only [slotIndex_eq_of_size hslots]
        exact h.apart

theorem Sound.start (h : s.Sound) {cancelled late : Bool} {index : Nat} {context : Context}
    (hfree : s.Free index) : (s.start cancelled index context late).Sound := by
  have hslots := (vacate_rest s.cache index).2.2.2.2
  have hvacated : ∀ call ∈ s.rendering, (s.cache.vacate index).Admitted call.ticket := by
    intro call hcall
    exact (h.calls call hcall).vacate (hfree call hcall).symm
  rcases hstart : s.cache.start cancelled index context late with ⟨cache, outcome⟩
  -- without a render the cache is as it was, or the slot is vacated
  have hvacate (hin : index < s.cache.tileCount) :
      ({ s with cache := s.cache.vacate index } : CacheSession).Sound := by
    refine ⟨h.cache.vacate hin, hvacated, ?_⟩
    simp only [slotIndex_eq_of_size hslots]
    exact h.apart
  rcases start_cases h.cache.fits hstart with
    ⟨rfl, rfl⟩ | ⟨hin, -, -, -, ⟨-, rfl, rfl⟩ | ⟨-, fault, -, rfl, rfl⟩ |
      ⟨-, area, harea, rfl, rfl⟩⟩
  · simp only [CacheSession.start, hstart]
    exact h
  · simp only [CacheSession.start, hstart]
    exact hvacate hin
  · simp only [CacheSession.start, hstart]
    exact hvacate hin
  · simp only [CacheSession.start, hstart]
    have hsize : ((s.cache.vacate index).clearBuffer index).slots.size = s.cache.slots.size :=
      ((s.cache.vacate index).size_slots_modifySlot index _).trans hslots
    refine ⟨(h.cache.vacate hin).clearBuffer index, ?_, ?_⟩
    · intro call hcall
      rcases List.mem_cons.mp hcall with rfl | hcall
      · exact admitted_start h.cache hin harea
      · exact (hvacated call hcall).refill index _
    · simp only [slotIndex_eq_of_size hsize, List.pairwise_cons]
      refine ⟨?_, h.apart⟩
      intro call hcall
      exact (hfree call hcall).symm

/-- What is left of the calls in progress when one of them ends. -/
theorem Sound.without (h : s.Sound) {call other : RenderCall} (hcall : call ∈ s.rendering)
    (hother : other ∈ s.without call) :
    other ∈ s.rendering ∧
      s.cache.slotIndex call.ticket.index ≠ s.cache.slotIndex other.ticket.index := by
  simp only [CacheSession.without, List.mem_filter, ne_eq, decide_eq_true_eq] at hother
  refine ⟨hother.1, ?_⟩
  have hne : call ≠ other := by
    rintro rfl
    exact hother.2 rfl
  have hsymm : Std.Symm fun a b : RenderCall =>
      s.cache.slotIndex a.ticket.index ≠ s.cache.slotIndex b.ticket.index :=
    ⟨fun _ _ hab => hab.symm⟩
  exact h.apart.forall hcall hother.1 hne

theorem Sound.finish (h : s.Sound) {call : RenderCall} {pixels : Array Pixel}
    {fault : Option Fault} (hcall : call ∈ s.rendering)
    (hsize : pixels.size = call.ticket.pixels.size) : (s.finish call pixels fault).Sound := by
  have hadm := h.calls call hcall
  have hfull : pixels.size = s.cache.edge * s.cache.edge := by
    rw [hsize, hadm.buffer, Array.size_replicate]
  have habandon := h.cache.abandon call.ticket hfull
  have hsub : (s.without call).Sublist s.rendering := List.filter_sublist
  have hslots : (s.cache.abandon call.ticket pixels).slots.size = s.cache.slots.size :=
    s.cache.size_slots_modifySlot call.ticket.index _
  -- the other renders are in other slots, and what they were given stays right
  have hothers : ∀ other ∈ s.without call,
      (s.cache.abandon call.ticket pixels).Admitted other.ticket := by
    intro other hother
    exact (h.calls other (h.without hcall hother).1).refill call.ticket.index _
  have hapart : ∀ cache : TileCache, cache.slots.size = s.cache.slots.size →
      (s.without call).Pairwise fun a b =>
        cache.slotIndex a.ticket.index ≠ cache.slotIndex b.ticket.index := by
    intro cache hcache
    simp only [slotIndex_eq_of_size hcache]
    exact h.apart.sublist hsub
  cases fault with
  | some fault => exact ⟨habandon, hothers, hapart _ hslots⟩
  | none =>
    obtain ⟨img, -, -, -, hpublish⟩ := publish_cases (t := call.ticket) hfull
    simp only [CacheSession.finish, hpublish]
    split
    · next hforce =>
      -- the grid is still that of the ticket, so its tile is one of the grid
      obtain ⟨hin, -⟩ := hadm.current hforce.1.symm
      have hslot := hadm.refill call.ticket.index fun _ => pixels
      refine ⟨habandon.install hin hslot.slot img, ?_, ?_⟩
      · intro other hother
        refine (hothers other hother).install ?_ img
        rw [slotIndex_eq_of_size hslots, slotIndex_eq_of_size hslots]
        exact (h.without hcall hother).2
      · exact hapart _ (((s.cache.abandon call.ticket pixels).size_slots_modifySlot
          call.ticket.index _).trans hslots)
    · exact ⟨habandon, hothers, hapart _ hslots⟩

theorem Sound.step (h : s.Sound) (hstep : Step s s') : s'.Sound := by
  cases hstep with
  | operate op => exact h.operate op
  | start cancelled late index context hfree => exact h.start hfree
  | finish call pixels fault hcall hsize => exact h.finish hcall hsize

theorem sound_of_reachable (h : s.Reachable) : s.Sound := by
  refine Reachable.invariant ?_ (fun _ _ => Sound.step) h
  intro config cache hcache
  refine ⟨wellKept_ofConfig hcache, ?_, List.Pairwise.nil⟩
  intro call hcall
  cases hcall

/-! ## 4. What the invariant says -/

theorem isSome_image?_iff {c : TileCache} (h : c.WellKept) {i : Nat} (hi : i < c.tileCount) :
    (c.image? i).isSome = true ↔ c.isResident i = true := by
  unfold TileCache.image?
  constructor
  · intro hsome
    split at hsome
    · assumption
    · cases hsome
  · intro hres
    obtain ⟨img, himg⟩ := h.image i i ((isResident_iff (Nat.lt_trans hi h.fits)).mp hres)
    simp only [hres, if_true, himg, Option.isSome_some]

/-- Of the tiles that share a slot at most one is kept in it. -/
theorem eq_of_kept {c : TileCache} {i j : Nat} (hi : (c.slot i).occupant = some i)
    (hj : (c.slot j).occupant = some j) (hslot : i % c.poolSize = j % c.poolSize) : i = j := by
  rw [slot_congr hslot, hj] at hi
  exact (Option.some.inj hi).symm

/-- Of the tiles that share a slot at most one is valid. -/
theorem eq_of_valid {c : TileCache} (h : c.WellKept) {i j : Nat} (hi : i ∈ c.valid)
    (hj : j ∈ c.valid) (hslot : i % c.poolSize = j % c.poolSize) : i = j :=
  eq_of_kept (h.resident i hi) (h.resident j hj) hslot

/-- There are never more tiles in slots than slots. -/
theorem length_kept_le {c : TileCache} {tiles : List Nat} (hnodup : tiles.Nodup)
    (hkept : ∀ i ∈ tiles, (c.slot i).occupant = some i) : tiles.length ≤ c.poolSize := by
  have hresidues : (tiles.map (· % c.poolSize)).Nodup := by
    refine List.Nodup.map_on ?_ hnodup
    intro i hi j hj
    exact eq_of_kept (hkept i hi) (hkept j hj)
  have hsub : tiles.map (· % c.poolSize) ⊆ List.range c.poolSize := by
    intro r hr
    obtain ⟨i, -, rfl⟩ := List.mem_map.mp hr
    exact List.mem_range.mpr (Nat.mod_lt _ c.slots_pos)
  have hlen := hresidues.length_le_of_subset hsub
  rwa [List.length_map, List.length_range] at hlen

theorem length_valid_le {c : TileCache} (h : c.WellKept) :
    c.valid.toList.length ≤ c.poolSize := by
  refine length_kept_le (List.nodup_range.filter _) ?_
  intro i hi
  exact h.resident i (BitSet.mem_toList.mp hi)

/-- **The representation of a cache.**  In every session, also while engines
    render: there is one validity bit for each tile of the grid and one more, which is
    never set; a slot is empty, or it keeps a tile of the grid with its residue and an
    image of this tile; a tile of the grid has an image exactly when it is resident;
    and every valid tile is resident.  So there are at most as many valid tiles as
    slots, and no two of one residue. -/
theorem reachable_representation (h : s.Reachable) :
    let c := s.cache
    let tiles := c.grid.columns * c.grid.rows
    (c.valid.size = tiles + 1 ∧ ¬tiles ∈ c.valid) ∧
      (∀ k slot, c.slots[k]? = some slot →
        (slot.occupant = none ∨ ∃ i img, slot.occupant = some i ∧ i < tiles ∧
          i % c.poolSize = k ∧ slot.image = some (i, img))) ∧
      (∀ i, i < tiles → ((c.image? i).isSome = true ↔ c.isResident i = true)) ∧
      (∀ i, i ∈ c.valid → i < tiles ∧ c.isResident i = true) ∧
      (∀ i j, i ∈ c.valid → j ∈ c.valid → i % c.poolSize = j % c.poolSize → i = j) ∧
      c.valid.toList.length ≤ c.poolSize := by
  have hkept := (sound_of_reachable h).cache
  -- a valid tile is in its slot, and what is in a slot is a tile of the grid
  have hvalid : ∀ i, i ∈ s.cache.valid →
      i < s.cache.tileCount ∧ s.cache.isResident i = true := by
    intro i hi
    have hocc := hkept.resident i hi
    obtain ⟨hlt, -⟩ := hkept.occupant i i hocc
    exact ⟨hlt, (isResident_iff (Nat.lt_trans hlt hkept.fits)).mpr hocc⟩
  refine ⟨⟨hkept.bits, ?_⟩, ?_, ?_, hvalid, ?_, length_valid_le hkept⟩
  · intro hsentinel
    exact Nat.lt_irrefl _ (hvalid _ hsentinel).1
  · intro k slot hslot
    obtain ⟨hk, -⟩ := Array.getElem?_eq_some_iff.mp hslot
    have hindex : s.cache.slotIndex k = k := Nat.mod_eq_of_lt hk
    have hthere := s.cache.getElem?_slotIndex k
    rw [hindex, hslot] at hthere
    obtain rfl := Option.some.inj hthere
    cases hocc : (s.cache.slot k).occupant with
    | none => exact Or.inl rfl
    | some i =>
      obtain ⟨hlt, hres⟩ := hkept.occupant k i hocc
      obtain ⟨img, himg⟩ := hkept.image k i hocc
      rw [hindex] at hres
      exact Or.inr ⟨i, img, rfl, hlt, hres, himg⟩
  · intro i hi
    exact isSome_image?_iff hkept hi
  · intro i j hi hj
    exact eq_of_valid hkept hi hj

theorem reachable_representation_second :
    Sample.second.Reachable ∧ Sample.second.cache.valid.toList = [2] ∧
      (Sample.second.cache.valid.size = 3 + 1 ∧ ¬3 ∈ Sample.second.cache.valid) ∧
      ((Sample.second.cache.image? 0).isSome = true ↔
        Sample.second.cache.isResident 0 = true) ∧
      Sample.second.cache.isResident 2 = true ∧
      Sample.second.cache.valid.toList.length ≤ 2 := by
  have hreach := Sample.reachable_second
  have hvalid : 2 ∈ Sample.second.cache.valid := by decide +kernel
  have htiles : Sample.second.cache.grid.columns * Sample.second.cache.grid.rows = 3 := by
    decide +kernel
  have hpool : Sample.second.cache.poolSize = 2 := by decide +kernel
  obtain ⟨hbits, -, himage, hres, -, hlen⟩ := reachable_representation hreach
  rw [htiles] at hbits
  rw [hpool] at hlen
  exact ⟨hreach, by decide +kernel, hbits, himage 0 (by decide +kernel), (hres 2 hvalid).2, hlen⟩

end CacheSession

end TilePaint
