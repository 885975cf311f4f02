/-
  TilePaint/Proofs/PaintSequence.lean
  ===================================
  **What any sequence of paints leaves in the cache.**

  The tiles of one slot evict each other, a tile that was fresh at first may be gone
  and be rendered again later on, and a paint of a fresh tile does nothing.  All the
  same the outcome is simple: each slot that was painted into has the last tile of the
  sequence that belongs there, and no other slot was touched.

  One paint changes its own slot only (`OnlySlots`) and leaves no tile there but its own
  (`Struck`).  So the paints after the last one into a slot do not matter for that slot,
  and the ones before it do not either, whatever they did (`strokes_last`).
-/
import TilePaint.Proofs.PublicationGate
import TilePaint.Proofs.RangeLists

namespace TilePaint

namespace TileCache

/-! ## 1. Sequences of paints -/

/-- A tile to paint, and an engine that comes back and leaves the cache as it is. -/
structure Stroke where
  index : Nat
  engine : (t : Ticket) → TileCache → Rendering t
  leaves : ∀ t c, (engine t c).cache = c
  returns : ∀ t c, (engine t c).fault = none

/-- Paint a tile under the active context, with a flag that is not set. -/
def stroke (c : TileCache) (p : Stroke) : TileCache :=
  (c.paint false p.index c.context p.engine).1

def strokes (c : TileCache) (ps : List Stroke) : TileCache := ps.foldl stroke c

/-- A stroke at the tile calls the engine. -/
def Renders (c : TileCache) (index : Nat) : Prop :=
  ∃ t, (c.start false index c.context).2 = .ok (.render t)

variable {c c' c'' : TileCache} {p : Stroke} {ps before after : List Stroke} {index j : Nat}

theorem strokes_append : c.strokes (before ++ after) = (c.strokes before).strokes after :=
  List.foldl_append

/-! ## 2. What is left alone -/

/-- Nothing has changed but the slots of some tiles, and which tiles of these slots are
    valid. -/
structure OnlySlots (c c' : TileCache) (indices : List Nat) : Prop where
  edge : c'.edge = c.edge
  grid : c'.grid = c.grid
  context : c'.context = c.context
  slots : c'.slots.size = c.slots.size
  slot : ∀ j, (∀ i ∈ indices, c.slotIndex i ≠ c.slotIndex j) → c'.slot j = c.slot j
  valid : ∀ j, (∀ i ∈ indices, c.slotIndex i ≠ c.slotIndex j) → (j ∈ c'.valid ↔ j ∈ c.valid)

theorem OnlySlots.refl (c : TileCache) (indices : List Nat) : OnlySlots c c indices :=
  ⟨rfl, rfl, rfl, rfl, fun _ _ => rfl, fun _ _ => Iff.rfl⟩

theorem OnlySlots.trans {as bs : List Nat} (h : OnlySlots c c' as) (h' : OnlySlots c' c'' bs) :
    OnlySlots c c'' (as ++ bs) := by
  have hclass : ∀ {j}, (∀ i ∈ as ++ bs, c.slotIndex i ≠ c.slotIndex j) →
      (∀ i ∈ as, c.slotIndex i ≠ c.slotIndex j) ∧ ∀ i ∈ bs, c'.slotIndex i ≠ c'.slotIndex j := by
    intro j hj
    refine ⟨fun i hi => hj i (List.mem_append_left _ hi), fun i hi => ?_⟩
    rw [slotIndex_eq_of_size h.slots, slotIndex_eq_of_size h.slots]
    exact hj i (List.mem_append_right _ hi)
  refine ⟨h'.edge.trans h.edge, h'.grid.trans h.grid, h'.context.trans h.context,
    h'.slots.trans h.slots, fun j hj => ?_, fun j hj => ?_⟩
  · exact (h'.slot j (hclass hj).2).trans (h.slot j (hclass hj).1)
  · exact (h'.valid j (hclass hj).2).trans (h.valid j (hclass hj).1)

theorem OnlySlots.isFresh {indices : List Nat} (h : OnlySlots c c' indices)
    (hj : ∀ i ∈ indices, c.slotIndex i ≠ c.slotIndex j) : c'.isFresh j = c.isFresh j := by
  simp only [TileCache.isFresh, isResident, h.slot j hj, h.valid j hj]

theorem OnlySlots.hasCorner {indices : List Nat} (h : OnlySlots c c' indices) :
    c'.HasCorner j ↔ c.HasCorner j := by
  rw [HasCorner, HasCorner, h.edge, h.grid]

theorem onlySlots_vacate (h : WellKept c) (index : Nat) :
    OnlySlots c (c.vacate index) [index] := by
  obtain ⟨hgrid, hedge, hcontext, -, hslots⟩ := vacate_rest c index
  refine ⟨hedge, hgrid, hcontext, hslots, fun j hj => ?_, fun j hj => ?_⟩
  · exact slot_vacate_of_ne (hj index (List.mem_singleton_self _))
  · rw [mem_valid_vacate]
    refine and_iff_left (Or.inr fun hocc => ?_)
    exact hj index (List.mem_singleton_self _) (h.occupant index j hocc).2.symm

theorem onlySlots_refill (c : TileCache) (index : Nat) (g : Slot → Array Pixel) :
    OnlySlots c (c.modifySlot index fun s => { s with pixels := g s }) [index] := by
  refine ⟨rfl, rfl, rfl, c.size_slots_modifySlot index _, fun j hj => ?_, fun j _ => Iff.rfl⟩
  rw [slot_modifySlot, if_neg (hj index (List.mem_singleton_self _))]

theorem onlySlots_install (hbit : index < c.valid.size) (img : Image) :
    OnlySlots c (c.install index img) [index] := by
  refine ⟨rfl, rfl, rfl, c.size_slots_modifySlot index _, fun j hj => ?_, fun j hj => ?_⟩
  · rw [slot_install, if_neg (hj index (List.mem_singleton_self _))]
  · rw [mem_valid_install hbit]
    refine or_iff_right ?_
    rintro rfl
    exact hj j (List.mem_singleton_self _) rfl

/-! ## 3. One stroke -/

/-- What a stroke at tile `index` leaves behind.  The stroke fails if the tile has no
    corner; no cache of up to two tebibytes has such a tile. -/
structure Struck (c c' : TileCache) (index : Nat) : Prop where
  wellKept : WellKept c'
  only : OnlySlots c c' [index]
  occupant : (c'.slot index).occupant = none ∨ (c'.slot index).occupant = some index
  fresh : c.HasCorner index → c'.isFresh index = true

/-- A tile whose slot keeps no other tile is alone there. -/
theorem WellKept.alone (h : WellKept c) (hj : j < c.tileCount) (hne : j ≠ index)
    (hslot : c.slotIndex j = c.slotIndex index)
    (hocc : (c.slot index).occupant = none ∨ (c.slot index).occupant = some index) :
    c.isValid j = false ∧ c.isResident j = false := by
  have hgone : (c.slot j).occupant ≠ some j := by
    rw [slot_congr hslot]
    intro hsome
    rcases hocc with hnone | hindex
    · rw [hnone] at hsome
      cases hsome
    · rw [hindex] at hsome
      exact hne (Option.some.inj hsome).symm
  constructor
  · refine Bool.eq_false_iff.mpr fun hvalid => ?_
    exact hgone (h.resident j (of_decide_eq_true (Bool.and_eq_true_iff.mp hvalid).2))
  · exact Bool.eq_false_iff.mpr fun hres =>
      hgone ((isResident_iff (Nat.lt_trans hj h.fits)).mp hres)

theorem struck_install (h : WellKept c) (hin : index < c.tileCount)
    (hocc : (c.slot index).occupant = none ∨ (c.slot index).occupant = some index) (img : Image) :
    Struck c (c.install index img) index := by
  have hbit : index < c.valid.size := by
    rw [h.bits]
    omega
  have hthere : ((c.install index img).slot index).occupant = some index := by
    rw [slot_install, if_pos rfl]
  refine ⟨h.install hin hocc img, onlySlots_install hbit img, Or.inr hthere, fun _ => ?_⟩
  rw [isFresh, Bool.and_eq_true, decide_eq_true_eq, isResident_iff (Nat.lt_trans hin h.fits)]
  exact ⟨(mem_valid_install hbit).mpr (Or.inl rfl), hthere⟩

/-- What came before in the same slot does not matter. -/
theorem Struck.behind (h : OnlySlots c c' [index]) (h' : Struck c' c'' index) :
    Struck c c'' index where
  wellKept := h'.wellKept
  only := by
    have hboth := h.trans h'.only
    refine ⟨hboth.edge, hboth.grid, hboth.context, hboth.slots, fun j hj => hboth.slot j ?_,
      fun j hj => hboth.valid j ?_⟩
    · simpa using hj
    · simpa using hj
  occupant := h'.occupant
  fresh hcorner := h'.fresh (h.hasCorner.mpr hcorner)

/-- The end of a render whose ticket is in force. -/
theorem struck_publish (h : WellKept c) {t : Ticket} (ht : Admitted c t) (hforce : c.InForce t)
    {pixels : Array Pixel} (hsize : pixels.size = t.pixels.size) :
    Struck c (c.publish t pixels).1 t.index := by
  have hfull : pixels.size = c.edge * c.edge := by
    rw [hsize, ht.buffer, Array.size_replicate]
  have hslot := (ht.refill t.index fun _ => pixels).slot
  obtain ⟨img, -, -, -, hpublish⟩ := publish_cases (t := t) hfull
  rw [hpublish, if_pos hforce]
  exact Struck.behind (onlySlots_refill c t.index fun _ => pixels)
    (struck_install (h.abandon t hfull) (ht.current hforce.1.symm).1 hslot img)

theorem admitted_of_start (h : WellKept c) {context : Context} {t : Ticket}
    (hstart : c.start false index context = (c', .ok (.render t))) : Admitted c' t := by
  rcases start_cases h.fits hstart with
    ⟨-, hskip⟩ | ⟨hin, -, -, -, ⟨hlate, -⟩ | ⟨-, fault, -, -, hfault⟩ |
      ⟨-, area, harea, rfl, hrender⟩⟩
  · cases hskip
  · cases hlate
  · cases hfault
  · cases hrender
    exact admitted_start h hin harea

/-- **One stroke.**  It calls the engine unless the tile is fresh, and leaves the tile
    fresh in any case. -/
theorem struck_stroke (h : WellKept c) (hin : p.index < c.tileCount) :
    Struck c (c.stroke p) p.index ∧
      (c.Renders p.index ↔ c.isFresh p.index = false ∧ c.HasCorner p.index) := by
  have hsmall : p.index < maxIndex := Nat.lt_trans hin h.fits
  have hrefused : c.Refused false p.index c.context ↔ c.isFresh p.index = true := by
    simp [Refused, isFresh_iff hin, Nat.not_le.mpr hin]
  cases hfresh : c.isFresh p.index with
  | true =>
    have hstart := start_of_refused h.fits (hrefused.mpr hfresh) false
    -- a fresh tile is not painted again, and it is in its slot already
    have hocc := (isResident_iff hsmall).mp (Bool.and_eq_true_iff.mp hfresh).2
    simp only [stroke, paint, Renders, hstart]
    refine ⟨⟨h, OnlySlots.refl c _, Or.inr hocc, fun _ => hfresh⟩, ?_⟩
    simp
  | false =>
    have hadmitted : ¬c.Refused false p.index c.context := by
      rw [hrefused, hfresh]
      exact Bool.false_ne_true
    obtain ⟨-, -, ⟨hnone, hstart⟩ | ⟨t, hcorner, hindex, hgeneration, hcontext, hstart⟩⟩ :=
      start_of_not_refused h.fits hadmitted
    · -- the corner overflows: the slot is vacated and that is all
      simp only [stroke, paint, Renders, hstart]
      refine ⟨⟨h.vacate hin, onlySlots_vacate h p.index, ?_, fun hcorner => absurd hcorner hnone⟩,
        ?_⟩
      · rw [occupant_vacate hsmall rfl]
        split
        · exact Or.inr rfl
        · exact Or.inl rfl
      · simp [hnone]
    · obtain ⟨hgrid, -, hsame, -, -⟩ := vacate_rest c p.index
      have hforce : ((c.vacate p.index).clearBuffer p.index).InForce t :=
        ⟨(congrArg Grid.generation hgrid).trans hgeneration.symm, hsame.trans hcontext.symm⟩
      have hpublish := struck_publish ((h.vacate hin).clearBuffer p.index)
        (admitted_of_start h hstart) hforce
        (p.engine t ((c.vacate p.index).clearBuffer p.index)).size_pixels
      rw [hindex] at hpublish
      simp only [stroke, paint, Renders, hstart, p.returns, p.leaves]
      refine ⟨Struck.behind (onlySlots_vacate h p.index)
        (Struck.behind (onlySlots_refill _ p.index _) hpublish), ?_⟩
      simp [hcorner]

/-! ## 4. A sequence of strokes -/

theorem strokes_only (h : WellKept c) (hin : ∀ p ∈ ps, p.index < c.tileCount) :
    WellKept (c.strokes ps) ∧ OnlySlots c (c.strokes ps) (ps.map Stroke.index) := by
  induction ps generalizing c with
  | nil => exact ⟨h, OnlySlots.refl c _⟩
  | cons p ps ih =>
    obtain ⟨hstruck, -⟩ := struck_stroke h (hin p (List.mem_cons_self ..))
    have hcount := tileCount_eq_of_grid hstruck.only.grid
    obtain ⟨hkept, honly⟩ := ih hstruck.wellKept fun q hq => by
      rw [hcount]
      exact hin q (List.mem_cons_of_mem _ hq)
    exact ⟨hkept, hstruck.only.trans honly⟩

/-- **The last stroke into a slot** decides which tile is there in the end. -/
theorem strokes_last (h : WellKept c) (hin : ∀ q ∈ before ++ p :: after, q.index < c.tileCount)
    (hlast : ∀ q ∈ after, c.slotIndex q.index ≠ c.slotIndex p.index) :
    (c.HasCorner p.index → (c.strokes (before ++ p :: after)).isFresh p.index = true) ∧
      ∀ j, j < c.tileCount → j ≠ p.index → c.slotIndex j = c.slotIndex p.index →
        (c.strokes (before ++ p :: after)).isValid j = false ∧
          (c.strokes (before ++ p :: after)).isResident j = false := by
  obtain ⟨hkept₁, honly₁⟩ := strokes_only h fun q hq => hin q (List.mem_append_left _ hq)
  have hcount₁ := tileCount_eq_of_grid honly₁.grid
  have hin₂ : ∀ q ∈ p :: after, q.index < (c.strokes before).tileCount := fun q hq => by
    rw [hcount₁]
    exact hin q (List.mem_append_right _ hq)
  obtain ⟨hstruck, -⟩ := struck_stroke hkept₁ (hin₂ p (List.mem_cons_self ..))
  have hcount₂ := tileCount_eq_of_grid hstruck.only.grid
  have honly₂ := honly₁.trans hstruck.only
  obtain ⟨hkept₃, honly₃⟩ := strokes_only hstruck.wellKept fun q hq => by
    rw [hcount₂]
    exact hin₂ q (List.mem_cons_of_mem _ hq)
  have hclass : ∀ i ∈ after.map Stroke.index,
      ((c.strokes before).stroke p).slotIndex i ≠
        ((c.strokes before).stroke p).slotIndex p.index := by
    intro i hi
    obtain ⟨q, hq, rfl⟩ := List.mem_map.mp hi
    rw [slotIndex_eq_of_size honly₂.slots, slotIndex_eq_of_size honly₂.slots]
    exact hlast q hq
  -- the later strokes are in other slots, so they neither see nor undo the last one
  rw [show c.strokes (before ++ p :: after) = ((c.strokes before).stroke p).strokes after from
    strokes_append]
  constructor
  · intro hcorner
    rw [honly₃.isFresh hclass]
    exact hstruck.fresh (honly₁.hasCorner.mpr hcorner)
  · intro j hj hne hslot
    have hocc := hstruck.occupant
    rw [← honly₃.slot p.index hclass] at hocc
    refine hkept₃.alone ?_ hne ?_ hocc
    · rw [tileCount_eq_of_grid honly₃.grid, hcount₂, hcount₁]
      exact hj
    · rw [slotIndex_eq_of_size (honly₃.slots.trans honly₂.slots),
        slotIndex_eq_of_size (honly₃.slots.trans honly₂.slots)]
      exact hslot

/-- A slot that was painted into has a last stroke. -/
theorem exists_last_stroke {k : Nat} (h : ∃ p ∈ ps, c.slotIndex p.index = k) :
    ∃ before p after, ps = before ++ p :: after ∧ c.slotIndex p.index = k ∧
      ∀ q ∈ after, c.slotIndex q.index ≠ k := by
  induction ps with
  | nil => simp at h
  | cons q ps ih =>
    by_cases hlater : ∃ p ∈ ps, c.slotIndex p.index = k
    · obtain ⟨before, p, after, rfl, hp, hafter⟩ := ih hlater
      exact ⟨q :: before, p, after, rfl, hp, hafter⟩
    · obtain ⟨p, hp, hk⟩ := h
      rcases List.mem_cons.mp hp with rfl | hp
      · exact ⟨[], p, ps, rfl, hk, fun q hq heq => hlater ⟨q, hq, heq⟩⟩
      · exact absurd ⟨p, hp, hk⟩ hlater

/-- If every slot is painted into for one tile at most, nothing remains to be painted. -/
theorem remaining_strokes (h : WellKept c) (hin : ∀ p ∈ ps, p.index < c.tileCount)
    (hone : ∀ p ∈ ps, ∀ q ∈ ps, c.slotIndex p.index = c.slotIndex q.index → p.index = q.index)
    {ranges : List TileRange}
    (hranges : ∀ i, Covers ranges i → c.HasCorner i ∧ ∃ p ∈ ps, p.index = i) :
    (c.strokes ps).remaining ranges = [] := by
  refine List.eq_nil_iff_forall_not_mem.mpr fun r hr => ?_
  have hfirst : Covers ((c.strokes ps).remaining ranges) r.first :=
    ⟨r, hr, Nat.le_refl _, wellFormed_remaining (c.strokes ps) ranges r hr⟩
  obtain ⟨hcovers, -, hstale⟩ := covers_remaining.mp hfirst
  obtain ⟨hcorner, q, hq, hindex⟩ := hranges _ hcovers
  obtain ⟨before, p, after, rfl, hp, hafter⟩ := exists_last_stroke (c := c) ⟨q, hq, rfl⟩
  have hsame := hone p (by simp) q hq hp
  have hlast := (strokes_last h hin (by rw [hp]; exact hafter)).1
  rw [hsame, hindex, hstale] at hlast
  cases hlast hcorner

theorem split_run {run : TileRange} (hrun : ps.map Stroke.index = run.toList) {i : Nat}
    (hi : i ∈ run) :
    ∃ before p after, ps = before ++ p :: after ∧ p.index = i ∧
      ∀ q ∈ after, i < q.index ∧ q.index ≤ run.last := by
  have hmem : i ∈ ps.map Stroke.index := by
    rw [hrun]
    exact TileRange.mem_toList.mpr hi
  obtain ⟨p, hp, rfl⟩ := List.mem_map.mp hmem
  obtain ⟨before, after, rfl⟩ := List.append_of_mem hp
  refine ⟨before, p, after, rfl, rfl, fun q hq => ⟨?_, ?_⟩⟩
  · have hascending : run.toList.Pairwise (· < ·) := List.pairwise_lt_range'
    rw [← hrun, List.map_append, List.map_cons] at hascending
    exact (List.pairwise_cons.mp (List.pairwise_append.mp hascending).2.1).1 _
      (List.mem_map_of_mem hq)
  · have hthere : q.index ∈ run.toList := by
      rw [← hrun]
      exact List.mem_map_of_mem (by simp [hq])
    exact (TileRange.mem_toList.mp hthere).2

/-- **A run of tiles** leaves its last tiles, as many as there are slots. -/
theorem strokes_run (h : WellKept c) (hin : ∀ p ∈ ps, p.index < c.tileCount) {run : TileRange}
    (hrun : ps.map Stroke.index = run.toList) {i : Nat} (hi : i ∈ run) :
    (run.last < i + c.poolSize → c.HasCorner i → (c.strokes ps).isFresh i = true) ∧
      (i + c.poolSize ≤ run.last →
        (c.strokes ps).isValid i = false ∧ (c.strokes ps).isResident i = false) := by
  have hpool : 0 < c.poolSize := c.slots_pos
  -- the tiles of the run behind `k` are too close to it to share its slot
  have hapart : ∀ k j, k < j → j < k + c.poolSize → c.slotIndex j ≠ c.slotIndex k := by
    intro k j hlt hclose hsame
    have hmod : (j - k) % c.poolSize = 0 := Nat.sub_mod_eq_zero_of_mod_eq hsame
    rw [Nat.mod_eq_of_lt (by omega)] at hmod
    omega
  constructor
  · intro hlast hcorner
    obtain ⟨before, p, after, rfl, rfl, hafter⟩ := split_run hrun hi
    refine (strokes_last h hin fun q hq => ?_).1 hcorner
    obtain ⟨hlt, hle⟩ := hafter q hq
    exact hapart _ _ hlt (by omega)
  · intro hearly
    -- the last tile of the run that belongs into the slot of `i`
    have hdiv := Nat.div_add_mod (run.last - i) c.poolSize
    have hmod := Nat.mod_lt (run.last - i) hpool
    have hpos : 0 < c.poolSize * ((run.last - i) / c.poolSize) :=
      Nat.mul_pos hpool (Nat.div_pos (by omega) hpool)
    have hbehind : i + c.poolSize * ((run.last - i) / c.poolSize) ∈ run := by
      have hfirst := hi.1
      constructor
      · omega
      · omega
    obtain ⟨before, p, after, rfl, hp, hafter⟩ := split_run hrun hbehind
    have hslot : c.slotIndex i = c.slotIndex p.index := by
      rw [hp]
      exact (Nat.add_mul_mod_self_left ..).symm
    refine (strokes_last h hin fun q hq => ?_).2 i ?_ (by omega) hslot
    · obtain ⟨hlt, hle⟩ := hafter q hq
      rw [hp]
      exact hapart _ _ hlt (by omega)
    · have hlt := hin p (by simp)
      omega

/-! ## 5. The outcome -/

/-- What a sequence of strokes makes of the cache `c`. -/
structure Painted (c : TileCache) (ps : List Stroke) : Prop where
  /-- Only a cache of more than two tebibytes has a tile without a corner. -/
  corner : c.slotAndBitBytes ≤ 2 ^ 41 → ∀ i, i < c.tileCount → c.HasCorner i
  last : ∀ before p after, ps = before ++ p :: after →
    (∀ q ∈ after, q.index % c.poolSize ≠ p.index % c.poolSize) →
    (c.HasCorner p.index →
        (c.strokes ps).isValid p.index = true ∧ (c.strokes ps).isResident p.index = true) ∧
      ∀ j, j < c.tileCount → j ≠ p.index → j % c.poolSize = p.index % c.poolSize →
        (c.strokes ps).isValid j = false ∧ (c.strokes ps).isResident j = false
  unmet : ∀ j, (∀ p ∈ ps, p.index % c.poolSize ≠ j % c.poolSize) →
    (c.strokes ps).slot j = c.slot j ∧ (c.strokes ps).isValid j = c.isValid j
  renders : ∀ before p after, ps = before ++ p :: after → c.HasCorner p.index →
    ((c.strokes before).Renders p.index ↔
      ¬((c.strokes before).isValid p.index = true ∧ (c.strokes before).isResident p.index = true))
  run : ∀ run : TileRange, ps.map Stroke.index = run.toList → ∀ i ∈ run, c.HasCorner i →
    ((c.strokes ps).isValid i = true ∧ (c.strokes ps).isResident i = true ↔
      run.last + 1 - min c.poolSize (run.last + 1 - run.first) ≤ i)
  remaining : (∀ p ∈ ps, ∀ q ∈ ps,
      p.index % c.poolSize = q.index % c.poolSize → p.index = q.index) →
    ∀ ranges, (∀ i, Covers ranges i → c.HasCorner i ∧ ∃ p ∈ ps, p.index = i) →
      (c.strokes ps).remaining ranges = []

end TileCache

namespace CacheSession

open TileCache

/-- **Any order of paints.**  Of the tiles that share a slot, the one that was painted
    last is valid and resident, and no other one is.  Slots that no tile was painted into
    are as before.  A paint renders exactly if its tile is not valid and resident by then.

    So painting a run of tiles leaves as many of its last tiles as there are slots, and
    nothing remains to be painted of tiles that do not share slots, whatever their order. -/
theorem painted_of_strokes {s : CacheSession} {ps : List Stroke} (hs : s.Reachable)
    (hin : ∀ p ∈ ps, p.index < s.cache.tileCount) : Painted s.cache ps := by
  have h := (sound_of_reachable hs).cache
  obtain ⟨-, honly⟩ := strokes_only h hin
  have hcount := tileCount_eq_of_grid honly.grid
  refine ⟨fun hbytes i hi => hasCorner_of_bytes h hi hbytes, ?_, ?_, ?_, ?_,
    fun hone ranges => remaining_strokes h hin hone⟩
  · rintro before p after rfl hafter
    obtain ⟨hfresh, hothers⟩ := strokes_last h hin hafter
    refine ⟨fun hcorner => (isFresh_iff ?_).mp (hfresh hcorner), hothers⟩
    rw [hcount]
    exact hin p (by simp)
  · intro j hj
    have hclass : ∀ i ∈ ps.map Stroke.index, s.cache.slotIndex i ≠ s.cache.slotIndex j := by
      intro i hi
      obtain ⟨p, hp, rfl⟩ := List.mem_map.mp hi
      exact hj p hp
    exact ⟨honly.slot j hclass, isValid_eq hcount (honly.valid j hclass)⟩
  · rintro before p after rfl hcorner
    obtain ⟨hkept, hbefore⟩ := strokes_only h fun q hq => hin q (List.mem_append_left _ hq)
    have hp : p.index < (s.cache.strokes before).tileCount := by
      rw [tileCount_eq_of_grid hbefore.grid]
      exact hin p (by simp)
    rw [(struck_stroke hkept hp).2, hbefore.hasCorner, ← isFresh_iff hp, Bool.not_eq_true]
    exact and_iff_left hcorner
  · intro run hrun i hi hcorner
    obtain ⟨hlate, hearly⟩ := strokes_run h hin hrun hi
    have hi' : i < (s.cache.strokes ps).tileCount := by
      obtain ⟨before, p, after, rfl, rfl, -⟩ := split_run hrun hi
      rw [hcount]
      exact hin p (by simp)
    obtain ⟨hfirst, hlast⟩ := hi
    rw [← isFresh_iff hi']
    constructor
    · intro hfresh
      -- a later tile of the run would have taken the slot
      have hclose : run.last < i + s.cache.poolSize := by
        refine Nat.lt_of_not_le fun hle => ?_
        rw [isFresh, (hearly hle).2, Bool.and_false] at hfresh
        cases hfresh
      omega
    · intro hclose
      exact hlate (by omega) hcorner

namespace Sample

/-- Paint a tile of one pixel in one colour. -/
def fill (index : Nat) : Stroke where
  index
  engine t c :=
    { cache := c, pixels := Array.replicate t.pixels.size ⟨3⟩
      size_pixels := Array.size_replicate, fault := none }
  leaves _ _ := rfl
  returns _ _ := rfl

end Sample

/-- Tile 2 is there already when this begins, and gone when it is painted again. -/
theorem painted_of_strokes_second :
    Sample.second.Reachable ∧
      (∀ p ∈ [2, 0, 1, 2].map Sample.fill, p.index < Sample.second.cache.tileCount) ∧
      Sample.second.cache.isFresh 2 = true ∧
      (Sample.second.cache.strokes ([2, 0, 1].map Sample.fill)).isResident 2 = false ∧
      (Sample.second.cache.strokes ([2, 0, 1].map Sample.fill)).Renders 2 ∧
      (Sample.second.cache.strokes ([2, 0, 1, 2].map Sample.fill)).isValid 2 = true ∧
      (Sample.second.cache.strokes ([2, 0, 1, 2].map Sample.fill)).isResident 0 = false := by
  have hfirst : ∀ p ∈ [2, 0, 1].map Sample.fill, p.index < Sample.second.cache.tileCount := by
    decide +kernel
  have hall : ∀ p ∈ [2, 0, 1, 2].map Sample.fill, p.index < Sample.second.cache.tileCount := by
    decide +kernel
  have hcorner : Sample.second.cache.HasCorner 2 := by decide +kernel
  obtain ⟨-, hevicted⟩ := (painted_of_strokes Sample.reachable_second hfirst).last
    [Sample.fill 2] (Sample.fill 0) [Sample.fill 1] rfl (by decide +kernel)
  have hgone := (hevicted 2 (by decide +kernel) (by decide) (by decide +kernel)).2
  have hpainted := painted_of_strokes Sample.reachable_second hall
  obtain ⟨hlast, hothers⟩ := hpainted.last ([2, 0, 1].map Sample.fill) (Sample.fill 2) [] rfl nofun
  refine ⟨Sample.reachable_second, hall, by decide +kernel, hgone, ?_, (hlast hcorner).1,
    (hothers 0 (by decide +kernel) (by decide) (by decide +kernel)).2⟩
  refine (hpainted.renders ([2, 0, 1].map Sample.fill) (Sample.fill 2) [] rfl hcorner).mpr ?_
  intro hfresh
  rw [show (Sample.fill 2).index = 2 from rfl, hgone] at hfresh
  cases hfresh.2

end CacheSession

end TilePaint
