/-
  TilePaint/Proofs/StaleRender.lean
  =================================
  **Edits that fall into a render.**

  A tile that is being rendered is not valid (`not_mem_valid_of_rendering`): the
  paint of a valid tile in its slot is refused, and no other call has the slot.  So
  an edit that marks the tile as stale in the middle of its render finds nothing to
  reset, and the cache does not remember the edit.

  What happens at the end of the render is decided by the grid and the context of
  that moment (`publish_outcome`).  Marking a tile or a rectangle as stale changes
  neither of the two, so the render is published as if the edit had not been.
  Marking everything as stale also retires the active context.  A render under a
  context is then discarded unless the context is made active again; a render under
  no context is published (`valid_after_edit_iff`).
-/
import TilePaint.Proofs.PublicationGate

namespace TilePaint

open TileCache

variable {c c' : TileCache}

namespace CacheOp

/-! ## 1. Operations that mark a tile as stale -/

def Invalidates (c : TileCache) (i : Nat) : CacheOp → Prop
  | .invalidate index => index = i
  | .invalidateAt column row =>
      column < c.grid.columns ∧ row < c.grid.rows ∧ c.grid.index column row = i
  | .invalidateIn rect => ∃ r, c.rangeIn rect = some r ∧ r.first ≤ i ∧ i ≤ r.last
  | .invalidateInTwips rect => ∃ r, c.rangeInTwips rect = some r ∧ r.first ≤ i ∧ i ≤ r.last
  | .invalidateAll => True
  | _ => False

variable {op : CacheOp} {i : Nat}

theorem not_mem_of_invalidateFound {range : TileRange}
    (h : (c.invalidateFound (some range)).map Prod.snd = .ok c') (hfirst : range.first ≤ i)
    (hlast : i ≤ range.last) : i ∉ c'.valid := by
  simp only [invalidateFound, invalidateRange, BitSet.resetRange] at h
  split at h
  · cases h
  · split at h
    · cases h
    · cases h
      have hrange : range.first ≤ range.last := Nat.le_trans hfirst hlast
      exact fun hmem => (BitSet.mem_eraseRange (h := hrange).mp hmem).1 ⟨hfirst, hlast⟩

theorem not_mem_of_invalidate (h : c.invalidate i = .ok c') : i ∉ c'.valid := by
  unfold TileCache.invalidate BitSet.reset at h
  split at h
  · cases h
    exact fun hmem => (BitSet.mem_erase.mp hmem).1 rfl
  · cases h

/-- **What these operations are for.** -/
theorem Invalidates.not_mem (hop : op.Invalidates c i) (h : op.apply c = .ok c') :
    i ∉ c'.valid := by
  cases op with
  | invalidate index =>
    cases hop
    exact not_mem_of_invalidate h
  | invalidateAt column row =>
    obtain ⟨hcolumn, hrow, rfl⟩ := hop
    rw [apply, TileCache.invalidateAt, if_pos ⟨hcolumn, hrow⟩] at h
    exact not_mem_of_invalidate h
  | invalidateIn rect =>
    obtain ⟨r, hr, hfirst, hlast⟩ := hop
    rw [apply, TileCache.invalidateIn, hr] at h
    exact not_mem_of_invalidateFound h hfirst hlast
  | invalidateInTwips rect =>
    obtain ⟨r, hr, hfirst, hlast⟩ := hop
    rw [apply, TileCache.invalidateInTwips, hr] at h
    exact not_mem_of_invalidateFound h hfirst hlast
  | invalidateAll =>
    cases h
    exact BitSet.not_mem_clear
  | resize | resizeScaled | rescale | setContext | setScroll => exact hop.elim

theorem rebuild_context {width height : Int} {scale : Float32}
    (h : c.rebuild width height scale = .ok c') : c'.context = c.context := by
  unfold rebuild at h
  obtain ⟨tiles, -, h⟩ := bind_eq_ok_iff.mp h
  obtain ⟨bits, -, h⟩ := bind_eq_ok_iff.mp h
  cases h
  rfl

theorem resize_context {width height : Int} (h : c.resize width height = .ok c') :
    c'.context = c.context := by
  unfold TileCache.resize at h
  split at h
  · cases h
    rfl
  · exact rebuild_context h

theorem invalidate_context {index : Nat} (h : c.invalidate index = .ok c') :
    c'.context = c.context := by
  unfold TileCache.invalidate at h
  obtain ⟨bits, -, h⟩ := bind_eq_ok_iff.mp h
  cases h
  rfl

theorem invalidateFound_context {range : Option TileRange}
    (h : (c.invalidateFound range).map Prod.snd = .ok c') : c'.context = c.context := by
  cases range with
  | none =>
    cases h
    rfl
  | some r =>
    simp only [invalidateFound, invalidateRange, BitSet.resetRange] at h
    split at h
    · cases h
    · split at h
      · cases h
      · cases h
        rfl

theorem Invalidates.not_replacesGrid (hop : op.Invalidates c i) : ¬op.replacesGrid c := by
  cases op with
  | resize | resizeScaled | rescale => exact hop.elim
  | _ => exact id

/-- An operation keeps the active context, sets it, or retires it. -/
theorem context_cases (h : op.apply c = .ok c') :
    c'.context = c.context ∨ op = .setContext c'.context ∨
      (c'.context = Context.none ∧ (op = .invalidateAll ∨ op.replacesGrid c)) := by
  cases op with
  | resize width height => exact Or.inl (resize_context h)
  | resizeScaled width height scale =>
    simp only [apply, TileCache.resizeScaled] at h
    split at h
    · exact Or.inl (resize_context h)
    · exact Or.inl (rebuild_context h)
  | rescale scale =>
    simp only [apply, TileCache.rescale] at h
    split at h
    · next hfar =>
      -- of the changes of scale only this one forgets the context
      obtain ⟨cache, -, h⟩ := bind_eq_ok_iff.mp h
      cases h
      exact Or.inr (Or.inr ⟨rfl, Or.inr hfar⟩)
    · cases h
      exact Or.inl rfl
  | invalidate index => exact Or.inl (invalidate_context h)
  | invalidateAt column row =>
    simp only [apply, TileCache.invalidateAt] at h
    split at h
    · exact Or.inl (invalidate_context h)
    · cases h
  | invalidateIn rect => exact Or.inl (invalidateFound_context h)
  | invalidateInTwips rect => exact Or.inl (invalidateFound_context h)
  | invalidateAll =>
    cases h
    exact Or.inr (Or.inr ⟨rfl, Or.inl rfl⟩)
  | setContext context =>
    cases h
    exact Or.inr (Or.inl rfl)
  | setScroll scrollY =>
    cases h
    exact Or.inl rfl

end CacheOp

namespace CacheSession

variable {s s' : CacheSession} {call : RenderCall} {op : CacheOp} {pixels : Array Pixel}
  {fault : Option Fault}

/-! ## 2. The context along a run -/

theorem Reachable.run (hs : s.Reachable) (hrun : Run s s') : s'.Reachable := by
  obtain ⟨config, cache, hcache, hbefore⟩ := hs
  exact ⟨config, cache, hcache, hbefore.trans hrun⟩

theorem context_start (hs : s.Sound) (cancelled late : Bool) (index : Nat) (context : Context) :
    (s.start cancelled index context late).cache.context = s.cache.context := by
  obtain ⟨-, -, hcontext, -, -⟩ := vacate_rest s.cache index
  rcases hstart : s.cache.start cancelled index context late with ⟨cache, outcome⟩
  rcases start_cases hs.cache.fits hstart with
    ⟨rfl, rfl⟩ | ⟨-, -, -, -, ⟨-, rfl, rfl⟩ | ⟨-, fault, -, rfl, rfl⟩ | ⟨-, area, -, rfl, rfl⟩⟩
  · simp only [CacheSession.start, hstart]
  · simp only [CacheSession.start, hstart]
    exact hcontext
  · simp only [CacheSession.start, hstart]
    exact hcontext
  · simp only [CacheSession.start, hstart]
    exact hcontext

theorem context_finish (hs : s.Sound) (hcall : call ∈ s.rendering)
    (hsize : pixels.size = call.ticket.pixels.size) :
    (s.finish call pixels fault).cache.context = s.cache.context := by
  cases fault with
  | some fault => rfl
  | none =>
    rcases publish_outcome hs.cache (hs.calls call hcall) hsize with
      ⟨-, -, hpublishes⟩ | ⟨-, -, hdiscards⟩
    · exact hpublishes.context
    · exact hdiscards.context

/-- A step keeps the active context, retires it, or sets it. -/
theorem context_of_step (hs : s.Sound) (hstep : Step s s') :
    s'.cache.context = s.cache.context ∨ s'.cache.context = Context.none ∨
      s' = s.operate (.setContext s'.cache.context) := by
  cases hstep with
  | operate op =>
    cases happly : op.apply s.cache with
    | error fault =>
      simp only [CacheSession.operate, happly]
      exact Or.inl trivial
    | ok cache =>
      have hcache : (s.operate op).cache = cache := by
        simp only [CacheSession.operate, happly]
      rw [hcache]
      rcases CacheOp.context_cases happly with hsame | hset | ⟨hnone, -⟩
      · exact Or.inl hsame
      · exact Or.inr (Or.inr (congrArg s.operate hset))
      · exact Or.inr (Or.inl hnone)
  | start cancelled late index context hfree =>
    exact Or.inl (context_start hs cancelled late index context)
  | finish call pixels fault hcall hsize => exact Or.inl (context_finish hs hcall hsize)

/-- A context that becomes active on the way was set on the way. -/
theorem set_on_the_way {context : Context} (hs : s.Sound) (hrun : Run s s')
    (hnone : context ≠ Context.none) (hbefore : s.cache.context ≠ context)
    (hafter : s'.cache.context = context) :
    ∃ u, Run s u ∧ Run (u.operate (.setContext context)) s' := by
  induction hrun with
  | refl => exact absurd hafter hbefore
  | @tail v w hrun hlast ih =>
    by_cases hv : v.cache.context = context
    · obtain ⟨u, hu, hrest⟩ := ih hv
      exact ⟨u, hu, hrest.tail hlast⟩
    · rcases context_of_step (sound_of_run hs hrun) hlast with hsame | hretired | hset
      · exact absurd (hsame.symm.trans hafter) hv
      · exact absurd (hafter.symm.trans hretired) hnone
      · rw [hafter] at hset
        exact ⟨v, hrun, hset ▸ .refl⟩

/-! ## 3. A tile in its render is not valid -/

def Unmarked (s : CacheSession) : Prop :=
  ∀ call ∈ s.rendering, call.ticket.index ∉ s.cache.valid

theorem Unmarked.operate (h : s.Unmarked) (op : CacheOp) : (s.operate op).Unmarked := by
  unfold CacheSession.operate
  split
  · exact h
  · next cache happly =>
    intro call hcall hmem
    rcases CacheOp.apply_cases happly with ⟨-, htrim⟩ | ⟨-, hgrid⟩
    · exact h call hcall (htrim.valid _ hmem)
    · rw [hgrid.valid] at hmem
      exact BitSet.not_mem_ofSize hmem

theorem Unmarked.start (h : s.Unmarked) (hs : s.Sound) (cancelled late : Bool) (index : Nat)
    (context : Context) : (s.start cancelled index context late).Unmarked := by
  have hvacated : ∀ call ∈ s.rendering, call.ticket.index ∉ (s.cache.vacate index).valid :=
    fun call hcall hmem => h call hcall (mem_valid_vacate.mp hmem).1
  rcases hstart : s.cache.start cancelled index context late with ⟨cache, outcome⟩
  rcases start_cases hs.cache.fits hstart with
    ⟨rfl, rfl⟩ | ⟨hin, -, -, hstale, ⟨-, rfl, rfl⟩ | ⟨-, fault, -, rfl, rfl⟩ |
      ⟨-, area, -, rfl, rfl⟩⟩
  · simp only [CacheSession.start, hstart]
    exact h
  · simp only [CacheSession.start, hstart]
    exact hvacated
  · simp only [CacheSession.start, hstart]
    exact hvacated
  · simp only [CacheSession.start, hstart]
    intro call hcall
    rcases List.mem_cons.mp hcall with rfl | hcall
    · intro hmem
      -- a valid tile is resident, and this one was not both
      have hvalid : index ∈ s.cache.valid := (mem_valid_vacate.mp hmem).1
      have hres : s.cache.isResident index = true :=
        (isResident_iff (Nat.lt_trans hin hs.cache.fits)).mpr (hs.cache.resident index hvalid)
      rw [isFresh, hres, decide_eq_true hvalid] at hstale
      cases hstale
    · exact hvacated call hcall

theorem Unmarked.finish (h : s.Unmarked) (hs : s.Sound) (hcall : call ∈ s.rendering)
    (hsize : pixels.size = call.ticket.pixels.size) : (s.finish call pixels fault).Unmarked := by
  have hfull : pixels.size = s.cache.edge * s.cache.edge := by
    rw [hsize, (hs.calls call hcall).buffer, Array.size_replicate]
  have hothers : ∀ other ∈ s.without call, other.ticket.index ∉ s.cache.valid :=
    fun other hother => h other (hs.without hcall hother).1
  cases fault with
  | some fault => exact hothers
  | none =>
    obtain ⟨img, -, -, -, hpublish⟩ := publish_cases (t := call.ticket) hfull
    simp only [CacheSession.finish, hpublish]
    split
    · next hforce =>
      have hbit : call.ticket.index < s.cache.valid.size := by
        rw [hs.cache.bits]
        exact Nat.lt_succ_of_lt ((hs.calls call hcall).current hforce.1.symm).1
      intro other hother hmem
      rcases (mem_valid_install (c := s.cache.abandon call.ticket pixels) hbit).mp hmem with
        hsame | hmem
      · exact (hs.without hcall hother).2 (congrArg s.cache.slotIndex hsame.symm)
      · exact hothers other hother hmem
    · exact hothers

theorem Unmarked.step (h : s.Unmarked) (hs : s.Sound) (hstep : Step s s') : s'.Unmarked := by
  cases hstep with
  | operate op => exact h.operate op
  | start cancelled late index context hfree => exact h.start hs cancelled late index context
  | finish call pixels fault hcall hsize => exact h.finish hs hcall hsize

/-- **A tile that is being rendered is not valid.** -/
theorem not_mem_valid_of_rendering (hs : s.Reachable) (hcall : call ∈ s.rendering) :
    call.ticket.index ∉ s.cache.valid := by
  have hnew : ∀ config cache, TileCache.ofConfig config = .ok cache →
      (ofCache cache).Sound ∧ (ofCache cache).Unmarked :=
    fun config cache hcache => ⟨sound_of_reachable ⟨config, cache, hcache, .refl⟩, nofun⟩
  have hstep : ∀ s s' : CacheSession, s.Sound ∧ s.Unmarked → Step s s' → s'.Sound ∧ s'.Unmarked :=
    fun s s' h hstep => ⟨h.1.step hstep, h.2.step h.1 hstep⟩
  exact (Reachable.invariant (P := fun s => s.Sound ∧ s.Unmarked) hnew hstep hs).2 call hcall

theorem isValid_of_rendering (hs : s.Reachable) (hcall : call ∈ s.rendering) :
    s.cache.isValid call.ticket.index = false := by
  rw [isValid, decide_eq_false (not_mem_valid_of_rendering hs hcall), Bool.and_false]

/-! ## 4. Edits in the middle of a render -/

/-- Marking some tiles as stale changes nothing that a render in progress depends on. -/
theorem grid_context_of_invalidates {i : Nat} (hop : op.Invalidates s.cache i)
    (hsome : op ≠ .invalidateAll) :
    (s.operate op).cache.grid = s.cache.grid ∧ (s.operate op).cache.context = s.cache.context := by
  cases happly : op.apply s.cache with
  | error fault =>
    simp only [CacheSession.operate, happly]
    exact ⟨trivial, trivial⟩
  | ok cache =>
    simp only [CacheSession.operate, happly]
    refine ⟨?_, ?_⟩
    · rcases CacheOp.apply_cases happly with ⟨-, htrim⟩ | ⟨hgrid, -⟩
      · exact htrim.grid
      · exact absurd hgrid hop.not_replacesGrid
    · rcases CacheOp.context_cases happly with hsame | hset | ⟨-, hall | hgrid⟩
      · exact hsame
      · rw [hset] at hop
        exact hop.elim
      · exact absurd hall hsome
      · exact absurd hgrid hop.not_replacesGrid

/-- The end of a render decides by itself whether its tile is valid. -/
theorem isValid_finish_iff (hs : s.Reachable) (hcall : call ∈ s.rendering)
    (hsize : pixels.size = call.ticket.pixels.size) :
    (s.finish call pixels fault).cache.isValid call.ticket.index = true ↔
      fault = none ∧ s.cache.InForce call.ticket := by
  have hsound := sound_of_reachable hs
  have hbefore := isValid_of_rendering hs hcall
  cases fault with
  | some fault =>
    have hafter : (s.cache.abandon call.ticket pixels).isValid call.ticket.index = false :=
      ((discards_refill s.cache call.ticket.index fun _ => pixels).sameTile _).valid.trans hbefore
    simp only [CacheSession.finish, hafter, Bool.false_eq_true, reduceCtorEq, false_and]
  | none =>
    simp only [CacheSession.finish, true_and]
    rcases publish_outcome hsound.cache (hsound.calls call hcall) hsize with
      ⟨hforce, -, hpublishes⟩ | ⟨hforce, -, hdiscards⟩
    · exact iff_of_true hpublishes.valid hforce
    · rw [(hdiscards.sameTile _).valid, hbefore]
      exact iff_of_false Bool.false_ne_true hforce

/-- **What becomes of a tile that is edited in the middle of its render.**  The tile
    was not valid before the edit.  After the render it is valid if the engine came back
    and the ticket is in force at that moment.  An edit of some tiles leaves the ticket
    as it was; an edit of all tiles outdates it, unless the render is under no context
    or its context is set again. -/
theorem valid_after_edit_iff (fault : Option Fault) (hs : s.Reachable) (hcall : call ∈ s.rendering)
    (hop : op.Invalidates s.cache call.ticket.index) (hrun : Run (s.operate op) s')
    (hstill : call ∈ s'.rendering) (hsize : pixels.size = call.ticket.pixels.size) :
    let tile := call.ticket.index
    let edited := s.operate op
    (s.cache.isValid tile = false ∧ edited.cache.isValid tile = false ∧
        s'.cache.isValid tile = false) ∧
      ((s'.finish call pixels fault).cache.isValid tile = true ↔
        fault = none ∧ s'.cache.InForce call.ticket) ∧
      (op ≠ .invalidateAll →
        (edited.cache.InForce call.ticket ↔ s.cache.InForce call.ticket)) ∧
      (op = .invalidateAll → call.ticket.context ≠ Context.none →
        s'.cache.InForce call.ticket →
        ∃ u, Run edited u ∧ Run (u.operate (.setContext call.ticket.context)) s') := by
  have hedited := hs.run (.single (Step.operate s op))
  have hs' : s'.Reachable := hedited.run hrun
  have hcallEdited : call ∈ (s.operate op).rendering := by
    unfold CacheSession.operate
    split
    · exact hcall
    · exact hcall
  refine ⟨⟨isValid_of_rendering hs hcall, isValid_of_rendering hedited hcallEdited,
    isValid_of_rendering hs' hstill⟩, isValid_finish_iff hs' hstill hsize, ?_, ?_⟩
  · intro hsome
    obtain ⟨hgrid, hcontext⟩ := grid_context_of_invalidates hop hsome
    rw [InForce, InForce, hgrid, hcontext]
  · rintro rfl hnone hforce
    exact set_on_the_way (sound_of_reachable hedited) hrun hnone hnone.symm hforce.2

namespace Sample

/-- The render of tile 0 has begun, under a context of its own. -/
def begun : CacheSession :=
  (threeTiles.operate (.setContext (.number 7))).start false 0 (.number 7)

def begunCall : RenderCall where
  number := 1
  ticket := { (callOf 1 0 0).ticket with context := .number 7 }

theorem reachable_begun : begun.Reachable := by
  refine ⟨{ edge := 1, budget := 12 }, twoSlots, rfl, ?_⟩
  have hgrid : Run (ofCache twoSlots) threeTiles := .single (Step.operate _ _)
  have hcontext := hgrid.tail (Step.operate _ (.setContext (.number 7)))
  exact hcontext.tail (Step.start _ false false 0 (.number 7) (by decide +kernel))

end Sample

theorem valid_after_edit_iff_begun :
    Sample.begun.Reachable ∧ Sample.begunCall ∈ Sample.begun.rendering ∧
      CacheOp.Invalidates Sample.begun.cache 0 (.invalidate 0) ∧
      ((Sample.begun.operate (.invalidate 0)).finish Sample.begunCall #[⟨1⟩] none).cache.isValid
        0 = true ∧
      ((Sample.begun.operate .invalidateAll).finish Sample.begunCall #[⟨1⟩] none).cache.isValid
        0 = false := by
  have hreach := Sample.reachable_begun
  have hcall : Sample.begunCall ∈ Sample.begun.rendering := by decide +kernel
  have hone : CacheOp.Invalidates Sample.begun.cache 0 (.invalidate 0) := rfl
  have hall : CacheOp.Invalidates Sample.begun.cache 0 .invalidateAll := trivial
  have hsize : (#[⟨1⟩] : Array Pixel).size = Sample.begunCall.ticket.pixels.size := rfl
  obtain ⟨-, hkept, -, -⟩ :=
    valid_after_edit_iff none hreach hcall hone .refl (by decide +kernel) hsize
  obtain ⟨-, hgone, -, -⟩ :=
    valid_after_edit_iff none hreach hcall hall .refl (by decide +kernel) hsize
  refine ⟨hreach, hcall, hone, hkept.mpr ⟨rfl, by decide +kernel⟩, Bool.eq_false_iff.mpr ?_⟩
  exact fun hvalid => absurd (hgone.mp hvalid).2 (by decide +kernel)

/-- An edit of one tile can be lost to the render that it falls into. -/
theorem edit_may_be_lost :
    ¬∀ (s s' : CacheSession) (call : RenderCall) (op : CacheOp) (pixels : Array Pixel)
        (fault : Option Fault), s.Reachable → call ∈ s.rendering →
      op.Invalidates s.cache call.ticket.index → Run (s.operate op) s' → call ∈ s'.rendering →
      pixels.size = call.ticket.pixels.size →
        (s'.finish call pixels fault).cache.isValid call.ticket.index = false := by
  intro hnever
  have hstale := hnever Sample.begun (Sample.begun.operate (.invalidate 0)) Sample.begunCall
    (.invalidate 0) #[⟨1⟩] none Sample.reachable_begun (by decide +kernel) rfl .refl
    (by decide +kernel) rfl
  have hvalid : ((Sample.begun.operate (.invalidate 0)).finish Sample.begunCall #[⟨1⟩]
      none).cache.isValid 0 = true := by decide +kernel
  exact Bool.false_ne_true (hstale.symm.trans hvalid)

end CacheSession

end TilePaint
