/-
  TilePaint/Proofs/Coalescing.lean
  ================================
  **What one request does while another task is current.**

  The task of the request is queued; the current task hands over what it has not
  painted, if the two belong together; the queued task is kept to its viewport band
  and takes the place of the current one.  On its way it is made anew up to three
  times.  `Carries` is what holds of it throughout: it is a task for the request,
  with flags that nobody else has, and it covers a known set of tiles.  Each stage
  says only how this set changes.

  The main theorem puts the stages together.  The set comes out the same whether or
  not there was something to hand over, because whatever is handed over is kept to
  the band at the end.
-/
import TilePaint.Proofs.TaskInvariant

namespace TilePaint

/-! ## 1. New flags -/

/-- Two flags of `store` that are not in `old`, and that nobody has set. -/
structure NewFlags (old store : FlagStore) (f g : Flag) : Prop where
  grows : old.cells.size ≤ store.cells.size
  distinct : f ≠ g
  left_new : ¬old.Has f
  right_new : ¬old.Has g
  left_unset : store.isSet f = false
  right_unset : store.isSet g = false

/-- Two flags that are made one after the other. -/
theorem newFlags_fresh {old s : FlagStore} (h : old.cells.size ≤ s.cells.size) :
    NewFlags old s.fresh.2.fresh.2 s.fresh.1 s.fresh.2.fresh.1 := by
  have hsize : s.fresh.2.cells.size = s.cells.size + 1 := Array.size_push _
  constructor
  · show old.cells.size ≤ (s.fresh.2.cells.push false).size
    rw [Array.size_push, hsize]
    omega
  · intro heq
    have hid : s.cells.size = s.fresh.2.cells.size := congrArg Flag.id heq
    omega
  · intro hhas
    exact FlagStore.not_has_fresh (s := s) (Nat.lt_of_lt_of_le hhas h)
  · intro hhas
    refine FlagStore.not_has_fresh (s := s.fresh.2) (Nat.lt_of_lt_of_le hhas ?_)
    omega
  · rw [FlagStore.isSet_fresh, FlagStore.isSet_fresh]
    exact FlagStore.isSet_next
  · rw [FlagStore.isSet_fresh]
    exact FlagStore.isSet_next

/-- Setting an old flag does not set a new one. -/
theorem NewFlags.set {old store : FlagStore} {f g x : Flag} (h : NewFlags old store f g)
    (hx : old.Has x) : NewFlags old (store.set x) f g := by
  have hstore : store.Has x := Nat.lt_of_lt_of_le hx h.grows
  have hleft : f ≠ x := fun heq => h.left_new (heq ▸ hx)
  have hright : g ≠ x := fun heq => h.right_new (heq ▸ hx)
  refine ⟨?_, h.distinct, h.left_new, h.right_new, ?_, ?_⟩
  · rw [FlagStore.set, Array.size_setIfInBounds]
    exact h.grows
  · rw [FlagStore.isSet_set hstore, decide_eq_false hleft, h.left_unset, Bool.false_or]
  · rw [FlagStore.isSet_set hstore, decide_eq_false hright, h.right_unset, Bool.false_or]

/-! ## 2. A task on its way -/

/-- The tiles that a viewport at `y` may ask for.  A grid without tiles has no band
    and sets no bound. -/
def InBand (c : TileCache) (y : Int) (height : Nat) (i : Nat) : Prop :=
  ∀ limit, c.viewportBand y height = some limit → i ∈ limit

theorem viewportBand_of_isEmpty {c : TileCache} (y : Int) (height : Nat)
    (h : c.grid.isEmpty = true) : c.viewportBand y height = none := by
  simp only [TileCache.viewportBand, Grid.viewportBand, Grid.rowBand, h, if_true]

theorem exists_viewportBand {c : TileCache} (y : Int) (height : Nat)
    (h : c.grid.isEmpty = false) : ∃ limit, c.viewportBand y height = some limit := by
  simp only [TileCache.viewportBand, Grid.viewportBand, Grid.rowBand, h,
    Bool.false_eq_true, if_false, Option.some.injEq, exists_eq']

theorem tileCount_of_isEmpty {c : TileCache} (h : c.grid.isEmpty = true) : c.tileCount = 0 := by
  simp only [Grid.isEmpty, Bool.or_eq_true, beq_iff_eq] at h
  rcases h with hzero | hzero
  · rw [TileCache.tileCount, Grid.tileCount, hzero, Nat.zero_mul]
  · rw [TileCache.tileCount, Grid.tileCount, hzero, Nat.mul_zero]

theorem inBand_iff_mem {c : TileCache} {y : Int} {height : Nat} {limit : TileRange} {i : Nat}
    (h : c.viewportBand y height = some limit) : InBand c y height i ↔ i ∈ limit := by
  simp only [InBand, h, Option.some.injEq, forall_eq']

theorem inBand_of_none {c : TileCache} {y : Int} {height : Nat} {i : Nat}
    (h : c.viewportBand y height = none) : InBand c y height i := by
  simp only [InBand, h, reduceCtorEq, false_implies, implies_true]

/-- A task for request `r` that covers the tiles `covered`; its flags are newer than
    the store `old`. -/
structure Carries (old : FlagStore) (r : Request) (covered : Nat → Prop) (flags : FlagStore)
    (t : Task) : Prop where
  document : t.document = r.document
  y : t.y = r.y
  height : t.height = r.height
  scale : t.scale = r.scale
  full : t.full = r.full
  ascending : TileRange.Ascending t.ranges
  wellFormed : TileRange.AllWellFormed t.ranges
  covers : ∀ i, Covers t.ranges i ↔ covered i
  newFlags : NewFlags old flags t.skipPaint t.skipInvalidation

variable {old flags : FlagStore} {r : Request} {covered covered' : Nat → Prop} {t : Task}

theorem Carries.congr (h : Carries old r covered flags t) (hcovered : ∀ i, covered i ↔ covered' i) :
    Carries old r covered' flags t :=
  { h with covers := fun i => (h.covers i).trans (hcovered i) }

theorem carries_ofRequest (hr : TileRange.AllWellFormed r.ranges)
    (hold : old.cells.size ≤ flags.cells.size) :
    Carries old r (Covers r.ranges) (Task.ofRequest r flags).2 (Task.ofRequest r flags).1 where
  document := rfl
  y := rfl
  height := rfl
  scale := rfl
  full := rfl
  ascending := TileRange.ascending_normalize r.ranges
  wellFormed := hr.normalize
  covers := fun _ => TileRange.covers_normalize
  newFlags := newFlags_fresh hold

theorem covers_merge {extra : List TileRange} {c : TileCache} {i : Nat} :
    Covers (t.merge extra c flags).1.ranges i ↔
      (Covers t.ranges i ∨ Covers extra i) ∧ InBand c t.y t.height i := by
  show Covers (TileRange.normalize _) i ↔ _
  rw [TileRange.covers_normalize]
  split
  · next limit hlimit =>
    rw [TileRange.covers_restrict, covers_append, inBand_iff_mem hlimit]
  · next hnone =>
    rw [covers_append, and_iff_left (inBand_of_none hnone)]

theorem Carries.merge (h : Carries old r covered flags t) {extra : List TileRange}
    (hextra : TileRange.AllWellFormed extra) (c : TileCache) :
    Carries old r (fun i => (covered i ∨ Covers extra i) ∧ InBand c r.y r.height i)
      (t.merge extra c flags).2 (t.merge extra c flags).1 where
  document := h.document
  y := h.y
  height := h.height
  scale := h.scale
  full := h.full
  ascending := TileRange.ascending_normalize _
  wellFormed := Task.wellFormed_merge h.wellFormed hextra c flags
  covers := fun i => by rw [covers_merge, h.covers, h.y, h.height]
  newFlags := newFlags_fresh h.newFlags.grows

namespace Scheduler

/-! ## 3. The stages of an advance -/

section Stages

variable {s : Scheduler} {c q : Task}

/-- The tiles of the current task that are handed over. -/
def Unfinished (s : Scheduler) (c q : Task) (i : Nat) : Prop :=
  c.compatible q = true ∧ Covers (s.cache.remaining c.ranges) i

theorem unfinished_iff {i : Nat} : s.Unfinished c q i ↔
    c.compatible q = true ∧ Covers c.ranges i ∧ i < s.cache.tileCount ∧
      ¬(s.cache.isValid i = true ∧ s.cache.isResident i = true) := by
  rw [Unfinished, TileCache.covers_remaining]
  refine and_congr Iff.rfl (and_congr Iff.rfl (and_congr_right fun hgrid => ?_))
  rw [TileCache.isFresh, TileCache.isValid, decide_eq_true hgrid, Bool.true_and,
    ← Bool.and_eq_true, Bool.not_eq_true]

/-- Handing over leaves the queued task as it is, if there is nothing to hand over, or
    merges into it. -/
theorem foldRemaining_cases (hc : s.current = some c) (hq : s.queued = some q) :
    s.foldRemaining = s ∧ (c.compatible q = true → s.cache.remaining c.ranges = []) ∨
      s.foldRemaining = s.queueMerged q (s.cache.remaining c.ranges) ∧
        c.compatible q = true := by
  unfold foldRemaining
  rw [hc, hq]
  dsimp only
  split
  · next hcompatible =>
    split
    · next hnothing => exact Or.inl ⟨rfl, fun _ => List.isEmpty_iff.mp hnothing⟩
    · exact Or.inr ⟨rfl, hcompatible⟩
  · next hapart => exact Or.inl ⟨rfl, fun hcompatible => absurd hcompatible hapart⟩

theorem not_unfinished (h : c.compatible q = true → s.cache.remaining c.ranges = []) (i : Nat) :
    ¬s.Unfinished c q i := by
  rintro ⟨hcompatible, hremains⟩
  rw [h hcompatible] at hremains
  exact covers_nil.mp hremains

/-- **Handing over.**  Up to the band, the queued task gets what remains of the
    current one. -/
theorem foldRemaining_carries (hc : s.current = some c) (hq : s.queued = some q)
    (h : Carries old r covered s.flags q) :
    ∃ q' covered', s.foldRemaining.queued = some q' ∧ s.foldRemaining.current = some c ∧
      s.foldRemaining.cache = s.cache ∧
      Carries old r covered' s.foldRemaining.flags q' ∧
      ∀ i, covered' i ∧ InBand s.cache r.y r.height i ↔
        (covered i ∨ s.Unfinished c q i) ∧ InBand s.cache r.y r.height i := by
  rcases foldRemaining_cases hc hq with ⟨hsame, hnothing⟩ | ⟨hmerged, hcompatible⟩
  · rw [hsame]
    refine ⟨q, covered, hq, hc, rfl, h, ?_⟩
    intro i
    rw [or_iff_left (not_unfinished hnothing i)]
  · rw [hmerged]
    refine ⟨_, _, rfl, hc, rfl,
      h.merge (TileCache.wellFormed_remaining s.cache c.ranges) s.cache, ?_⟩
    intro i
    simp only [Unfinished, hcompatible, true_and]
    exact and_iff_left_of_imp And.right

/-- **Keeping to the band.** -/
theorem clipQueued_carries (hq : s.queued = some q) (h : Carries old r covered s.flags q) :
    ∃ q', s.clipQueued.queued = some q' ∧ s.clipQueued.current = s.current ∧
      Carries old r (fun i => covered i ∧ InBand s.cache r.y r.height i) s.clipQueued.flags q' := by
  have hnone : TileRange.AllWellFormed [] := nofun
  unfold clipQueued
  rw [hq]
  refine ⟨_, rfl, rfl, (h.merge hnone s.cache).congr fun i => ?_⟩
  rw [covers_nil, or_false]

/-- **Taking the place.**  If the current task is cancelled, its flags are old. -/
theorem retire_carries (hc : s.current = some c) (hq : s.queued = some q)
    (hpaint : old.Has c.skipPaint) (hinvalidation : old.Has c.skipInvalidation)
    (h : Carries old r covered s.flags q) :
    s.retire.current = some q ∧ s.retire.queued = none ∧
      Carries old r covered s.retire.flags q := by
  refine ⟨(current_retire s).trans hq, queued_retire s, ?_⟩
  rcases retire_cases s with ⟨c', q', hc', -, -, hretire⟩ | ⟨-, hretire⟩
  · cases hc.symm.trans hc'
    rw [hretire]
    exact { h with newFlags := (h.newFlags.set hpaint).set hinvalidation }
  · rw [hretire]
    exact h

end Stages

/-- **A whole advance** in favour of the queued task. -/
theorem advance_carries {s : Scheduler} {c q : Task} (hc : s.current = some c)
    (hq : s.queued = some q) (hpaint : old.Has c.skipPaint)
    (hinvalidation : old.Has c.skipInvalidation) (h : Carries old r covered s.flags q)
    (hasCache : Bool) :
    ∃ q', (s.advance hasCache []).current = some q' ∧ (s.advance hasCache []).queued = none ∧
      Carries old r
        (fun i => if hasCache then
            (covered i ∨ s.Unfinished c q i) ∧ InBand s.cache r.y r.height i
          else covered i)
        (s.advance hasCache []).flags q' := by
  cases hasCache with
  | false =>
    obtain ⟨hcurrent, hqueued, hcarries⟩ := retire_carries hc hq hpaint hinvalidation h
    exact ⟨q, hcurrent, hqueued, hcarries⟩
  | true =>
    obtain ⟨q₁, covered₁, hq₁, hc₁, hcache₁, h₁, hband⟩ := foldRemaining_carries hc hq h
    obtain ⟨q₂, hq₂, hc₂, h₂⟩ := clipQueued_carries hq₁ h₁
    rw [hcache₁] at h₂
    obtain ⟨hcurrent, hqueued, hcarries⟩ :=
      retire_carries (hc₂.trans hc₁) hq₂ hpaint hinvalidation h₂
    exact ⟨q₂, hcurrent, hqueued, hcarries.congr hband⟩

/-! ## 4. One request -/

/-- A tile of the current task that is handed over: the two tasks belong together,
    the grid has the tile, and it is not both up to date and resident. -/
def HandedOver (s : Scheduler) (c : Task) (r : Request) (i : Nat) : Prop :=
  c.compatible (Task.ofRequest r s.flags).1 = true ∧ Covers c.ranges i ∧
    i < s.cache.tileCount ∧ ¬(s.cache.isValid i = true ∧ s.cache.isResident i = true)

/-- A tile that the request itself asks for, or takes over from a task that was
    left queued. -/
def Requested (s : Scheduler) (r : Request) (i : Nat) : Prop :=
  Covers r.ranges i ∨ ∃ q ∈ s.leftover r, Covers q.ranges i

theorem covers_absorb {s : Scheduler} {r : Request} {i : Nat} :
    Covers (s.absorb r).ranges i ↔ s.Requested r i := by
  rw [absorb_eq, covers_append, Requested]
  refine or_congr Iff.rfl ?_
  simp only [Covers, List.mem_flatMap]
  constructor
  · rintro ⟨range, ⟨q, hq, hrange⟩, hi⟩
    exact ⟨q, hq, range, hrange, hi⟩
  · rintro ⟨q, hq, range, hrange, hi⟩
    exact ⟨range, ⟨q, hq, hrange⟩, hi⟩

theorem unfinished_enqueue {s : Scheduler} {c : Task} {r : Request} {i : Nat} :
    (s.enqueue r).Unfinished c (Task.ofRequest (s.absorb r) s.flags).1 i ↔
      s.HandedOver c r i := by
  have hcompatible : c.compatible (Task.ofRequest (s.absorb r) s.flags).1 =
      c.compatible (Task.ofRequest r s.flags).1 := by
    rw [absorb_eq]
    rfl
  rw [unfinished_iff, HandedOver, hcompatible]
  exact Iff.rfl

/-- Task `t` has taken the place of task `c` in favour of request `r`, between `s`
    and `s'`. -/
structure Succeeds (s : Scheduler) (c : Task) (r : Request) (hasCache : Bool) (s' : Scheduler)
    (t : Task) : Prop where
  queued : s'.queued = none
  current : s'.current = some t
  document : t.document = r.document
  y : t.y = r.y
  height : t.height = r.height
  scale : t.scale = r.scale
  full : t.full = (r.full || (s.leftover r).any Task.full)
  newFlags : NewFlags s.flags s'.flags t.skipPaint t.skipInvalidation
  ascending : TileRange.Ascending t.ranges
  wellFormed : TileRange.AllWellFormed t.ranges
  covers : hasCache = true → s.cache.grid.isEmpty = false →
    ∃ limit, s.cache.viewportBand r.y r.height = some limit ∧
      ∀ i, Covers t.ranges i ↔ (s.Requested r i ∨ s.HandedOver c r i) ∧ i ∈ limit
  covers_without : hasCache = false ∨ s.cache.grid.isEmpty = true →
    ∀ i, Covers t.ranges i ↔ s.Requested r i

/-- The last three fields, from the set that a whole advance leaves behind. -/
theorem Carries.succeeds {s s' : Scheduler} {c t : Task} {r : Request} {hasCache : Bool}
    (hqueued : s'.queued = none) (hcurrent : s'.current = some t)
    (h : Carries s.flags (s.absorb r)
      (fun i => if hasCache then
          (s.Requested r i ∨ s.HandedOver c r i) ∧ InBand s.cache r.y r.height i
        else s.Requested r i) s'.flags t) :
    Succeeds s c r hasCache s' t := by
  have habsorb := absorb_eq s r
  refine ⟨hqueued, hcurrent, ?_, ?_, ?_, ?_, ?_, h.newFlags, h.ascending, h.wellFormed, ?_, ?_⟩
  · rw [h.document, habsorb]
  · rw [h.y, habsorb]
  · rw [h.height, habsorb]
  · rw [h.scale, habsorb]
  · rw [h.full, habsorb]
  · intro hcache hgrid
    obtain ⟨limit, hlimit⟩ := exists_viewportBand r.y r.height hgrid
    refine ⟨limit, hlimit, fun i => ?_⟩
    rw [h.covers, hcache, if_pos rfl, inBand_iff_mem hlimit]
  · intro hwithout i
    rw [h.covers]
    cases hcache : hasCache with
    | false => rfl
    | true =>
      rw [hcache] at hwithout
      -- without a cache there is nothing to hand over
      rcases hwithout with hfalse | hgrid
      · cases hfalse
      · -- the grid has no tile that could be handed over, and no band
        rw [if_pos rfl, and_iff_left (inBand_of_none (viewportBand_of_isEmpty r.y r.height hgrid))]
        refine or_iff_left ?_
        rintro ⟨-, -, hlt, -⟩
        rw [tileCount_of_isEmpty hgrid] at hlt
        exact Nat.not_lt_zero i hlt

/-- **One request.**  While a task is current, a request leaves nothing queued, and
    the new current task covers exactly what the request asks for and what is handed
    over to it, inside the band.  Only a client that failed earlier can have left a task
    queued that the request takes over. -/
theorem schedule_coalesces {s : Scheduler} {c : Task} {r : Request} {hasCache : Bool}
    (hs : Reachable wellFormed s) (hcurrent : s.current = some c)
    (hr : TileRange.AllWellFormed r.ranges) (hclient : s.clientCache = .ok hasCache) :
    (∃ t, Succeeds s c r hasCache (s.schedule r).1 t) ∧
      (Reachable answered s → s.leftover r = [] ∧ ∀ i, s.Requested r i ↔ Covers r.ranges i) := by
  constructor
  · have hkept := tasksKept_of_reachable hs
    have hc := hkept.current c hcurrent
    have hsize := Task.size_cells_ofRequest (s.absorb r) s.flags
    -- the task of the request is queued with what it asks for and what was left
    have hqueued : Carries s.flags (s.absorb r) (Covers (s.absorb r).ranges)
        (s.enqueue r).flags (Task.ofRequest (s.absorb r) s.flags).1 :=
      carries_ofRequest (hkept.absorb hr) (Nat.le_refl _)
    obtain ⟨t, ht, hnone, hcarries⟩ :=
      advance_carries (s := s.enqueue r) hcurrent rfl hc.skipPaint hc.skipInvalidation hqueued
        hasCache
    have hnext : (s.schedule r).1 = ((s.enqueue r).advance hasCache []).dispatch.1 := by
      rw [schedule_of_some hcurrent]
      -- the client answers, so the current task is retired and the queued one follows it
      rcases scheduleNext_cases (s.enqueue r) [] with
        ⟨fault, hfault, -⟩ | ⟨hasCache', hclient', hnext⟩
      · have hboth := hclient.symm.trans hfault
        cases hboth
      · have hboth := hclient.symm.trans hclient'
        cases hboth
        rw [hnext]
    have hsame := SameTasks.dispatch ((s.enqueue r).advance hasCache [])
    rw [hnext]
    refine ⟨t, Carries.succeeds (hsame.queued.trans hnone) (hsame.current.trans ht) ?_⟩
    rw [hsame.flags]
    have hview : (s.absorb r).y = r.y ∧ (s.absorb r).height = r.height := by
      rw [absorb_eq]
      exact ⟨rfl, rfl⟩
    refine hcarries.congr fun i => ?_
    rw [hview.1, hview.2, covers_absorb, unfinished_enqueue]
    exact Iff.rfl
  · intro hanswered
    have hnil := leftover_eq_nil (queued_eq_none_of_reachable hanswered) r
    refine ⟨hnil, fun i => ?_⟩
    simp only [Requested, hnil, List.not_mem_nil, false_and, exists_false, or_false]

/-! ## 5. With and without a task left queued

The current task is for tile 0, which nobody has painted yet.  A client that fails
leaves a task for tile 1 queued; the next request then takes over tile 1 too, even
though neither the request nor the current task is for it. -/

namespace Sample

def first : Scheduler := idle.after (.call (.schedule (requestOf [⟨0, 0⟩])))

def failing : Scheduler := first.after (.setClient true true (some (.raised "client fault")))

def second : Scheduler := failing.after (.call (.schedule (requestOf [⟨1, 1⟩])))

def left : Scheduler := second.after (.setClient true true none)

theorem reachable_first : Reachable wellFormed first :=
  Reachable.after reachable_idle
    (show TileRange.AllWellFormed (requestOf [⟨0, 0⟩]).ranges by decide)

theorem reachable_left : Reachable wellFormed left := by
  have hfailing := reachable_first.after
    (a := .setClient true true (some (.raised "client fault"))) trivial
  have hsecond := Reachable.after (a := .call (.schedule (requestOf [⟨1, 1⟩]))) hfailing
    (show TileRange.AllWellFormed (requestOf [⟨1, 1⟩]).ranges by decide)
  exact hsecond.after trivial

end Sample

theorem schedule_coalesces_first :
    ∃ c t, Sample.first.current = some c ∧
      Succeeds Sample.first c (Sample.requestOf [⟨2, 2⟩]) true
        (Sample.first.schedule (Sample.requestOf [⟨2, 2⟩])).1 t ∧
      t.ranges = [⟨0, 0⟩, ⟨2, 2⟩] := by
  obtain ⟨c, hc⟩ : ∃ c, Sample.first.current = some c :=
    Option.isSome_iff_exists.mp (by decide +kernel)
  have hr : TileRange.AllWellFormed (Sample.requestOf [⟨2, 2⟩]).ranges := by decide
  have hclient : Sample.first.clientCache = .ok true := rfl
  obtain ⟨⟨t, ht⟩, -⟩ := schedule_coalesces Sample.reachable_first hc hr hclient
  refine ⟨c, t, hc, ht, ?_⟩
  have hranges : (Sample.first.schedule (Sample.requestOf [⟨2, 2⟩])).1.current.map Task.ranges =
      some [⟨0, 0⟩, ⟨2, 2⟩] := by decide +kernel
  rw [ht.current] at hranges
  exact Option.some.inj hranges

theorem schedule_may_take_over_more :
    ¬∀ (s : Scheduler) (c t : Task) (r : Request) (limit : TileRange),
      Reachable wellFormed s → s.current = some c → TileRange.AllWellFormed r.ranges →
      s.clientCache = .ok true → s.cache.grid.isEmpty = false →
      s.cache.viewportBand r.y r.height = some limit → (s.schedule r).1.current = some t →
      ∀ i, Covers t.ranges i ↔ (Covers r.ranges i ∨ s.HandedOver c r i) ∧ i ∈ limit := by
  intro hclaim
  obtain ⟨c, hc⟩ : ∃ c, Sample.left.current = some c :=
    Option.isSome_iff_exists.mp (by decide +kernel)
  obtain ⟨limit, hlimit⟩ :
      ∃ limit, Sample.left.cache.viewportBand (Sample.requestOf []).y 1 = some limit :=
    Option.isSome_iff_exists.mp (by decide +kernel)
  obtain ⟨t, ht⟩ :
      ∃ t, (Sample.left.schedule (Sample.requestOf [⟨2, 2⟩])).1.current = some t :=
    Option.isSome_iff_exists.mp (by decide +kernel)
  have hone := hclaim Sample.left c t (Sample.requestOf [⟨2, 2⟩]) limit Sample.reachable_left hc
    (by decide) rfl (by decide +kernel) hlimit ht 1
  -- tile 1 is covered, but neither requested nor handed over
  have hcurrent : Sample.left.current.map Task.ranges = some [⟨0, 0⟩] := by decide +kernel
  have hranges : (Sample.left.schedule (Sample.requestOf [⟨2, 2⟩])).1.current.map Task.ranges =
      some [⟨0, 0⟩, ⟨1, 1⟩, ⟨2, 2⟩] := by decide +kernel
  rw [hc] at hcurrent
  rw [ht] at hranges
  have hcovered : Covers t.ranges 1 := by
    rw [Option.some.inj hranges]
    decide
  rcases (hone.mp hcovered).1 with hrequested | ⟨-, hunfinished, -⟩
  · exact absurd hrequested (by decide)
  · rw [Option.some.inj hcurrent] at hunfinished
    exact absurd hunfinished (by decide)

end Scheduler

end TilePaint
