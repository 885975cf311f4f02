/-
  TilePaint/Proofs/TaskExtension.lean
  ===================================
  **Going on with more tiles.**

  `scheduleNext` retires the current task.  With further tiles, and a cache to look them
  up in, a copy of the task takes its place that has these tiles as well.  The copy goes
  through the same stages as the task of a request: what remains of the current task is
  added, and all is kept to the band once more.  Neither changes anything, as the copy has
  what remains already, whether or not it counts as compatible with the task that it is a
  copy of.  And as the two are for the same place, nobody is cancelled.

  The dispatch that follows cannot fail: the tiles lie in the grid, so they can be counted
  (`tileCount_of_tiles`).  The answer is then a matter of what a dispatch needs (`Ready`).

  All this is for a scheduler with nothing queued, as it is after every call that the client
  has answered.  If a client that failed has left a task queued, then there is a current task
  as well (`QueuedBehind`), and it is the queued one that is gone on with.
-/
import TilePaint.Proofs.BatchSilence
import TilePaint.Proofs.RequestCoverage

namespace TilePaint

/-! ## 1. Tasks for the view of another task -/

/-- The request that a task is for. -/
def Task.request (t : Task) : Request where
  document := t.document
  y := t.y
  height := t.height
  scale := t.scale
  full := t.full
  ranges := t.ranges

variable {old flags : FlagStore} {b c q t : Task} {extra : List TileRange}

theorem carries_merge (hb : TileRange.AllWellFormed b.ranges)
    (hextra : TileRange.AllWellFormed extra) (hold : old.cells.size ≤ flags.cells.size)
    (cache : TileCache) :
    Carries old b.request
      (fun i => (Covers b.ranges i ∨ Covers extra i) ∧ InBand cache b.y b.height i)
      (b.merge extra cache flags).2 (b.merge extra cache flags).1 where
  document := rfl
  y := rfl
  height := rfl
  scale := rfl
  full := rfl
  ascending := TileRange.ascending_normalize _
  wellFormed := Task.wellFormed_merge hb hextra cache flags
  covers := fun _ => covers_merge
  newFlags := newFlags_fresh hold

namespace Scheduler

variable {s s' u : Scheduler} {hasCache : Bool}

/-! ## 2. Nothing is queued without a current task -/

/-- There is no queued task, or there is a current one. -/
def QueuedBehind (s : Scheduler) : Prop := s.current = none → s.queued = none

theorem queuedBehind_scheduleNext (h : s.QueuedBehind) (extra : List TileRange) :
    (s.scheduleNext extra).1.QueuedBehind := by
  rcases scheduleNext_cases s extra with ⟨fault, -, hnext⟩ | ⟨hasCache, hclient, -⟩
  · rw [hnext]
    exact h
  · intro _
    exact queued_scheduleNext hclient extra

theorem queuedBehind_perform (h : s.QueuedBehind) (call : Call) :
    (s.perform call).QueuedBehind := by
  cases call with
  | schedule r =>
    simp only [perform]
    cases hcurrent : s.current with
    | none =>
      rw [schedule_of_none hcurrent]
      intro hnone
      rw [(SameTasks.dispatch _).current] at hnone
      cases hnone
    | some c =>
      rw [schedule_of_some hcurrent]
      refine queuedBehind_scheduleNext ?_ []
      intro hnone
      cases hcurrent.symm.trans hnone
  | scheduleNext extra => exact queuedBehind_scheduleNext h extra
  | clear => exact fun _ => rfl
  | destroy => exact h
  | pause => exact h
  | unpause now =>
    simp only [perform, unpause]
    split
    · split
      · intro hnone
        rw [(SameTasks.dispatch _).current] at hnone
        rw [(SameTasks.dispatch _).queued]
        exact h hnone
      · intro _
        rw [(SameTasks.dispatch _).queued]
    · exact h
  | close => exact h

theorem queuedBehind_of_reachable {allowed : Scheduler → Action → Prop}
    (hs : Reachable allowed s) : s.QueuedBehind := by
  refine hs.invariant (fun _ _ _ _ => rfl) ?_
  intro s a s' h _ hact
  rcases act_tasks hact with ⟨call, -, rfl⟩ | ⟨f, -, rfl⟩ | hsame
  · exact queuedBehind_perform h call
  · exact h
  · intro hnone
    rw [hsame.queued]
    exact h (hsame.current.symm.trans hnone)

/-! ## 3. An advance with further tiles -/

/-- Task `t` goes on for task `b`, from `s` to `s'`: it has the view of `b`, new flags, and
    those of the tiles `wanted` that are in the band of `b`. -/
structure GoesOn (s : Scheduler) (b : Task) (wanted : Nat → Prop) (s' : Scheduler) (t : Task) :
    Prop where
  current : s'.current = some t
  queued : s'.queued = none
  carries : Carries s.flags b.request (fun i => wanted i ∧ InBand s.cache b.y b.height i)
    s'.flags t

/-- **An advance in favour of a task that was left queued.**  Its flags are old, but it is
    merged at least once, so those of its successor are new. -/
theorem advance_queued (hkept : s.TasksKept) (hc : s.current = some c) (hq : s.queued = some q) :
    ∃ t, s.GoesOn q (fun i => Covers q.ranges i ∨ s.Unfinished c q i) (s.advance true []) t := by
  have hck := hkept.current c hc
  have hqk := (hkept.queued q hq).wellFormed
  have hnil : TileRange.AllWellFormed [] := nofun
  rcases foldRemaining_cases hc hq with ⟨hsame, hnothing⟩ | ⟨hmerged, hcompatible⟩
  · -- nothing is handed over, so the queued task is only clipped
    have hadvance : s.advance true [] = (s.queueMerged q []).retire := by
      show s.foldRemaining.clipQueued.retire = _
      simp only [hsame, clipQueued, hq]
    obtain ⟨hcurrent, hqueued, hcarries⟩ :=
      retire_carries (s := s.queueMerged q []) hc rfl hck.skipPaint hck.skipInvalidation
        (carries_merge hqk hnil (Nat.le_refl s.flags.cells.size) s.cache)
    rw [hadvance]
    refine ⟨_, hcurrent, hqueued, hcarries.congr ?_⟩
    intro i
    simp only [covers_nil, not_unfinished hnothing i]
  · have hadvance : s.advance true [] =
        (s.queueMerged q (s.cache.remaining c.ranges)).clipQueued.retire := by
      rw [← hmerged]
      rfl
    obtain ⟨t, ht, hc', hclipped⟩ :=
      clipQueued_carries (s := s.queueMerged q (s.cache.remaining c.ranges)) rfl
        (carries_merge hqk (TileCache.wellFormed_remaining s.cache c.ranges)
          (Nat.le_refl s.flags.cells.size) s.cache)
    obtain ⟨hcurrent, hqueued, hcarries⟩ :=
      retire_carries (hc'.trans hc) ht hck.skipPaint hck.skipInvalidation hclipped
    rw [hadvance]
    refine ⟨t, hcurrent, hqueued, hcarries.congr ?_⟩
    intro i
    simp only [Unfinished, hcompatible, true_and]
    exact and_iff_left_of_imp And.right

/-- **An advance with further tiles**, from the task that gets them: the queued one, or
    the current one if nothing is queued. -/
theorem advance_extended (hkept : s.TasksKept) (hextra : TileRange.AllWellFormed extra)
    (hsome : extra ≠ []) (hc : s.current = some c) (hb : s.queued.or s.current = some b) :
    ∃ t, s.GoesOn b (fun i => (Covers b.ranges i ∨ Covers extra i) ∨ s.Unfinished c b i)
      (s.advance true extra) t := by
  have hck := hkept.current c hc
  have hbk : TileRange.AllWellFormed b.ranges := by
    rcases Option.or_eq_some_iff.mp hb with hq | ⟨-, hcurrent⟩
    · exact (hkept.queued b hq).wellFormed
    · exact (hkept.current b hcurrent).wellFormed
  have hfold : s.foldExtra extra = s.queueMerged b extra := by
    simp only [foldExtra, List.isEmpty_eq_false_iff.mpr hsome, Bool.false_eq_true, if_false, hb]
  -- after that it is an advance without any
  have hadvance : s.advance true extra = (s.queueMerged b extra).advance true [] := by
    rw [← hfold]
    rfl
  obtain ⟨t, ht, hnone, hcarries⟩ :=
    advance_carries (s := s.queueMerged b extra) hc rfl hck.skipPaint hck.skipInvalidation
      (carries_merge hbk hextra (Nat.le_refl s.flags.cells.size) s.cache) true
  rw [hadvance]
  refine ⟨t, ht, hnone, hcarries.congr ?_⟩
  intro i
  -- the merged task has the view of `b`, and is kept to the band once more
  show (((Covers b.ranges i ∨ Covers extra i) ∧ InBand s.cache b.y b.height i) ∨
    s.Unfinished c b i) ∧ InBand s.cache b.y b.height i ↔ _
  rw [or_and_right, and_assoc, and_self, ← or_and_right]

/-! ## 4. An advance with nothing to go on with -/

theorem advance_of_idle (hq : s.queued = none)
    (hidle : hasCache = false ∨ extra = [] ∨ s.current = none) :
    s.advance hasCache extra = { s with current := none } := by
  have hstages :
      (if hasCache then ((s.foldExtra extra).foldRemaining).clipQueued else s) = s := by
    split
    · next hcache =>
      have hextra : s.foldExtra extra = s := by
        rcases hidle with hnone | rfl | hnone
        · cases hcache.symm.trans hnone
        · rfl
        · simp only [foldExtra, hq, hnone, Option.or_none, ite_self]
      have hremaining : s.foldRemaining = s := by
        unfold foldRemaining
        split
        · next hsome => cases hq.symm.trans hsome
        · rfl
      rw [hextra, hremaining]
      simp only [clipQueued, hq]
    · rfl
  rw [advance, hstages]
  rcases retire_cases s with ⟨-, q, -, hsome, -⟩ | ⟨-, hretire⟩
  · cases hq.symm.trans hsome
  · rw [hretire, promote, hq]

/-- An advance changes no more than the two tasks and the flags. -/
theorem advance_eq (s : Scheduler) (hasCache : Bool) (extra : List TileRange) :
    ∃ current flags, s.advance hasCache extra = { s with current, queued := none, flags } := by
  have hstages : ∃ queued flags,
      (if hasCache then ((s.foldExtra extra).foldRemaining).clipQueued else s) =
        { s with queued, flags } := by
    split
    · refine fold_induction (P := fun u => ∃ queued flags, u = { s with queued, flags }) extra
        ⟨s.queued, s.flags, rfl⟩ ?_
      rintro u t more ⟨queued, flags, rfl⟩
      exact ⟨_, _, rfl⟩
    · exact ⟨s.queued, s.flags, rfl⟩
  obtain ⟨queued, flags, hstages⟩ := hstages
  obtain ⟨flags', hretire⟩ := retire_eq { s with queued, flags }
  rw [advance, hstages, hretire]
  exact ⟨queued, flags', rfl⟩

/-! ## 5. The answer -/

/-- With a cache, every task that an advance leads to is kept to some band. -/
theorem inBand_of_advance (ht : (s.advance true extra).current = some t) :
    ∃ y height, ∀ i, Covers t.ranges i → InBand s.cache y height i := by
  have hcache := cache_advance s true extra
  obtain ⟨u, hu⟩ : ∃ u : Scheduler, s.advance true extra = u.clipQueued.retire := ⟨_, rfl⟩
  rw [hu, current_retire] at ht
  rw [hu] at hcache
  unfold clipQueued at ht hcache
  split at ht
  · next q hq =>
    cases ht
    obtain ⟨flags, hretire⟩ := retire_eq (u.queueMerged q [])
    rw [hq, hretire] at hcache
    refine ⟨q.y, q.height, ?_⟩
    intro i hi
    rw [← hcache]
    exact (covers_merge.mp hi).2
  · next hnone => cases hnone.symm.trans ht

theorem lt_tileCount_of_inBand {cache : TileCache} {y : Int} {height i : Nat}
    (hgrid : cache.grid.isEmpty = false) (h : InBand cache y height i) : i < cache.tileCount := by
  obtain ⟨hcolumns, hrows⟩ := Grid.isEmpty_eq_false_iff.mp hgrid
  obtain ⟨limit, hlimit⟩ := exists_viewportBand y height hgrid
  have hle : i ≤ limit.last := ((inBand_iff_mem hlimit).mp h).2
  simp only [TileCache.viewportBand, Grid.viewportBand, Grid.rowBand, hgrid, Bool.false_eq_true,
    if_false, Option.some.injEq] at hlimit
  rw [← hlimit] at hle
  exact Nat.lt_of_le_of_lt hle (Grid.index_lt_tileCount (by omega) (by omega))

/-- The tiles of a task can be counted if they are tiles of a grid. -/
theorem tileCount_of_tiles {n : Nat} (ht : TileRange.AllWellFormed t.ranges)
    (htiles : ∀ i, Covers t.ranges i → i < n) (hn : n ≤ maxIndex) :
    TileRange.tileCount (TileRange.normalize t.ranges) =
      .ok (tilesOf (TileRange.normalize t.ranges)).length := by
  have hsub : tilesOf (TileRange.normalize t.ranges) ⊆ List.range n := by
    intro i hi
    rw [List.mem_range]
    exact htiles i (TileRange.covers_normalize.mp (mem_tilesOf.mp hi))
  have hnodup := (TileRange.ascending_normalize t.ranges).nodup_tilesOf
  have hlen := hnodup.length_le_of_subset hsub
  rw [List.length_range] at hlen
  exact TileRange.tileCount_of_fits ht.normalize (Nat.le_trans hlen hn)

/-- **One batch for task `t`**: under its context, one job for each range, and the ranges
    have every tile of the task exactly once. -/
structure OneBatch (s s' : Scheduler) (t : Task) : Prop where
  adds : Adds s s' t (tilesOf (TileRange.normalize t.ranges)).length
  flag : s'.flag = s.flag
  nodup : (tilesOf (TileRange.normalize t.ranges)).Nodup
  covers : ∀ i, i ∈ tilesOf (TileRange.normalize t.ranges) ↔ Covers t.ranges i
  cache : s'.cache = s.cache.setContext t.context

theorem dispatch_of_dispatchable {total : Nat} (h : s.Dispatchable t total) :
    s.dispatch = (s.dispatched t total, .ok true) := by
  simp only [dispatch, dispatched, h.current, h.unpaused, h.unset, h.client, h.grid, h.total,
    Bool.or_false, Bool.not_true, Bool.false_eq_true, if_false]

theorem cache_dispatched (s : Scheduler) (t : Task) (total : Nat) :
    (s.dispatched t total).cache = s.cache.setContext t.context := by
  rw [dispatched, addBatch_eq]
  rfl

/-- What a dispatch needs, beside a count of the tiles. -/
structure Ready (s : Scheduler) (hasCache : Bool) : Prop where
  current : s.current ≠ none
  unpaused : s.paused = false
  cache : hasCache = true
  grid : s.cache.grid.isEmpty = false

theorem dispatch_of_not_ready (hclient : s.clientCache = .ok hasCache)
    (h : ¬s.Ready hasCache) : s.dispatch = (s, .ok false) := by
  unfold dispatch
  split
  · rfl
  · next t ht =>
    split
    · rfl
    · next hopen =>
      rw [hclient]
      dsimp only
      split
      · rfl
      · next hready =>
        rw [Bool.or_eq_true, not_or, Bool.not_eq_true, Bool.not_eq_true] at hopen
        rw [Bool.or_eq_true, not_or, Bool.not_eq_true, Bool.not_eq_true, Bool.not_eq_false']
          at hready
        refine absurd ⟨?_, hopen.1, hready.1, hready.2⟩ h
        rw [ht]
        exact Option.some_ne_none t

/-- Whether a call that goes on answers that a batch was dispatched, and what it has done
    then. -/
structure Answers (s : Scheduler) (hasCache : Bool) (s' : Scheduler) (answer : Bool) :
    Prop where
  iff : answer = true ↔ s'.current ≠ none ∧ s.paused = false ∧ hasCache = true ∧
    s.cache.grid.isEmpty = false
  posted : answer = true → ∃ t, s'.current = some t ∧ OneBatch s s' t
  quiet : answer = false → SameWork s s' ∧ s'.cache = s.cache

/-- The tiles of the task lie in the grid, so no count fails, and the flag of the scheduler
    is not set. -/
theorem scheduleNext_answers {marked : Flag → Prop} (hopen : s.pool.stopping = false)
    (hkept : s.TasksKept) (howned : s.Owned marked) (hextra : TileRange.AllWellFormed extra)
    (hclient : s.clientCache = .ok hasCache) (hfits : s.cache.tileCount < maxIndex) :
    ∃ answer, s.scheduleNext extra = ((s.scheduleNext extra).1, .ok answer) ∧
      Answers s hasCache (s.scheduleNext extra).1 answer := by
  obtain ⟨current, flags, hadvance⟩ := advance_eq s hasCache extra
  have hkept' := hkept.advance hextra hasCache
  have hunset := (howned.advance hasCache extra).owned.unset
  have hwork := SameWork.advance s hasCache extra
  have hcache := cache_advance s hasCache extra
  have hclient' : (s.advance hasCache extra).clientCache = .ok hasCache := by
    rw [hadvance]
    exact hclient
  have hpaused : (s.advance hasCache extra).paused = s.paused := by rw [hadvance]
  have hflag : (s.advance hasCache extra).flag = s.flag := by rw [hadvance]
  rw [scheduleNext_of_client hclient]
  by_cases hready : (s.advance hasCache extra).Ready hasCache
  · obtain ⟨t, ht⟩ := Option.ne_none_iff_exists'.mp hready.current
    -- with a cache the tiles are clipped to the band, so their number fits
    have htiles : ∀ i, Covers t.ranges i → i < s.cache.tileCount := by
      intro i hi
      have hsome := hready.cache
      subst hsome
      obtain ⟨y, height, hband⟩ := inBand_of_advance ht
      exact lt_tileCount_of_inBand (hcache ▸ hready.grid) (hband i hi)
    have htotal :=
      tileCount_of_tiles (hkept'.current t ht).wellFormed htiles (Nat.le_of_lt hfits)
    have hdispatch : (s.advance hasCache extra).Dispatchable t _ :=
      ⟨ht, hready.unpaused, hunset, hready.cache ▸ hclient', hready.grid, htotal⟩
    have hsame := SameTasks.dispatched (s.advance hasCache extra) t
      (tilesOf (TileRange.normalize t.ranges)).length
    rw [dispatch_of_dispatchable hdispatch]
    refine ⟨true, rfl, ?_, ?_, nofun⟩
    · refine iff_of_true rfl ⟨?_, hpaused ▸ hready.unpaused, hready.cache, hcache ▸ hready.grid⟩
      rw [hsame.current]
      exact hready.current
    · intro _
      refine ⟨t, hsame.current.trans ht, adds_dispatched hopen hwork hdispatch,
        hsame.flag.trans hflag, ?_, ?_, ?_⟩
      · exact (TileRange.ascending_normalize t.ranges).nodup_tilesOf
      · intro i
        rw [mem_tilesOf, TileRange.covers_normalize]
      · rw [cache_dispatched, hcache]
  · rw [dispatch_of_not_ready hclient' hready]
    refine ⟨false, rfl, ?_, nofun, fun _ => ⟨hwork, hcache⟩⟩
    refine iff_of_false Bool.false_ne_true ?_
    rintro ⟨hcurrent, hopen, hsome, hgrid⟩
    exact hready ⟨hcurrent, hpaused.trans hopen, hsome, hcache ▸ hgrid⟩

/-! ## 6. Going on -/

/-- All ranges are well formed, and others set flags of tasks only. -/
def careful (s : Scheduler) (a : Action) : Prop := wellFormed s a ∧ guarded s a

theorem GoesOn.dispatch {u : Scheduler} {wanted : Nat → Prop} (h : s.GoesOn b wanted u t) :
    s.GoesOn b wanted u.dispatch.1 t := by
  have hsame := SameTasks.dispatch u
  refine ⟨hsame.current.trans h.current, hsame.queued.trans h.queued, ?_⟩
  rw [hsame.flags]
  exact h.carries

theorem scheduleNext_of_idle (hclient : s.clientCache = .ok hasCache) (hq : s.queued = none)
    (hidle : hasCache = false ∨ extra = [] ∨ s.current = none) :
    (s.scheduleNext extra).1 = { s with current := none } := by
  rw [scheduleNext_of_client hclient, advance_of_idle hq hidle]
  rfl

/-- With a cache, a task that was left queued is gone on with in any case. -/
theorem scheduleNext_of_queued (hclient : s.clientCache = .ok true) (hkept : s.TasksKept)
    (hextra : TileRange.AllWellFormed extra) (hc : s.current = some c) (hq : s.queued = some q) :
    ∃ t, s.GoesOn q (fun i => (Covers q.ranges i ∨ Covers extra i) ∨ s.Unfinished c q i)
      (s.scheduleNext extra).1 t := by
  rw [scheduleNext_of_client hclient]
  by_cases hnil : extra = []
  · subst hnil
    obtain ⟨t, ht⟩ := advance_queued hkept hc hq
    simp only [covers_nil, or_false]
    exact ⟨t, ht.dispatch⟩
  · obtain ⟨t, ht⟩ := advance_extended (b := q) hkept hextra hnil hc (by rw [hq]; rfl)
    exact ⟨t, ht.dispatch⟩

/-- With nothing queued, the current task is gone on with.  It has already what is handed
    over to it. -/
theorem scheduleNext_of_current (hclient : s.clientCache = .ok true) (hkept : s.TasksKept)
    (hextra : TileRange.AllWellFormed extra) (hsome : extra ≠ []) (hc : s.current = some c)
    (hq : s.queued = none) :
    ∃ t, s.GoesOn c (fun i => Covers c.ranges i ∨ Covers extra i) (s.scheduleNext extra).1 t := by
  obtain ⟨t, ht⟩ := advance_extended (b := c) hkept hextra hsome hc (by rw [hq]; exact hc)
  rw [scheduleNext_of_client hclient]
  have hown : ∀ i, s.Unfinished c c i → Covers c.ranges i ∨ Covers extra i := by
    intro i hi
    exact Or.inl (unfinished_iff.mp hi).2.1
  simp only [or_iff_left_of_imp (hown _)] at ht
  exact ⟨t, ht.dispatch⟩

/-- **Going on with more tiles.**  Without a current task nothing happens, and without
    further tiles or a cache the current task retires.  Otherwise a task with its view takes its
    place, which covers exactly its tiles and the further ones inside the band.  No flag is set,
    and the answer tells whether there is a task to dispatch and one may.

    Only a client that failed earlier can have left a task queued.  Then it is that task that is
    gone on with, and what the current task has not painted is handed over to it. -/
theorem scheduleNext_extends
    (hs : Reachable careful s) (hextra : TileRange.AllWellFormed extra)
    (hclient : s.clientCache = .ok hasCache) (hfits : s.cache.tileCount < maxIndex)
    (hact : s.act (.call (.scheduleNext extra)) = some s') :
    (s.current = none → s' = s) ∧
    (∀ c, s.current = some c → s.queued = none →
      (hasCache = true ∧ extra ≠ [] →
        ∃ t, s.GoesOn c (fun i => Covers c.ranges i ∨ Covers extra i) s' t) ∧
      (hasCache = false ∨ extra = [] → s' = { s with current := none }) ∧
      ∀ f, s'.flags.isSet f = s.flags.isSet f) ∧
    (∃ answer, s.scheduleNext extra = (s', .ok answer) ∧ Answers s hasCache s' answer) ∧
    (∀ c q, s.current = some c → s.queued = some q →
      (hasCache = true → ∃ t,
        s.GoesOn q (fun i => (Covers q.ranges i ∨ Covers extra i) ∨ s.Unfinished c q i) s' t) ∧
      (hasCache = false → s'.current = some q ∧ s'.queued = none)) ∧
    (Reachable answered s → s.queued = none) := by
  obtain ⟨hopen, hnext⟩ := act_call hact
  have hnext : s' = (s.scheduleNext extra).1 := hnext
  subst hnext
  have hkept := tasksKept_of_reachable (hs.mono fun _ _ h => h.1)
  have howned := owned_of_reachable (hs.mono fun _ _ h => h.2)
  have hbehind := queuedBehind_of_reachable hs
  refine ⟨?_, ?_, ?_, ?_, queued_eq_none_of_reachable⟩
  · intro hnone
    rw [scheduleNext_of_idle hclient (hbehind hnone) (Or.inr (Or.inr hnone)), ← hnone]
  · intro c hc hq
    have hidle : hasCache = false ∨ extra = [] →
        (s.scheduleNext extra).1 = { s with current := none } := by
      intro hnothing
      exact scheduleNext_of_idle hclient hq (hnothing.imp_right Or.inl)
    have hgoesOn : hasCache = true ∧ extra ≠ [] → ∃ t,
        s.GoesOn c (fun i => Covers c.ranges i ∨ Covers extra i) (s.scheduleNext extra).1 t := by
      rintro ⟨rfl, hsome⟩
      exact scheduleNext_of_current hclient hkept hextra hsome hc hq
    refine ⟨hgoesOn, hidle, ?_⟩
    -- whoever follows is at the same place, so the current task is not cancelled
    rcases (howned.retired_scheduleNext hclient hc extra).outcome with
      ⟨follower, hfollower, hmoved, -⟩ | ⟨hsame, -⟩
    · exfalso
      by_cases hmore : hasCache = true ∧ extra ≠ []
      · obtain ⟨t, ht⟩ := hgoesOn hmore
        cases hfollower.symm.trans ht.current
        exact hmoved ht.carries.y
      · rw [not_and_or, Bool.not_eq_true, not_not] at hmore
        rw [hidle hmore] at hfollower
        cases hfollower
    · exact hsame
  · exact scheduleNext_answers hopen hkept howned hextra hclient hfits
  · intro c q hc hq
    constructor
    · rintro rfl
      exact scheduleNext_of_queued hclient hkept hextra hc hq
    · rintro rfl
      have hsame := SameTasks.dispatch (s.advance false extra)
      rw [scheduleNext_of_client hclient, hsame.current, hsame.queued]
      exact ⟨(current_retire s).trans hq, queued_retire s⟩

/-! ## 7. With and without a task left queued

The current task is for tile 0.  It goes on with tile 2; but if a client that failed has left
a task for tile 1 queued, tile 1 comes with it. -/

namespace Sample

theorem reachable_careful_first : Reachable careful first :=
  Reachable.after reachable_idle
    ⟨show TileRange.AllWellFormed (requestOf [⟨0, 0⟩]).ranges by decide, trivial⟩

theorem reachable_careful_left : Reachable careful left := by
  have hfailing := reachable_careful_first.after
    (a := .setClient true true (some (.raised "client fault"))) ⟨trivial, trivial⟩
  have hsecond := Reachable.after (a := .call (.schedule (requestOf [⟨1, 1⟩]))) hfailing
    ⟨show TileRange.AllWellFormed (requestOf [⟨1, 1⟩]).ranges by decide, trivial⟩
  exact hsecond.after ⟨trivial, trivial⟩

def firstExtended : Scheduler := first.after (.call (.scheduleNext [⟨2, 2⟩]))

def leftExtended : Scheduler := left.after (.call (.scheduleNext [⟨2, 2⟩]))

end Sample

theorem scheduleNext_extends_first :
    ∃ c t, Sample.first.current = some c ∧
      Sample.first.GoesOn c (fun i => Covers c.ranges i ∨ Covers [⟨2, 2⟩] i)
        Sample.firstExtended t ∧
      t.ranges = [⟨0, 0⟩, ⟨2, 2⟩] ∧
      Sample.first.scheduleNext [⟨2, 2⟩] = (Sample.firstExtended, .ok true) := by
  obtain ⟨c, hc⟩ : ∃ c, Sample.first.current = some c :=
    Option.isSome_iff_exists.mp (by decide +kernel)
  have hq : Sample.first.queued = none := Option.isNone_iff_eq_none.mp (by decide +kernel)
  have hextra : TileRange.AllWellFormed [⟨2, 2⟩] := by decide
  have hclient : Sample.first.clientCache = .ok true := rfl
  obtain ⟨-, hextends, ⟨answer, hanswer, hdone⟩, -⟩ :=
    scheduleNext_extends Sample.reachable_careful_first hextra hclient (by decide +kernel)
      (act_after (by decide +kernel))
  obtain ⟨t, ht⟩ := (hextends c hc hq).1 ⟨rfl, List.cons_ne_nil _ _⟩
  have hranges : Sample.firstExtended.current.map Task.ranges = some [⟨0, 0⟩, ⟨2, 2⟩] := by
    decide +kernel
  have htrue : answer = true := by
    refine hdone.iff.mpr ⟨?_, by decide +kernel, rfl, by decide +kernel⟩
    rw [ht.current]
    exact Option.some_ne_none t
  subst htrue
  refine ⟨c, t, hc, ht, ?_, hanswer⟩
  rw [show Sample.firstExtended.current = some t from ht.current] at hranges
  exact Option.some.inj hranges

/-- A task that goes on can get tiles that nobody asked it to have. -/
theorem scheduleNext_may_take_over_more :
    ¬∀ (s s' : Scheduler) (c t : Task) (extra : List TileRange) (limit : TileRange),
      Reachable careful s → s.current = some c → extra ≠ [] →
      TileRange.AllWellFormed extra → s.clientCache = .ok true →
      s.cache.viewportBand c.y c.height = some limit →
      s.act (.call (.scheduleNext extra)) = some s' → s'.current = some t →
      ∀ i, Covers t.ranges i ↔ (Covers c.ranges i ∨ Covers extra i) ∧ i ∈ limit := by
  intro hclaim
  obtain ⟨c, hc⟩ : ∃ c, Sample.left.current = some c :=
    Option.isSome_iff_exists.mp (by decide +kernel)
  obtain ⟨t, ht⟩ : ∃ t, Sample.leftExtended.current = some t :=
    Option.isSome_iff_exists.mp (by decide +kernel)
  obtain ⟨limit, hlimit⟩ : ∃ limit, Sample.left.cache.viewportBand c.y c.height = some limit :=
    exists_viewportBand c.y c.height (by decide +kernel)
  have hone := hclaim Sample.left Sample.leftExtended c t [⟨2, 2⟩] limit
    Sample.reachable_careful_left hc (List.cons_ne_nil _ _) (by decide) rfl hlimit
    (act_after (by decide +kernel)) ht 1
  -- tile 1 is covered, but it is neither a tile of the current task nor a further one
  have hcurrent : Sample.left.current.map Task.ranges = some [⟨0, 0⟩] := by decide +kernel
  have hranges : Sample.leftExtended.current.map Task.ranges =
      some [⟨0, 0⟩, ⟨1, 1⟩, ⟨2, 2⟩] := by decide +kernel
  rw [hc] at hcurrent
  rw [ht] at hranges
  have hcovered : Covers t.ranges 1 := by
    rw [Option.some.inj hranges]
    decide
  have howned : ¬Covers c.ranges 1 := by
    rw [Option.some.inj hcurrent]
    decide
  rcases (hone.mp hcovered).1 with hown | hfurther
  · exact howned hown
  · exact absurd hfurther (by decide)

end Scheduler

end TilePaint
