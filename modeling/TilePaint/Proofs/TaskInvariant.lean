/-
  TilePaint/Proofs/TaskInvariant.lean
  ===================================
  **The tasks of a scheduler.**

  Workers and dispatches leave the tasks and all flags alone (`SameTasks`), so only
  calls of the owner matter.  In a history whose requests are well formed, both tasks have well
  formed ranges, and their flags are flags of the store (`tasksKept_of_reachable`).

  A call asks the client for its cache only after it has queued the new task.  If
  the client answers, the queued task becomes the current one in the same call;
  only a client that fails leaves a task queued.  In a history in which the client
  always answers, nothing is ever queued between calls
  (`queued_eq_none_of_reachable`).
-/
import TilePaint.Proofs.RangeLists
import TilePaint.Proofs.SchedulerRun

namespace TilePaint

/-! ## 1. What leaves the tasks alone -/

namespace Scheduler

structure SameTasks (s u : Scheduler) : Prop where
  current : u.current = s.current
  queued : u.queued = s.queued
  flags : u.flags = s.flags
  flag : u.flag = s.flag

namespace SameTasks

variable {s u v : Scheduler} {w : Nat}

theorem refl (s : Scheduler) : SameTasks s s := ⟨rfl, rfl, rfl, rfl⟩

theorem trans (h : SameTasks s u) (h' : SameTasks u v) : SameTasks s v :=
  ⟨h'.current.trans h.current, h'.queued.trans h.queued, h'.flags.trans h.flags,
    h'.flag.trans h.flag⟩

/-- Batches, pool, client and cache may differ at the start as well. -/
theorem congr (h : SameTasks u v) (hcurrent : u.current = s.current)
    (hqueued : u.queued = s.queued) (hflags : u.flags = s.flags) (hflag : u.flag = s.flag) :
    SameTasks s v :=
  ⟨h.current.trans hcurrent, h.queued.trans hqueued, h.flags.trans hflags, h.flag.trans hflag⟩

theorem of_books (h : BooksOnly s u) : SameTasks s u := by
  obtain ⟨_, _, rfl⟩ := h
  exact ⟨rfl, rfl, rfl, rfl⟩

theorem stepWork (s : Scheduler) (work : Work) : SameTasks s (s.stepWork work).1 := by
  obtain ⟨cache, -, hbooks⟩ := stepWork_books s work
  exact (of_books hbooks).congr rfl rfl rfl rfl

theorem endWorkRender (s : Scheduler) (j : Job) (ticket : Ticket) (pixels : Array Pixel)
    (fault : Option Fault) : SameTasks s (s.endWorkRender j ticket pixels fault).1 := by
  obtain ⟨cache, -, hbooks⟩ := endWorkRender_books s j ticket pixels fault
  exact (of_books hbooks).congr rfl rfl rfl rfl

theorem resume {result : Scheduler × Option Work} (h : SameTasks s result.1) :
    SameTasks s (resume w result) := by
  rcases result with ⟨u, _ | work⟩
  · exact h.trans ⟨rfl, rfl, rfl, rfl⟩
  · exact h.trans ⟨rfl, rfl, rfl, rfl⟩

theorem dropUnrun (s : Scheduler) : SameTasks s s.dropUnrun :=
  (of_books (.dropUnrun s)).congr rfl rfl rfl rfl

theorem stepWorker (h : s.stepWorker w = some u) : SameTasks s u := by
  unfold Scheduler.stepWorker at h
  split at h
  · cases h
  · cases h
    exact resume (stepWork s _)
  · obtain ⟨pool, -, rfl⟩ := Option.map_eq_some_iff.mp h
    exact (dropUnrun _).congr rfl rfl rfl rfl

theorem endRender (s : Scheduler) (w : Nat) (pixels : Array Pixel) (fault : Option Fault) :
    SameTasks s (s.endRender w pixels fault) := by
  unfold Scheduler.endRender
  split
  · exact resume (endWorkRender s _ _ pixels fault)
  · exact refl s

theorem dispatched (s : Scheduler) (t : Task) (total : Nat) :
    SameTasks s (s.dispatched t total) := by
  obtain ⟨hcurrent, hqueued, hflags, hflag⟩ := of_books
    (.addBatch { s with cache := s.cache.setContext t.context } total t.skipInvalidation)
  exact ⟨hcurrent, hqueued, hflags, hflag⟩

theorem dispatch (s : Scheduler) : SameTasks s s.dispatch.1 := by
  rcases dispatch_cases s with ⟨t, total, -, h⟩ | ⟨cache, outcome, h, -⟩
  · rw [h]
    exact dispatched s t total
  · rw [h]
    exact ⟨rfl, rfl, rfl, rfl⟩

end SameTasks

end Scheduler

/-! ## 2. Kept tasks -/

namespace Task

/-- A task with well formed ranges whose flags are in the store. -/
structure Kept (t : Task) (flags : FlagStore) : Prop where
  wellFormed : TileRange.AllWellFormed t.ranges
  skipPaint : flags.Has t.skipPaint
  skipInvalidation : flags.Has t.skipInvalidation

variable {t : Task} {flags : FlagStore}

theorem Kept.grow {more : FlagStore} (h : t.Kept flags)
    (hmore : flags.cells.size ≤ more.cells.size) : t.Kept more :=
  ⟨h.wellFormed, Nat.lt_of_lt_of_le h.skipPaint hmore,
    Nat.lt_of_lt_of_le h.skipInvalidation hmore⟩

theorem size_cells_ofRequest (r : Request) (flags : FlagStore) :
    (ofRequest r flags).2.cells.size = flags.cells.size + 2 := by
  simp only [ofRequest, FlagStore.fresh, Array.size_push]

theorem size_cells_merge (t : Task) (extra : List TileRange) (c : TileCache)
    (flags : FlagStore) : (t.merge extra c flags).2.cells.size = flags.cells.size + 2 := by
  simp only [merge, FlagStore.fresh, Array.size_push]

theorem size_cells_cancel (t : Task) (flags : FlagStore) :
    (t.cancel flags).cells.size = flags.cells.size := by
  simp only [cancel, FlagStore.set, Array.size_setIfInBounds]

theorem kept_ofRequest {r : Request} (hr : TileRange.AllWellFormed r.ranges)
    (flags : FlagStore) : (ofRequest r flags).1.Kept (ofRequest r flags).2 :=
  ⟨hr.normalize, FlagStore.has_fresh.fresh, FlagStore.has_fresh⟩

theorem wellFormed_merge {extra : List TileRange} (ht : TileRange.AllWellFormed t.ranges)
    (hextra : TileRange.AllWellFormed extra) (c : TileCache) (flags : FlagStore) :
    TileRange.AllWellFormed (t.merge extra c flags).1.ranges := by
  have hjoined := ht.append hextra
  show TileRange.AllWellFormed (TileRange.normalize _)
  apply TileRange.AllWellFormed.normalize
  split
  · next limit hlimit => exact hjoined.restrict (TileCache.viewportBand_wellFormed hlimit)
  · exact hjoined

theorem Kept.merge (h : t.Kept flags) {extra : List TileRange}
    (hextra : TileRange.AllWellFormed extra) (c : TileCache) :
    (t.merge extra c flags).1.Kept (t.merge extra c flags).2 :=
  ⟨wellFormed_merge h.wellFormed hextra c flags, FlagStore.has_fresh.fresh, FlagStore.has_fresh⟩

end Task

namespace Scheduler

structure TasksKept (s : Scheduler) : Prop where
  current : ∀ t, s.current = some t → t.Kept s.flags
  queued : ∀ t, s.queued = some t → t.Kept s.flags

namespace TasksKept

variable {s u : Scheduler} {extra : List TileRange}

theorem congr (h : s.TasksKept) (hsame : SameTasks s u) : u.TasksKept := by
  constructor
  · rw [hsame.current, hsame.flags]
    exact h.current
  · rw [hsame.queued, hsame.flags]
    exact h.queued

/-- More flags, and some of them set, do no harm. -/
theorem grow (h : s.TasksKept) {more : FlagStore} (hmore : s.flags.cells.size ≤ more.cells.size) :
    ({ s with flags := more } : Scheduler).TasksKept :=
  ⟨fun t ht => (h.current t ht).grow hmore, fun t ht => (h.queued t ht).grow hmore⟩

theorem queueMerged (h : s.TasksKept) {t : Task} (ht : t.Kept s.flags)
    (hextra : TileRange.AllWellFormed extra) : (s.queueMerged t extra).TasksKept := by
  have hsize := Task.size_cells_merge t extra s.cache s.flags
  constructor
  · intro c hc
    exact (h.current c hc).grow (by show _ ≤ (t.merge extra s.cache s.flags).2.cells.size; omega)
  · intro q hq
    cases hq
    exact ht.merge hextra s.cache

theorem foldExtra (h : s.TasksKept) (hextra : TileRange.AllWellFormed extra) :
    (s.foldExtra extra).TasksKept := by
  unfold Scheduler.foldExtra
  split
  · exact h
  · split
    · next base hbase =>
      refine h.queueMerged ?_ hextra
      rcases Option.or_eq_some_iff.mp hbase with hq | ⟨-, hc⟩
      · exact h.queued base hq
      · exact h.current base hc
    · exact h

theorem foldRemaining (h : s.TasksKept) : s.foldRemaining.TasksKept := by
  unfold Scheduler.foldRemaining
  split
  · next c q _ hq =>
    split
    · dsimp only
      split
      · exact h
      · exact h.queueMerged (h.queued q hq) (TileCache.wellFormed_remaining s.cache c.ranges)
    · exact h
  · exact h

theorem clipQueued (h : s.TasksKept) : s.clipQueued.TasksKept := by
  unfold Scheduler.clipQueued
  split
  · next q hq => exact h.queueMerged (h.queued q hq) nofun
  · exact h

theorem retire (h : s.TasksKept) : s.retire.TasksKept := by
  have hpromote : s.promote.TasksKept := ⟨h.queued, nofun⟩
  rcases retire_cases s with ⟨c, q, -, -, -, hretire⟩ | ⟨-, hretire⟩
  · rw [hretire]
    exact hpromote.grow (Nat.le_of_eq (c.size_cells_cancel s.flags).symm)
  · rw [hretire]
    exact hpromote

theorem advance (h : s.TasksKept) (hextra : TileRange.AllWellFormed extra) (hasCache : Bool) :
    (s.advance hasCache extra).TasksKept := by
  unfold Scheduler.advance
  split
  · exact (h.foldExtra hextra).foldRemaining.clipQueued.retire
  · exact h.retire

theorem scheduleNext (h : s.TasksKept) (hextra : TileRange.AllWellFormed extra) :
    (s.scheduleNext extra).1.TasksKept := by
  rcases scheduleNext_cases s extra with ⟨fault, -, hnext⟩ | ⟨hasCache, -, hnext⟩
  · rw [hnext]
    exact h
  · rw [hnext]
    exact (h.advance hextra hasCache).congr (SameTasks.dispatch _)

end TasksKept

/-! ## 3. What a request takes over -/

/-- The tasks whose tiles a request takes over: a task that is queued for its
    document, and with that the current one if it is for the document as well. -/
def leftover (s : Scheduler) (r : Request) : List Task :=
  match s.queued.filter (·.document.same r.document) with
  | none => []
  | some q => q :: (s.current.filter (·.document.same r.document)).toList

theorem absorb_eq (s : Scheduler) (r : Request) :
    s.absorb r = { r with
      ranges := r.ranges ++ (s.leftover r).flatMap Task.ranges
      full := r.full || (s.leftover r).any Task.full } := by
  unfold absorb leftover
  cases s.queued.filter (·.document.same r.document) with
  | none => simp only [List.flatMap_nil, List.append_nil, List.any_nil, Bool.or_false]
  | some q =>
    cases hc : s.current.filter (·.document.same r.document) with
    | none =>
      simp only [hc, Option.toList_none, List.flatMap_cons, List.flatMap_nil, List.append_nil,
        List.any_cons, List.any_nil, Bool.or_false]
    | some c =>
      simp only [hc, Option.toList_some, List.flatMap_cons, List.flatMap_nil, List.append_nil,
        List.any_cons, List.any_nil, Bool.or_false, List.append_assoc, Bool.or_assoc]

theorem leftover_eq_nil {s : Scheduler} (h : s.queued = none) (r : Request) :
    s.leftover r = [] := by
  unfold leftover
  rw [h]
  rfl

theorem mem_leftover {s : Scheduler} {r : Request} {t : Task} (ht : t ∈ s.leftover r) :
    s.queued = some t ∨ s.current = some t := by
  unfold leftover at ht
  split at ht
  · cases ht
  · next q hq =>
    rcases List.mem_cons.mp ht with rfl | ht
    · exact Or.inl (Option.filter_eq_some_iff.mp hq).1
    · exact Or.inr (Option.filter_eq_some_iff.mp (Option.mem_toList.mp ht)).1

namespace TasksKept

variable {s s' : Scheduler}

theorem absorb (h : s.TasksKept) {r : Request} (hr : TileRange.AllWellFormed r.ranges) :
    TileRange.AllWellFormed (s.absorb r).ranges := by
  rw [absorb_eq]
  refine hr.append fun range hrange => ?_
  obtain ⟨t, ht, hrange⟩ := List.mem_flatMap.mp hrange
  rcases mem_leftover ht with hq | hc
  · exact (h.queued t hq).wellFormed range hrange
  · exact (h.current t hc).wellFormed range hrange

theorem enqueue (h : s.TasksKept) {r : Request} (hr : TileRange.AllWellFormed r.ranges) :
    (s.enqueue r).TasksKept := by
  have hsize := Task.size_cells_ofRequest (s.absorb r) s.flags
  constructor
  · intro c hc
    refine (h.current c hc).grow ?_
    show _ ≤ (Task.ofRequest (s.absorb r) s.flags).2.cells.size
    omega
  · intro q hq
    cases hq
    exact Task.kept_ofRequest (h.absorb hr) s.flags

theorem schedule (h : s.TasksKept) {r : Request} (hr : TileRange.AllWellFormed r.ranges) :
    (s.schedule r).1.TasksKept := by
  cases hcurrent : s.current with
  | none =>
    rw [schedule_of_none hcurrent]
    refine TasksKept.congr ?_ (SameTasks.dispatch _)
    have hsize := Task.size_cells_ofRequest r s.flags
    constructor
    · intro c hc
      cases hc
      exact Task.kept_ofRequest hr s.flags
    · intro q hq
      refine (h.queued q hq).grow ?_
      show _ ≤ (Task.ofRequest r s.flags).2.cells.size
      omega
  | some c =>
    rw [schedule_of_some hcurrent]
    exact (h.enqueue hr).scheduleNext nofun

theorem unpause (h : s.TasksKept) (now : Bool) : (s.unpause now).1.TasksKept := by
  have hopen : ({ s with paused := false } : Scheduler).TasksKept := ⟨h.current, h.queued⟩
  have hnext : ({ s with paused := false, current := s.queued, queued := none } :
      Scheduler).TasksKept := ⟨h.queued, nofun⟩
  unfold Scheduler.unpause
  dsimp only
  split
  · split
    · exact hopen.congr (SameTasks.dispatch _)
    · exact hnext.congr (SameTasks.dispatch _)
  · exact hopen

theorem destroy (h : s.TasksKept) : s.destroy.TasksKept := by
  have hsize : s.flags.cells.size ≤ s.destroy.flags.cells.size := by
    simp only [Scheduler.destroy, FlagStore.fresh, FlagStore.set, Array.size_push,
      Array.size_setIfInBounds]
    omega
  exact ⟨fun t ht => (h.current t ht).grow hsize, fun t ht => (h.queued t ht).grow hsize⟩

end TasksKept

/-! ## 4. Histories -/

/-- The requests and the further ranges of a history are well formed. -/
def wellFormed (_ : Scheduler) : Action → Prop
  | .call (.schedule r) => TileRange.AllWellFormed r.ranges
  | .call (.scheduleNext extra) => TileRange.AllWellFormed extra
  | _ => True

/-- The client answers whenever a call might ask it for its cache. -/
def answered (s : Scheduler) (a : Action) : Prop :=
  ∀ c, a = .call c → ∃ hasCache, s.clientCache = .ok hasCache

variable {s s' : Scheduler} {a : Action}

/-- What an action does to tasks and flags: a call does its own, somebody sets a
    flag, or nothing happens to them. -/
theorem act_tasks (h : s.act a = some s') :
    (∃ c, a = .call c ∧ s' = s.perform c) ∨
      (∃ f, a = .setFlag f ∧ s' = { s with flags := s.flags.set f }) ∨ SameTasks s s' := by
  cases a with
  | call c =>
    simp only [act] at h
    split at h
    · cases h
    · cases h
      exact Or.inl ⟨c, rfl, rfl⟩
  | work w => exact Or.inr (Or.inr (SameTasks.stepWorker h))
  | endRender w pixels fault =>
    simp only [act] at h
    split at h
    · cases h
      exact Or.inr (Or.inr (SameTasks.endRender s w pixels fault))
    · cases h
  | timeout w =>
    obtain ⟨pool, -, rfl⟩ := Option.map_eq_some_iff.mp h
    exact Or.inr (Or.inr ⟨rfl, rfl, rfl, rfl⟩)
  | setFlag f =>
    cases h
    exact Or.inr (Or.inl ⟨f, rfl, rfl⟩)
  | setClient alive hasCache fault =>
    cases h
    exact Or.inr (Or.inr ⟨rfl, rfl, rfl, rfl⟩)
  | setCache cache =>
    cases h
    exact Or.inr (Or.inr ⟨rfl, rfl, rfl, rfl⟩)

theorem TasksKept.step (h : s.TasksKept) (ha : wellFormed s a) (hact : s.act a = some s') :
    s'.TasksKept := by
  rcases act_tasks hact with ⟨c, rfl, rfl⟩ | ⟨f, -, rfl⟩ | hsame
  · cases c with
    | schedule r => exact h.schedule ha
    | scheduleNext extra => exact h.scheduleNext ha
    | clear => exact ⟨nofun, nofun⟩
    | destroy => exact h.destroy
    | pause => exact ⟨h.current, h.queued⟩
    | unpause now => exact h.unpause now
    | close => exact ⟨h.destroy.current, h.destroy.queued⟩
  · exact h.grow (Nat.le_of_eq Array.size_setIfInBounds.symm)
  · exact h.congr hsame

theorem tasksKept_of_reachable (hs : Reachable wellFormed s) : s.TasksKept := by
  refine hs.invariant ?_ fun _ _ _ h ha hact => h.step ha hact
  intro cache client config
  exact ⟨nofun, nofun⟩

theorem queued_scheduleNext {hasCache : Bool} (h : s.clientCache = .ok hasCache)
    (extra : List TileRange) : (s.scheduleNext extra).1.queued = none := by
  rw [scheduleNext_of_client h, (SameTasks.dispatch _).queued]
  exact queued_retire _

theorem queued_perform {hasCache : Bool} (hq : s.queued = none) (h : s.clientCache = .ok hasCache)
    (c : Call) : (s.perform c).queued = none := by
  cases c with
  | schedule r =>
    show (s.schedule r).1.queued = none
    cases hcurrent : s.current with
    | none =>
      -- the first task is dispatched without being queued
      rw [schedule_of_none hcurrent, (SameTasks.dispatch _).queued]
      exact hq
    | some c =>
      rw [schedule_of_some hcurrent]
      exact queued_scheduleNext (s := s.enqueue r) h []
  | scheduleNext extra => exact queued_scheduleNext h extra
  | clear => rfl
  | destroy => exact hq
  | pause => exact hq
  | unpause now =>
    simp only [perform, unpause]
    split
    · split
      · rw [(SameTasks.dispatch _).queued]
        exact hq
      · rw [(SameTasks.dispatch _).queued]
    · exact hq
  | close => exact hq

/-- **Nothing is queued between calls**, as long as the client always answers. -/
theorem queued_eq_none_of_reachable (hs : Reachable answered s) : s.queued = none := by
  refine hs.invariant (P := fun s => s.queued = none) (fun _ _ _ => rfl) ?_
  intro s a s' hq ha hact
  rcases act_tasks hact with ⟨c, hc, rfl⟩ | ⟨f, -, rfl⟩ | hsame
  · obtain ⟨hasCache, hclient⟩ := ha c hc
    exact queued_perform hq hclient c
  · exact hq
  · rw [hsame.queued, hq]

end Scheduler

end TilePaint
