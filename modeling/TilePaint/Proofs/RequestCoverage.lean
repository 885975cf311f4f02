/-
  TilePaint/Proofs/RequestCoverage.lean
  =====================================
  **No request is lost.**

  Every request makes the current task anew, so what an earlier request asked for
  has to be handed on from task to task.  A history of requests (`AskedSince`) records
  each request together with the scheduler that it found; in between, dispatching
  is paused and resumed, workers go on, and others use the cache, as long as the
  grid stays the same (`Between`).

    * One request: the new current task has the view of the request and covers what
      the request asks for and what is handed over, inside the band
      (`schedule_covers`).
    * In between: the current task stays, and so does the band of every view
      (`SameTasks`, `SameGrid`).

  By induction on the history, a tile that was asked for once stays covered while
  every later view has it and nobody has painted it when the next request comes
  (`asked_for_is_covered`).
-/
import Mathlib.Data.List.Chain
import TilePaint.Proofs.Coalescing

namespace TilePaint

/-! ## 1. What keeps the grid -/

namespace TileCache

variable {c c' c'' : TileCache}

/-- Two caches with one grid and one size of tiles. -/
structure SameGrid (c c' : TileCache) : Prop where
  grid : c'.grid = c.grid
  edge : c'.edge = c.edge

theorem SameGrid.refl (c : TileCache) : SameGrid c c := ⟨rfl, rfl⟩

theorem SameGrid.trans (h : SameGrid c c') (h' : SameGrid c' c'') : SameGrid c c'' :=
  ⟨h'.grid.trans h.grid, h'.edge.trans h.edge⟩

theorem SameGrid.viewportBand (h : SameGrid c c') (y : Int) (height : Nat) :
    c'.viewportBand y height = c.viewportBand y height := by
  simp only [TileCache.viewportBand, h.grid, h.edge]

theorem SameGrid.tileCount (h : SameGrid c c') : c'.tileCount = c.tileCount := by
  simp only [TileCache.tileCount, h.grid]

theorem sameGrid_start (c : TileCache) (cancelled late : Bool) (index : Nat)
    (context : Context) : SameGrid c (c.start cancelled index context late).1 := by
  obtain ⟨hgrid, hedge, -, -, -⟩ := vacate_rest c index
  unfold start
  split
  · exact SameGrid.refl c
  · dsimp only
    split
    · exact ⟨hgrid, hedge⟩
    · split
      · exact ⟨hgrid, hedge⟩
      · exact ⟨hgrid, hedge⟩

theorem sameGrid_publish (c : TileCache) (t : Ticket) (pixels : Array Pixel) :
    SameGrid c (c.publish t pixels).1 := by
  unfold publish
  dsimp only
  split
  · exact ⟨rfl, rfl⟩
  · split
    · exact ⟨rfl, rfl⟩
    · exact ⟨rfl, rfl⟩

end TileCache

namespace Scheduler

open TileCache

variable {s s' : Scheduler} {w : Nat}

theorem cache_resume (w : Nat) (result : Scheduler × Option Work) :
    (resume w result).cache = result.1.cache := by
  rcases result with ⟨u, _ | work⟩ <;> rfl

theorem sameGrid_stepWork (s : Scheduler) (work : Work) :
    SameGrid s.cache (s.stepWork work).1.cache := by
  obtain ⟨cache, hstepped, hbooks⟩ := stepWork_books s work
  rw [hbooks.cache]
  rcases hstepped with rfl | ⟨late, rfl⟩
  · exact SameGrid.refl _
  · exact sameGrid_start s.cache false late _ _

theorem sameGrid_stepWorker (h : s.stepWorker w = some s') : SameGrid s.cache s'.cache := by
  unfold stepWorker at h
  split at h
  · cases h
  · cases h
    rw [cache_resume]
    exact sameGrid_stepWork s _
  · obtain ⟨pool, -, rfl⟩ := Option.map_eq_some_iff.mp h
    rw [(BooksOnly.dropUnrun _).cache]
    exact SameGrid.refl _

theorem sameGrid_endRender (s : Scheduler) (w : Nat) (pixels : Array Pixel)
    (fault : Option Fault) : SameGrid s.cache (s.endRender w pixels fault).cache := by
  unfold endRender
  split
  · next job ticket _ =>
    obtain ⟨cache, hcache, hbooks⟩ := endWorkRender_books s job ticket pixels fault
    rw [cache_resume, hbooks.cache]
    rcases hcache with rfl | rfl
    · exact ⟨rfl, rfl⟩
    · exact sameGrid_publish s.cache ticket pixels
  · exact SameGrid.refl _

theorem sameGrid_dispatch (s : Scheduler) : SameGrid s.cache s.dispatch.1.cache := by
  unfold dispatch
  split
  · exact SameGrid.refl _
  · split
    · exact SameGrid.refl _
    · split
      · exact SameGrid.refl _
      · split
        · exact SameGrid.refl _
        · dsimp only
          split
          · exact ⟨rfl, rfl⟩
          · simp only [postJobs, (BooksOnly.addBatch _ _ _).cache]
            exact ⟨rfl, rfl⟩

theorem cache_advance (s : Scheduler) (hasCache : Bool) (extra : List TileRange) :
    (s.advance hasCache extra).cache = s.cache := by
  have hfold : (s.foldExtra extra).foldRemaining.clipQueued.cache = s.cache :=
    fold_induction (P := fun u => u.cache = s.cache) extra rfl fun _ _ _ => id
  have hretire : ∀ u : Scheduler, u.retire.cache = u.cache := by
    intro u
    obtain ⟨flags, hretire⟩ := retire_eq u
    rw [hretire]
    rfl
  unfold advance
  split
  · exact (hretire _).trans hfold
  · exact hretire s

theorem sameGrid_schedule (s : Scheduler) (r : Request) :
    SameGrid s.cache (s.schedule r).1.cache := by
  cases hcurrent : s.current with
  | none =>
    have hdispatch := sameGrid_dispatch { s with
      current := some (Task.ofRequest r s.flags).1
      flags := (Task.ofRequest r s.flags).2 }
    rw [schedule_of_none hcurrent]
    exact hdispatch
  | some c =>
    rw [schedule_of_some hcurrent]
    rcases scheduleNext_cases (s.enqueue r) [] with ⟨fault, -, hnext⟩ | ⟨hasCache, -, hnext⟩
    · rw [hnext]
      exact SameGrid.refl _
    · rw [hnext]
      have hdispatch := sameGrid_dispatch ((s.enqueue r).advance hasCache [])
      rw [cache_advance] at hdispatch
      exact hdispatch

/-! ## 2. One request -/

/-- A task for the view of a request. -/
structure HasView (r : Request) (t : Task) : Prop where
  document : t.document = r.document
  y : t.y = r.y
  height : t.height = r.height
  scale : t.scale = r.scale

/-- Which tasks belong together depends on their views alone. -/
theorem HasView.compatible {r : Request} {t t' : Task} (h : HasView r t) (h' : HasView r t')
    (q : Task) : t.compatible q = t'.compatible q ∧ q.compatible t = q.compatible t' := by
  simp only [Task.compatible, Task.bottom, h.document, h.y, h.height, h.scale, h'.document,
    h'.y, h'.height, h'.scale, and_self]

/-- **What the new current task covers at least**: what the request asks for and what
    is handed over to it, inside the band. -/
theorem schedule_covers (h : s.TasksKept) {r : Request} (hr : TileRange.AllWellFormed r.ranges)
    (hclient : s.clientCache = .ok true) :
    ∃ t, (s.schedule r).1.current = some t ∧ HasView r t ∧
      ∀ i, InBand s.cache r.y r.height i →
        (Covers r.ranges i ∨ ∃ c, s.current = some c ∧ s.HandedOver c r i) → Covers t.ranges i := by
  cases hcurrent : s.current with
  | none =>
    rw [schedule_of_none hcurrent]
    refine ⟨(Task.ofRequest r s.flags).1, (SameTasks.dispatch _).current, ⟨rfl, rfl, rfl, rfl⟩, ?_⟩
    rintro i - (hasked | ⟨c, hc, -⟩)
    · exact TileRange.covers_normalize.mpr hasked
    · cases hc
  | some c =>
    have hc := h.current c hcurrent
    -- the new task carries what was queued, and then what the current one has not painted
    have hqueued : Carries s.flags (s.absorb r) (Covers (s.absorb r).ranges)
        (s.enqueue r).flags (Task.ofRequest (s.absorb r) s.flags).1 :=
      carries_ofRequest (h.absorb hr) (Nat.le_refl _)
    obtain ⟨t, ht, -, hcarries⟩ :=
      advance_carries (s := s.enqueue r) hcurrent rfl hc.skipPaint hc.skipInvalidation hqueued true
    have hview := absorb_eq s r
    rw [schedule_of_some hcurrent]
    rw [scheduleNext_of_client (s := s.enqueue r) hclient]
    refine ⟨t, (SameTasks.dispatch _).current.trans ht, ⟨?_, ?_, ?_, ?_⟩, ?_⟩
    · rw [hcarries.document, hview]
    · rw [hcarries.y, hview]
    · rw [hcarries.height, hview]
    · rw [hcarries.scale, hview]
    · intro i hband hwanted
      rw [hcarries.covers, if_pos rfl, covers_absorb, unfinished_enqueue, hview]
      refine ⟨?_, hband⟩
      rcases hwanted with hasked | ⟨c', hc', hhanded⟩
      · exact Or.inl (Or.inl hasked)
      · cases hc'
        exact Or.inr hhanded

/-! ## 3. Histories of requests -/

/-- What may happen between two requests. -/
def Between (s : Scheduler) : Action → Prop
  | .call c => c = .pause ∨ ∃ now, c = .unpause now
  | .setCache cache => SameGrid s.cache cache
  | _ => True

/-- A request, and the scheduler that it found. -/
structure Asked where
  found : Scheduler
  request : Request

namespace Asked

/-- The task that a request is made into. -/
def task (a : Asked) : Task := (Task.ofRequest a.request a.found.flags).1

theorem hasView_task (a : Asked) : HasView a.request a.task := ⟨rfl, rfl, rfl, rfl⟩

end Asked

/-- The requests that a scheduler was given since it was `start`, newest first.  The
    client had a cache whenever a request came. -/
inductive AskedSince (start : Scheduler) : List Asked → Scheduler → Prop
  | none : AskedSince start [] start
  | between {log : List Asked} {s s' : Scheduler} {a : Action} :
      AskedSince start log s → Between s a → s.act a = some s' → AskedSince start log s'
  | request {log : List Asked} {s s' : Scheduler} {r : Request} :
      AskedSince start log s → TileRange.AllWellFormed r.ranges → s.clientCache = .ok true →
        s.act (.call (.schedule r)) = some s' → AskedSince start (⟨s, r⟩ :: log) s'

variable {start : Scheduler} {log : List Asked}

theorem unpause_keeps (s : Scheduler) (now : Bool) :
    SameGrid s.cache (s.unpause now).1.cache ∧
      ∀ c, s.current = some c → (s.unpause now).1.current = some c := by
  unfold unpause
  dsimp only
  split
  · split
    · exact ⟨sameGrid_dispatch { s with paused := false },
        fun c hc => (SameTasks.dispatch _).current.trans hc⟩
    · next hnone =>
      refine ⟨sameGrid_dispatch
        { s with paused := false, current := s.queued, queued := none }, fun c hc => ?_⟩
      rw [hnone] at hc
      cases hc
  · exact ⟨SameGrid.refl _, fun _ hc => hc⟩

/-- **In between**, the grid stays, and so does the current task. -/
theorem between_keeps {a : Action} (hbetween : Between s a) (h : s.act a = some s') :
    SameGrid s.cache s'.cache ∧ ∀ c, s.current = some c → s'.current = some c := by
  cases a with
  | call c =>
    obtain ⟨-, rfl⟩ := act_call h
    rcases hbetween with rfl | ⟨now, rfl⟩
    · exact ⟨SameGrid.refl _, fun _ hc => hc⟩
    · exact unpause_keeps s now
  | work w =>
    exact ⟨sameGrid_stepWorker h, fun c hc => (SameTasks.stepWorker h).current.trans hc⟩
  | endRender w pixels fault =>
    simp only [act] at h
    split at h
    · cases h
      exact ⟨sameGrid_endRender s w pixels fault,
        fun c hc => (SameTasks.endRender s w pixels fault).current.trans hc⟩
    · cases h
  | timeout w =>
    obtain ⟨pool, -, rfl⟩ := Option.map_eq_some_iff.mp h
    exact ⟨SameGrid.refl _, fun _ hc => hc⟩
  | setFlag f =>
    cases h
    exact ⟨SameGrid.refl _, fun _ hc => hc⟩
  | setClient alive hasCache fault =>
    cases h
    exact ⟨SameGrid.refl _, fun _ hc => hc⟩
  | setCache cache =>
    cases h
    exact ⟨hbetween, fun _ hc => hc⟩

theorem wellFormed_of_between {a : Action} (hbetween : Between s a) : wellFormed s a := by
  cases a with
  | call c =>
    rcases hbetween with rfl | ⟨now, rfl⟩
    · trivial
    · trivial
  | _ => trivial

/-- A history of requests is a history, and the grid stays the same in it. -/
theorem AskedSince.keeps (h : AskedSince start log s) (hstart : Reachable wellFormed start) :
    Reachable wellFormed s ∧ SameGrid start.cache s.cache := by
  induction h with
  | none => exact ⟨hstart, SameGrid.refl _⟩
  | between _ hbetween hact ih =>
    exact ⟨ih.1.step (wellFormed_of_between hbetween) hact,
      ih.2.trans (between_keeps hbetween hact).1⟩
  | @request log s s' r _ hr _ hact ih =>
    refine ⟨Reachable.step (a := .call (.schedule r)) ih.1 hr hact, ih.2.trans ?_⟩
    rw [(act_call hact).2]
    exact sameGrid_schedule s r

/-! ## 4. What stays covered -/

/-- Tile `i` was asked for by `a`.  The view of `a` and every later one have it,
    consecutive requests belong together, and when a later request came, the tile was not
    both valid and resident. -/
structure Wanted (c : TileCache) (later : List Asked) (a : Asked) (i : Nat) : Prop where
  asked : Covers a.request.ranges i
  band : ∀ b ∈ later ++ [a], InBand c b.request.y b.request.height i
  together : (later ++ [a]).IsChain fun newer older => older.task.compatible newer.task = true
  unpainted : ∀ b ∈ later,
    ¬(b.found.cache.isValid i = true ∧ b.found.cache.isResident i = true)

variable {c : TileCache} {later earlier : List Asked} {a b : Asked} {i : Nat}

theorem Wanted.before (h : Wanted c (b :: later) a i) : Wanted c later a i where
  asked := h.asked
  band := fun d hd => h.band d (List.mem_cons_of_mem _ hd)
  together := h.together.tail
  unpainted := fun d hd => h.unpainted d (List.mem_cons_of_mem _ hd)

theorem Wanted.band_newest (h : Wanted c later a i)
    (hnewest : (later ++ a :: earlier).head? = some b) :
    InBand c b.request.y b.request.height i := by
  cases later with
  | nil =>
    cases hnewest
    exact h.band _ (List.mem_singleton.mpr rfl)
  | cons d later =>
    cases hnewest
    exact h.band _ (List.mem_cons_self ..)

/-- The request before the newest one, and that the two belong together. -/
theorem Wanted.joint (h : Wanted c (b :: later) a i) (earlier : List Asked) :
    ∃ older, (later ++ a :: earlier).head? = some older ∧
      older.task.compatible b.task = true := by
  have htogether := h.together
  cases later with
  | nil =>
    rw [List.cons_append, List.nil_append, List.isChain_cons_cons] at htogether
    exact ⟨a, rfl, htogether.1⟩
  | cons d later =>
    rw [List.cons_append, List.cons_append, List.isChain_cons_cons] at htogether
    exact ⟨d, rfl, htogether.1⟩

theorem AskedSince.covers (h : AskedSince start log s) (hstart : Reachable wellFormed start)
    (hgrid : i < start.cache.tileCount) (hlog : log = later ++ a :: earlier)
    (hwanted : Wanted start.cache later a i) :
    ∃ t, s.current = some t ∧ Covers t.ranges i ∧
      ∀ newest, log.head? = some newest → HasView newest.request t := by
  induction h generalizing later with
  | none =>
    cases later with
    | nil => cases hlog
    | cons d later => cases hlog
  | between hasked hbetween hact ih =>
    obtain ⟨t, ht, hcovers, hview⟩ := ih hlog hwanted
    exact ⟨t, (between_keeps hbetween hact).2 t ht, hcovers, hview⟩
  | @request log s s' r hasked hr hclient hact ih =>
    obtain ⟨hs, hsame⟩ := hasked.keeps hstart
    obtain ⟨t, ht, hview, hcovers⟩ := schedule_covers (tasksKept_of_reachable hs) hr hclient
    have hband : InBand s.cache r.y r.height i := by
      intro limit hlimit
      rw [hsame.viewportBand] at hlimit
      exact hwanted.band_newest (b := ⟨s, r⟩) (by rw [← hlog]; rfl) limit hlimit
    -- the tile is asked for now, or it was covered before and is handed over
    have hnow : Covers r.ranges i ∨ ∃ c, s.current = some c ∧ s.HandedOver c r i := by
      cases later with
      | nil =>
        cases hlog
        exact Or.inl hwanted.asked
      | cons b later =>
        obtain ⟨rfl, rfl⟩ := List.cons.inj hlog
        obtain ⟨c, hc, hcovered, hcview⟩ := ih rfl hwanted.before
        obtain ⟨older, holder, htogether⟩ := hwanted.joint earlier
        refine Or.inr ⟨c, hc, ?_, hcovered, ?_, hwanted.unpainted _ (List.mem_cons_self ..)⟩
        · rw [((hcview older holder).compatible older.hasView_task _).1]
          exact htogether
        · rw [hsame.tileCount]
          exact hgrid
    rw [(act_call hact).2]
    refine ⟨t, ht, hcovers i hband hnow, ?_⟩
    intro newest hnewest
    cases hnewest
    exact hview

/-- **No request is lost.**  In a history of requests without a new grid, a tile that
    was asked for is covered by the current task, as long as the views that followed have
    it, consecutive requests belong together, and nobody has painted it by the time of a
    later request. -/
theorem asked_for_is_covered (hstart : Reachable wellFormed start) (hasked : AskedSince start log s)
    (hlog : log = later ++ a :: earlier) (hgrid : i < start.cache.tileCount)
    (hwanted : Wanted start.cache later a i) :
    ∃ t, s.current = some t ∧ Covers t.ranges i := by
  obtain ⟨t, ht, hcovers, -⟩ := hasked.covers hstart hgrid hlog hwanted
  exact ⟨t, ht, hcovers⟩

/-! ## 5. Three requests

Nobody paints tile 0 before dispatching is paused, and two more requests come. -/

namespace Sample

def held : Scheduler := first.after (.call .pause)

def joined : Scheduler := held.after (.call (.schedule (requestOf [⟨1, 1⟩])))

def resumed : Scheduler := joined.after (.call (.unpause true))

def gathered : Scheduler := resumed.after (.call (.schedule (requestOf [⟨2, 2⟩])))

def laterRequests : List Asked := [⟨resumed, requestOf [⟨2, 2⟩]⟩, ⟨held, requestOf [⟨1, 1⟩]⟩]

theorem askedSince_gathered :
    AskedSince idle (laterRequests ++ [⟨idle, requestOf [⟨0, 0⟩]⟩]) gathered := by
  have hfirst : AskedSince idle [⟨idle, requestOf [⟨0, 0⟩]⟩] first :=
    AskedSince.none.request (by decide) rfl (act_after rfl)
  have hheld : AskedSince idle [⟨idle, requestOf [⟨0, 0⟩]⟩] held :=
    hfirst.between (a := .call .pause) (Or.inl rfl) (act_after (by decide +kernel))
  have hjoined : AskedSince idle
      [⟨held, requestOf [⟨1, 1⟩]⟩, ⟨idle, requestOf [⟨0, 0⟩]⟩] joined :=
    hheld.request (by decide) (by decide +kernel) (act_after (by decide +kernel))
  have hresumed : AskedSince idle
      [⟨held, requestOf [⟨1, 1⟩]⟩, ⟨idle, requestOf [⟨0, 0⟩]⟩] resumed :=
    hjoined.between (a := .call (.unpause true)) (Or.inr ⟨true, rfl⟩)
      (act_after (by decide +kernel))
  exact hresumed.request (by decide) (by decide +kernel) (act_after (by decide +kernel))

theorem wanted_gathered :
    Wanted idle.cache laterRequests ⟨idle, requestOf [⟨0, 0⟩]⟩ 0 where
  asked := by decide
  band := by
    have hlimit : idle.cache.viewportBand 0 1 = some ⟨0, 2⟩ := by decide +kernel
    have hview : ∀ b ∈ laterRequests ++ [⟨idle, requestOf [⟨0, 0⟩]⟩],
        b.request.y = 0 ∧ b.request.height = 1 := by decide +kernel
    intro b hb limit hband
    rw [(hview b hb).1, (hview b hb).2, hlimit] at hband
    cases hband
    decide
  together := .cons_cons (by decide +kernel) (.cons_cons (by decide +kernel) (.singleton _))
  unpainted := by decide +kernel

end Sample

theorem asked_for_is_covered_gathered :
    Reachable wellFormed Sample.idle ∧ Sample.idle.current.isNone = true ∧
      0 < Sample.idle.cache.tileCount ∧
      Wanted Sample.idle.cache Sample.laterRequests
        ⟨Sample.idle, Sample.requestOf [⟨0, 0⟩]⟩ 0 ∧
      ∃ t, Sample.gathered.current = some t ∧ Covers t.ranges 0 := by
  have hgrid : 0 < Sample.idle.cache.tileCount := by decide +kernel
  exact ⟨Sample.reachable_idle, rfl, hgrid, Sample.wanted_gathered,
    asked_for_is_covered Sample.reachable_idle Sample.askedSince_gathered rfl hgrid
      Sample.wanted_gathered⟩

end Scheduler

end TilePaint
