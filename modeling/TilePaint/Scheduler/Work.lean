/-
  TilePaint/Scheduler/Work.lean
  =============================
  **The steps of a job, and of the workers that run jobs.**

  A job goes through the tiles of its range one by one.  Before each tile it looks
  at its flags; then the tile is painted, and the job arrives at the barrier of
  its batch.  Every tile of the range arrives exactly once: when a job ends early,
  because it was cancelled, because the engine gave up or because it was never
  run, the tiles that it did not reach arrive together.

  The job whose arrival completes the batch looks at the flags of the batch in a
  step of its own, and tells the client in another.  Only then does it go on, or
  end.

  A job that is rendering stands still until it is told what the engine did
  (`Scheduler.endRender`).  All other phases go on by `Scheduler.stepWork`.
-/
import TilePaint.Scheduler.Basic

namespace TilePaint.Scheduler

/-! ### Jobs -/

/-- End a job: the tiles that it did not reach arrive.  If this completes the batch,
    the job has that to deal with before it is over. -/
def endJob (s : Scheduler) (j : Job) : Scheduler × Option Work :=
  if j.next ≤ j.last then
    let (s, fires) := s.arrive j.batch (j.last - j.next + 1)
    (s, if fires then some ⟨{ j with next := j.last + 1 }, .completing⟩ else none)
  else (s, none)

/-- One step of a job outside the engine; without a new phase the job has ended. -/
def stepWork (s : Scheduler) (w : Work) : Scheduler × Option Work :=
  let j := w.job
  match w.phase with
  | .checking =>
      if j.last < j.next || s.flags.isSet j.skipPaint || s.flags.isSet j.schedulerFlag then
        s.endJob j
      else (s, some { w with phase := .painting })
  | .painting =>
      if s.flags.isSet j.skipPaint then (s, some { w with phase := .arriving })
      else (s, some { w with phase := .admitted })
  | .admitted =>
      -- the flag was unset a step ago, but may have been set since
      match s.cache.start false j.next j.context (s.flags.isSet j.skipPaint) with
      | (cache, .error _) => { s with cache }.endJob j
      | (cache, .ok .skip) => ({ s with cache }, some { w with phase := .arriving })
      | (cache, .ok (.render ticket)) =>
          ({ s with cache }, some { w with phase := .rendering ticket })
  | .rendering _ => (s, some w)
  | .arriving =>
      match addWithin maxIndex j.next 1 with
      -- the greatest index has no successor, so its tile arrives with the end of the job
      | .error _ => s.endJob j
      | .ok next =>
          let (s, fires) := s.arrive j.batch 1
          (s, some ⟨{ j with next }, if fires then .completing else .checking⟩)
  | .completing =>
      -- from here on setting a flag of the batch comes too late to keep it quiet
      let quiet := s.batches[j.batch]?.all s.isQuiet
      (s, some { w with phase := if quiet then .checking else .telling })
  | .telling => (s.tell, some { w with phase := .checking })

/-- The end of a render: the tile is published, or the job ends because the engine
    gave up. -/
def endWorkRender (s : Scheduler) (j : Job) (ticket : Ticket) (pixels : Array Pixel)
    (fault : Option Fault) : Scheduler × Option Work :=
  match fault with
  | some _ => { s with cache := s.cache.abandon ticket pixels }.endJob j
  | none => ({ s with cache := (s.cache.publish ticket pixels).1 }, some ⟨j, .arriving⟩)

/-! ### Workers -/

/-- Put the outcome of a step of its job into worker `w`. -/
def resume (w : Nat) : Scheduler × Option Work → Scheduler
  | (s, some work) => { s with pool := s.pool.setWorker w (.busy work) }
  | (s, none) => { s with pool := s.pool.setWorker w .looking }

/-- Drop a job that was never run.  Jobs are dropped only once the pool has been told
    to stop, after the last call of the owner, so a batch that this completes can be
    dealt with in one go. -/
def dropJob (s : Scheduler) (j : Job) : Scheduler :=
  match s.endJob j with
  | (s, none) => s
  | (s, some _) => s.batches[j.batch]?.elim s s.complete

/-- Drop the queued jobs if no worker is left to run them. -/
def dropUnrun (s : Scheduler) : Scheduler :=
  let (jobs, pool) := s.pool.drain
  jobs.foldl (fun s work => s.dropJob work.job) { s with pool }

/-- The next step of worker `w`, if it can make one without the engine. -/
def stepWorker (s : Scheduler) (w : Nat) : Option Scheduler :=
  match s.pool.worker w with
  | .busy ⟨_, .rendering _⟩ => none
  | .busy work => some (resume w (s.stepWork work))
  | _ => (s.pool.proceed w).map fun pool => { s with pool }.dropUnrun

def rendering? (s : Scheduler) (w : Nat) : Option (Document × Ticket) :=
  match s.pool.worker w with
  | .busy ⟨job, .rendering ticket⟩ => some (job.document, ticket)
  | _ => none

/-- The engine is done with the render of worker `w`, or has given it up. -/
def endRender (s : Scheduler) (w : Nat) (pixels : Array Pixel) (fault : Option Fault) :
    Scheduler :=
  match s.pool.worker w with
  | .busy ⟨job, .rendering ticket⟩ => resume w (s.endWorkRender job ticket pixels fault)
  | _ => s

end TilePaint.Scheduler
