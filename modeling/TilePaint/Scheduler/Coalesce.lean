/-
  TilePaint/Scheduler/Coalesce.lean
  =================================
  **Coalescing paint requests.**

  At most two tasks are alive: the current one, whose tiles are being rendered,
  and a queued one that waits for the current one to retire.  A new request
  retires the current task: what that task has not painted yet is taken over if
  the two belong together, the rest is dropped, and the new task is dispatched in
  its place.

  Dispatching can be paused.  `Scheduler.clear` cancels both tasks, and
  `Scheduler.destroy` makes every batch dispatched so far inert.

  The client may fail when it is asked for its cache.  The operation then ends
  with a fault, and what it did before that stays done.
-/
import TilePaint.Scheduler.Work

namespace TilePaint.Scheduler

/-! ### Dispatching -/

/-- Post one job for each range of a batch that was just added. -/
def postJobs (s : Scheduler) (t : Task) (ranges : List TileRange) : Scheduler :=
  let batch := s.batches.size - 1
  let work (r : TileRange) : Work :=
    { job := { batch, document := t.document, skipPaint := t.skipPaint, schedulerFlag := s.flag
               next := r.first, last := r.last, context := t.context }
      phase := .checking }
  { s with pool := ranges.foldl (fun pool r => pool.post (work r)) s.pool }

/-- Dispatch the current task; the answer is whether that was done.  Nothing is
    dispatched while the scheduler is paused, without a cache, or for a grid
    without tiles. -/
def dispatch (s : Scheduler) : Scheduler × Except Fault Bool :=
  match s.current with
  | none => (s, .ok false)
  | some t =>
      if s.paused || s.flags.isSet s.flag then (s, .ok false)
      else
        match s.clientCache with
        | .error fault => (s, .error fault)
        | .ok hasCache =>
            if !hasCache || s.cache.grid.isEmpty then (s, .ok false)
            else
              -- the context stays active if the ranges turn out to be too large
              let s := { s with cache := s.cache.setContext t.context }
              let ranges := TileRange.normalize t.ranges
              match TileRange.tileCount ranges with
              | .error fault => (s, .error fault)
              | .ok total => ((s.addBatch total t.skipInvalidation).postJobs t ranges, .ok true)

/-! ### Advancing to the queued task -/

def queueMerged (s : Scheduler) (t : Task) (extra : List TileRange) : Scheduler :=
  let (task, flags) := t.merge extra s.cache s.flags
  { s with queued := some task, flags }

/-- Add ranges to the queued task or, without one, to a copy of the current one. -/
def foldExtra (s : Scheduler) (extra : List TileRange) : Scheduler :=
  if extra.isEmpty then s
  else
    match s.queued.or s.current with
    | some base => s.queueMerged base extra
    | none => s

/-- Add to the queued task what the current one has not painted yet, if the two
    belong together. -/
def foldRemaining (s : Scheduler) : Scheduler :=
  match s.current, s.queued with
  | some current, some queued =>
      if current.compatible queued then
        let remaining := s.cache.remaining current.ranges
        if remaining.isEmpty then s else s.queueMerged queued remaining
      else s
  | _, _ => s

def clipQueued (s : Scheduler) : Scheduler :=
  match s.queued with
  | some queued => s.queueMerged queued []
  | none => s

/-- Retire the current task.  It is cancelled if the queued one is for other tiles
    at another place; otherwise its work may go on. -/
def retire (s : Scheduler) : Scheduler :=
  let advanced := { s with current := s.queued, queued := none }
  match s.current, s.queued with
  | some current, some queued =>
      if !current.sameTiles queued && current.y != queued.y then
        { advanced with flags := current.cancel s.flags }
      else advanced
  | _, _ => advanced

/-- Retire the current task in favour of the queued one and dispatch that; further
    ranges are added first.  The answer is whether a batch was dispatched. -/
def scheduleNext (s : Scheduler) (extra : List TileRange) : Scheduler × Except Fault Bool :=
  match s.clientCache with
  | .error fault => (s, .error fault)
  | .ok hasCache =>
      let s := if hasCache then ((s.foldExtra extra).foldRemaining).clipQueued else s
      s.retire.dispatch

/-! ### Requests -/

/-- A request that takes over the tiles of a queued task for the same document,
    and with them those of the current task. -/
def absorb (s : Scheduler) (r : Request) : Request :=
  match s.queued.filter (·.document.same r.document) with
  | none => r
  | some queued =>
      let r := { r with ranges := r.ranges ++ queued.ranges, full := r.full || queued.full }
      match s.current.filter (·.document.same r.document) with
      | none => r
      | some current =>
          { r with ranges := r.ranges ++ current.ranges, full := r.full || current.full }

/-- Schedule a request: at once if nothing is being painted, otherwise in the place
    of the current task. -/
def schedule (s : Scheduler) (r : Request) : Scheduler × Except Fault Unit :=
  match s.current with
  | none =>
      let (task, flags) := Task.ofRequest r s.flags
      let (s, outcome) := { s with current := some task, flags }.dispatch
      (s, outcome.map fun _ => ())
  | some _ =>
      -- the task is queued first, and stays queued if the client fails
      let (task, flags) := Task.ofRequest (s.absorb r) s.flags
      let (s, outcome) := { s with queued := some task, flags }.scheduleNext []
      (s, outcome.map fun _ => ())

def clear (s : Scheduler) : Scheduler :=
  let cancel (flags : FlagStore) (t : Option Task) := t.elim flags (·.cancel flags)
  { s with current := none, queued := none, flags := cancel (cancel s.flags s.current) s.queued }

def destroy (s : Scheduler) : Scheduler :=
  let (flag, flags) := (s.flags.set s.flag).fresh
  { s with flag, flags }

/-- Stop dispatching.  Work that was posted goes on. -/
def pause (s : Scheduler) : Scheduler := { s with paused := true }

/-- Dispatch again; on request the current task is dispatched now, or the queued one
    if there is no current one.  The answer is whether a batch was dispatched. -/
def unpause (s : Scheduler) (now : Bool) : Scheduler × Except Fault Bool :=
  let s := { s with paused := false }
  if now then
    match s.current with
    | some _ => s.dispatch
    | none => { s with current := s.queued, queued := none }.dispatch
  else (s, .ok false)

/-- Give up the scheduler: its batches become inert and its workers stop. -/
def close (s : Scheduler) : Scheduler :=
  let s := s.destroy
  { s with pool := s.pool.stop }

end TilePaint.Scheduler
