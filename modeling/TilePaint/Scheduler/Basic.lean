/-
  TilePaint/Scheduler/Basic.lean
  ==============================
  **The state of a paint scheduler, and the completion of its batches.**

  A scheduler paints for one client into the client's cache.  Dispatching a task
  makes a batch: one job for each range of the task, and a barrier that expects
  one arrival for each tile.  The arrival that fires the barrier completes the
  batch.  Whoever makes it then looks at the flags of the batch, and if none is
  set tells the client, as long as the client is there.

  These are separate steps and nothing is locked between them: a batch that is
  cancelled after the look at its flags is still heard of.
-/
import TilePaint.Barrier
import TilePaint.Pool
import TilePaint.Task
import TilePaint.TileCache.Paint

namespace TilePaint

/-! ### Parts -/

/-- The view that a scheduler paints for. -/
structure Client where
  alive : Bool := true
  hasCache : Bool := true
  /-- The reason if the client fails when it is asked for its cache. -/
  fault : Option Fault := none
  /-- How often the client was told that a batch is complete. -/
  invalidations : Nat := 0

structure Batch where
  barrier : Barrier
  /-- The flag of the task that keeps its completion quiet. -/
  skipInvalidation : Flag
  /-- The flag of the scheduler at the time of the dispatch. -/
  schedulerFlag : Flag

/-- One range of a batch. -/
structure Job where
  batch : Nat
  document : Document
  /-- The flag of the task that stops its rendering. -/
  skipPaint : Flag
  /-- The flag of the scheduler at the time of the dispatch. -/
  schedulerFlag : Flag
  next : Nat
  last : Nat
  context : Context

/-- Where a job is in its loop over the tiles. -/
inductive Phase where
  /-- About to look at its flags. -/
  | checking
  /-- About to paint the next tile, and to look at the task's flag for the first time. -/
  | painting
  /-- Past that look, about to take the slot of the tile. -/
  | admitted
  | rendering (ticket : Ticket)
  /-- Done with the next tile, about to arrive at the barrier. -/
  | arriving
  /-- The batch is complete; its flags are to be looked at. -/
  | completing
  /-- The flags were found unset; the client is to be told. -/
  | telling

structure Work where
  job : Job
  phase : Phase

/-! ### The scheduler -/

/-- The tasks of a scheduler and everything that they act on. -/
structure Scheduler where
  cache : TileCache
  flags : FlagStore
  client : Client
  batches : Array Batch
  pool : Pool Work
  /-- The task whose tiles are being rendered. -/
  current : Option Task
  /-- The task that waits for the current one to retire. -/
  queued : Option Task
  paused : Bool
  /-- The flag that makes every batch dispatched under it inert. -/
  flag : Flag

namespace Scheduler

def create (cache : TileCache) (client : Client) (config : PoolConfig) : Scheduler :=
  let (flag, flags) := FlagStore.empty.fresh
  { cache, client, flags, flag
    batches := #[]
    pool := .ofConfig config
    current := none
    queued := none
    paused := false }

/-- Whether the client has a cache to paint into.  A client that is gone has none;
    one that fails passes its fault on. -/
def clientCache (s : Scheduler) : Except Fault Bool :=
  if s.client.alive then
    match s.client.fault with
    | some fault => .error fault
    | none => .ok s.client.hasCache
  else .ok false

/-! ### Completion -/

/-- Arrive at the barrier of a batch; the answer is whether that completes the batch. -/
def arrive (s : Scheduler) (batch n : Nat) : Scheduler × Bool :=
  match s.batches[batch]? with
  | none => (s, false)
  | some b =>
      let (barrier, fires) := b.barrier.arrive n
      ({ s with batches := s.batches.setIfInBounds batch { b with barrier } }, fires)

/-- Whether the completion of a batch is to be kept quiet. -/
def isQuiet (s : Scheduler) (b : Batch) : Bool :=
  s.flags.isSet b.skipInvalidation || s.flags.isSet b.schedulerFlag

/-- Tell the client that a batch is complete, unless the client is gone. -/
def tell (s : Scheduler) : Scheduler :=
  if s.client.alive then
    { s with client := { s.client with invalidations := s.client.invalidations + 1 } }
  else s

/-- Look at the flags of a complete batch and tell the client in one go. -/
def complete (s : Scheduler) (b : Batch) : Scheduler := if s.isQuiet b then s else s.tell

/-- Add a batch that expects `total` arrivals; a batch that expects none is
    complete at once, still within the call of the owner. -/
def addBatch (s : Scheduler) (total : Nat) (skipInvalidation : Flag) : Scheduler :=
  let (barrier, fires) := Barrier.ofCount total
  let b : Batch := { barrier, skipInvalidation, schedulerFlag := s.flag }
  let s := { s with batches := s.batches.push b }
  if fires then s.complete b else s

end Scheduler

end TilePaint
