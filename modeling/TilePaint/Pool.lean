/-
  TilePaint/Pool.lean
  ===================
  **A pool of workers that serve one queue.**

  Jobs are posted to the end of the queue and taken from its front.  A worker goes
  round in a loop: it looks at the stop signal, waits for a job, runs the job and
  starts again.  A job that gives up ends like any other and costs no worker.  A
  wait may end without a job; then the worker looks at the signal again.

  After the stop signal no job can be posted.  A worker that is in a job ends it
  and leaves; a worker that waits may take one job more.  When the last worker has
  left, the jobs still queued are dropped.

  Every step of a worker is a function of its own, so that all interleavings of
  the workers with each other and with the owner of the pool can be followed.
-/

namespace TilePaint

/-- How many workers a pool has, and how long one waits for a job at a time. -/
structure PoolConfig where
  workers : Nat
  pollMillis : Nat := 100
deriving DecidableEq, Repr

/-- Where a worker is in its loop. -/
inductive Worker (α : Type) where
  /-- About to look at the stop signal. -/
  | looking
  | waiting
  | busy (job : α)
  | gone
deriving Repr

instance {α : Type} : Inhabited (Worker α) := ⟨.gone⟩

/-- The workers, the jobs that none of them has taken, and the stop signal. -/
structure Pool (α : Type) where
  workers : Array (Worker α)
  queue : List α
  stopping : Bool
deriving Repr

namespace Pool

variable {α : Type}

/-- A pool with the number of workers asked for, but at least one. -/
def ofConfig (config : PoolConfig) : Pool α where
  workers := Array.replicate (max 1 config.workers) .looking
  queue := []
  stopping := false

def workerName (w : Nat) : String := "doctile-paint-worker-" ++ toString w

/-- The number of workers the pool started with. -/
def size (p : Pool α) : Nat := p.workers.size

/-- Queue a job.  A pool that stops takes none. -/
def post (p : Pool α) (job : α) : Pool α :=
  if p.stopping then p else { p with queue := p.queue ++ [job] }

def stop (p : Pool α) : Pool α := { p with stopping := true }

def worker (p : Pool α) (w : Nat) : Worker α := p.workers.getD w .gone

def setWorker (p : Pool α) (w : Nat) (state : Worker α) : Pool α :=
  { p with workers := p.workers.setIfInBounds w state }

/-! ### Steps of a worker -/

def look (p : Pool α) (w : Nat) : Option (Pool α) :=
  match p.worker w with
  | .looking => some (p.setWorker w (if p.stopping then .gone else .waiting))
  | _ => none

def take (p : Pool α) (w : Nat) : Option (Pool α) :=
  match p.worker w, p.queue with
  | .waiting, job :: queue => some ({ p with queue }.setWorker w (.busy job))
  | _, _ => none

/-- End a wait without a job. -/
def timeout (p : Pool α) (w : Nat) : Option (Pool α) :=
  match p.worker w with
  | .waiting => some (p.setWorker w .looking)
  | _ => none

/-- Leave, because no job can come any more. -/
def disconnect (p : Pool α) (w : Nat) : Option (Pool α) :=
  match p.worker w, p.queue with
  -- without the signal a job may still be posted
  | .waiting, [] => if p.stopping then some (p.setWorker w .gone) else none
  | _, _ => none

def finish (p : Pool α) (w : Nat) : Option (Pool α) :=
  match p.worker w with
  | .busy _ => some (p.setWorker w .looking)
  | _ => none

def isDeserted (p : Pool α) : Bool :=
  p.workers.all fun
    | .gone => true
    | _ => false

/-- The queued jobs that nobody will run, once every worker has left. -/
def drain (p : Pool α) : List α × Pool α :=
  if p.isDeserted then (p.queue, { p with queue := [] }) else ([], p)

/-! ### Serving the queue in turn -/

/-- What a worker that is not in a job does next when nothing disturbs it: look at
    the signal, take the first job, or leave.  A worker with nothing to do waits. -/
def proceed (p : Pool α) (w : Nat) : Option (Pool α) :=
  match p.worker w with
  | .looking => p.look w
  | .waiting => (p.take w).or (p.disconnect w)
  | _ => none

end Pool

end TilePaint
