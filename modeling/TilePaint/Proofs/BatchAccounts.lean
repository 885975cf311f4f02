/-
  TilePaint/Proofs/BatchAccounts.lean
  ===================================
  **The accounts of batches.**

  The tiles of a batch that have not arrived are those that its jobs, queued or in
  the hands of a worker, still have before them (`owed`).  The accounts are in
  order (`Scheduler.Accounted`) when every barrier waits for as many arrivals as
  there are such tiles, and has fired exactly if there are none.  Once a barrier has
  fired, at most one job deals with that (`closing`), and how far it has come is the
  `Stage` of the batch.

  A job works in steps.  Most of them arrive for some tiles at the front of those
  that the job has before it and keep the others; the last two look at the flags of
  the batch and tell the client (`Advances`).
-/
import TilePaint.Proofs.RangeLists
import TilePaint.Proofs.SchedulerRun

namespace TilePaint

/-! ## 1. Barriers that count -/

namespace Barrier

/-- A barrier that waits for `n` arrivals, and has fired exactly if there are none. -/
def counting (n : Nat) : Barrier := ⟨n, decide (n = 0)⟩

theorem counting_length (tiles : List Nat) :
    counting tiles.length = ⟨tiles.length, decide (tiles = [])⟩ := by
  rw [counting, decide_eq_decide.mpr List.length_eq_zero_iff]

theorem ofCount_eq (n : Nat) : ofCount n = (counting n, decide (n = 0)) := by
  unfold ofCount
  dsimp only
  split
  · next hzero => simp only [fire, counting, hzero, decide_true, Bool.not_false]
  · next hpos => simp only [counting, hpos, decide_false]

/-- Arrivals that are waited for are counted, and the last of them fires. -/
theorem arrive_counting {n k : Nat} (h : k ≤ n) :
    (counting n).arrive k = (counting (n - k), decide (0 < k ∧ k = n)) := by
  unfold arrive counting
  dsimp only
  split
  · next hnone =>
    obtain rfl : k = 0 := by omega
    simp only [Nat.sub_zero, Nat.lt_irrefl, false_and, decide_false]
  · next hsome =>
    rw [not_or] at hsome
    have hn : n ≠ 0 := by omega
    split
    · next hlast =>
      obtain rfl : k = n := by omega
      simp only [fire, hn, Nat.sub_self, Nat.pos_of_ne_zero hn, decide_true, decide_false,
        Bool.not_false, and_self]
    · next hmore =>
      have hk : k ≠ n := by omega
      simp only [hn, hmore, hk, decide_false, and_false]

end Barrier

/-! ## 2. Tiles that have not arrived -/

/-- The tiles that a job has before it, the one in hand included. -/
def Work.pending (w : Work) : List Nat := TileRange.toList ⟨w.job.next, w.job.last⟩

/-- The tiles of a batch that a job has before it. -/
def Work.pendingFor (batch : Nat) (w : Work) : List Nat :=
  if w.job.batch = batch then w.pending else []

def owed (batch : Nat) (jobs : List Work) : List Nat := jobs.flatMap (Work.pendingFor batch)

theorem Work.length_pending (w : Work) : w.pending.length = w.job.last + 1 - w.job.next := by
  simp only [pending, TileRange.toList, List.length_range']

/-- A job that has arrived for its next `n` tiles and by this completed its batch. -/
def Work.completed (w : Work) (n : Nat) : Work :=
  ⟨{ w.job with next := w.job.next + n }, .completing⟩

theorem owed_append (batch : Nat) (as bs : List Work) :
    owed batch (as ++ bs) = owed batch as ++ owed batch bs := List.flatMap_append

theorem owed_cons (batch : Nat) (w : Work) (jobs : List Work) :
    owed batch (w :: jobs) = w.pendingFor batch ++ owed batch jobs := List.flatMap_cons

theorem owed_perm {as bs : List Work} (h : as.Perm bs) (batch : Nat) :
    (owed batch as).Perm (owed batch bs) := h.flatMap_right _

theorem owed_eq_nil {batch : Nat} {jobs : List Work} (h : ∀ w ∈ jobs, w.job.batch ≠ batch) :
    owed batch jobs = [] := by
  rw [owed, List.flatMap_eq_nil_iff]
  intro w hw
  rw [Work.pendingFor, if_neg (h w hw)]

/-! ## 3. Batches that are complete -/

/-- How far the completion of a batch has come. -/
inductive Stage where
  /-- The barrier has not fired. -/
  | waiting
  /-- The barrier has fired, and a job is about to look at the flags of the batch. -/
  | completing
  /-- The job has found the flags unset and is about to tell the client. -/
  | telling
  /-- The batch is over. -/
  | closed
deriving DecidableEq

/-- What a worker has in hand of a batch at this stage. -/
def Stage.inHand : Stage → List Stage
  | .completing => [.completing]
  | .telling => [.telling]
  | _ => []

/-- What a job in this phase has to do with the completion of its batch, if anything. -/
def Phase.stage? : Phase → Option Stage
  | .completing => some .completing
  | .telling => some .telling
  | _ => none

/-- The phases in which a job has its next tile in hand. -/
def Phase.holdsTile : Phase → Bool
  | .checking => false
  | .completing => false
  | .telling => false
  | _ => true

def Work.closingFor (batch : Nat) (w : Work) : Option Stage :=
  if w.job.batch = batch then w.phase.stage? else none

/-- What the jobs have to do with the completion of a batch. -/
def closing (batch : Nat) (jobs : List Work) : List Stage :=
  jobs.filterMap (Work.closingFor batch)

theorem closing_append (batch : Nat) (as bs : List Work) :
    closing batch (as ++ bs) = closing batch as ++ closing batch bs := List.filterMap_append

theorem closing_cons (batch : Nat) (w : Work) (jobs : List Work) :
    closing batch (w :: jobs) = (w.closingFor batch).toList ++ closing batch jobs := by
  rw [closing, List.filterMap_cons]
  cases w.closingFor batch <;> rfl

theorem closing_perm {as bs : List Work} (h : as.Perm bs) (batch : Nat) :
    (closing batch as).Perm (closing batch bs) := h.filterMap _

theorem closing_eq_nil {batch : Nat} {jobs : List Work}
    (h : ∀ w ∈ jobs, w.job.batch = batch → w.phase.stage? = none) : closing batch jobs = [] := by
  rw [closing, List.filterMap_eq_nil_iff]
  intro w hw
  unfold Work.closingFor
  split
  · next hbatch => exact h w hw hbatch
  · rfl

theorem mem_closing {k : Nat} {jobs : List Work} {stage : Stage} (h : stage ∈ closing k jobs) :
    stage.inHand = [stage] := by
  obtain ⟨w, -, hw⟩ := List.mem_filterMap.mp h
  unfold Work.closingFor at hw
  split at hw
  · rcases w with ⟨job, phase⟩
    cases phase with
    | completing | telling =>
      cases hw
      rfl
    | _ => cases hw
  · cases hw

namespace Scheduler

/-- The tiles of a batch that have not arrived. -/
def outstanding (s : Scheduler) (batch : Nat) : List Nat := owed batch s.pool.jobs

/-- **The accounts are in order.** -/
structure Accounted (s : Scheduler) (jobs : List Work) : Prop where
  batch_lt : ∀ w ∈ jobs, w.job.batch < s.batches.size
  in_hand : ∀ w ∈ jobs, w.phase.holdsTile = true → w.job.next ≤ w.job.last
  barrier : ∀ (k : Nat) (b : Batch), s.batches[k]? = some b →
    b.barrier = .counting (owed k jobs).length
  /-- A job deals with the completion of a batch only once all its tiles have arrived. -/
  settled : ∀ k, closing k jobs ≠ [] → owed k jobs = []
  alone : ∀ k, (closing k jobs).length ≤ 1

/-- The accounts of the jobs that the pool has.  Those in the queue have not begun. -/
structure InOrder (s : Scheduler) : Prop extends s.Accounted s.pool.jobs where
  unbegun : ∀ w ∈ s.pool.queue, w.phase = .checking

section Accounted

variable {s u : Scheduler} {jobs jobs' : List Work} {k : Nat}

theorem Accounted.perm (h : s.Accounted jobs) (hperm : jobs'.Perm jobs) : s.Accounted jobs' := by
  constructor
  · intro w hw
    exact h.batch_lt w (hperm.mem_iff.mp hw)
  · intro w hw
    exact h.in_hand w (hperm.mem_iff.mp hw)
  · intro k b hb
    rw [h.barrier k b hb, (owed_perm hperm k).length_eq]
  · intro k hclosing
    have howed := h.settled k fun hnone =>
      hclosing ((hnone ▸ closing_perm hperm k).eq_nil)
    exact (howed ▸ owed_perm hperm k).eq_nil
  · intro k
    rw [(closing_perm hperm k).length_eq]
    exact h.alone k

theorem Accounted.congr (h : s.Accounted jobs) (hbatches : u.batches = s.batches) :
    u.Accounted jobs := by
  constructor
  · rw [hbatches]
    exact h.batch_lt
  · exact h.in_hand
  · rw [hbatches]
    exact h.barrier
  · exact h.settled
  · exact h.alone

theorem InOrder.of_accounted (h : s.Accounted s.pool.jobs)
    (hqueue : ∀ w ∈ s.pool.queue, w.phase = .checking) : s.InOrder :=
  { h with unbegun := hqueue }

/-! ## 4. Completions -/

/-- Whether the client would be told of the completion of a batch now. -/
def hears (s : Scheduler) (b : Batch) : Bool :=
  s.client.alive && !s.flags.isSet b.skipInvalidation && !s.flags.isSet b.schedulerFlag

def hasFired (s : Scheduler) (batch : Nat) : Bool :=
  s.batches[batch]?.any fun b => b.barrier.fired

theorem hasFired_of_size_le (h : s.batches.size ≤ k) : s.hasFired k = false := by
  rw [hasFired, Array.getElem?_eq_none h, Option.any_none]

theorem Accounted.hasFired (h : s.Accounted jobs) (hk : k < s.batches.size) :
    s.hasFired k = decide (owed k jobs = []) := by
  have hb := Array.getElem?_eq_getElem hk
  rw [Scheduler.hasFired, hb, Option.any_some, h.barrier k _ hb, Barrier.counting_length]

/-- The stage of a batch, as far as these jobs deal with it. -/
def stageIn (s : Scheduler) (jobs : List Work) (batch : Nat) : Stage :=
  if s.hasFired batch then (closing batch jobs).head?.getD .closed else .waiting

/-- The stage of a batch. -/
def stage (s : Scheduler) (batch : Nat) : Stage := s.stageIn s.pool.jobs batch

theorem Accounted.stageIn_eq (h : s.Accounted jobs) (hk : k < s.batches.size) :
    s.stageIn jobs k =
      if owed k jobs = [] then (closing k jobs).head?.getD .closed else .waiting := by
  rw [stageIn, h.hasFired hk]
  simp only [decide_eq_true_eq]

theorem stage_of_size_le (h : s.batches.size ≤ k) : s.stage k = .waiting := by
  rw [stage, stageIn, hasFired_of_size_le h]
  rfl

/-- With the same tiles before its jobs and the same jobs dealing with it, a batch is at
    the same stage. -/
theorem Accounted.stageIn_congr (h : s.Accounted jobs) (h' : u.Accounted jobs')
    (hk : k < s.batches.size) (hsize : s.batches.size ≤ u.batches.size)
    (howed : (owed k jobs').Perm (owed k jobs))
    (hclosing : (closing k jobs').Perm (closing k jobs)) :
    u.stageIn jobs' k = s.stageIn jobs k := by
  have hnil : owed k jobs' = [] ↔ owed k jobs = [] := by
    rw [← List.length_eq_zero_iff, ← List.length_eq_zero_iff, howed.length_eq]
  -- at most one job deals with the batch, so the order of the jobs does not show
  have hsame : closing k jobs' = closing k jobs := by
    have halone := h.alone k
    cases hc : closing k jobs with
    | nil => exact (hc ▸ hclosing).eq_nil
    | cons stage rest =>
      rw [hc, List.length_cons] at halone
      obtain rfl : rest = [] := List.length_eq_zero_iff.mp (by omega)
      exact List.perm_singleton.mp (hc ▸ hclosing)
  rw [h.stageIn_eq hk, h'.stageIn_eq (Nat.lt_of_lt_of_le hk hsize), hsame]
  simp only [hnil]

end Accounted

/-- The completion of a batch has been dealt with; `heard` tells whether the client
    was told. -/
structure Completion where
  batch : Nat
  heard : Bool
deriving DecidableEq

/-- The completion of a batch that is dealt with between two states, if there is one.
    Without a job to deal with it this is done in one go, with the flags and the client of
    the later state. -/
def completion? (s s' : Scheduler) (batch : Nat) : Option Completion :=
  if s.stage batch ≠ .closed ∧ s'.stage batch = .closed then
    some ⟨batch,
      match s.stage batch with
      | .waiting => s'.batches[batch]?.any s'.hears
      | .telling => s.client.alive
      | _ => false⟩
  else none

/-- The completions between two states. -/
def completions (s s' : Scheduler) : List Completion :=
  (List.range s'.batches.size).filterMap (completion? s s')

theorem completion?_eq_none {s s' : Scheduler} {k : Nat} (h : s'.stage k = s.stage k) :
    completion? s s' k = none := by
  rw [completion?, h, if_neg fun hclosed => hclosed.1 hclosed.2]

theorem filterMap_range_eq {α : Type} {n k : Nat} {f : Nat → Option α} (hk : k < n)
    (h : ∀ j, j < n → j ≠ k → f j = none) : (List.range n).filterMap f = (f k).toList := by
  induction n with
  | zero => omega
  | succ n ih =>
    rw [List.range_succ, List.filterMap_append]
    by_cases hn : k = n
    · subst hn
      have hbefore : (List.range k).filterMap f = [] := by
        rw [List.filterMap_eq_nil_iff]
        intro j hj
        have hj := List.mem_range.mp hj
        exact h j (by omega) (Nat.ne_of_lt hj)
      rw [hbefore, List.nil_append]
      cases hf : f k with
      | none => rw [List.filterMap_cons_none hf]; rfl
      | some a => rw [List.filterMap_cons_some hf]; rfl
    · rw [ih (by omega) fun j hj => h j (by omega),
        List.filterMap_cons_none (h n (Nat.lt_succ_self n) (Ne.symm hn))]
      exact List.append_nil _

theorem completions_eq_nil {s s' : Scheduler}
    (h : ∀ k, k < s'.batches.size → s'.stage k = s.stage k) : s.completions s' = [] := by
  rw [completions, List.filterMap_eq_nil_iff]
  intro k hk
  exact completion?_eq_none (h k (List.mem_range.mp hk))

/-- If at most one batch moves on, there is at most its completion. -/
theorem completions_of_ne {s s' : Scheduler} {k : Nat} (hk : k < s'.batches.size)
    (h : ∀ j, j < s'.batches.size → j ≠ k → s'.stage j = s.stage j) :
    s.completions s' = (completion? s s' k).toList :=
  filterMap_range_eq hk fun j hj hne => completion?_eq_none (h j hj hne)

theorem complete_eq (s : Scheduler) (b : Batch) :
    s.complete b = { s with
      client := { s.client with
        invalidations := s.client.invalidations + (s.hears b).toNat } } := by
  unfold complete isQuiet tell hears
  cases s.flags.isSet b.skipInvalidation <;> cases s.flags.isSet b.schedulerFlag <;>
    cases halive : s.client.alive <;> rfl

theorem tell_eq (s : Scheduler) :
    s.tell = { s with
      client := { s.client with
        invalidations := s.client.invalidations + s.client.alive.toNat } } := by
  unfold tell
  cases halive : s.client.alive <;> rfl

/-- Arrivals at a barrier that waits for them. -/
theorem arrive_eq {s : Scheduler} {k n m : Nat} {b : Batch} (hb : s.batches[k]? = some b)
    (hbarrier : b.barrier = .counting m) (hn : n ≤ m) :
    s.arrive k n =
      ({ s with batches := s.batches.setIfInBounds k { b with barrier := .counting (m - n) } },
        decide (0 < n ∧ n = m)) := by
  simp only [arrive, hb, hbarrier, Barrier.arrive_counting hn]

theorem arrive_zero (s : Scheduler) (k : Nat) : s.arrive k 0 = (s, false) := by
  unfold arrive
  split
  · rfl
  · next b hb =>
    obtain ⟨hk, hb⟩ := Array.getElem?_eq_some_iff.mp hb
    have hset : s.batches.setIfInBounds k b = s.batches := by
      rw [Array.setIfInBounds_def, dif_pos hk, ← hb, Array.set_getElem_self]
    simp only [Barrier.arrive, true_or, if_true, hset]

/-! ## 5. Steps of jobs -/

/-- The flags that keep the completion of a batch quiet. -/
def quietFlags (b : Batch) : Flag × Flag := (b.skipInvalidation, b.schedulerFlag)

/-- Whether the client would be told now of the completion of a batch with these two
    flags. -/
def isHeard (s : Scheduler) (skipInvalidation schedulerFlag : Flag) : Bool :=
  s.client.alive && !s.flags.isSet skipInvalidation && !s.flags.isSet schedulerFlag

theorem heard_eq {s : Scheduler} {k : Nat} {f g : Flag}
    (h : s.batches[k]?.map quietFlags = some (f, g)) :
    s.batches[k]?.any s.hears = s.isHeard f g := by
  obtain ⟨b, hb, hquiet⟩ := Option.map_eq_some_iff.mp h
  cases hquiet
  rw [hb]
  rfl

theorem quiet_eq {s : Scheduler} {k : Nat} {f g : Flag}
    (h : s.batches[k]?.map quietFlags = some (f, g)) :
    s.batches[k]?.all s.isQuiet = (s.flags.isSet f || s.flags.isSet g) := by
  obtain ⟨b, hb, hquiet⟩ := Option.map_eq_some_iff.mp h
  cases hquiet
  rw [hb]
  rfl

/-- What a job keeps once it has arrived for some tiles at the front of those that
    it has before it. -/
structure Keeps (w : Work) (arrived : List Nat) (rest : Option Work) : Prop where
  pending : w.pending = arrived ++ rest.elim [] Work.pending
  batch : ∀ w' ∈ rest, w'.job.batch = w.job.batch
  in_hand : ∀ w' ∈ rest, w'.phase.holdsTile = true → w'.job.next ≤ w'.job.last
  working : ∀ w' ∈ rest, w'.phase.stage? = none

/-- The next `n` tiles of a job arrive; then it goes on with `rest`, unless it has
    completed its batch. -/
def arriveFor (s : Scheduler) (w : Work) (n : Nat) (rest : Option Work) :
    Scheduler × Option Work :=
  ((s.arrive w.job.batch n).1,
    if (s.arrive w.job.batch n).2 then some (w.completed n) else rest)

/-- What a step of a job does, apart from the cache. -/
inductive Advances (s : Scheduler) (w : Work) : Scheduler × Option Work → Prop where
  /-- The job arrives for some tiles and keeps the others. -/
  | arrives (cache : TileCache) {arrived : List Nat} {rest : Option Work}
      (hworking : w.phase.stage? = none) (hkeeps : Keeps w arrived rest) :
      Advances s w (({ s with cache } : Scheduler).arriveFor w arrived.length rest)
  /-- The job has completed its batch and looks at the flags. -/
  | looks (hphase : w.phase = .completing) :
      Advances s w (s, some { w with
        phase := if s.batches[w.job.batch]?.all s.isQuiet then .checking else .telling })
  /-- The job tells the client. -/
  | tells (hphase : w.phase = .telling) :
      Advances s w (s.tell, some { w with phase := .checking })

theorem endJob_eq (s : Scheduler) (w : Work) :
    s.endJob w.job = s.arriveFor w w.pending.length none := by
  unfold endJob arriveFor Work.completed
  rw [w.length_pending]
  split
  · next hsome =>
    have hcount : w.job.last - w.job.next + 1 = w.job.last + 1 - w.job.next := by omega
    -- all that is left arrives at once, so the job has no tile any more
    have hnext : w.job.next + (w.job.last + 1 - w.job.next) = w.job.last + 1 := by omega
    rw [hcount, hnext]
  · next hnone =>
    have hzero : w.job.last + 1 - w.job.next = 0 := by omega
    rw [hzero, arrive_zero]
    rfl

theorem arriving_eq (s : Scheduler) (job : Job) :
    ((s.arrive job.batch 1).1, some (⟨{ job with next := job.next + 1 },
      if (s.arrive job.batch 1).2 then .completing else .checking⟩ : Work)) =
      s.arriveFor ⟨job, .arriving⟩ 1 (some ⟨{ job with next := job.next + 1 }, .checking⟩) := by
  unfold arriveFor Work.completed
  cases (s.arrive job.batch 1).2 <;> rfl

theorem keeps_none (w : Work) : Keeps w w.pending none :=
  ⟨(List.append_nil _).symm, nofun, nofun, nofun⟩

theorem keeps_all {w : Work} {phase : Phase} (h : w.job.next ≤ w.job.last)
    (hphase : phase.stage? = none) : Keeps w [] (some { w with phase }) := by
  constructor
  · rfl
  · rintro w' ⟨⟩
    rfl
  · rintro w' ⟨⟩ -
    exact h
  · rintro w' ⟨⟩
    exact hphase

theorem advances_endJob (s : Scheduler) {w : Work} (cache : TileCache)
    (hworking : w.phase.stage? = none) :
    Advances s w (({ s with cache } : Scheduler).endJob w.job) := by
  rw [endJob_eq]
  exact .arrives cache hworking (keeps_none w)

/-- A step to another phase, with no arrival. -/
theorem advances_phase (s : Scheduler) {w : Work} (cache : TileCache) (phase : Phase)
    (hworking : w.phase.stage? = none) (h : w.job.next ≤ w.job.last)
    (hphase : phase.stage? = none) : Advances s w ({ s with cache }, some { w with phase }) := by
  have harrives := Advances.arrives (s := s) cache hworking (keeps_all h hphase)
  simp only [arriveFor, List.length_nil, arrive_zero, Bool.false_eq_true, if_false] at harrives
  exact harrives

/-- **A step of a job outside the engine.**  The job may look at its flags, paint or
    skip its tile, arrive for it, or end: because it is cancelled, because it has no
    tile left, because the paint fails, or because there is no index after the tile.
    If it has completed its batch, it looks at the flags of the batch, or tells the
    client. -/
theorem stepWork_advances (s : Scheduler) (w : Work)
    (hw : w.phase.holdsTile = true → w.job.next ≤ w.job.last) :
    Advances s w (s.stepWork w) := by
  rcases w with ⟨job, phase⟩
  cases phase with
  | checking =>
    simp only [stepWork]
    split
    · exact advances_endJob s (w := ⟨job, .checking⟩) s.cache rfl
    · next hgo =>
      refine advances_phase s (w := ⟨job, .checking⟩) s.cache .painting rfl ?_ rfl
      simp only [Bool.or_eq_true, decide_eq_true_eq, not_or, Nat.not_lt] at hgo
      exact hgo.1.1
  | painting =>
    simp only [stepWork]
    split
    · exact advances_phase s (w := ⟨job, .painting⟩) s.cache .arriving rfl (hw rfl) rfl
    · exact advances_phase s (w := ⟨job, .painting⟩) s.cache .admitted rfl (hw rfl) rfl
  | admitted =>
    simp only [stepWork]
    split
    · next cache fault _ => exact advances_endJob s (w := ⟨job, .admitted⟩) cache rfl
    · next cache _ =>
      exact advances_phase s (w := ⟨job, .admitted⟩) cache .arriving rfl (hw rfl) rfl
    · next cache ticket _ =>
      exact advances_phase s (w := ⟨job, .admitted⟩) cache (.rendering ticket) rfl (hw rfl) rfl
  | rendering ticket =>
    exact advances_phase s (w := ⟨job, .rendering ticket⟩) s.cache (.rendering ticket) rfl (hw rfl)
      rfl
  | arriving =>
    have htile : job.next ≤ job.last := hw rfl
    simp only [stepWork]
    split
    · exact advances_endJob s (w := ⟨job, .arriving⟩) s.cache rfl
    · next next hnext =>
      obtain ⟨rfl, -⟩ := addWithin_eq_ok_iff.mp hnext
      rw [arriving_eq]
      -- the job arrives for its next tile and keeps the rest
      have hkeeps : Keeps ⟨job, .arriving⟩ [job.next]
          (some ⟨{ job with next := job.next + 1 }, .checking⟩) := by
        refine ⟨?_, ?_, ?_, ?_⟩
        · show List.range' job.next (job.last + 1 - job.next) =
            job.next :: List.range' (job.next + 1) (job.last + 1 - (job.next + 1))
          rw [show job.last + 1 - job.next = job.last + 1 - (job.next + 1) + 1 by omega]
          rfl
        · rintro w' ⟨⟩
          rfl
        · rintro w' ⟨⟩ hphase
          cases hphase
        · rintro w' ⟨⟩
          rfl
      exact .arrives s.cache rfl hkeeps
  | completing => exact .looks rfl
  | telling => exact .tells rfl

/-- The end of a render: the tile is still to arrive, or the job ends. -/
theorem endWorkRender_advances (s : Scheduler) {w : Work} (ticket : Ticket)
    (pixels : Array Pixel) (fault : Option Fault) (hphase : w.phase = .rendering ticket)
    (hw : w.job.next ≤ w.job.last) :
    Advances s w (s.endWorkRender w.job ticket pixels fault) := by
  have hworking : w.phase.stage? = none := by
    rw [hphase]
    rfl
  cases fault with
  | some fault => exact advances_endJob s (s.cache.abandon ticket pixels) hworking
  | none => exact advances_phase s (s.cache.publish ticket pixels).1 .arriving hworking hw rfl

section Advance

variable {s : Scheduler} {w : Work} {others : List Work} {arrived : List Nat}
  {rest : Option Work} {result : Scheduler × Option Work} {k : Nat} {f g : Flag}

/-- A step of a job leaves the pool to the worker. -/
theorem Advances.pool (h : Advances s w result) : result.1.pool = s.pool := by
  cases h with
  | arrives => exact (BooksOnly.arrive _ _ _).pool
  | looks => rfl
  | tells => exact (BooksOnly.tell s).pool

theorem Advances.batch (h : Advances s w result) (w' : Work) (hw' : w' ∈ result.2) :
    w'.job.batch = w.job.batch := by
  cases h with
  | arrives _ hworking hkeeps =>
    simp only [arriveFor] at hw'
    split at hw'
    · cases hw'
      rfl
    · exact hkeeps.batch w' hw'
  | looks => cases hw'; rfl
  | tells => cases hw'; rfl

theorem owed_toList {batch : Nat} (h : ∀ w' ∈ rest, w'.job.batch = batch) (k : Nat) :
    owed k rest.toList = if batch = k then rest.elim [] Work.pending else [] := by
  cases rest with
  | none => simp only [Option.toList_none, owed, List.flatMap_nil, Option.elim, ite_self]
  | some w' =>
    rw [← h w' rfl]
    exact List.append_nil _

/-- What the jobs owe before and after one of them has arrived for some of its tiles. -/
theorem Keeps.owed (h : Keeps w arrived rest) (k : Nat) (others : List Work) :
    owed k (w :: others) =
      (if w.job.batch = k then arrived else []) ++ owed k (rest.toList ++ others) := by
  rw [owed_cons, owed_append, owed_toList h.batch, ← List.append_assoc]
  unfold Work.pendingFor
  split
  · rw [h.pending]
  · rfl

theorem Keeps.closing (h : Keeps w arrived rest) (hworking : w.phase.stage? = none)
    (k : Nat) (others : List Work) :
    closing k (w :: others) = closing k others ∧
      closing k (rest.toList ++ others) = closing k others := by
  have hnone : ∀ w' : Work, w'.phase.stage? = none → w'.closingFor k = none := by
    intro w' hphase
    unfold Work.closingFor
    split
    · exact hphase
    · rfl
  constructor
  · rw [closing_cons, hnone w hworking]
    rfl
  · rw [closing_append]
    cases rest with
    | none => rfl
    | some w' =>
      rw [Option.toList_some, closing_cons, hnone w' (h.working w' rfl)]
      rfl

/-- The barrier of a job's batch waits at least for the tiles that the job has before
    it. -/
theorem Accounted.barrier_of_mem (h : s.Accounted (w :: others)) :
    ∃ b, s.batches[w.job.batch]? = some b ∧
      b.barrier = .counting (TilePaint.owed w.job.batch (w :: others)).length := by
  have hk := h.batch_lt w (List.mem_cons_self ..)
  exact ⟨_, Array.getElem?_eq_getElem hk, h.barrier _ _ (Array.getElem?_eq_getElem hk)⟩

/-- **An arrival that a barrier waits for.**  It completes the batch exactly if these
    are the last tiles. -/
theorem Accounted.arrive_fires (h : s.Accounted (w :: others)) (hkeeps : Keeps w arrived rest) :
    (s.arrive w.job.batch arrived.length).2 =
      decide (arrived ≠ [] ∧ TilePaint.owed w.job.batch (rest.toList ++ others) = []) := by
  obtain ⟨b, hb, hbarrier⟩ := h.barrier_of_mem
  have howed := hkeeps.owed w.job.batch others
  rw [if_pos rfl] at howed
  have hlen := congrArg List.length howed
  rw [List.length_append] at hlen
  rw [arrive_eq hb hbarrier (by omega)]
  refine decide_eq_decide.mpr ?_
  rw [← List.length_pos_iff, ← List.length_eq_zero_iff]
  omega

theorem Keeps.pending_completed (h : Keeps w arrived rest)
    (hlast : rest.elim [] Work.pending = []) : (w.completed arrived.length).pending = [] := by
  have hlen := w.length_pending
  rw [h.pending, hlast, List.append_nil] at hlen
  rw [← List.length_eq_zero_iff, Work.length_pending]
  simp only [Work.completed]
  omega

/-- What the jobs owe, and who deals with the batch, once the last tiles have arrived. -/
theorem Accounted.completed (h : s.Accounted (w :: others)) (hworking : w.phase.stage? = none)
    (hkeeps : Keeps w arrived rest) (hsome : arrived ≠ [])
    (hlast : TilePaint.owed w.job.batch (rest.toList ++ others) = []) (k : Nat) :
    TilePaint.owed k (w.completed arrived.length :: others) =
        TilePaint.owed k (rest.toList ++ others) ∧
      TilePaint.closing k (w.completed arrived.length :: others) =
        if w.job.batch = k then [.completing] else TilePaint.closing k others := by
  rw [owed_append, owed_toList hkeeps.batch, if_pos rfl, List.append_eq_nil_iff] at hlast
  have hpending := hkeeps.pending_completed hlast.1
  rw [owed_cons, owed_append, owed_toList hkeeps.batch, closing_cons]
  -- the job has no tile left, and neither has any other
  have hnone : (w.completed arrived.length).pendingFor k = [] := by
    unfold Work.pendingFor
    split
    · exact hpending
    · rfl
  refine ⟨?_, ?_⟩
  · rw [hnone, hlast.1, ite_self]
  · by_cases hk : w.job.batch = k
    · -- as long as a tile was owed, nobody dealt with the batch
      have howed := hkeeps.owed k others
      rw [if_pos hk] at howed
      have hothers : TilePaint.closing k others = [] := by
        refine Classical.byContradiction fun hclosing => ?_
        rw [← (hkeeps.closing hworking k others).1] at hclosing
        rw [h.settled k hclosing] at howed
        exact hsome (List.append_eq_nil_iff.mp howed.symm).1
      rw [if_pos hk, hothers, List.append_nil, Work.closingFor,
        if_pos (show (w.completed arrived.length).job.batch = k from hk)]
      rfl
    · rw [if_neg hk, Work.closingFor,
        if_neg (show ¬(w.completed arrived.length).job.batch = k from hk)]
      rfl

end Advance

end Scheduler

end TilePaint
