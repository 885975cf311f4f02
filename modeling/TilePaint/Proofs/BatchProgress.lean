/-
  TilePaint/Proofs/BatchProgress.lean
  ===================================
  **What one step of a scheduler does to its batches.**

  One step does to the tiles that have not arrived what it does to the barriers, and
  every batch makes at most one `Turn` (`Progress`):

    * a step of a job is a matter of the batch of the job alone (`InOrder.worked`);
    * when the last worker leaves, the jobs of the queue are dropped, and every batch
      that still had a tile outstanding is over (`InOrder.deserted`);
    * a dispatch adds a batch with all its tiles outstanding (`Adds`);
    * everything else leaves batches and jobs alone (`InOrder.quiet`).

  The accounts stay in order in all of them (`InOrder.step`).
-/
import TilePaint.Proofs.BatchTurns

namespace TilePaint.Scheduler

/-! ## 1. What a step does to a batch -/

section Steps

variable {s s' : Scheduler} {k : Nat} {f g : Flag}

/-- The completions of one batch in one step. -/
theorem filter_completions (hk : k < s'.batches.size) :
    (s.completions s').filter (·.batch = k) = (completion? s s' k).toList := by
  have hbatch : ∀ j c, completion? s s' j = some c → c.batch = j := by
    intro j c hc
    unfold completion? at hc
    split at hc
    · cases hc
      rfl
    · cases hc
  rw [completions, List.filter_filterMap, filterMap_range_eq hk]
  · cases hc : completion? s s' k with
    | none => rfl
    | some c => rw [Option.filter_some, hbatch k c hc]; simp
  · intro j _ hj
    cases hc : completion? s s' j with
    | none => rfl
    | some c => rw [Option.filter_some, hbatch j c hc]; simp [hj]

/-- Some of the tiles outstanding arrive, and the batch makes the turn that goes with
    it. -/
def Turns (s s' : Scheduler) (k : Nat) (f g : Flag) : Prop :=
  ∃ arriving, (s.outstanding k).Perm (arriving ++ s'.outstanding k) ∧
    Turn s s' k f g (arriving ≠ [] ∧ s'.outstanding k = []) (s.stage k) (s'.stage k)
      ((s.completions s').filter (·.batch = k))

theorem turns_stays (hk : k < s'.batches.size)
    (hperm : (s'.outstanding k).Perm (s.outstanding k)) (hstage : s'.stage k = s.stage k) :
    Turns s s' k f g := by
  refine ⟨[], hperm.symm, ?_⟩
  rw [filter_completions hk, completion?_eq_none hstage, hstage]
  exact .stays fun hlast => hlast.1 rfl

/-- What one step does to batches, to their tiles and to the client. -/
structure Progress (s s' : Scheduler) : Prop where
  size : s.batches.size ≤ s'.batches.size
  kept : ∀ k, k < s.batches.size →
    s'.batches[k]?.map quietFlags = s.batches[k]?.map quietFlags
  turns : ∀ k f g, s.batches[k]?.map quietFlags = some (f, g) → Turns s s' k f g
  told : s'.client.invalidations =
    s.client.invalidations + (s.completions s').countP (·.heard)

theorem lt_size_of_flags (h : s.batches[k]?.map quietFlags = some (f, g)) :
    k < s.batches.size := by
  obtain ⟨b, hb, -⟩ := Option.map_eq_some_iff.mp h
  exact (Array.getElem?_eq_some_iff.mp hb).1

theorem exists_flags (hk : k < s.batches.size) :
    ∃ f g, s.batches[k]?.map quietFlags = some (f, g) :=
  ⟨_, _, by rw [Array.getElem?_eq_getElem hk]; rfl⟩

theorem Progress.closed (h : Progress s s') (hclosed : s.stage k = .closed) :
    s'.stage k = .closed := by
  have hk : k < s.batches.size := by
    refine Nat.lt_of_not_le fun hge => ?_
    rw [stage_of_size_le hge] at hclosed
    cases hclosed
  obtain ⟨f, g, hflags⟩ := exists_flags hk
  obtain ⟨arriving, -, hturn⟩ := h.turns k f g hflags
  rw [hclosed] at hturn
  exact hturn.closed

/-- If only batch `k` makes a turn, its turn is all there is to say. -/
theorem Progress.of_turn {arriving : List Nat} {done : List Completion}
    (hsettled : Settled s s') (hflags : s.batches[k]?.map quietFlags = some (f, g))
    (hothers : ∀ j, j < s.batches.size → j ≠ k →
      (s'.outstanding j).Perm (s.outstanding j) ∧ s'.stage j = s.stage j)
    (hperm : (s.outstanding k).Perm (arriving ++ s'.outstanding k))
    (hturn : Turn s s' k f g (arriving ≠ [] ∧ s'.outstanding k = []) (s.stage k) (s'.stage k)
      done)
    (htold : s'.client.invalidations = s.client.invalidations + done.countP (·.heard)) :
    Progress s s' := by
  have hsize := hsettled.size
  have hk : k < s'.batches.size := by
    rw [hsize]
    exact lt_size_of_flags hflags
  have hdone := hturn.done_eq ((hsettled.kept k).trans hflags)
  refine ⟨Nat.le_of_eq hsize.symm, fun j _ => hsettled.kept j, fun j f' g' hflags' => ?_, ?_⟩
  · by_cases hj : j = k
    · subst hj
      obtain ⟨rfl, rfl⟩ := Prod.mk.inj (Option.some.inj (hflags.symm.trans hflags'))
      refine ⟨arriving, hperm, ?_⟩
      rw [filter_completions hk, ← hdone]
      exact hturn
    · have hj' := lt_size_of_flags hflags'
      obtain ⟨hsame, hstage⟩ := hothers j hj' hj
      exact turns_stays (by rw [hsize]; exact hj') hsame hstage
  · rw [completions_of_ne hk fun j hj hne => (hothers j (by rw [← hsize]; exact hj) hne).2,
      ← hdone]
    exact htold

end Steps

/-! ## 2. Steps of workers -/

section Workers

variable {s : Scheduler} {w : Nat} {work : Work} {result : Scheduler × Option Work}

@[simp] theorem batches_resume (w : Nat) (result : Scheduler × Option Work) :
    (resume w result).batches = result.1.batches := by
  rcases result with ⟨u, _ | work⟩ <;> rfl

@[simp] theorem flags_resume (w : Nat) (result : Scheduler × Option Work) :
    (resume w result).flags = result.1.flags := by
  rcases result with ⟨u, _ | work⟩ <;> rfl

@[simp] theorem client_resume (w : Nat) (result : Scheduler × Option Work) :
    (resume w result).client = result.1.client := by
  rcases result with ⟨u, _ | work⟩ <;> rfl

@[simp] theorem queue_resume (w : Nat) (result : Scheduler × Option Work) :
    (resume w result).pool.queue = result.1.pool.queue := by
  rcases result with ⟨u, _ | work⟩ <;> rfl

/-- The jobs of a pool before and after a step in one of them. -/
theorem resume_jobs (hworker : s.pool.worker w = .busy work) (hpool : result.1.pool = s.pool) :
    ∃ others, s.pool.jobs.Perm (work :: others) ∧
      (resume w result).pool.jobs.Perm (result.2.toList ++ others) := by
  obtain ⟨others, hjobs, hset⟩ := Pool.jobs_setWorker hworker nofun
  refine ⟨others, hjobs, ?_⟩
  rcases result with ⟨u, _ | work'⟩
  · show (u.pool.setWorker w .looking).jobs.Perm others
    rw [hpool]
    exact hset .looking
  · show (u.pool.setWorker w (.busy work')).jobs.Perm (work' :: others)
    rw [hpool]
    exact hset (.busy work')

theorem in_hand_of_busy (h : s.InOrder) (hworker : s.pool.worker w = .busy work)
    (hphase : work.phase.holdsTile = true) : work.job.next ≤ work.job.last := by
  obtain ⟨others, hjobs, -⟩ := Pool.jobs_setWorker hworker nofun
  exact h.in_hand work (hjobs.mem_iff.mpr (List.mem_cons_self ..)) hphase

/-- A worker goes on with its job. -/
theorem WorksOn.advances (hworks : s.WorksOn work result) (h : s.InOrder)
    (hworker : s.pool.worker w = .busy work) : Advances s work result := by
  cases hworks with
  | step => exact stepWork_advances s work (in_hand_of_busy h hworker)
  | endRender hphase pixels fault =>
    refine endWorkRender_advances s _ pixels fault hphase (in_hand_of_busy h hworker ?_)
    rw [hphase]
    rfl

/-- **A step of a job**, put into its worker. -/
theorem InOrder.worked (h : s.InOrder) (hworker : s.pool.worker w = .busy work)
    (hworks : s.WorksOn work result) :
    (resume w result).InOrder ∧ Progress s (resume w result) ∧ Settled s (resume w result) := by
  have hadvances := hworks.advances h hworker
  obtain ⟨others, hjobs, hafter⟩ := resume_jobs hworker hadvances.pool
  have hbefore : s.Accounted (work :: others) := h.perm hjobs.symm
  have hresult := hbefore.advance hadvances
  have haccounted : (resume w result).Accounted (resume w result).pool.jobs :=
    (hresult.perm hafter).congr (batches_resume w result)
  have hsettled : Settled s (resume w result) :=
    hadvances.settled.congr_right (batches_resume w result) (flags_resume w result)
      (congrArg Client.alive (client_resume w result))
  have hsize := hadvances.settled.size
  -- the stages can be read off the jobs in either order
  have hstage : ∀ j, j < s.batches.size → s.stage j = s.stageIn (work :: others) j :=
    fun j hj => hbefore.stageIn_congr h.toAccounted hj (Nat.le_refl _) (owed_perm hjobs j)
      (closing_perm hjobs j)
  have hstage' : ∀ j, j < s.batches.size →
      (resume w result).stage j = result.1.stageIn (result.2.toList ++ others) j :=
    fun j hj => hresult.stageIn_congr haccounted (by rw [hsize]; exact hj)
      (Nat.le_of_eq (by rw [batches_resume])) (owed_perm hafter j) (closing_perm hafter j)
  refine ⟨.of_accounted haccounted ?_, ?_, hsettled⟩
  · rw [queue_resume, hadvances.pool]
    exact h.unbegun
  · have hk := hbefore.batch_lt work (List.mem_cons_self ..)
    obtain ⟨f, g, hflags⟩ := exists_flags hk
    obtain ⟨arriving, done, howed, hturn, htold⟩ :=
      hadvances.turn hbefore hflags (resume w result)
    have hperm : (s.outstanding work.job.batch).Perm
        (arriving ++ (resume w result).outstanding work.job.batch) := by
      refine (owed_perm hjobs _).trans (.trans (.of_eq howed) ?_)
      exact (owed_perm hafter _).symm.append_left arriving
    have hnil : owed work.job.batch (result.2.toList ++ others) = [] ↔
        (resume w result).outstanding work.job.batch = [] := by
      rw [outstanding, ← List.length_eq_zero_iff, ← List.length_eq_zero_iff,
        (owed_perm hafter _).length_eq]
    rw [propext hnil, ← hstage _ hk, ← hstage' _ hk] at hturn
    refine Progress.of_turn hsettled hflags (fun j hj hne => ?_) hperm hturn ?_
    · obtain ⟨hsame, hclosing⟩ := hadvances.other_batches others (Ne.symm hne)
      constructor
      · exact (owed_perm hafter j).trans (.trans (.of_eq hsame) (owed_perm hjobs j).symm)
      · rw [hstage j hj, hstage' j hj]
        exact hbefore.stageIn_congr hresult hj (Nat.le_of_eq hsize.symm) (.of_eq hsame)
          (.of_eq hclosing)
    · rw [client_resume]
      exact htold

/-- **The jobs that no worker was left to run have been dropped.** -/
theorem InOrder.deserted {s' : Scheduler} {pool : Pool Work} (h : s.InOrder)
    (hclosing : ∀ k, closing k s.pool.jobs = []) (hdeserted : pool.isDeserted = true)
    (hafter : s'.Accounted [])
    (hdropped : Dropped { s with pool := { pool with queue := [] } } s') :
    s'.InOrder ∧ Progress s s' ∧ Settled s s' := by
  have hpool : s'.pool = { pool with queue := [] } := hdropped.pool
  have hnone : s'.pool.jobs = [] := by
    rw [hpool]
    exact Pool.jobs_of_isDeserted hdeserted
  have hsettled : Settled s s' := ⟨hdropped.flags, hdropped.alive, hdropped.size, hdropped.kept⟩
  have horder : s'.InOrder := by
    refine .of_accounted (by rw [hnone]; exact hafter) ?_
    rw [hpool]
    exact nofun
  have hout : ∀ j, s'.outstanding j = [] := by
    intro j
    rw [outstanding, hnone]
    rfl
  -- no job was about to deal with a batch, so the batch was waiting or over
  have hstage : ∀ j, j < s.batches.size →
      s.stage j = if s.outstanding j = [] then .closed else .waiting := by
    intro j hj
    rw [stage, h.stageIn_eq hj, hclosing]
    rfl
  have hstage' : ∀ j, j < s.batches.size → s'.stage j = .closed := by
    intro j hj
    rw [stage, horder.stageIn_eq (by rw [hsettled.size]; exact hj), hnone]
    rfl
  refine ⟨horder, ⟨Nat.le_of_eq hsettled.size.symm, fun j _ => hsettled.kept j,
    fun j f g hflags => ?_, ?_⟩, hsettled⟩
  · have hj := lt_size_of_flags hflags
    by_cases hdone : s.outstanding j = []
    · refine turns_stays (by rw [hsettled.size]; exact hj) (.of_eq ((hout j).trans hdone.symm)) ?_
      rw [hstage' j hj, hstage j hj, if_pos hdone]
    · have hturn : Turn s s' j f g (s.outstanding j ≠ [] ∧ s'.outstanding j = []) (s.stage j)
          (s'.stage j) [⟨j, s.isHeard f g⟩] := by
        rw [hstage' j hj, hstage j hj, if_neg hdone]
        exact .drops ⟨hdone, hout j⟩ (by rw [hpool]; exact hdeserted) (hsettled.isHeard f g)
      refine ⟨s.outstanding j, by rw [hout j, List.append_nil], ?_⟩
      rw [filter_completions (by rw [hsettled.size]; exact hj),
        ← hturn.done_eq ((hsettled.kept j).trans hflags)]
      exact hturn
  · -- the batches that are over now are those whose barriers have fired
    have htold : s'.client.invalidations = s.client.invalidations + _ := hdropped.told
    rw [htold, completions, List.countP_filterMap, hsettled.size]
    congr 1
    refine List.countP_congr fun j hj => ?_
    have hj := List.mem_range.mp hj
    have hfired : s'.hasFired j = true := by
      rw [horder.hasFired (by rw [hsettled.size]; exact hj), hnone]
      rfl
    have hbefore : Scheduler.hasFired { s with pool := { pool with queue := [] } } j =
        decide (s.outstanding j = []) := h.hasFired hj
    rw [firesHeard, hfired, hbefore, completion?, hstage j hj, hstage' j hj]
    by_cases hdone : s.outstanding j = [] <;> simp [hdone]

/-- A step that leaves batches and jobs alone. -/
theorem InOrder.quiet {u : Scheduler} (h : s.InOrder) (hbatches : u.batches = s.batches)
    (hclient : u.client.invalidations = s.client.invalidations)
    (hjobs : u.pool.jobs.Perm s.pool.jobs) (hqueue : ∀ w ∈ u.pool.queue, w ∈ s.pool.queue) :
    u.InOrder ∧ Progress s u := by
  have haccounted : u.Accounted u.pool.jobs := (h.perm hjobs).congr hbatches
  have hstage : ∀ j, j < s.batches.size → u.stage j = s.stage j := fun j hj =>
    h.stageIn_congr haccounted hj (Nat.le_of_eq (by rw [hbatches])) (owed_perm hjobs j)
      (closing_perm hjobs j)
  refine ⟨.of_accounted haccounted fun w hw => h.unbegun w (hqueue w hw),
    Nat.le_of_eq (by rw [hbatches]), fun j _ => by rw [hbatches], fun j f g hflags => ?_, ?_⟩
  · have hj := lt_size_of_flags hflags
    exact turns_stays (by rw [hbatches]; exact hj) (owed_perm hjobs j) (hstage j hj)
  · rw [completions_eq_nil fun j hj => hstage j (by rw [← hbatches]; exact hj)]
    exact hclient

/-- A worker that is in no job goes on in the pool. -/
theorem InOrder.proceeded {pool : Pool Work} (h : s.InOrder)
    (hproceed : s.pool.proceed w = some pool) :
    ({ s with pool } : Scheduler).dropUnrun.InOrder ∧
      Progress s ({ s with pool } : Scheduler).dropUnrun ∧
      Settled s ({ s with pool } : Scheduler).dropUnrun := by
  have hjobs := Pool.proceed_jobs hproceed
  unfold dropUnrun Pool.drain
  cases hdeserted : pool.isDeserted with
  | true =>
    -- all workers have left, so the jobs are those of the queue, and none has begun
    have hall : pool.jobs = pool.queue := Pool.jobs_of_isDeserted hdeserted
    have hworking : ∀ w ∈ pool.queue, w.phase.stage? = none := by
      intro w hw
      rw [h.unbegun w (Pool.mem_queue_of_proceed hproceed hw)]
      rfl
    have haccounted : ({ s with pool := { pool with queue := [] } } : Scheduler).Accounted
        (pool.queue ++ []) := by
      rw [List.append_nil, ← hall]
      exact (h.perm hjobs).congr rfl
    obtain ⟨hafter, hdropped⟩ := foldl_dropJob pool.queue haccounted hworking
    refine h.deserted (fun k => closing_eq_nil fun w hw _ => hworking w ?_) hdeserted hafter
      hdropped
    rw [← hall]
    exact hjobs.mem_iff.mpr hw
  | false =>
    obtain ⟨horder, hprogress⟩ := h.quiet (u := { s with pool }) rfl rfl hjobs
      fun w hw => Pool.mem_queue_of_proceed hproceed hw
    exact ⟨horder, hprogress, rfl, rfl, rfl, fun _ => rfl⟩

end Workers

/-! ## 3. Steps of a scheduler -/

/-- A step that dispatches task `t`. -/
structure Dispatches (s s' : Scheduler) (t : Task) : Prop where
  current : s'.current = some t
  size : s'.batches.size = s.batches.size + 1
  flags : s'.batches[s.batches.size]?.map quietFlags = some (t.skipInvalidation, s'.flag)
  total : TileRange.tileCount (TileRange.normalize t.ranges) =
    .ok (tilesOf (TileRange.normalize t.ranges)).length
  outstanding : s'.outstanding s.batches.size = tilesOf (TileRange.normalize t.ranges)
  /-- A batch of no tiles is over at once. -/
  stage : s'.stage s.batches.size =
    if tilesOf (TileRange.normalize t.ranges) = [] then .closed else .waiting

theorem Dispatches.lt_size {s s' : Scheduler} {t : Task} (h : Dispatches s s' t) :
    s.batches.size < s'.batches.size := by
  rw [h.size]
  exact Nat.lt_succ_self _

theorem Dispatches.completions {s s' : Scheduler} {t : Task} (h : Dispatches s s' t) :
    (s.completions s').filter (·.batch = s.batches.size) =
      if tilesOf (TileRange.normalize t.ranges) = [] then
        [⟨s.batches.size, s'.isHeard t.skipInvalidation s'.flag⟩]
      else [] := by
  rw [filter_completions h.lt_size, completion?, stage_of_size_le (Nat.le_refl _), h.stage,
    heard_eq h.flags]
  by_cases hnone : tilesOf (TileRange.normalize t.ranges) = [] <;> simp [hnone]

theorem addBatch_eq (s : Scheduler) (total : Nat) (f : Flag) :
    s.addBatch total f = { s with
      batches := s.batches.push ⟨.counting total, f, s.flag⟩
      client := { s.client with
        invalidations := s.client.invalidations +
          (decide (total = 0) && s.hears ⟨.counting total, f, s.flag⟩).toNat } } := by
  unfold addBatch
  rw [Barrier.ofCount_eq]
  dsimp only
  split
  · next hzero =>
    rw [complete_eq, hzero, Bool.true_and]
    rfl
  · next hsome =>
    rw [Bool.not_eq_true] at hsome
    rw [hsome]
    rfl

/-- The job of one range of the batch that is dispatched next. -/
def jobOf (s : Scheduler) (t : Task) (r : TileRange) : Work where
  job :=
    { batch := s.batches.size, document := t.document, skipPaint := t.skipPaint
      schedulerFlag := s.flag, next := r.first, last := r.last, context := t.context }
  phase := .checking

theorem dispatched_pool {s : Scheduler} (h : s.pool.stopping = false) (t : Task) (total : Nat) :
    (s.dispatched t total).pool =
      { s.pool with
        queue := s.pool.queue ++ (TileRange.normalize t.ranges).map (s.jobOf t) } := by
  unfold dispatched
  rw [addBatch_eq]
  simp only [postJobs, Array.size_push, Nat.add_sub_cancel]
  exact Pool.foldl_post (s.jobOf t) _ h

theorem owed_map_jobOf (s : Scheduler) (t : Task) (ranges : List TileRange) (k : Nat) :
    owed k (ranges.map (s.jobOf t)) = if s.batches.size = k then tilesOf ranges else [] := by
  split
  · next hk =>
    rw [owed, List.flatMap_map, tilesOf]
    simp only [Work.pendingFor, jobOf, hk, if_true]
    rfl
  · next hk =>
    refine owed_eq_nil fun w hw => ?_
    obtain ⟨r, -, rfl⟩ := List.mem_map.mp hw
    exact hk

theorem closing_map_jobOf (s : Scheduler) (t : Task) (ranges : List TileRange) (k : Nat) :
    closing k (ranges.map (s.jobOf t)) = [] := by
  refine closing_eq_nil fun w hw _ => ?_
  obtain ⟨r, -, rfl⟩ := List.mem_map.mp hw
  rfl

/-- `s'` is `s` with a new batch for task `t`, and with its jobs. -/
structure Adds (s s' : Scheduler) (t : Task) (total : Nat) : Prop where
  current : s'.current = some t
  count : TileRange.tileCount (TileRange.normalize t.ranges) = .ok total
  batches : s'.batches = s.batches.push ⟨.counting total, t.skipInvalidation, s'.flag⟩
  pool : s'.pool =
    { s.pool with
      queue := s.pool.queue ++
        (TileRange.normalize t.ranges).map (({ s with flag := s'.flag } : Scheduler).jobOf t) }
  /-- A batch of no tiles completes at once. -/
  told : s'.client.invalidations = s.client.invalidations +
    (decide (total = 0) && s'.hears ⟨.counting total, t.skipInvalidation, s'.flag⟩).toNat

theorem adds_dispatched {s u : Scheduler} {t : Task} {total : Nat}
    (hopen : s.pool.stopping = false) (hsame : SameWork s u) (hready : u.Dispatchable t total) :
    Adds s (u.dispatched t total) t total := by
  have hpool := dispatched_pool (s := u) (by rw [hsame.pool]; exact hopen) t total
  have hjob : ({ s with flag := u.flag } : Scheduler).jobOf t = u.jobOf t := by
    funext r
    rw [jobOf, jobOf, hsame.batches]
  unfold Scheduler.dispatched at hpool ⊢
  rw [addBatch_eq] at hpool ⊢
  refine ⟨hready.current, hready.total, ?_, ?_, ?_⟩
  · rw [← hsame.batches]
    rfl
  · rw [hpool, hsame.pool, ← hjob]
    rfl
  · rw [← hsame.client]
    rfl

namespace Adds

variable {s s' : Scheduler} {t : Task} {total : Nat}

theorem size (h : Adds s s' t total) : s'.batches.size = s.batches.size + 1 := by
  rw [h.batches, Array.size_push]

theorem get (h : Adds s s' t total) (k : Nat) :
    s'.batches[k]? = if k = s.batches.size then
      some ⟨.counting total, t.skipInvalidation, s'.flag⟩ else s.batches[k]? := by
  rw [h.batches, Array.getElem?_push]

theorem jobs (h : Adds s s' t total) :
    s'.pool.jobs = s.pool.jobs ++
      (TileRange.normalize t.ranges).map (({ s with flag := s'.flag } : Scheduler).jobOf t) := by
  rw [h.pool, Pool.jobs_append]

theorem owed_eq (h : Adds s s' t total) (k : Nat) :
    owed k s'.pool.jobs = owed k s.pool.jobs ++
      if s.batches.size = k then tilesOf (TileRange.normalize t.ranges) else [] := by
  rw [h.jobs, owed_append, owed_map_jobOf]

theorem closing_eq (h : Adds s s' t total) (k : Nat) :
    closing k s'.pool.jobs = closing k s.pool.jobs := by
  rw [h.jobs, closing_append, closing_map_jobOf, List.append_nil]

/-- No job in the pool belongs to the new batch. -/
theorem owed_new (h : s.InOrder) : owed s.batches.size s.pool.jobs = [] :=
  owed_eq_nil fun w hw => Nat.ne_of_lt (h.batch_lt w hw)

theorem closing_new (h : s.InOrder) : closing s.batches.size s.pool.jobs = [] :=
  closing_eq_nil fun w hw hbatch => absurd hbatch (Nat.ne_of_lt (h.batch_lt w hw))

theorem inOrder (hadds : Adds s s' t total) (h : s.InOrder) : s'.InOrder := by
  have hsize := hadds.size
  -- the new jobs belong to the new batch and have not begun
  have hnew : ∀ w ∈ s'.pool.jobs, w ∈ s.pool.jobs ∨
      w.job.batch = s.batches.size ∧ w.phase = .checking := by
    intro w hw
    rw [hadds.jobs] at hw
    rcases List.mem_append.mp hw with hw | hw
    · exact Or.inl hw
    · obtain ⟨r, -, rfl⟩ := List.mem_map.mp hw
      exact Or.inr ⟨rfl, rfl⟩
  refine .of_accounted ⟨fun w hw => ?_, fun w hw htile => ?_, fun k b hb => ?_,
    fun k hclosing => ?_, fun k => ?_⟩ fun w hw => ?_
  · rcases hnew w hw with hw | ⟨hbatch, -⟩
    · have hlt := h.batch_lt w hw
      omega
    · omega
  · rcases hnew w hw with hw | ⟨-, hphase⟩
    · exact h.in_hand w hw htile
    · rw [hphase] at htile
      cases htile
  · rw [hadds.get] at hb
    rw [hadds.owed_eq]
    split at hb
    · next hk =>
      cases hb
      rw [hk, owed_new h, if_pos rfl, List.nil_append, TileRange.tileCount_eq_ok hadds.count]
    · next hk =>
      rw [if_neg (Ne.symm hk), List.append_nil]
      exact h.barrier k b hb
  · rw [hadds.closing_eq] at hclosing
    have hk : s.batches.size ≠ k := by
      rintro rfl
      exact hclosing (closing_new h)
    rw [hadds.owed_eq, if_neg hk, List.append_nil]
    exact h.settled k hclosing
  · rw [hadds.closing_eq]
    exact h.alone k
  · rw [hadds.pool] at hw
    rcases List.mem_append.mp hw with hw | hw
    · exact h.unbegun w hw
    · obtain ⟨r, -, rfl⟩ := List.mem_map.mp hw
      rfl

theorem stage_new (hadds : Adds s s' t total) (h : s.InOrder) :
    s'.stage s.batches.size =
      if tilesOf (TileRange.normalize t.ranges) = [] then .closed else .waiting := by
  have hk : s.batches.size < s'.batches.size := by
    rw [hadds.size]
    exact Nat.lt_succ_self _
  rw [stage, (hadds.inOrder h).stageIn_eq hk, hadds.closing_eq, closing_new h, hadds.owed_eq,
    owed_new h, if_pos rfl]
  rfl

/-- The batches from before do not notice. -/
theorem stage_old (hadds : Adds s s' t total) (h : s.InOrder) {k : Nat}
    (hk : k < s.batches.size) : s'.outstanding k = s.outstanding k ∧ s'.stage k = s.stage k := by
  have howed : owed k s'.pool.jobs = owed k s.pool.jobs := by
    rw [hadds.owed_eq, if_neg (Nat.ne_of_gt hk), List.append_nil]
  exact ⟨howed, h.stageIn_congr (hadds.inOrder h).toAccounted hk
    (by rw [hadds.size]; exact Nat.le_succ _) (.of_eq howed) (.of_eq (hadds.closing_eq k))⟩

theorem progress (hadds : Adds s s' t total) (h : s.InOrder) : Progress s s' := by
  have hsize := hadds.size
  refine ⟨by omega, fun k hk => ?_, fun k f g hflags => ?_, ?_⟩
  · rw [hadds.get, if_neg (Nat.ne_of_lt hk)]
  · have hk := lt_size_of_flags hflags
    obtain ⟨howed, hstage⟩ := hadds.stage_old h hk
    exact turns_stays (by omega) (.of_eq howed) hstage
  · -- only the new batch can be over now and not before
    have hothers : ∀ k, k < s'.batches.size → k ≠ s.batches.size → s'.stage k = s.stage k :=
      fun k hk hne => (hadds.stage_old h (by omega)).2
    have htiles : decide (total = 0) = decide (tilesOf (TileRange.normalize t.ranges) = []) := by
      rw [decide_eq_decide, TileRange.tileCount_eq_ok hadds.count, List.length_eq_zero_iff]
    have hhears : s'.batches[s.batches.size]?.any s'.hears =
        s'.hears ⟨.counting total, t.skipInvalidation, s'.flag⟩ := by
      rw [hadds.get, if_pos rfl, Option.any_some]
    rw [completions_of_ne (by omega) hothers, completion?, hadds.stage_new h,
      stage_of_size_le (Nat.le_refl _), hhears, hadds.told, htiles]
    generalize s'.hears ⟨.counting total, t.skipInvalidation, s'.flag⟩ = heard
    by_cases hnone : tilesOf (TileRange.normalize t.ranges) = []
    · cases heard <;> simp [hnone]
    · simp [hnone]

theorem dispatches (hadds : Adds s s' t total) (h : s.InOrder) : Dispatches s s' t := by
  refine ⟨hadds.current, hadds.size, ?_, ?_, ?_, hadds.stage_new h⟩
  · rw [hadds.get, if_pos rfl]
    rfl
  · rw [← TileRange.tileCount_eq_ok hadds.count, hadds.count]
  · rw [Scheduler.outstanding, hadds.owed_eq, owed_new h, if_pos rfl, List.nil_append]

end Adds

/-- **One step of a scheduler**: the accounts stay in order, and a batch is added
    only by a dispatch. -/
theorem InOrder.step {s s' : Scheduler} {a : Action} (h : s.InOrder)
    (hact : s.act a = some s') :
    s'.InOrder ∧ Progress s s' ∧
      (s'.batches.size = s.batches.size ∨ ∃ t, Dispatches s s' t) := by
  have hsettled : s'.InOrder ∧ Progress s s' ∧ Settled s s' →
      s'.InOrder ∧ Progress s s' ∧
        (s'.batches.size = s.batches.size ∨ ∃ t, Dispatches s s' t) :=
    fun ⟨horder, hprogress, hsame⟩ => ⟨horder, hprogress, Or.inl hsame.size⟩
  have hleft (hbatches : s'.batches = s.batches)
      (htold : s'.client.invalidations = s.client.invalidations)
      (hjobs : s'.pool.jobs.Perm s.pool.jobs) (hqueue : s'.pool.queue = s.pool.queue) :
      s'.InOrder ∧ Progress s s' ∧
        (s'.batches.size = s.batches.size ∨ ∃ t, Dispatches s s' t) := by
    obtain ⟨horder, hprogress⟩ :=
      h.quiet hbatches htold hjobs (by rw [hqueue]; exact fun _ => id)
    exact ⟨horder, hprogress, Or.inl (congrArg Array.size hbatches)⟩
  cases act_cases hact with
  | dispatched hopen hsame hready =>
    have hadds := adds_dispatched hopen hsame hready
    exact ⟨hadds.inOrder h, hadds.progress h, Or.inr ⟨_, hadds.dispatches h⟩⟩
  | worked hworker hworks => exact hsettled (h.worked hworker hworks)
  | proceeded hproceed => exact hsettled (h.proceeded hproceed)
  | timedOut htimeout =>
    exact hleft rfl rfl (Pool.timeout_jobs htimeout) (Pool.queue_of_timeout htimeout)
  | closed hbatches hclient hpool =>
    refine hleft hbatches (congrArg Client.invalidations hclient) (.of_eq ?_) ?_
    · rw [hpool]
      rfl
    · rw [hpool]
      rfl
  | quiet _ hbatches htold hpool =>
    exact hleft hbatches htold (.of_eq (congrArg Pool.jobs hpool)) (congrArg Pool.queue hpool)

/-- Nothing but work lies between the two sides of a step of a worker. -/
theorem InOrder.settled_step {s s' : Scheduler} {a : Action} (h : s.InOrder) (ha : a.isWork)
    (hact : s.act a = some s') : Settled s s' := by
  cases act_cases hact with
  | worked hworker hworks => exact (h.worked hworker hworks).2.2
  | proceeded hproceed => exact (h.proceeded hproceed).2.2
  | quiet hquiet => exact absurd ha hquiet
  | _ => cases ha

end TilePaint.Scheduler
