/-
  TilePaint/Proofs/WorkerProgress.lean
  ====================================
  **Workers can always finish what was posted.**

  As long as a pool is not told to stop, none of its workers leaves (`Staffed`).
  So from any state the workers alone, without a further call of the owner, can
  bring all jobs to their end: a worker that is in a job takes its next step, and
  the engine comes back to one that is rendering; if none is in a job, the first
  worker takes one.  What the jobs still have before them is a number that each
  step in a job lowers (`Scheduler.load`).

  On the way nobody sets a flag, so a batch that is not over yet completes, and
  whether the client hears of it is known beforehand (`can_complete`).  This says
  that no state is stuck; it does not say that a worker is given its turn.
-/
import Mathlib.Algebra.Ring.Nat
import TilePaint.Proofs.BatchCompletion

namespace TilePaint

/-! ## 1. Staffed pools -/

namespace Pool

variable {α : Type} {p p' : Pool α} {w : Nat} {state : Worker α}

/-- There are workers, and before the stop signal none of them has left. -/
structure Staffed (p : Pool α) : Prop where
  workers : 0 < p.workers.size
  present : p.stopping = false → ∀ w, w < p.workers.size → p.worker w ≠ .gone

theorem worker_setWorker (hw : w < p.workers.size) (v : Nat) :
    (p.setWorker w state).worker v = if v = w then state else p.worker v := by
  simp only [worker, setWorker, Array.getD_eq_getD_getElem?, Array.getElem?_setIfInBounds]
  by_cases hv : v = w
  · subst hv
    rw [if_pos rfl, if_pos rfl, if_pos hw, Option.getD_some]
  · rw [if_neg hv, if_neg (Ne.symm hv)]

theorem worker_setWorker_self (h : p.worker w ≠ .gone) :
    (p.setWorker w state).worker w = state := by
  rw [worker_setWorker (lt_size_of_worker h), if_pos rfl]

theorem staffed_ofConfig (config : PoolConfig) : (ofConfig config : Pool α).Staffed := by
  have hsize : (ofConfig config : Pool α).workers.size = max 1 config.workers :=
    Array.size_replicate
  refine ⟨by rw [hsize]; omega, fun _ w hw => ?_⟩
  have hlooking : (ofConfig config : Pool α).worker w = .looking := by
    rw [hsize] at hw
    simp only [worker, ofConfig, Array.getD_eq_getD_getElem?, Array.getElem?_replicate, hw,
      if_true, Option.getD_some]
  rw [hlooking]
  exact Worker.looking_ne_gone

/-- From `p` to `p'` the stop signal is not given, and before it nobody leaves. -/
structure GoesOn (p p' : Pool α) : Prop where
  stopping : p'.stopping = p.stopping
  staffed : p.Staffed → p'.Staffed

namespace GoesOn

theorem refl (p : Pool α) : GoesOn p p := ⟨rfl, id⟩

theorem trans {p'' : Pool α} (h : GoesOn p p') (h' : GoesOn p' p'') : GoesOn p p'' :=
  ⟨h'.stopping.trans h.stopping, fun hp => h'.staffed (h.staffed hp)⟩

/-- The queue does not matter. -/
theorem queue (p : Pool α) (queue : List α) : GoesOn p { p with queue } :=
  ⟨rfl, fun h => ⟨h.workers, h.present⟩⟩

theorem setWorker (w : Nat) (hstate : p.stopping = false → state ≠ .gone) :
    GoesOn p (p.setWorker w state) := by
  have hsize : (p.setWorker w state).workers.size = p.workers.size := Array.size_setIfInBounds
  refine ⟨rfl, fun h => ⟨by rw [hsize]; exact h.workers, fun hopen v hv => ?_⟩⟩
  rw [hsize] at hv
  by_cases hw : w < p.workers.size
  · rw [worker_setWorker hw]
    split
    · exact hstate hopen
    · exact h.present hopen v hv
  · have hsame : p.setWorker w state = p := by
      rw [Pool.setWorker, Array.setIfInBounds_eq_of_size_le (Nat.le_of_not_lt hw)]
    rw [hsame]
    exact h.present hopen v hv

theorem post (p : Pool α) (job : α) : GoesOn p (p.post job) := by
  unfold Pool.post
  split
  · exact refl p
  · exact queue p _

theorem foldl_post {β : Type} (f : β → α) (items : List β) (p : Pool α) :
    GoesOn p (items.foldl (fun pool item => pool.post (f item)) p) := by
  induction items generalizing p with
  | nil => exact refl p
  | cons item items ih => exact (post p (f item)).trans (ih _)

theorem proceed (h : p.proceed w = some p') : GoesOn p p' := by
  unfold Pool.proceed at h
  split at h
  · next hworker =>
    simp only [look, hworker, Option.some.injEq] at h
    subst h
    refine setWorker w fun hopen => ?_
    rw [hopen]
    exact Worker.waiting_ne_gone
  · -- a worker leaves only when the pool is told to stop
    rcases Option.or_eq_some_iff.mp h with htake | ⟨-, hleave⟩
    · unfold take at htake
      split at htake
      · next job rest _ _ =>
        cases htake
        exact (queue p rest).trans (setWorker w fun _ => Worker.busy_ne_gone)
      · cases htake
    · unfold disconnect at hleave
      split at hleave
      · split at hleave
        · next hstopping =>
          cases hleave
          refine setWorker w fun hopen => ?_
          rw [hstopping] at hopen
          cases hopen
        · cases hleave
      · cases hleave
  · cases h

theorem drain (p : Pool α) : GoesOn p p.drain.2 := by
  unfold Pool.drain
  split
  · exact queue p []
  · exact refl p

theorem timeout (h : p.timeout w = some p') : GoesOn p p' := by
  unfold Pool.timeout at h
  split at h
  · cases h
    exact setWorker w fun _ => Worker.looking_ne_gone
  · cases h

end GoesOn

/-- A pool with a worker that is there drops nothing. -/
theorem drain_of_present (h : p.worker w ≠ .gone) : p.drain = ([], p) := by
  rw [drain, isDeserted_of_present h]
  rfl

end Pool

namespace Scheduler

variable {s s' u : Scheduler} {w : Nat} {work : Work}

theorem goesOn_resume {result : Scheduler × Option Work} (hpool : result.1.pool = s.pool) :
    s.pool.GoesOn (resume w result).pool := by
  rw [← hpool]
  rcases result with ⟨u, _ | work⟩
  · exact .setWorker w fun _ => Worker.looking_ne_gone
  · exact .setWorker w fun _ => Worker.busy_ne_gone

theorem goesOn_dispatched (s : Scheduler) (t : Task) (total : Nat) :
    s.pool.GoesOn (s.dispatched t total).pool := by
  unfold Scheduler.dispatched
  rw [addBatch_eq]
  exact .foldl_post _ _ _

/-- **Only the end of a scheduler stops its pool.** -/
theorem InOrder.goesOn {a : Action} (h : s.InOrder) (hact : s.act a = some s') :
    s.pool.GoesOn s'.pool ∨ a = .call .close ∧ s'.pool = s.pool.stop := by
  cases act_cases hact with
  | dispatched _ hsame _ => exact Or.inl (hsame.pool ▸ goesOn_dispatched ..)
  | worked hworker hworks => exact Or.inl (goesOn_resume (hworks.advances h hworker).pool)
  | proceeded hproceed =>
    left
    rw [(BooksOnly.dropUnrun _).pool]
    exact (Pool.GoesOn.proceed hproceed).trans (.drain _)
  | timedOut htimeout => exact Or.inl (.timeout htimeout)
  | closed _ _ hpool => exact Or.inr ⟨rfl, hpool⟩
  | quiet _ _ _ hpool =>
    left
    rw [hpool]
    exact .refl _

/-- Everything in order, and the pool not told to stop. -/
structure Open (s : Scheduler) : Prop where
  inOrder : s.InOrder
  staffed : s.pool.Staffed
  running : s.pool.stopping = false

theorem staffed_of_reachable {allowed : Scheduler → Action → Prop} (hs : Reachable allowed s) :
    s.pool.Staffed := by
  have hboth := hs.invariant (P := fun s => s.InOrder ∧ s.pool.Staffed)
    (fun cache client config => ⟨inOrder_create cache client config, Pool.staffed_ofConfig config⟩)
    fun s a s' h _ hact => by
      refine ⟨(h.1.step hact).1, ?_⟩
      rcases h.1.goesOn hact with hgoes | ⟨-, hstop⟩
      · exact hgoes.staffed h.2
      · rw [hstop]
        exact ⟨h.2.workers, nofun⟩
  exact hboth.2

/-! ## 2. What is left to do -/

end Scheduler

/-- How many steps a job needs, at most, before it arrives again, or before it looks at
    its flags again. -/
def Phase.load : Phase → Nat
  | .completing => 6
  | .telling => 5
  | .checking => 4
  | .painting => 3
  | .admitted => 2
  | .rendering _ => 1
  | .arriving => 0

/-- The steps that a job has before it, at most. -/
def Work.load (w : Work) : Nat := 7 * w.pending.length + w.phase.load

namespace Scheduler

variable {s s' u : Scheduler} {w : Nat} {work : Work}

def load (s : Scheduler) : Nat := (s.pool.jobs.map Work.load).sum

theorem load_of_perm {jobs : List Work} (h : s.pool.jobs.Perm jobs) :
    s.load = (jobs.map Work.load).sum := (h.map Work.load).sum_nat

/-- At the end of a job there is at most the completion of its batch left. -/
theorem load_endJob (s : Scheduler) (work : Work) :
    ((s.endJob work.job).2.toList.map Work.load).sum ≤ 6 * work.pending.length := by
  rw [work.length_pending]
  unfold endJob
  split
  · dsimp only
    split
    · simp only [Option.toList_some, List.map_cons, List.map_nil, List.sum_cons, List.sum_nil,
        Work.load, Work.length_pending, Phase.load]
      omega
    · exact Nat.zero_le _
  · exact Nat.zero_le _

/-- **A step in a job lowers its load.** -/
theorem load_stepWork (s : Scheduler) {work : Work}
    (hhand : work.phase.holdsTile = true → work.job.next ≤ work.job.last)
    (hphase : ∀ ticket, work.phase ≠ .rendering ticket) :
    ((s.stepWork work).2.toList.map Work.load).sum < work.load := by
  rcases work with ⟨job, phase⟩
  -- a job that ends may still have its batch to deal with, and one that goes on its tiles
  have hend : ∀ u : Scheduler, ((u.endJob job).2.toList.map Work.load).sum ≤
      6 * (job.last + 1 - job.next) := by
    intro u
    rw [← Work.length_pending ⟨job, phase⟩]
    exact load_endJob u ⟨job, phase⟩
  have hgoes : ∀ phase' : Phase, ((some (⟨job, phase'⟩ : Work)).toList.map Work.load).sum =
      7 * (job.last + 1 - job.next) + phase'.load := by
    intro phase'
    simp only [Option.toList_some, List.map_cons, List.map_nil, List.sum_cons, List.sum_nil,
      Work.load, Work.length_pending, Nat.add_zero]
  rw [Work.load, Work.length_pending]
  cases phase with
  | checking =>
    simp only [stepWork]
    split
    · exact Nat.lt_of_le_of_lt (hend s) (by simp only [Phase.load]; omega)
    · simp only [hgoes, Phase.load]
      omega
  | painting =>
    simp only [stepWork]
    split <;> simp only [hgoes, Phase.load] <;> omega
  | admitted =>
    simp only [stepWork]
    split
    · exact Nat.lt_of_le_of_lt (hend _) (by simp only [Phase.load]; omega)
    · simp only [hgoes, Phase.load]
      omega
    · simp only [hgoes, Phase.load]
      omega
  | rendering ticket => exact absurd rfl (hphase ticket)
  | arriving =>
    have htile : job.next ≤ job.last := hhand rfl
    simp only [stepWork]
    split
    · exact Nat.lt_of_le_of_lt (hend s) (by simp only [Phase.load]; omega)
    · next next hnext =>
      obtain ⟨rfl, -⟩ := addWithin_eq_ok_iff.mp hnext
      simp only [Option.toList_some, List.map_cons, List.map_nil, List.sum_cons, List.sum_nil,
        Work.load, Work.length_pending]
      split <;> simp only [Phase.load] <;> omega
  | completing =>
    simp only [stepWork, hgoes]
    split <;> simp only [Phase.load] <;> omega
  | telling =>
    simp only [stepWork, hgoes, Phase.load]
    omega

/-- Worker `w` goes on with its job. -/
theorem load_resume {result : Scheduler × Option Work} (hworker : s.pool.worker w = .busy work)
    (hpool : result.1.pool = s.pool) (hless : (result.2.toList.map Work.load).sum < work.load) :
    (resume w result).load < s.load := by
  obtain ⟨others, hjobs, hafter⟩ := resume_jobs hworker hpool
  rw [load_of_perm hjobs, load_of_perm hafter, List.map_cons, List.sum_cons, List.map_append,
    List.sum_append]
  omega

/-! ## 3. Workers alone -/

/-- A worker takes a step, or the engine comes back to it. -/
def byWorkers (_ : Scheduler) : Action → Prop
  | .work _ => True
  | .endRender _ _ fault => fault = none
  | _ => False

theorem isWork_of_byWorkers {a : Action} (ha : byWorkers s a) : a.isWork := by
  cases a with
  | work w => trivial
  | endRender w pixels fault => trivial
  | _ => cases ha

/-- A worker in a job can go on. -/
theorem InOrder.busy_goes_on (h : s.InOrder) (hworker : s.pool.worker w = .busy work) :
    ∃ s', Step byWorkers s s' ∧ s'.load < s.load := by
  rcases work with ⟨job, phase⟩
  have hhand := in_hand_of_busy h hworker
  by_cases hphase : ∃ ticket, phase = .rendering ticket
  · obtain ⟨ticket, rfl⟩ := hphase
    have hadvances := endWorkRender_advances s (w := ⟨job, .rendering ticket⟩) ticket #[] none
      rfl (hhand rfl)
    refine ⟨s.endRender w #[] none, ⟨.endRender w #[] none, rfl, ?_⟩, ?_⟩
    · simp only [act, rendering?, hworker, Option.isSome_some, if_true]
    · simp only [endRender, hworker]
      exact load_resume hworker hadvances.pool (by simp [endWorkRender, Work.load, Phase.load,
        Work.pending])
  · have hphase' : ∀ ticket, phase ≠ .rendering ticket := fun ticket heq => hphase ⟨ticket, heq⟩
    refine ⟨resume w (s.stepWork ⟨job, phase⟩), ⟨.work w, trivial, ?_⟩, ?_⟩
    · simp only [act, stepWorker, hworker]
      cases phase with
      | rendering ticket => exact absurd rfl (hphase' ticket)
      | _ => rfl
    · exact load_resume hworker (stepWork_advances s ⟨job, phase⟩ hhand).pool
        (load_stepWork s hhand hphase')

namespace Open

variable {a : Action}

theorem step (h : s.Open) (ha : byWorkers s a) (hact : s.act a = some s') : s'.Open := by
  rcases h.inOrder.goesOn hact with hgoes | ⟨rfl, -⟩
  · exact ⟨(h.inOrder.step hact).1, hgoes.staffed h.staffed, hgoes.stopping.trans h.running⟩
  · cases ha

theorem run (h : s.Open) (hrun : Run byWorkers s u) :
    u.Open ∧ Settled s u := by
  induction hrun with
  | refl => exact ⟨h, Settled.refl s⟩
  | tail _ hlast ih =>
    obtain ⟨a, ha, hact⟩ := hlast
    exact ⟨ih.1.step ha hact,
      ih.2.trans (ih.1.inOrder.settled_step (isWork_of_byWorkers ha) hact)⟩

/-- A worker that is not in a job goes on in the pool alone. -/
theorem step_of_proceed {pool : Pool Work} (hproceed : s.pool.proceed w = some pool)
    (hidle : ∀ work, s.pool.worker w ≠ .busy work) (hthere : pool.worker w ≠ .gone) :
    Step byWorkers s { s with pool } ∧ ({ s with pool } : Scheduler).load = s.load := by
  refine ⟨⟨.work w, trivial, ?_⟩, ((Pool.proceed_jobs hproceed).map Work.load).sum_nat⟩
  have hdrop : ({ s with pool } : Scheduler).dropUnrun = { s with pool } := by
    rw [dropUnrun, Pool.drain_of_present hthere]
    rfl
  show s.stepWorker w = _
  unfold stepWorker
  split
  · next job ticket hworker => exact absurd hworker (hidle _)
  · next job _ hworker => exact absurd hworker (hidle _)
  · rw [hproceed, Option.map_some, hdrop]

/-- If no worker is in a job, the first one takes one. -/
theorem takes_job (h : s.Open) (hidle : ∀ w work, s.pool.worker w ≠ .busy work)
    (hjobs : s.pool.jobs ≠ []) :
    ∃ u, Run byWorkers s u ∧ u.load = s.load ∧ ∃ w work, u.pool.worker w = .busy work := by
  have hfirst := h.staffed.workers
  have hqueue : s.pool.queue ≠ [] := by
    intro hempty
    apply hjobs
    rw [Pool.jobs_eq, hempty, List.append_nil]
    refine Pool.inHand_eq_nil fun w => ?_
    cases hworker : s.pool.worker w with
    | busy work => exact absurd hworker (hidle w work)
    | _ => rfl
  obtain ⟨work, queue, hqueue⟩ := List.exists_cons_of_ne_nil hqueue
  -- from waiting the job is taken at once
  have hwaits : ∀ v : Scheduler, v.pool.queue = work :: queue → v.pool.worker 0 = .waiting →
      ∃ u, Step byWorkers v u ∧ u.load = v.load ∧ u.pool.worker 0 = .busy work := by
    intro v hq hworker
    have hbusy : (({ v.pool with queue } : Pool Work).setWorker 0 (.busy work)).worker 0 =
        .busy work :=
      Pool.worker_setWorker_self
        (Eq.trans_ne (show v.pool.worker 0 = _ from hworker) Worker.waiting_ne_gone)
    have hproceed : v.pool.proceed 0 =
        some (({ v.pool with queue } : Pool Work).setWorker 0 (.busy work)) := by
      simp only [Pool.proceed, hworker, Pool.take, hq, Option.some_or]
    obtain ⟨hstep, hload⟩ := step_of_proceed hproceed
      (fun _ hbusy => by cases hworker.symm.trans hbusy)
      (hbusy.trans_ne Worker.busy_ne_gone)
    exact ⟨_, hstep, hload, hbusy⟩
  cases hworker : s.pool.worker 0 with
  | looking =>
    have hproceed : s.pool.proceed 0 = some (s.pool.setWorker 0 .waiting) := by
      simp only [Pool.proceed, hworker, Pool.look, h.running, Bool.false_eq_true, if_false]
    have hwaiting : (s.pool.setWorker 0 .waiting).worker 0 = .waiting :=
      Pool.worker_setWorker_self (hworker.trans_ne Worker.looking_ne_gone)
    obtain ⟨hlook, hload⟩ := step_of_proceed hproceed (hidle 0)
      (hwaiting.trans_ne Worker.waiting_ne_gone)
    obtain ⟨u, htake, hload', hbusy⟩ :=
      hwaits { s with pool := s.pool.setWorker 0 .waiting } hqueue hwaiting
    exact ⟨u, (Relation.ReflTransGen.single hlook).tail htake, hload'.trans hload, 0, work, hbusy⟩
  | waiting =>
    obtain ⟨u, htake, hload, hbusy⟩ := hwaits s hqueue hworker
    exact ⟨u, .single htake, hload, 0, work, hbusy⟩
  | busy work => exact absurd hworker (hidle 0 work)
  | gone => exact absurd hworker (h.staffed.present h.running 0 hfirst)

theorem goes_on (h : s.Open) (hjobs : s.pool.jobs ≠ []) :
    ∃ u, Run byWorkers s u ∧ u.load < s.load := by
  by_cases hbusy : ∃ w work, s.pool.worker w = .busy work
  · obtain ⟨w, work, hworker⟩ := hbusy
    obtain ⟨u, hstep, hload⟩ := h.inOrder.busy_goes_on hworker
    exact ⟨u, .single hstep, hload⟩
  · obtain ⟨u, hrun, hload, w, work, hworker⟩ :=
      h.takes_job (fun w work hworker => hbusy ⟨w, work, hworker⟩) hjobs
    obtain ⟨v, hstep, hless⟩ := (h.run hrun).1.inOrder.busy_goes_on hworker
    exact ⟨v, hrun.tail hstep, hload ▸ hless⟩

/-- **Workers alone can finish all jobs.** -/
theorem can_finish (h : s.Open) : ∃ u, Run byWorkers s u ∧ u.pool.jobs = [] := by
  -- strong induction on what is left to do
  generalize hload : s.load = n
  induction n using Nat.strongRecOn generalizing s with
  | ind n ih =>
    subst hload
    by_cases hjobs : s.pool.jobs = []
    · exact ⟨s, .refl, hjobs⟩
    · obtain ⟨v, hrun, hless⟩ := h.goes_on hjobs
      obtain ⟨u, hrest, hdone⟩ := ih v.load hless (h.run hrun).1 rfl
      exact ⟨u, hrun.trans hrest, hdone⟩

end Open

/-! ## 4. Completion -/

/-- What is false at the start of a run and true at its end becomes true in a step. -/
theorem Run.becomes {allowed : Scheduler → Action → Prop} {P : Scheduler → Prop}
    (hrun : Run allowed s u) (hstart : ¬P s) (hend : P u) :
    ∃ x y, Run allowed s x ∧ Step allowed x y ∧ ¬P x ∧ P y := by
  induction hrun with
  | refl => exact absurd hend hstart
  | @tail x y hrun hstep ih =>
    by_cases hx : P x
    · exact ih hx
    · exact ⟨x, y, hrun, hstep, hx, hend⟩

theorem mem_completions {k : Nat} {f g : Flag} (hprogress : Progress s s')
    (hflags : s.batches[k]?.map quietFlags = some (f, g)) (hbefore : s.stage k ≠ .closed)
    (hafter : s'.stage k = .closed) :
    (⟨k, s.verdict k f g⟩ : Completion) ∈ s.completions s' := by
  obtain ⟨arriving, -, hturn⟩ := hprogress.turns k f g hflags
  have hk := Nat.lt_of_lt_of_le (lt_size_of_flags hflags) hprogress.size
  -- a batch that comes to be over leaves an entry, and the entry is the verdict
  obtain ⟨c, hc⟩ : ∃ c, completion? s s' k = some c := ⟨_, if_pos ⟨hbefore, hafter⟩⟩
  have hmem : c ∈ (s.completions s').filter (·.batch = k) := by
    rw [filter_completions hk, hc]
    exact List.mem_singleton_self c
  rw [← hturn.heard hmem]
  exact (List.mem_filter.mp hmem).1

/-- **A batch that is not over can complete**, by its workers alone, and the client hears
    of it if that is the verdict now. -/
theorem Open.can_complete (h : s.Open) {k : Nat} {f g : Flag}
    (hflags : s.batches[k]?.map quietFlags = some (f, g)) (hopen : s.stage k ≠ .closed) :
    ∃ x y a, Run byWorkers s x ∧ byWorkers x a ∧ x.act a = some y ∧
      ⟨k, s.verdict k f g⟩ ∈ x.completions y := by
  obtain ⟨u, hrun, hdone⟩ := h.can_finish
  obtain ⟨hend, hsettled⟩ := h.run hrun
  have hclosed : u.stage k = .closed := by
    have hk : k < u.batches.size := by
      rw [hsettled.size]
      exact lt_size_of_flags hflags
    rw [stage, hend.inOrder.stageIn_eq hk, hdone]
    rfl
  -- as long as the batch is not over, nobody interferes, and the verdict stands
  have hstands : ∀ x, Run byWorkers s x → x.stage k ≠ .closed →
      x.verdict k f g = s.verdict k f g := by
    intro x hx
    induction hx with
    | refl => exact fun _ => rfl
    | @tail x y hx hlast ih =>
      intro hy
      obtain ⟨a, ha, hact⟩ := hlast
      obtain ⟨hopen', hsettled'⟩ := h.run hx
      have hprogress := (hopen'.inOrder.step hact).2.1
      have hflags' := (hsettled'.kept k).trans hflags
      obtain ⟨arriving, -, hturn⟩ := hprogress.turns k f g hflags'
      have hstep := hopen'.inOrder.settled_step (isWork_of_byWorkers ha) hact
      rw [hturn.verdict_eq hstep hy]
      exact ih fun hx => hy (hprogress.closed hx)
  obtain ⟨x, y, hx, ⟨a, ha, hact⟩, hbefore, hafter⟩ :=
    Run.becomes (P := fun s => s.stage k = .closed) hrun hopen hclosed
  obtain ⟨hopenx, hsettledx⟩ := h.run hx
  refine ⟨x, y, a, hx, ha, hact, ?_⟩
  rw [← hstands x hx hbefore]
  exact mem_completions (hopenx.inOrder.step hact).2.1 ((hsettledx.kept k).trans hflags) hbefore
    hafter

end Scheduler

end TilePaint
