/-
  TilePaint/Proofs/SchedulerRun.lean
  ==================================
  **Runs of a scheduler with its workers.**

  Everything that can happen to a scheduler is an `Action`: a call of its owner,
  one step of one worker, the end of a render, the end of a wait, a flag that
  somebody sets, a client that changes, and any change of the cache that does not
  come from the scheduler.  `Scheduler.act` takes one action; a run takes one
  after the other, in any order, so all interleavings are runs.

  A history may be restricted to some actions (`Reachable allowed`).  The owner
  cannot call a scheduler that it has given up.

  The inversion lemmas say what an action does to batches, pool and client:

    * most calls leave them alone, and no call dispatches more than one batch
      (`dispatch_cases`, `perform_cases`);
    * with what workers and the rest of the world do, that makes six kinds of actions
      (`act_cases`);
    * a worker that takes, waits or leaves keeps the jobs of the pool, up to their
      order (`Pool.proceed_jobs`);
    * the stages before a retirement only ever put a merged task in the queue, and the
      retirement cancels at most the task that was current (`fold_induction`,
      `retire_cases`).
-/
import Mathlib.Logic.Relation
import TilePaint.Proofs.CacheRun
import TilePaint.Scheduler.Coalesce

namespace TilePaint

/-- Actions that can be taken one after the other make a run. -/
theorem run_of_foldlM {σ α : Type} {act : σ → α → Option σ} {s s' : σ} {actions : List α}
    (h : actions.foldlM act s = some s') :
    Relation.ReflTransGen (fun s s' => ∃ a, act s a = some s') s s' := by
  induction actions generalizing s with
  | nil =>
    cases h
    exact .refl
  | cons a actions ih =>
    rw [List.foldlM_cons] at h
    obtain ⟨next, hact, hrest⟩ := Option.bind_eq_some_iff.mp h
    exact .head ⟨a, hact⟩ (ih hrest)

/-! ## 1. The jobs of a pool -/

def Worker.job? {α : Type} : Worker α → Option α
  | .busy job => some job
  | _ => none

theorem Worker.looking_ne_gone {α : Type} : (looking : Worker α) ≠ gone := nofun

theorem Worker.waiting_ne_gone {α : Type} : (waiting : Worker α) ≠ gone := nofun

theorem Worker.busy_ne_gone {α : Type} {job : α} : busy job ≠ gone := nofun

namespace Pool

variable {α : Type} {p p' : Pool α} {w : Nat}

/-- The jobs that have not ended: those in the hands of a worker and those queued. -/
def jobs (p : Pool α) : List α := p.workers.toList.filterMap Worker.job? ++ p.queue

/-- The jobs in the hands of a worker. -/
def inHand (p : Pool α) : List α := p.workers.toList.filterMap Worker.job?

theorem jobs_eq (p : Pool α) : p.jobs = p.inHand ++ p.queue := rfl

theorem jobs_append (p : Pool α) (more : List α) :
    ({ p with queue := p.queue ++ more } : Pool α).jobs = p.jobs ++ more :=
  (List.append_assoc ..).symm

theorem worker_eq_getElem (hw : w < p.workers.size) : p.worker w = p.workers[w] := by
  simp [worker, hw]

theorem lt_size_of_worker (h : p.worker w ≠ .gone) : w < p.workers.size := by
  rcases Nat.lt_or_ge w p.workers.size with hlt | hge
  · exact hlt
  · exfalso
    apply h
    rw [worker, Array.getD_eq_getD_getElem?, Array.getElem?_eq_none hge]
    rfl

/-- The workers before and after `w` keep what they have when `w` changes. -/
theorem workers_split (h : p.worker w ≠ .gone) :
    ∃ before after, p.workers.toList = before ++ p.worker w :: after ∧
      ∀ state, (p.setWorker w state).workers.toList = before ++ state :: after := by
  have hw := lt_size_of_worker h
  have hlen : w < p.workers.toList.length := by simpa using hw
  have hworker : p.worker w = p.workers.toList[w] := worker_eq_getElem hw
  refine ⟨p.workers.toList.take w, p.workers.toList.drop (w + 1), ?_, fun state => ?_⟩
  · rw [hworker, ← List.drop_eq_getElem_cons hlen, List.take_append_drop]
  · rw [setWorker, Array.toList_setIfInBounds, List.set_eq_take_append_cons_drop, if_pos hlen]

/-- The jobs in hand from the point of view of one worker. -/
theorem inHand_setWorker (h : p.worker w ≠ .gone) :
    ∃ others : List α,
      p.inHand.Perm ((p.worker w).job?.toList ++ others) ∧
      ∀ state, (p.setWorker w state).inHand.Perm (state.job?.toList ++ others) := by
  obtain ⟨before, after, hbefore, hafter⟩ := workers_split h
  have hperm : ∀ state : Worker α, ((before ++ state :: after).filterMap Worker.job?).Perm
      (state.job?.toList ++ (before ++ after).filterMap Worker.job?) := by
    intro state
    rw [List.filterMap_append, List.filterMap_append]
    cases hjob : state.job? with
    | none =>
      rw [List.filterMap_cons_none hjob]
      exact .refl _
    | some job =>
      rw [List.filterMap_cons_some hjob]
      exact List.perm_middle
  refine ⟨(before ++ after).filterMap Worker.job?, ?_, fun state => ?_⟩
  · rw [inHand, hbefore]
    exact hperm _
  · rw [inHand, hafter]
    exact hperm state

/-- The jobs of a pool from the point of view of one worker. -/
theorem jobs_setWorker {old : Worker α} (hworker : p.worker w = old) (h : old ≠ .gone) :
    ∃ others : List α,
      p.jobs.Perm (old.job?.toList ++ others) ∧
      ∀ state, (p.setWorker w state).jobs.Perm (state.job?.toList ++ others) := by
  subst hworker
  obtain ⟨others, hinHand, hset⟩ := inHand_setWorker h
  refine ⟨others ++ p.queue, ?_, fun state => ?_⟩
  · rw [← List.append_assoc]
    exact hinHand.append_right _
  · rw [← List.append_assoc]
    exact (hset state).append_right _

theorem jobs_setWorker_of_none {old state : Worker α} (hworker : p.worker w = old)
    (h : old ≠ .gone) (hold : old.job? = none) (hnew : state.job? = none) :
    (p.setWorker w state).jobs.Perm p.jobs := by
  obtain ⟨others, hjobs, hset⟩ := jobs_setWorker hworker h
  have hset := hset state
  rw [hold] at hjobs
  rw [hnew] at hset
  exact hset.trans hjobs.symm

theorem take_jobs (h : p.take w = some p') : p'.jobs.Perm p.jobs := by
  unfold take at h
  split at h
  · next job queue hworker hqueue =>
    cases h
    have hwaiting : ({ p with queue } : Pool α).worker w = .waiting := hworker
    obtain ⟨others, hjobs, hset⟩ := jobs_setWorker hwaiting nofun
    -- the first job of the queue moves to the front
    have hfront : p.jobs.Perm (job :: ({ p with queue } : Pool α).jobs) := by
      rw [jobs, hqueue]
      exact List.perm_middle
    exact (hset (.busy job)).trans ((hjobs.symm.cons job).trans hfront.symm)
  · cases h

/-- A worker that is not in a job keeps the jobs of the pool when it goes on. -/
theorem proceed_jobs (h : p.proceed w = some p') : p'.jobs.Perm p.jobs := by
  unfold proceed at h
  split at h
  · next hworker =>
    simp only [look, hworker, Option.some.injEq] at h
    subst h
    apply jobs_setWorker_of_none hworker nofun rfl
    split <;> rfl
  · next hworker =>
    rcases Option.or_eq_some_iff.mp h with htake | ⟨-, hleave⟩
    · exact take_jobs htake
    · unfold disconnect at hleave
      split at hleave
      · split at hleave
        · cases hleave
          exact jobs_setWorker_of_none hworker nofun rfl rfl
        · cases hleave
      · cases hleave
  · cases h

/-- It takes at most the first job of the queue. -/
theorem mem_queue_of_proceed (h : p.proceed w = some p') {job : α} (hjob : job ∈ p'.queue) :
    job ∈ p.queue := by
  unfold proceed at h
  split at h
  · next hworker =>
    simp only [look, hworker, Option.some.injEq] at h
    subst h
    exact hjob
  · -- a waiting worker takes the first job or, if there is none, may leave
    rcases Option.or_eq_some_iff.mp h with htake | ⟨-, hleave⟩
    · unfold take at htake
      split at htake
      · next first queue _ hqueue =>
        cases htake
        rw [hqueue]
        exact List.mem_cons_of_mem _ hjob
      · cases htake
    · unfold disconnect at hleave
      split at hleave
      · split at hleave
        · cases hleave
          exact hjob
        · cases hleave
      · cases hleave
  · cases h

theorem queue_of_timeout (h : p.timeout w = some p') : p'.queue = p.queue := by
  unfold timeout at h
  split at h
  · cases h
    rfl
  · cases h

theorem timeout_jobs (h : p.timeout w = some p') : p'.jobs.Perm p.jobs := by
  unfold timeout at h
  split at h
  · next hworker =>
    cases h
    exact jobs_setWorker_of_none hworker nofun rfl rfl
  · cases h

theorem inHand_eq_nil (h : ∀ w, (p.worker w).job? = none) : p.inHand = [] := by
  refine List.filterMap_eq_nil_iff.mpr fun state hstate => ?_
  obtain ⟨w, hw, rfl⟩ := List.mem_iff_getElem.mp hstate
  have hworker : p.worker w = p.workers.toList[w] := worker_eq_getElem (by simpa using hw)
  rw [← hworker]
  exact h w

theorem isDeserted_iff : p.isDeserted = true ↔ ∀ w, p.worker w = .gone := by
  constructor
  · intro h w
    refine Classical.byContradiction fun hthere => ?_
    have hw := lt_size_of_worker hthere
    have hgone := Array.all_eq_true.mp h w hw
    rw [← worker_eq_getElem hw] at hgone
    split at hgone
    · next hnone => exact hthere hnone
    · cases hgone
  · intro h
    refine Array.all_eq_true.mpr fun w hw => ?_
    rw [← worker_eq_getElem hw, h w]

theorem isDeserted_of_present (h : p.worker w ≠ .gone) : p.isDeserted = false :=
  Bool.eq_false_iff.mpr fun hdeserted => h (isDeserted_iff.mp hdeserted w)

theorem jobs_of_isDeserted (h : p.isDeserted = true) : p.jobs = p.queue := by
  have hnone : p.inHand = [] := inHand_eq_nil fun w => by
    rw [isDeserted_iff.mp h w]
    rfl
  rw [jobs_eq, hnone, List.nil_append]

theorem jobs_eq_of_stop (h : p' = p ∨ p' = p.stop) : p'.jobs = p.jobs := by
  rcases h with rfl | rfl <;> rfl

theorem jobs_ofConfig (config : PoolConfig) : (ofConfig config : Pool α).jobs = [] := by
  rw [jobs, ofConfig, List.append_nil, List.filterMap_eq_nil_iff]
  intro state hstate
  rw [Array.toList_replicate] at hstate
  rw [List.eq_of_mem_replicate hstate]
  rfl

theorem foldl_post {β : Type} (f : β → α) (items : List β) (h : p.stopping = false) :
    items.foldl (fun pool item => pool.post (f item)) p =
      { p with queue := p.queue ++ items.map f } := by
  induction items generalizing p with
  | nil => rw [List.map_nil, List.append_nil]; rfl
  | cons item items ih =>
    have hpost : p.post (f item) = { p with queue := p.queue ++ [f item] } := by
      rw [post, h, if_neg Bool.false_ne_true]
    rw [List.foldl_cons, ih (by rw [hpost]; exact h), hpost]
    simp

end Pool

namespace Scheduler

/-! ## 2. What a job leaves alone

Apart from the cache, a step of a job only changes what is booked for a batch and what the
client was told. -/

/-- `u` is `s` up to batches and client. -/
def BooksOnly (s u : Scheduler) : Prop := ∃ batches client, u = { s with batches, client }

namespace BooksOnly

variable {s u v : Scheduler}

theorem refl (s : Scheduler) : BooksOnly s s := ⟨s.batches, s.client, rfl⟩

theorem trans (h : BooksOnly s u) (h' : BooksOnly u v) : BooksOnly s v := by
  obtain ⟨_, _, rfl⟩ := h
  obtain ⟨batches, client, rfl⟩ := h'
  exact ⟨batches, client, rfl⟩

theorem cache (h : BooksOnly s u) : u.cache = s.cache := by
  obtain ⟨_, _, rfl⟩ := h
  rfl

theorem pool (h : BooksOnly s u) : u.pool = s.pool := by
  obtain ⟨_, _, rfl⟩ := h
  rfl

theorem tell (s : Scheduler) : BooksOnly s s.tell := by
  unfold Scheduler.tell
  split
  · exact ⟨_, _, rfl⟩
  · exact refl s

theorem complete (s : Scheduler) (b : Batch) : BooksOnly s (s.complete b) := by
  unfold Scheduler.complete
  split
  · exact refl s
  · exact tell s

theorem arrive (s : Scheduler) (batch n : Nat) : BooksOnly s (s.arrive batch n).1 := by
  unfold Scheduler.arrive
  split
  · exact refl s
  · exact ⟨_, _, rfl⟩

theorem endJob (s : Scheduler) (j : Job) : BooksOnly s (s.endJob j).1 := by
  unfold Scheduler.endJob
  split
  · exact arrive s _ _
  · exact refl s

theorem dropJob (s : Scheduler) (j : Job) : BooksOnly s (s.dropJob j) := by
  have hend := endJob s j
  unfold Scheduler.dropJob
  split
  · next u heq =>
    rw [heq] at hend
    exact hend
  · next u _ heq =>
    rw [heq] at hend
    cases u.batches[j.batch]? with
    | none => exact hend
    | some b => exact hend.trans (complete u b)

theorem dropUnrun (s : Scheduler) :
    BooksOnly { s with pool := s.pool.drain.2 } s.dropUnrun := by
  have hall : ∀ (jobs : List Work) (u : Scheduler),
      BooksOnly u (jobs.foldl (fun s work => s.dropJob work.job) u) := by
    intro jobs
    induction jobs with
    | nil => exact refl
    | cons work jobs ih => exact fun u => (dropJob u work.job).trans (ih _)
  exact hall _ _

theorem addBatch (s : Scheduler) (total : Nat) (f : Flag) : BooksOnly s (s.addBatch total f) := by
  unfold Scheduler.addBatch
  dsimp only
  split
  · obtain ⟨_, _, hcomplete⟩ := complete { s with batches := s.batches.push _ } _
    rw [hcomplete]
    exact ⟨_, _, rfl⟩
  · exact ⟨_, _, rfl⟩

end BooksOnly

/-- The cache that a step of a job outside the engine leaves behind: at most a paint has
    been begun. -/
def Stepped (s : Scheduler) (j : Job) (cache : TileCache) : Prop :=
  cache = s.cache ∨ ∃ late, cache = (s.cache.start false j.next j.context late).1

theorem stepWork_books (s : Scheduler) (work : Work) :
    ∃ cache, s.Stepped work.job cache ∧ BooksOnly { s with cache } (s.stepWork work).1 := by
  rcases work with ⟨job, phase⟩
  -- only the start of a paint touches the cache
  have hsame : ∀ u, BooksOnly s u →
      ∃ cache, s.Stepped job cache ∧ BooksOnly { s with cache } u :=
    fun u h => ⟨s.cache, Or.inl rfl, h⟩
  cases phase with
  | checking =>
    simp only [stepWork]
    split
    · exact hsame _ (.endJob s job)
    · exact hsame _ (.refl s)
  | painting =>
    simp only [stepWork]
    split
    · exact hsame _ (.refl s)
    · exact hsame _ (.refl s)
  | admitted =>
    have hbegun : ∀ cache outcome u,
        s.cache.start false job.next job.context (s.flags.isSet job.skipPaint) = (cache, outcome) →
        BooksOnly { s with cache } u →
        ∃ cache, s.Stepped job cache ∧ BooksOnly { s with cache } u :=
      fun cache _ _ hstart h => ⟨cache, Or.inr ⟨_, by rw [hstart]⟩, h⟩
    simp only [stepWork]
    split
    · next hstart => exact hbegun _ _ _ hstart (.endJob _ job)
    · next hstart => exact hbegun _ _ _ hstart (.refl _)
    · next hstart => exact hbegun _ _ _ hstart (.refl _)
  | rendering ticket => exact hsame _ (.refl s)
  | arriving =>
    simp only [stepWork]
    split
    · exact hsame _ (.endJob s job)
    · exact hsame _ (.arrive s _ _)
  | completing => exact hsame _ (.refl s)
  | telling => exact hsame _ (.tell s)

theorem endWorkRender_books (s : Scheduler) (j : Job) (ticket : Ticket) (pixels : Array Pixel)
    (fault : Option Fault) :
    ∃ cache, (cache = s.cache.abandon ticket pixels ∨ cache = (s.cache.publish ticket pixels).1) ∧
      BooksOnly { s with cache } (s.endWorkRender j ticket pixels fault).1 := by
  cases fault with
  | some fault => exact ⟨_, Or.inl rfl, .endJob _ j⟩
  | none => exact ⟨_, Or.inr rfl, .refl _⟩

/-! ## 3. Calls -/

/-- What the owner of a scheduler can ask of it. -/
inductive Call where
  | schedule (r : Request)
  | scheduleNext (extra : List TileRange)
  | clear
  | destroy
  | pause
  | unpause (now : Bool)
  | close

/-- The scheduler after a call.  A call that ends with a fault leaves behind what
    it did before. -/
def perform (s : Scheduler) : Call → Scheduler
  | .schedule r => (s.schedule r).1
  | .scheduleNext extra => (s.scheduleNext extra).1
  | .clear => s.clear
  | .destroy => s.destroy
  | .pause => s.pause
  | .unpause now => (s.unpause now).1
  | .close => s.close

/-- The scheduler that a dispatch of task `t` leaves behind. -/
def dispatched (s : Scheduler) (t : Task) (total : Nat) : Scheduler :=
  (({ s with cache := s.cache.setContext t.context }).addBatch total t.skipInvalidation).postJobs t
    (TileRange.normalize t.ranges)

structure Dispatchable (s : Scheduler) (t : Task) (total : Nat) : Prop where
  current : s.current = some t
  unpaused : s.paused = false
  unset : s.flags.isSet s.flag = false
  client : s.clientCache = .ok true
  grid : s.cache.grid.isEmpty = false
  total : TileRange.tileCount (TileRange.normalize t.ranges) = .ok total

/-- **What a dispatch does**: it makes a batch of the current task, or it changes
    at most the cache. -/
theorem dispatch_cases (s : Scheduler) :
    (∃ t total, s.Dispatchable t total ∧ s.dispatch = (s.dispatched t total, .ok true)) ∨
      ∃ cache outcome, s.dispatch = ({ s with cache }, outcome) ∧ outcome ≠ .ok true := by
  unfold dispatch
  split
  · exact Or.inr ⟨s.cache, _, rfl, nofun⟩
  · next t hcurrent =>
    split
    · exact Or.inr ⟨s.cache, _, rfl, nofun⟩
    · next hopen =>
      rw [Bool.or_eq_true, not_or, Bool.not_eq_true, Bool.not_eq_true] at hopen
      split
      · exact Or.inr ⟨s.cache, _, rfl, nofun⟩
      · next hasCache hclient =>
        split
        · exact Or.inr ⟨s.cache, _, rfl, nofun⟩
        · next hready =>
          rw [Bool.or_eq_true, not_or, Bool.not_eq_true, Bool.not_eq_true, Bool.not_eq_false']
            at hready
          dsimp only
          split
          · exact Or.inr ⟨_, _, rfl, nofun⟩
          · next total htotal =>
            refine Or.inl ⟨t, total, ⟨hcurrent, hopen.1, hopen.2, ?_, hready.2, htotal⟩, rfl⟩
            rw [hclient, hready.1]

/-- **The stages before a retirement.**  Whatever they come to, each of them puts a
    merged task in the queue or does nothing. -/
theorem fold_induction {P : Scheduler → Prop} {s : Scheduler} (extra : List TileRange) (h : P s)
    (hmerge : ∀ u t more, P u → P (u.queueMerged t more)) :
    P (s.foldExtra extra).foldRemaining.clipQueued := by
  have hextra : P (s.foldExtra extra) := by
    unfold foldExtra
    split
    · exact h
    · split
      · exact hmerge s _ extra h
      · exact h
  -- each of the three steps merges something into the queued task or does nothing
  have hremaining : ∀ u : Scheduler, P u → P u.foldRemaining := by
    intro u hu
    unfold foldRemaining
    split
    · split
      · dsimp only
        split
        · exact hu
        · exact hmerge u _ _ hu
      · exact hu
    · exact hu
  have hclip : ∀ u : Scheduler, P u → P u.clipQueued := by
    intro u hu
    unfold clipQueued
    split
    · exact hmerge u _ [] hu
    · exact hu
  exact hclip _ (hremaining _ hextra)

/-- A scheduler whose queued task has taken the place of the current one. -/
def promote (s : Scheduler) : Scheduler := { s with current := s.queued, queued := none }

/-- **A retirement.**  The queued task takes the place of the current one, which is
    cancelled for a task for other tiles at another place. -/
theorem retire_cases (s : Scheduler) :
    (∃ c q, s.current = some c ∧ s.queued = some q ∧ (c.sameTiles q = false ∧ c.y ≠ q.y) ∧
      s.retire = { s.promote with flags := c.cancel s.flags }) ∨
    (∀ c q, s.current = some c → s.queued = some q → c.sameTiles q = true ∨ c.y = q.y) ∧
      s.retire = s.promote := by
  unfold retire
  split
  · next c q hc hq =>
    dsimp only
    split
    · next hcancel =>
      rw [Bool.and_eq_true, Bool.not_eq_true', bne_iff_ne] at hcancel
      exact Or.inl ⟨c, q, hc, hq, hcancel, rfl⟩
    · next hkeep =>
      refine Or.inr ⟨fun c' q' hc' hq' => ?_, rfl⟩
      cases hc.symm.trans hc'
      cases hq.symm.trans hq'
      cases hsame : c.sameTiles q with
      | true => exact Or.inl rfl
      | false =>
        rw [hsame, Bool.not_false, Bool.true_and, bne_iff_ne, ne_eq, Decidable.not_not] at hkeep
        exact Or.inr hkeep
  · next hnot => exact Or.inr ⟨fun c q hc hq => absurd hq (hnot c q hc), rfl⟩

/-- Whichever way it goes, only flags differ. -/
theorem retire_eq (s : Scheduler) : ∃ flags, s.retire = { s.promote with flags := flags } := by
  rcases retire_cases s with ⟨c, q, -, -, -, hretire⟩ | ⟨-, hretire⟩
  · exact ⟨_, hretire⟩
  · exact ⟨s.flags, hretire⟩

theorem current_retire (s : Scheduler) : s.retire.current = s.queued := by
  obtain ⟨flags, hretire⟩ := retire_eq s
  rw [hretire]
  rfl

theorem queued_retire (s : Scheduler) : s.retire.queued = none := by
  obtain ⟨flags, hretire⟩ := retire_eq s
  rw [hretire]
  rfl

/-- The batches, the client and the pool of `u` are those of `s`. -/
structure SameWork (s u : Scheduler) : Prop where
  batches : u.batches = s.batches
  client : u.client = s.client
  pool : u.pool = s.pool

namespace SameWork

variable {s u v : Scheduler}

theorem refl (s : Scheduler) : SameWork s s := ⟨rfl, rfl, rfl⟩

theorem trans (h : SameWork s u) (h' : SameWork u v) : SameWork s v :=
  ⟨h'.batches.trans h.batches, h'.client.trans h.client, h'.pool.trans h.pool⟩

theorem retire (s : Scheduler) : SameWork s s.retire := by
  obtain ⟨flags, hretire⟩ := retire_eq s
  rw [hretire]
  exact ⟨rfl, rfl, rfl⟩

end SameWork

/-- The advance to the queued task, up to its dispatch. -/
def advance (s : Scheduler) (hasCache : Bool) (extra : List TileRange) : Scheduler :=
  (if hasCache then ((s.foldExtra extra).foldRemaining).clipQueued else s).retire

theorem SameWork.advance (s : Scheduler) (hasCache : Bool) (extra : List TileRange) :
    SameWork s (s.advance hasCache extra) := by
  unfold Scheduler.advance
  split
  · have hfold : SameWork s (s.foldExtra extra).foldRemaining.clipQueued :=
      fold_induction extra (SameWork.refl s) fun _ _ _ h => h.trans ⟨rfl, rfl, rfl⟩
    exact hfold.trans (SameWork.retire _)
  · exact SameWork.retire s

theorem scheduleNext_cases (s : Scheduler) (extra : List TileRange) :
    (∃ fault, s.clientCache = .error fault ∧ s.scheduleNext extra = (s, .error fault)) ∨
      ∃ hasCache, s.clientCache = .ok hasCache ∧
        s.scheduleNext extra = (s.advance hasCache extra).dispatch := by
  unfold scheduleNext
  split
  · next fault hclient => exact Or.inl ⟨fault, hclient, rfl⟩
  · next hasCache hclient => exact Or.inr ⟨hasCache, hclient, rfl⟩

theorem scheduleNext_of_client {s : Scheduler} {hasCache : Bool}
    (h : s.clientCache = .ok hasCache) (extra : List TileRange) :
    s.scheduleNext extra = (s.advance hasCache extra).dispatch := by
  rcases scheduleNext_cases s extra with ⟨fault, hfault, -⟩ | ⟨hasCache', hok, hnext⟩
  · cases h.symm.trans hfault
  · cases h.symm.trans hok
    exact hnext

/-- A scheduler whose queued task is that of a request, with what the request takes
    over. -/
def enqueue (s : Scheduler) (r : Request) : Scheduler :=
  { s with
    queued := some (Task.ofRequest (s.absorb r) s.flags).1
    flags := (Task.ofRequest (s.absorb r) s.flags).2 }

theorem SameWork.enqueue (s : Scheduler) (r : Request) : SameWork s (s.enqueue r) :=
  ⟨rfl, rfl, rfl⟩

theorem schedule_of_none {s : Scheduler} (h : s.current = none) (r : Request) :
    (s.schedule r).1 =
      ({ s with
          current := some (Task.ofRequest r s.flags).1
          flags := (Task.ofRequest r s.flags).2 } : Scheduler).dispatch.1 := by
  simp only [schedule, h]

theorem schedule_of_some {s : Scheduler} {c : Task} (h : s.current = some c) (r : Request) :
    (s.schedule r).1 = ((s.enqueue r).scheduleNext []).1 := by
  unfold schedule
  split
  · next hnone =>
    rw [h] at hnone
    cases hnone
  · rfl

/-- A call up to its dispatch, if it gets so far as to dispatch. -/
theorem perform_cases (s : Scheduler) (c : Call) :
    (∃ u, SameWork s u ∧ s.perform c = u.dispatch.1) ∨
      ((s.perform c).batches = s.batches ∧ (s.perform c).client = s.client ∧
        ((s.perform c).pool = s.pool ∨ c = .close ∧ (s.perform c).pool = s.pool.stop)) := by
  cases c with
  | schedule r =>
    simp only [perform]
    cases hcurrent : s.current with
    | none =>
      rw [schedule_of_none hcurrent]
      refine Or.inl ⟨_, ?_, rfl⟩
      exact ⟨rfl, rfl, rfl⟩
    | some c =>
      rw [schedule_of_some hcurrent]
      -- the request is queued first, and that changes no work
      rcases scheduleNext_cases (s.enqueue r) [] with
        ⟨fault, -, hnext⟩ | ⟨hasCache, -, hnext⟩
      · rw [hnext]
        exact Or.inr ⟨rfl, rfl, Or.inl rfl⟩
      · rw [hnext]
        exact Or.inl ⟨_, (SameWork.enqueue s r).trans (SameWork.advance _ hasCache []), rfl⟩
  | scheduleNext extra =>
    simp only [perform]
    rcases scheduleNext_cases s extra with ⟨fault, -, hnext⟩ | ⟨hasCache, -, hnext⟩
    · rw [hnext]
      exact Or.inr ⟨rfl, rfl, Or.inl rfl⟩
    · rw [hnext]
      exact Or.inl ⟨_, SameWork.advance s hasCache extra, rfl⟩
  | clear => exact Or.inr ⟨rfl, rfl, Or.inl rfl⟩
  | destroy => exact Or.inr ⟨rfl, rfl, Or.inl rfl⟩
  | pause => exact Or.inr ⟨rfl, rfl, Or.inl rfl⟩
  | unpause now =>
    simp only [perform, unpause]
    split
    · split
      · exact Or.inl ⟨{ s with paused := false }, ⟨rfl, rfl, rfl⟩, rfl⟩
      · exact Or.inl ⟨{ s with paused := false, current := s.queued, queued := none },
          ⟨rfl, rfl, rfl⟩, rfl⟩
    · exact Or.inr ⟨rfl, rfl, Or.inl rfl⟩
  | close => exact Or.inr ⟨rfl, rfl, Or.inr ⟨rfl, rfl⟩⟩

/-! ## 4. Actions and runs

What a worker does is cut as finely as its job: it looks at the flags, starts a
paint, arrives at the barrier, looks at the flags of a batch that is complete and
tells the client in steps of their own, and the engine has its own.  The client and
the cache belong to others, so they may become anything at any time. -/

inductive Action where
  | call (c : Call)
  /-- A worker takes its next step outside the engine. -/
  | work (w : Nat)
  /-- The engine comes back to a worker, or gives up. -/
  | endRender (w : Nat) (pixels : Array Pixel) (fault : Option Fault)
  | timeout (w : Nat)
  /-- Somebody sets a flag. -/
  | setFlag (f : Flag)
  | setClient (alive hasCache : Bool) (fault : Option Fault)
  | setCache (cache : TileCache)

/-- One action, if it can be taken. -/
def act (s : Scheduler) : Action → Option Scheduler
  | .call c => if s.pool.stopping then none else some (s.perform c)
  | .work w => s.stepWorker w
  | .endRender w pixels fault =>
      if (s.rendering? w).isSome then some (s.endRender w pixels fault) else none
  | .timeout w => (s.pool.timeout w).map fun pool => { s with pool }
  | .setFlag f => some { s with flags := s.flags.set f }
  | .setClient alive hasCache fault =>
      some { s with client := { s.client with alive, hasCache, fault } }
  | .setCache cache => some { s with cache }

/-- One allowed action takes `s` to `s'`. -/
def Step (allowed : Scheduler → Action → Prop) (s s' : Scheduler) : Prop :=
  ∃ a, allowed s a ∧ s.act a = some s'

abbrev Run (allowed : Scheduler → Action → Prop) : Scheduler → Scheduler → Prop :=
  Relation.ReflTransGen (Step allowed)

def anyAction (_ : Scheduler) (_ : Action) : Prop := True

/-- A scheduler that allowed actions lead to, from any cache, client and number of
    workers. -/
def Reachable (allowed : Scheduler → Action → Prop) (s : Scheduler) : Prop :=
  ∃ cache client config, Run allowed (create cache client config) s

variable {allowed : Scheduler → Action → Prop} {s s' : Scheduler}

theorem act_call {c : Call} (h : s.act (.call c) = some s') :
    s.pool.stopping = false ∧ s' = s.perform c := by
  simp only [act] at h
  split at h
  · cases h
  · next hopen => exact ⟨Bool.eq_false_iff.mpr hopen, (Option.some.inj h).symm⟩

/-- What a worker makes of its job: the next step of it, or the end of a render. -/
inductive WorksOn (s : Scheduler) (work : Work) : Scheduler × Option Work → Prop where
  | step : WorksOn s work (s.stepWork work)
  | endRender {ticket : Ticket} (hphase : work.phase = .rendering ticket) (pixels : Array Pixel)
      (fault : Option Fault) : WorksOn s work (s.endWorkRender work.job ticket pixels fault)

/-- The actions of a worker, and of the engine in a job. -/
def Action.isWork : Action → Prop
  | .work _ => True
  | .endRender _ _ _ => True
  | _ => False

/-- What an action does to batches, pool and client. -/
inductive Acts (s : Scheduler) : Action → Scheduler → Prop where
  | dispatched {c : Call} {u : Scheduler} {t : Task} {total : Nat}
      (hopen : s.pool.stopping = false) (hsame : SameWork s u) (hready : u.Dispatchable t total) :
      Acts s (.call c) (u.dispatched t total)
  | worked {a : Action} {w : Nat} {work : Work} {result : Scheduler × Option Work}
      (hworker : s.pool.worker w = .busy work) (hworks : s.WorksOn work result) :
      Acts s a (resume w result)
  | proceeded {w : Nat} {pool : Pool Work} (hproceed : s.pool.proceed w = some pool) :
      Acts s (.work w) ({ s with pool } : Scheduler).dropUnrun
  | timedOut {w : Nat} {pool : Pool Work} (htimeout : s.pool.timeout w = some pool) :
      Acts s (.timeout w) { s with pool }
  | closed {u : Scheduler} (hbatches : u.batches = s.batches) (hclient : u.client = s.client)
      (hpool : u.pool = s.pool.stop) : Acts s (.call .close) u
  | quiet {a : Action} {u : Scheduler} (ha : ¬a.isWork) (hbatches : u.batches = s.batches)
      (htold : u.client.invalidations = s.client.invalidations) (hpool : u.pool = s.pool) :
      Acts s a u

/-- **One action**, inverted. -/
theorem act_cases {a : Action} (h : s.act a = some s') : s.Acts a s' := by
  cases a with
  | call c =>
    obtain ⟨hopen, rfl⟩ := act_call h
    rcases perform_cases s c with ⟨u, hsame, hcall⟩ | ⟨hbatches, hclient, hpool | ⟨rfl, hpool⟩⟩
    · rw [hcall]
      rcases dispatch_cases u with ⟨t, total, hready, hdispatch⟩ | ⟨cache, outcome, hdispatch, -⟩
      · rw [hdispatch]
        exact .dispatched hopen hsame hready
      · rw [hdispatch]
        exact .quiet nofun hsame.batches (congrArg Client.invalidations hsame.client) hsame.pool
    · exact .quiet nofun hbatches (congrArg Client.invalidations hclient) hpool
    · exact .closed hbatches hclient hpool
  | work w =>
    simp only [act, stepWorker] at h
    split at h
    · cases h
    · next work _ hworker =>
      cases h
      exact .worked hworker .step
    · obtain ⟨pool, hproceed, rfl⟩ := Option.map_eq_some_iff.mp h
      exact .proceeded hproceed
  | endRender w pixels fault =>
    simp only [act] at h
    split at h
    · next hrendering =>
      cases h
      -- the engine comes back only to a worker that is rendering
      unfold rendering? at hrendering
      unfold endRender
      split
      · next job ticket hworker => exact .worked hworker (.endRender rfl pixels fault)
      · next hnot =>
        split at hrendering
        · next job ticket hworker => exact absurd hworker (hnot job ticket)
        · cases hrendering
    · cases h
  | timeout w =>
    obtain ⟨pool, htimeout, rfl⟩ := Option.map_eq_some_iff.mp h
    exact .timedOut htimeout
  | setFlag f =>
    cases h
    exact .quiet nofun rfl rfl rfl
  | setClient alive hasCache fault =>
    cases h
    exact .quiet nofun rfl rfl rfl
  | setCache cache =>
    cases h
    exact .quiet nofun rfl rfl rfl

theorem Reachable.step {a : Action} (hs : Reachable allowed s) (ha : allowed s a)
    (h : s.act a = some s') : Reachable allowed s' := by
  obtain ⟨cache, client, config, hrun⟩ := hs
  exact ⟨cache, client, config, hrun.tail ⟨a, ha, h⟩⟩

/-- What holds at the start and is kept by every allowed action always holds. -/
theorem Reachable.invariant {P : Scheduler → Prop} (hs : Reachable allowed s)
    (hstart : ∀ cache client config, P (create cache client config))
    (hstep : ∀ s a s', P s → allowed s a → s.act a = some s' → P s') : P s := by
  obtain ⟨cache, client, config, hrun⟩ := hs
  induction hrun with
  | refl => exact hstart cache client config
  | tail _ hlast ih =>
    obtain ⟨a, ha, h⟩ := hlast
    exact hstep _ a _ ih ha h

/-- The scheduler after an action; one that cannot be taken changes nothing. -/
def after (s : Scheduler) (a : Action) : Scheduler := (s.act a).getD s

theorem act_after {a : Action} (h : (s.act a).isSome) : s.act a = some (s.after a) := by
  obtain ⟨s', hs'⟩ := Option.isSome_iff_exists.mp h
  rw [after, hs', Option.getD_some]

theorem Reachable.after {a : Action} (hs : Reachable allowed s) (ha : allowed s a) :
    Reachable allowed (s.after a) := by
  cases hact : s.act a with
  | none =>
    rw [Scheduler.after, hact]
    exact hs
  | some s' =>
    rw [Scheduler.after, hact]
    exact hs.step ha hact

/-! ## 5. A small scheduler

One worker paints into a cache of three tiles. -/

namespace Sample

def idle : Scheduler := create CacheSession.Sample.threeTiles.cache {} { workers := 1 }

theorem reachable_idle : Reachable allowed idle := ⟨_, _, _, .refl⟩

def document : Document := ⟨0, 1⟩

def requestOf (ranges : List TileRange) : Request where
  document
  y := 0
  height := 1
  scale := 1
  ranges

end Sample

end Scheduler

end TilePaint
