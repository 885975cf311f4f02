/-
  TilePaint/Proofs/BatchSilence.lean
  ==================================
  **When a batch falls silent.**

  A batch and its jobs look at three flags, and at the same three for as long as
  they exist: the two of the task that was dispatched, and the flag that the
  scheduler had at that time (`GovernedBy`).  A flag that is set stays set.  So a
  batch with the flags set is silent: its client hears of no completion any more, and
  a job that comes to its check ends there (`silent_of_set`).  There is one exception,
  and it is in the nature of a check without a lock: a worker that has completed the
  batch and found the flags unset goes on to tell the client, once.

  Clearing a scheduler cancels the tasks that it holds.  A batch dispatched earlier
  is therefore silent if its task is still held or was cancelled when it was
  retired.  But a task may also be let go uncancelled, and then its batch goes on,
  as it is meant to: the scheduler has no part in it any more, and clearing does not
  touch its flags (`clear_silences`).
-/
import TilePaint.Proofs.FlagOwnership
import TilePaint.Proofs.WorkerProgress

namespace TilePaint.Scheduler

variable {allowed : Scheduler → Action → Prop} {s s' u : Scheduler} {a : Action} {t : Task}
  {k : Nat} {f g : Flag}

/-! ## 1. Jobs from step to step -/

/-- Job `w` of `s` is `w'` one step later. -/
structure Becomes (s : Scheduler) (w w' : Work) : Prop where
  batch : w'.job.batch = w.job.batch
  skipPaint : w'.job.skipPaint = w.job.skipPaint
  schedulerFlag : w'.job.schedulerFlag = w.job.schedulerFlag
  /-- It is past its check for a tile only if it was so before, or has just found
      neither of its flags set. -/
  past_check : w'.phase.holdsTile = true → w'.job = w.job ∧
    (w.phase.holdsTile = false →
      s.flags.isSet w.job.skipPaint = false ∧ s.flags.isSet w.job.schedulerFlag = false)

theorem Becomes.rephase {w : Work} (hphase : w.phase.holdsTile = true) (phase : Phase) :
    Becomes s w { w with phase } :=
  ⟨rfl, rfl, rfl, fun _ => ⟨rfl, fun hnot => nomatch hphase.symm.trans hnot⟩⟩

/-- A job that has lost its tile is about to look at its flags, or deals with its batch. -/
theorem becomes_without_tile {w w' : Work} (hbatch : w'.job.batch = w.job.batch)
    (hskip : w'.job.skipPaint = w.job.skipPaint)
    (hflag : w'.job.schedulerFlag = w.job.schedulerFlag) (hphase : w'.phase.holdsTile = false) :
    Becomes s w w' :=
  ⟨hbatch, hskip, hflag, fun htile => nomatch hphase.symm.trans htile⟩

theorem Becomes.refl (s : Scheduler) (w : Work) : Becomes s w w := by
  cases hphase : w.phase.holdsTile with
  | true => exact Becomes.rephase hphase w.phase
  | false => exact becomes_without_tile rfl rfl rfl hphase

theorem becomes_endJob {w w' : Work} (h : w' ∈ (u.endJob w.job).2) : Becomes s w w' := by
  unfold endJob at h
  split at h
  · dsimp only at h
    split at h
    · cases h
      exact becomes_without_tile rfl rfl rfl rfl
    · cases h
  · cases h

theorem becomes_stepWork {w w' : Work} (h : w' ∈ (s.stepWork w).2) : Becomes s w w' := by
  rcases w with ⟨job, phase⟩
  cases phase with
  | checking =>
    simp only [stepWork] at h
    split at h
    · exact becomes_endJob (w := ⟨job, .checking⟩) h
    · next hgo =>
      simp only [Bool.or_eq_true, not_or, Bool.not_eq_true] at hgo
      cases h
      -- only here does a job get past its check
      exact ⟨rfl, rfl, rfl, fun _ => ⟨rfl, fun _ => ⟨hgo.1.2, hgo.2⟩⟩⟩
  | painting =>
    simp only [stepWork] at h
    split at h
    · cases h
      exact Becomes.rephase (w := ⟨job, .painting⟩) rfl _
    · cases h
      exact Becomes.rephase (w := ⟨job, .painting⟩) rfl _
  | admitted =>
    simp only [stepWork] at h
    split at h
    · exact becomes_endJob (w := ⟨job, .admitted⟩) h
    · cases h
      exact Becomes.rephase (w := ⟨job, .admitted⟩) rfl _
    · cases h
      exact Becomes.rephase (w := ⟨job, .admitted⟩) rfl _
  | rendering ticket =>
    cases h
    exact Becomes.refl s _
  | arriving =>
    simp only [stepWork] at h
    split at h
    · exact becomes_endJob (w := ⟨job, .arriving⟩) h
    · cases h
      refine becomes_without_tile rfl rfl rfl ?_
      split <;> rfl
  | completing =>
    cases h
    refine becomes_without_tile rfl rfl rfl ?_
    dsimp only
    split <;> rfl
  | telling =>
    cases h
    exact becomes_without_tile rfl rfl rfl rfl

theorem WorksOn.becomes {w w' : Work} {result : Scheduler × Option Work}
    (h : s.WorksOn w result) (hw' : w' ∈ result.2) : Becomes s w w' := by
  cases h with
  | step => exact becomes_stepWork hw'
  | endRender hphase pixels fault =>
    cases fault with
    | some fault => exact becomes_endJob hw'
    | none =>
      cases hw'
      exact Becomes.rephase (by rw [hphase]; rfl) _

theorem mem_jobs_drain {p : Pool Work} {w : Work} (h : w ∈ p.drain.2.jobs) : w ∈ p.jobs := by
  unfold Pool.drain at h
  split at h
  · simp only [Pool.jobs, List.append_nil] at h
    exact List.mem_append_left _ h
  · exact h

/-- A job of the batch that a step from `s` to `s'` dispatches for task `t`. -/
structure Posted (s s' : Scheduler) (t : Task) (w : Work) : Prop where
  current : s'.current = some t
  batch : w.job.batch = s.batches.size
  skipPaint : w.job.skipPaint = t.skipPaint
  schedulerFlag : w.job.schedulerFlag = s'.flag
  phase : w.phase = .checking

/-- **Every job comes from one before, or was posted just now.** -/
theorem InOrder.jobs_step (h : s.InOrder) (hact : s.act a = some s') {w' : Work}
    (hw' : w' ∈ s'.pool.jobs) :
    (∃ w ∈ s.pool.jobs, Becomes s w w') ∨ ∃ t, Posted s s' t w' := by
  have hsame : w' ∈ s.pool.jobs → (∃ w ∈ s.pool.jobs, Becomes s w w') ∨ ∃ t, Posted s s' t w' :=
    fun hw => Or.inl ⟨w', hw, Becomes.refl s w'⟩
  cases act_cases hact with
  | dispatched hopen hwork hready =>
    have hadds := adds_dispatched hopen hwork hready
    rw [hadds.jobs] at hw'
    rcases List.mem_append.mp hw' with hw' | hw'
    · exact hsame hw'
    · obtain ⟨r, -, rfl⟩ := List.mem_map.mp hw'
      exact Or.inr ⟨_, hadds.current, rfl, rfl, rfl, rfl⟩
  | worked hworker hworks =>
    obtain ⟨others, hjobs, hafter⟩ := resume_jobs hworker (hworks.advances h hworker).pool
    rcases List.mem_append.mp (hafter.mem_iff.mp hw') with hw' | hw'
    · exact Or.inl ⟨_, hjobs.mem_iff.mpr (List.mem_cons_self ..),
        hworks.becomes (Option.mem_toList.mp hw')⟩
    · exact hsame (hjobs.mem_iff.mpr (List.mem_cons_of_mem _ hw'))
  | proceeded hproceed =>
    rw [(BooksOnly.dropUnrun _).pool] at hw'
    exact hsame ((Pool.proceed_jobs hproceed).mem_iff.mp (mem_jobs_drain hw'))
  | timedOut htimeout => exact hsame ((Pool.timeout_jobs htimeout).mem_iff.mp hw')
  | closed _ _ hpool =>
    rw [hpool] at hw'
    exact hsame hw'
  | quiet _ _ _ hpool =>
    rw [hpool] at hw'
    exact hsame hw'

/-! ## 2. The flags that govern a batch -/

/-- The completion of batch `k` looks at the second flag of task `t` and at `g`, its
    jobs at the first flag of `t` and at `g`. -/
structure GovernedBy (s : Scheduler) (k : Nat) (t : Task) (g : Flag) : Prop where
  quiet : s.batches[k]?.map quietFlags = some (t.skipInvalidation, g)
  jobs : ∀ w ∈ s.pool.jobs, w.job.batch = k →
    w.job.skipPaint = t.skipPaint ∧ w.job.schedulerFlag = g

namespace GovernedBy

theorem lt_size (h : s.GovernedBy k t g) : k < s.batches.size := lt_size_of_flags h.quiet

theorem step (h : s.GovernedBy k t g) (horder : s.InOrder) (hact : s.act a = some s') :
    s'.GovernedBy k t g := by
  obtain ⟨-, hprogress, -⟩ := horder.step hact
  refine ⟨(hprogress.kept k h.lt_size).trans h.quiet, fun w' hw' hbatch => ?_⟩
  rcases horder.jobs_step hact hw' with ⟨w, hw, hbecomes⟩ | ⟨t', hposted⟩
  · rw [hbecomes.skipPaint, hbecomes.schedulerFlag]
    exact h.jobs w hw (hbecomes.batch.symm.trans hbatch)
  · have hlt := h.lt_size
    have hnew := hposted.batch
    omega

theorem run (h : s.GovernedBy k t g) (horder : s.InOrder) (hrun : Run allowed s u) :
    u.GovernedBy k t g ∧ u.InOrder := by
  induction hrun with
  | refl => exact ⟨h, horder⟩
  | tail _ hlast ih =>
    obtain ⟨a, -, hact⟩ := hlast
    exact ⟨ih.1.step ih.2 hact, (ih.2.step hact).1⟩

end GovernedBy

/-- **A new batch** is governed by the task that is dispatched and by the flag that the
    scheduler has then. -/
theorem InOrder.governs (h : s.InOrder) (hact : s.act a = some s')
    (hnew : s'.batches.size ≠ s.batches.size) :
    ∃ t, Dispatches s s' t ∧ s'.GovernedBy s.batches.size t s'.flag := by
  obtain ⟨-, -, hsame | ⟨t, hdispatch⟩⟩ := h.step hact
  · exact absurd hsame hnew
  · refine ⟨t, hdispatch, hdispatch.flags, fun w' hw' hbatch => ?_⟩
    rcases h.jobs_step hact hw' with ⟨w, hw, hbecomes⟩ | ⟨t', hposted⟩
    · -- a job from before belongs to a batch from before
      have hlt := h.batch_lt w hw
      have hold := hbecomes.batch
      omega
    · have hcurrent := hposted.current
      rw [hdispatch.current] at hcurrent
      cases hcurrent
      exact ⟨hposted.skipPaint, hposted.schedulerFlag⟩

/-! ## 3. Silence -/

/-- The client hears of no completion of batch `k` any more. -/
def Unheard (s : Scheduler) (k : Nat) : Prop :=
  ∀ u u' a, Run guarded s u → guarded u a → u.act a = some u' →
    ∀ done ∈ u.completions u', done.batch = k → done.heard = false

theorem Unheard.not_heard {u' : Scheduler} (h : s.Unheard k) (hrun : Run guarded s u)
    (ha : guarded u a) (hact : u.act a = some u') :
    (⟨k, true⟩ : Completion) ∉ u.completions u' :=
  fun hmem => Bool.noConfusion (h u u' a hrun ha hact ⟨k, true⟩ hmem rfl)

/-- **From now on batch `k` is silent**, but for a worker that has already found its flags
    unset and is about to tell the client. -/
structure Silent (s : Scheduler) (k : Nat) : Prop where
  /-- The client hears of no completion of the batch. -/
  unheard : s.stage k ≠ .telling → s.Unheard k
  /-- So all that the client is told of are completions of other batches. -/
  told : s.stage k ≠ .telling → ∀ u u' a, Run guarded s u → guarded u a → u.act a = some u' →
    u'.client.invalidations = u.client.invalidations +
      (u.completions u').countP fun done => done.heard && done.batch != k
  /-- No worker finds the flags of the batch unset any more. -/
  looked : ∀ u, Run guarded s u → u.stage k = .telling → s.stage k = .telling
  /-- Even a worker that has found them so tells the client once. -/
  once : ∀ u log, Logged s log u → log.countP (·.batch = k) ≤ 1
  /-- A job of the batch that comes to its check ends there. -/
  ends : ∀ u, Run guarded s u → ∀ w ∈ u.pool.jobs, w.job.batch = k → w.phase = .checking →
    u.stepWork w = u.endJob w.job
  /-- So if it is past its check, it has been so all the time, with the same tile. -/
  past_check : ∀ u, Run guarded s u → ∀ w ∈ u.pool.jobs, w.job.batch = k →
    w.phase.holdsTile = true →
      ∃ w₀ ∈ s.pool.jobs, w₀.job = w.job ∧ w₀.phase.holdsTile = true

/-- The flags that govern a batch are set. -/
structure FlagsSet (s : Scheduler) (t : Task) (g : Flag) : Prop where
  quiet : s.flags.isSet t.skipInvalidation = true ∨ s.flags.isSet g = true
  paint : s.flags.isSet t.skipPaint = true ∨ s.flags.isSet g = true

theorem FlagsSet.later (h : s.FlagsSet t g) (hlater : Later s u) : u.FlagsSet t g :=
  ⟨h.quiet.imp (hlater.set _) (hlater.set _), h.paint.imp (hlater.set _) (hlater.set _)⟩

theorem flagsSet_of_task (h : ∀ f ∈ t.flags, s.flags.isSet f = true) : s.FlagsSet t g :=
  ⟨Or.inl (h _ (Task.mem_flags.mpr (Or.inr rfl))), Or.inl (h _ (Task.mem_flags.mpr (Or.inl rfl)))⟩

theorem flagsSet_of_flag (h : s.flags.isSet g = true) : s.FlagsSet t g := ⟨Or.inr h, Or.inr h⟩

/-- What the client hears of a batch is the verdict right before. -/
theorem GovernedBy.heard (h : s.GovernedBy k t g) (hprogress : Progress s s')
    {done : Completion} (hdone : done ∈ s.completions s') (hbatch : done.batch = k) :
    done.heard = s.verdict k t.skipInvalidation g := by
  obtain ⟨arriving, -, hturn⟩ := hprogress.turns k _ _ h.quiet
  have hmem : done ∈ (s.completions s').filter (·.batch = k) :=
    List.mem_filter.mpr ⟨hdone, decide_eq_true hbatch⟩
  rw [hturn.heard hmem]

theorem FlagsSet.isQuiet (h : s.FlagsSet t g) :
    (s.flags.isSet t.skipInvalidation || s.flags.isSet g) = true := Bool.or_eq_true_iff.mpr h.quiet

theorem FlagsSet.stepWork (h : s.FlagsSet t g) {w : Work} (hskip : w.job.skipPaint = t.skipPaint)
    (hflag : w.job.schedulerFlag = g) (hphase : w.phase = .checking) :
    s.stepWork w = s.endJob w.job := by
  have hset : (s.flags.isSet w.job.skipPaint || s.flags.isSet w.job.schedulerFlag) = true := by
    rw [hskip, hflag, Bool.or_eq_true]
    exact h.paint
  unfold Scheduler.stepWork
  rw [hphase]
  dsimp only
  rw [Bool.or_assoc, hset, Bool.or_true, if_pos rfl]

/-- A check in this step would have found a flag set, so a job past its check was
    past it before. -/
theorem GovernedBy.past_check (h : s.GovernedBy k t g) (horder : s.InOrder)
    (hset : s.FlagsSet t g) (hact : s.act a = some s') {w' : Work} (hw' : w' ∈ s'.pool.jobs)
    (hbatch : w'.job.batch = k) (hphase : w'.phase.holdsTile = true) :
    ∃ w ∈ s.pool.jobs, w.job.batch = k ∧ w.job = w'.job ∧ w.phase.holdsTile = true := by
  rcases horder.jobs_step hact hw' with ⟨w, hw, hbecomes⟩ | ⟨t', hposted⟩
  · obtain ⟨hjob, hcheck⟩ := hbecomes.past_check hphase
    have hold := hbecomes.batch.symm.trans hbatch
    refine ⟨w, hw, hold, hjob.symm, ?_⟩
    rw [← Bool.not_eq_false]
    intro hchecking
    obtain ⟨hpaint, hflag⟩ := hcheck hchecking
    obtain ⟨hskip, hown⟩ := h.jobs w hw hold
    rcases hset.paint with hset | hset
    · rw [hskip, hset] at hpaint
      cases hpaint
    · rw [hown, hset] at hflag
      cases hflag
  · rw [hposted.phase] at hphase
    cases hphase

/-- A look at the flags in this step would have found one set. -/
theorem GovernedBy.looked (h : s.GovernedBy k t g) (hset : s.FlagsSet t g)
    (hprogress : Progress s s') (htelling : s'.stage k = .telling) : s.stage k = .telling := by
  obtain ⟨arriving, -, hturn⟩ := hprogress.turns k _ _ h.quiet
  rw [htelling] at hturn
  rcases hturn.telling with hbefore | ⟨-, hunset⟩
  · exact hbefore
  · rw [hset.isQuiet] at hunset
    cases hunset

/-- What the client is told of in a step, if a batch is not heard of. -/
theorem Progress.told_of_others (h : Progress s s')
    (hunheard : ∀ done ∈ s.completions s', done.batch = k → done.heard = false) :
    s'.client.invalidations = s.client.invalidations +
      (s.completions s').countP fun done => done.heard && done.batch != k := by
  rw [h.told]
  congr 1
  refine List.countP_congr fun done hdone => ?_
  rw [Bool.and_eq_true, bne_iff_ne]
  refine ⟨fun hheard => ⟨hheard, fun hbatch => ?_⟩, And.left⟩
  rw [hunheard done hdone hbatch] at hheard
  cases hheard

/-- **A batch whose flags are set is silent.** -/
theorem silent_of_set {marked : Flag → Prop} (howned : s.Owned marked) (horder : s.InOrder)
    (h : s.GovernedBy k t g) (hset : s.FlagsSet t g) : s.Silent k := by
  have hlater : ∀ u, Run guarded s u → u.FlagsSet t g :=
    fun u hrun => hset.later (howned.run hrun).later
  -- once they are set, a look finds them so, and the batch does not get to telling
  have hlooked : ∀ u, Run guarded s u → u.stage k = .telling → s.stage k = .telling := by
    intro u hrun
    induction hrun with
    | refl => exact id
    | @tail u u' hrun hlast ih =>
      intro htelling
      obtain ⟨a, -, hact⟩ := hlast
      obtain ⟨hgoverned, horder'⟩ := h.run horder hrun
      exact ih (hgoverned.looked (hlater u hrun) (horder'.step hact).2.1 htelling)
  have hunheard : s.stage k ≠ .telling → s.Unheard k := by
    intro hnot u u' a hrun ha hact done hdone hbatch
    obtain ⟨hgoverned, horder'⟩ := h.run horder hrun
    rw [hgoverned.heard (horder'.step hact).2.1 hdone hbatch,
      verdict_of_ne_telling fun htelling => hnot (hlooked u hrun htelling)]
    exact isHeard_of_set (hlater u hrun).isQuiet
  refine ⟨hunheard, fun hnot u u' a hrun ha hact => ?_, hlooked, fun u log hlog => ?_,
    fun u hrun w hw hbatch hphase => ?_, fun u hrun => ?_⟩
  · obtain ⟨-, hprogress, -⟩ := (h.run horder hrun).2.step hact
    exact hprogress.told_of_others (hunheard hnot u u' a hrun ha hact)
  · obtain ⟨-, -, -, hbatch⟩ := hlog.run horder
    rw [(hbatch k h.lt_size).count]
    exact Bool.toNat_le _
  · obtain ⟨hskip, hflag⟩ := (h.run horder hrun).1.jobs w hw hbatch
    exact (hlater u hrun).stepWork hskip hflag hphase
  · induction hrun with
    | refl => exact fun w hw _ hphase => ⟨w, hw, rfl, hphase⟩
    | @tail u u' hrun hlast ih =>
      intro w' hw' hbatch hphase
      obtain ⟨a, -, hact⟩ := hlast
      obtain ⟨hgoverned, horder'⟩ := h.run horder hrun
      obtain ⟨w, hw, hold, hjob, hpast⟩ :=
        hgoverned.past_check horder' (hlater u hrun) hact hw' hbatch hphase
      obtain ⟨w₀, hw₀, hjob₀, hphase₀⟩ := ih w hw hold hpast
      exact ⟨w₀, hw₀, hjob₀.trans hjob, hphase₀⟩

/-! ## 4. Tasks that are let go

A task is retired by a request, or by the owner when it advances.  It is cancelled if
another task for other tiles at another place follows; otherwise it is let go. -/

theorem isSet_cancel {flags : FlagStore} (ht : ∀ f ∈ t.flags, flags.Has f) (f : Flag) :
    (t.cancel flags).isSet f = (decide (f ∈ t.flags) || flags.isSet f) := by
  have hpaint := ht t.skipPaint (Task.mem_flags.mpr (Or.inl rfl))
  have hinvalidation := ht t.skipInvalidation (Task.mem_flags.mpr (Or.inr rfl))
  rw [Task.cancel, FlagStore.isSet_set hinvalidation.set, FlagStore.isSet_set hpaint,
    ← Bool.or_assoc, Bool.or_comm (decide (f = t.skipInvalidation)), ← Bool.decide_or,
    decide_eq_decide.mpr Task.mem_flags.symm]

/-- The current task stays, and nothing is set. -/
structure Prepares (s u : Scheduler) : Prop where
  current : u.current = s.current
  isSet : ∀ f, u.flags.isSet f = s.flags.isSet f

theorem Prepares.queueMerged (h : Prepares s u) (t : Task) (extra : List TileRange) :
    Prepares s (u.queueMerged t extra) :=
  ⟨h.current, fun f => ((Task.made_merge t extra u.cache u.flags).isSet f).trans (h.isSet f)⟩

theorem prepares_fold (s : Scheduler) (extra : List TileRange) :
    Prepares s (s.foldExtra extra).foldRemaining.clipQueued :=
  fold_induction extra ⟨rfl, fun _ => rfl⟩ fun _ t more h => h.queueMerged t more

theorem prepares_enqueue (s : Scheduler) (r : Request) : Prepares s (s.enqueue r) :=
  ⟨rfl, (Task.made_ofRequest (s.absorb r) s.flags).isSet⟩

/-- The current task `t` of `s` is retired in `u`: it was cancelled in favour of another
    one, or it was let go and no flag was set. -/
structure Retired (s : Scheduler) (t : Task) (u : Scheduler) : Prop where
  dropped : ¬u.Holds t
  outcome :
    (∃ q, u.current = some q ∧ q.y ≠ t.y ∧ t.sameTiles q = false ∧
      ∀ f ∈ t.flags, u.flags.isSet f = true) ∨
    (∀ f, u.flags.isSet f = s.flags.isSet f) ∧
      ∀ q, u.current = some q → q.y = t.y ∨ t.sameTiles q = true

namespace Retired

variable {v : Scheduler}

theorem before (h : Retired u t v) (hprepares : Prepares s u) : Retired s t v := by
  refine ⟨h.dropped, h.outcome.imp_right fun ⟨hsame, hfollower⟩ => ⟨fun f => ?_, hfollower⟩⟩
  rw [hsame, hprepares.isSet]

theorem congr (h : Retired s t u) (hsame : SameTasks u v) : Retired s t v := by
  refine ⟨?_, ?_⟩
  · rw [Holds, hsame.current, hsame.queued]
    exact h.dropped
  · rw [hsame.flags, hsame.current]
    exact h.outcome

end Retired

section Owned

variable {marked : Flag → Prop} {x : Task}

theorem Owned.eq_of_holds (h : s.Owned marked) (ht : s.Holds t) (hx : s.Holds x)
    (hf : f ∈ t.flags) (hf' : f ∈ x.flags) : x = t := by
  rcases ht with ht | ht <;> rcases hx with hx | hx
  · rw [ht] at hx
    exact (Option.some.inj hx).symm
  · exact absurd hf' (h.apart t x ht hx f hf)
  · exact absurd hf (h.apart x t hx ht f hf')
  · rw [ht] at hx
    exact (Option.some.inj hx).symm

/-- **A flag has one owner**, now and later. -/
theorem Owned.eq_of_holds_later (h : s.Owned marked) (hlater : Later s u) (ht : s.Holds t)
    (hx : u.Holds x) (hf : f ∈ t.flags) (hf' : f ∈ x.flags) : x = t := by
  rcases hlater.task x hx with hheld | hnew
  · exact h.eq_of_holds ht hheld hf hf'
  · exact absurd ((h.task t ht).has f hf) (hnew f hf')

theorem Owned.retired_retire (h : s.Owned marked) (ht : s.current = some t) :
    Retired s t s.retire := by
  have hheld : s.Holds t := Or.inl ht
  constructor
  · rintro (hc | hq)
    · rw [current_retire] at hc
      have hf : t.skipPaint ∈ t.flags := Task.mem_flags.mpr (Or.inl rfl)
      exact h.apart t t ht hc _ hf hf
    · rw [queued_retire] at hq
      cases hq
  · rw [current_retire]
    rcases retire_cases s with ⟨c, q, hc, hq, ⟨hother, hy⟩, hretire⟩ | ⟨hkeep, hretire⟩
    · cases ht.symm.trans hc
      refine Or.inl ⟨q, hq, hy.symm, hother, fun f hf => ?_⟩
      rw [hretire, isSet_cancel (h.task t hheld).has, decide_eq_true hf, Bool.true_or]
    · rw [hretire]
      exact Or.inr ⟨fun _ => rfl, fun q hq => (hkeep t q ht hq).symm.imp_left Eq.symm⟩

theorem Owned.retired_advance (h : s.Owned marked) (ht : s.current = some t) (hasCache : Bool)
    (extra : List TileRange) : Retired s t (s.advance hasCache extra) := by
  cases hasCache with
  | false => exact h.retired_retire ht
  | true =>
    have hprepares := prepares_fold s extra
    have hretired := (h.fold extra).owned.retired_retire (hprepares.current.trans ht)
    exact hretired.before hprepares

theorem Owned.retired_scheduleNext (h : s.Owned marked) {hasCache : Bool}
    (hclient : s.clientCache = .ok hasCache) (ht : s.current = some t) (extra : List TileRange) :
    Retired s t (s.scheduleNext extra).1 := by
  rw [scheduleNext_of_client hclient]
  exact (h.retired_advance ht hasCache extra).congr (SameTasks.dispatch _)

/-- **Clearing** sets the flags of the tasks that are held, and no others. -/
theorem Owned.isSet_clear (h : s.Owned marked) (f : Flag) :
    s.clear.flags.isSet f = true ↔ s.flags.isSet f = true ∨ ∃ t, s.Holds t ∧ f ∈ t.flags := by
  have hfirst : ∀ f, (s.current.elim s.flags (·.cancel s.flags)).isSet f = true ↔
      s.flags.isSet f = true ∨ ∃ t, s.current = some t ∧ f ∈ t.flags := by
    intro f
    cases hc : s.current with
    | none => simp
    | some c =>
      rw [Option.elim_some, isSet_cancel (h.task c (Or.inl hc)).has]
      simp [or_comm]
  -- the flags of the queued task are still there when its turn comes
  have hsize : s.flags.cells.size ≤ (s.current.elim s.flags (·.cancel s.flags)).cells.size := by
    cases s.current with
    | none => exact Nat.le_refl _
    | some c => exact Nat.le_of_eq (c.size_cells_cancel s.flags).symm
  show (s.queued.elim _ (·.cancel _)).isSet f = true ↔ _
  cases hq : s.queued with
  | none =>
    rw [Option.elim_none, hfirst]
    simp [Holds, hq]
  | some q =>
    rw [Option.elim_some, isSet_cancel fun f hf =>
      Nat.lt_of_lt_of_le ((h.task q (Or.inr hq)).has f hf) hsize, Bool.or_eq_true, hfirst]
    simp only [decide_eq_true_eq, Holds, hq, or_and_right, exists_or, Option.some.injEq,
      exists_eq_left']
    exact or_comm.trans or_assoc

/-- A call that retires the current task. -/
def retires : Call → Prop
  | .schedule _ => True
  | .scheduleNext _ => True
  | _ => False

theorem Owned.retired (h : s.Owned marked) {c : Call} (hc : retires c) (ht : s.current = some t)
    {hasCache : Bool} (hclient : s.clientCache = .ok hasCache) : Retired s t (s.perform c) := by
  cases c with
  | schedule r =>
    have hschedule : s.perform (.schedule r) = ((s.enqueue r).scheduleNext []).1 :=
      schedule_of_some ht r
    rw [hschedule]
    exact ((h.enqueue r).owned.retired_scheduleNext hclient ht []).before (prepares_enqueue s r)
  | scheduleNext extra => exact h.retired_scheduleNext hclient ht extra
  | _ => cases hc

/-- Task `t` is let go: nothing follows it, or a task for the same place or the same
    tiles. -/
structure LetsGo (t : Task) (s : Scheduler) (a : Action) : Prop where
  call : ∃ c, a = .call c ∧ retires c
  current : s.current = some t
  client : ∃ hasCache, s.clientCache = .ok hasCache
  follower : ∀ q, (s.after a).current = some q → q.y = t.y ∨ t.sameTiles q = true

/-- A task that is let go is dropped with its flags as they are. -/
theorem LetsGo.left_alone (hgone : LetsGo t s a) (h : s.Owned marked)
    (hact : s.act a = some s') : ¬s'.Holds t ∧ ∀ f, s'.flags.isSet f = s.flags.isSet f := by
  have hafter : s.after a = s' := by rw [after, hact, Option.getD_some]
  obtain ⟨c, rfl, hc⟩ := hgone.call
  obtain ⟨hasCache, hclient⟩ := hgone.client
  obtain ⟨-, rfl⟩ := act_call hact
  obtain ⟨hdropped, ⟨q, hq, hplace, htiles, -⟩ | ⟨hsame, -⟩⟩ := h.retired hc hgone.current hclient
  · rcases hgone.follower q (by rw [hafter]; exact hq) with hy | htiles'
    · exact absurd hy hplace
    · rw [htiles] at htiles'
      cases htiles'
  · exact ⟨hdropped, hsame⟩

/-- **One step of the current task**: it stays, or it is cancelled, or it is let go. -/
theorem Owned.current_step (h : s.Owned marked) (ht : s.current = some t)
    (hact : s.act a = some s') :
    s'.current = some t ∨ (∀ f ∈ t.flags, s'.flags.isSet f = true) ∨ LetsGo t s a := by
  have hafter : s.after a = s' := by rw [after, hact, Option.getD_some]
  -- a call that retires the task does so unless the client fails
  have hretired : ∀ c, a = .call c → retires c → s' = s.perform c →
      (∀ fault, s.clientCache = .error fault → s'.current = some t) →
      s'.current = some t ∨ (∀ f ∈ t.flags, s'.flags.isSet f = true) ∨ LetsGo t s a := by
    rintro c rfl hc rfl hfault
    cases hclient : s.clientCache with
    | error fault => exact Or.inl (hfault fault hclient)
    | ok hasCache =>
      right
      rcases (h.retired hc ht hclient).outcome with ⟨q, -, -, -, hset⟩ | ⟨-, hfollower⟩
      · exact Or.inl hset
      · exact Or.inr ⟨⟨c, rfl, hc⟩, ht, ⟨hasCache, hclient⟩, by rw [hafter]; exact hfollower⟩
  rcases act_tasks hact with ⟨c, rfl, hc⟩ | ⟨f, rfl, rfl⟩ | hsame
  · cases c with
    | schedule r =>
      refine hretired _ rfl trivial hc fun fault hclient => ?_
      have hfault : (s.enqueue r).clientCache = .error fault := hclient
      rw [hc, Scheduler.perform, schedule_of_some ht, Scheduler.scheduleNext, hfault]
      exact ht
    | scheduleNext extra =>
      refine hretired _ rfl trivial hc fun fault hclient => ?_
      rw [hc, Scheduler.perform, Scheduler.scheduleNext, hclient]
      exact ht
    | clear =>
      subst hc
      exact Or.inr (Or.inl fun f hf => (h.isSet_clear f).mpr (Or.inr ⟨t, Or.inl ht, hf⟩))
    | unpause now =>
      subst hc
      left
      simp only [Scheduler.perform, Scheduler.unpause]
      split
      · split
        · rw [(SameTasks.dispatch _).current]
          exact ht
        · next hnone =>
          have hcurrent : s.current = none := hnone
          rw [ht] at hcurrent
          cases hcurrent
      · exact ht
    | _ =>
      subst hc
      exact Or.inl ht
  · exact Or.inl ht
  · exact Or.inl (hsame.current.trans ht)

end Owned

/-! ## 5. Clearing -/

/-- Task `t` is never let go on the way. -/
def keeping (t : Task) (s : Scheduler) (a : Action) : Prop := guarded s a ∧ ¬LetsGo t s a

/-- A task that is never let go is current, or its flags are set. -/
theorem current_or_set {marked : Flag → Prop} (h : s.Owned marked) (ht : s.current = some t)
    (hrun : Run (keeping t) s u) :
    u.current = some t ∨ ∀ f ∈ t.flags, u.flags.isSet f = true := by
  induction hrun with
  | refl => exact Or.inl ht
  | @tail u u' hrun hlast ih =>
    obtain ⟨a, ha, hact⟩ := hlast
    have howned := (h.run (Run.mono (fun _ _ => And.left) hrun)).owned
    rcases ih with hcurrent | hset
    · rcases howned.current_step hcurrent hact with hstays | hset | hgone
      · exact Or.inl hstays
      · exact Or.inr hset
      · exact absurd hgone ha.2
    · exact Or.inr fun f hf => (howned.step ha.1 hact).later.set f (hset f hf)

/-- **Clearing silences what the scheduler still has a part in.**  The batch of a task
    that was not let go is silent afterwards.  A task that was let go is left alone: neither
    the call that lets it go nor clearing later on touches its flags. -/
theorem clear_silences {s₀ s₁ : Scheduler} (hs : Reachable guarded s₀) (ha : guarded s₀ a)
    (hact : s₀.act a = some s₁) (hnew : s₁.batches.size ≠ s₀.batches.size) :
    ∃ t, s₁.current = some t ∧ s₁.GovernedBy s₀.batches.size t s₁.flag ∧
      (∀ s s', Run (keeping t) s₁ s → s.act (.call .clear) = some s' →
        s'.Silent s₀.batches.size) ∧
      ∀ u u' b s s', Run guarded s₁ u → LetsGo t u b → u.act b = some u' →
        Run guarded u' s → s.act (.call .clear) = some s' →
        ∀ f ∈ t.flags, u'.flags.isSet f = u.flags.isSet f ∧
          s'.flags.isSet f = s.flags.isSet f := by
  have horder := inOrder_of_reachable hs
  have horder₁ := (horder.step hact).1
  have howned₁ : s₁.Owned fun _ => True :=
    ((owned_of_reachable hs).step ha hact).owned.mono fun _ _ => trivial
  obtain ⟨t, hdispatch, hgoverned⟩ := horder.governs hact hnew
  refine ⟨t, hdispatch.current, hgoverned, fun s s' hrun hclear => ?_,
    fun u u' b s s' hrun hgone hact' hrun' hclear f hf => ?_⟩
  · have hguarded : Run guarded s₁ s := Run.mono (fun _ _ => And.left) hrun
    have hs₁ := howned₁.run hguarded
    obtain ⟨-, rfl⟩ := act_call hclear
    obtain ⟨hgoverned', horder'⟩ :=
      hgoverned.run horder₁ (hguarded.tail ⟨.call .clear, trivial, hclear⟩)
    have hset : ∀ f ∈ t.flags, s.clear.flags.isSet f = true := by
      intro f hf
      rw [hs₁.owned.isSet_clear]
      rcases current_or_set howned₁ hdispatch.current hrun with hcurrent | hset
      · exact Or.inr ⟨t, Or.inl hcurrent, hf⟩
      · exact Or.inl (hset f hf)
    exact silent_of_set hs₁.owned.clear.owned horder' hgoverned' (flagsSet_of_task hset)
  · have hu := howned₁.run hrun
    have hb : guarded u b := by
      obtain ⟨c, rfl, -⟩ := hgone.call
      trivial
    have hheld : u.Holds t := Or.inl hgone.current
    obtain ⟨hdropped, hsame⟩ := hgone.left_alone hu.owned hact'
    have hu' := hu.owned.step hb hact'
    have hs' := hu'.owned.run hrun'
    refine ⟨hsame f, ?_⟩
    obtain ⟨-, rfl⟩ := act_call hclear
    show s.clear.flags.isSet f = s.flags.isSet f
    -- a task that is held now and has the flag would be `t`, held again
    have hothers : ¬∃ x, s.Holds x ∧ f ∈ x.flags := by
      rintro ⟨x, hx, hfx⟩
      obtain rfl := hu.owned.eq_of_holds_later (hu'.later.trans hs'.later) hheld hx hf hfx
      exact hdropped (hu.owned.holds_between (.single ⟨b, hb, hact'⟩) hrun' hheld hx)
    rw [Bool.eq_iff_iff, hs'.owned.isSet_clear]
    exact or_iff_left hothers

theorem run_of_actions {actions : List Action}
    (hallowed : ∀ s, ∀ a ∈ actions, allowed s a)
    (hact : (actions.foldlM act s).isSome) : Run allowed s (actions.foldl after s) := by
  induction actions generalizing s with
  | nil => exact .refl
  | cons a actions ih =>
    rw [List.foldlM_cons] at hact
    cases hnext : s.act a with
    | none =>
      rw [hnext] at hact
      cases hact
    | some next =>
      rw [hnext] at hact
      have hafter : s.after a = next := by rw [after, hnext, Option.getD_some]
      rw [List.foldl_cons, hafter]
      exact .head ⟨a, hallowed s a (List.mem_cons_self ..), hnext⟩
        (ih (fun s a ha => hallowed s a (List.mem_cons_of_mem _ ha)) hact)

/-! Tile 0 has been asked for, and no worker has begun.  If the scheduler is cleared
now, the batch is silent.

If a request for the same place comes first, the task is let go, and its batch paints the
tile and completes although the scheduler was cleared.

If the worker has found the flags of the batch unset when the scheduler is cleared, it
tells the client afterwards. -/

namespace Sample

def superseded : Scheduler := first.after (.call (.schedule (requestOf [⟨2, 2⟩])))

def cleared : Scheduler := superseded.after (.call .clear)

/-- The worker takes the first job, paints its tile and arrives; this completes the batch,
    and the worker looks at the flags. -/
def paintsAndLooks : List Action :=
  List.replicate 5 (.work 0) ++ [.endRender 0 #[] none, .work 0, .work 0]

def found (s : Scheduler) : Scheduler := paintsAndLooks.foldl after s

theorem act_first : idle.act (.call (.schedule (requestOf [⟨0, 0⟩]))) = some first :=
  act_after (by decide +kernel)

theorem act_superseded : first.act (.call (.schedule (requestOf [⟨2, 2⟩]))) = some superseded :=
  act_after (by decide +kernel)

theorem act_cleared : superseded.act (.call .clear) = some cleared :=
  act_after (by decide +kernel)

theorem eq_of_mem {x : Action} (h : x ∈ paintsAndLooks) :
    x = .work 0 ∨ x = .endRender 0 #[] none := by
  rcases List.mem_append.mp h with hwork | hrest
  · exact Or.inl (List.eq_of_mem_replicate hwork)
  · rcases List.mem_cons.mp hrest with hrender | hwork
    · exact Or.inr hrender
    · exact Or.inl (List.eq_of_mem_replicate (n := 2) hwork)

/-- Nobody but the worker and the engine acts. -/
theorem guarded_of_mem {x : Action} (h : x ∈ paintsAndLooks) (s : Scheduler) :
    guarded s x ∧ ∀ c, x ≠ .call c := by
  rcases eq_of_mem h with rfl | rfl
  · exact ⟨trivial, nofun⟩
  · exact ⟨trivial, nofun⟩

theorem run_found (h : (paintsAndLooks.foldlM act s).isSome) : Run guarded s (found s) :=
  run_of_actions (fun s _ ha => (guarded_of_mem ha s).1) h

end Sample

theorem clear_silences_first :
    ∃ t, Sample.first.current = some t ∧ (Sample.first.after (.call .clear)).Silent 0 ∧
      ∀ f ∈ t.flags, Sample.superseded.flags.isSet f = Sample.first.flags.isSet f ∧
        Sample.cleared.flags.isSet f = Sample.superseded.flags.isSet f := by
  obtain ⟨t, ht, -, hsilent, halone⟩ :=
    clear_silences (a := .call (.schedule (Sample.requestOf [⟨0, 0⟩]))) Sample.reachable_idle
      trivial Sample.act_first (by decide +kernel)
  refine ⟨t, ht, hsilent _ _ .refl (act_after (by decide +kernel)), ?_⟩
  refine halone Sample.first Sample.superseded _ Sample.superseded Sample.cleared .refl
    ⟨⟨.schedule (Sample.requestOf [⟨2, 2⟩]), rfl, trivial⟩, ht, ⟨true, rfl⟩,
      fun q hq => Or.inl ?_⟩ Sample.act_superseded .refl Sample.act_cleared
  -- both requests are for the top of the document
  have hq' : Sample.superseded.current = some q := hq
  have htop : Sample.first.current.map Task.y = some 0 := by decide +kernel
  have htop' : Sample.superseded.current.map Task.y = some 0 := by decide +kernel
  rw [ht] at htop
  rw [hq'] at htop'
  rw [Option.some.inj htop, Option.some.inj htop']

theorem clear_may_leave_a_batch :
    (¬∀ (s₀ s₁ s s' : Scheduler) (a : Action), Reachable guarded s₀ → guarded s₀ a →
      s₀.act a = some s₁ → s₁.batches.size ≠ s₀.batches.size → Run guarded s₁ s →
      s.act (.call .clear) = some s' → s'.Silent s₀.batches.size) ∧
    ¬∀ (s₀ s₁ s s' : Scheduler) (a : Action) (t : Task), Reachable guarded s₀ → guarded s₀ a →
      s₀.act a = some s₁ → s₁.batches.size ≠ s₀.batches.size → s₁.current = some t →
      Run (keeping t) s₁ s → s.act (.call .clear) = some s' → s'.Unheard s₀.batches.size := by
  constructor
  · intro hclaim
    have hsuperseded : Run guarded Sample.first Sample.superseded :=
      .single ⟨.call (.schedule (Sample.requestOf [⟨2, 2⟩])), trivial, Sample.act_superseded⟩
    have hsilent := hclaim Sample.idle Sample.first Sample.superseded Sample.cleared
      (.call (.schedule (Sample.requestOf [⟨0, 0⟩]))) Sample.reachable_idle trivial
      Sample.act_first (by decide +kernel) hsuperseded Sample.act_cleared
    have hrun : Run guarded Sample.cleared (Sample.found Sample.cleared) :=
      Sample.run_found (by decide +kernel)
    have hunheard := hsilent.unheard (by decide +kernel)
    exact hunheard.not_heard (a := .work 0) hrun trivial (act_after (by decide +kernel))
      (by decide +kernel)
  · intro hclaim
    have htask : Sample.first.current.isSome := by decide +kernel
    obtain ⟨t, ht⟩ := Option.isSome_iff_exists.mp htask
    -- a worker lets no task go
    have hkept : Run (keeping t) Sample.first (Sample.found Sample.first) := by
      refine run_of_actions (fun s a ha => ⟨(Sample.guarded_of_mem ha s).1, fun hgone => ?_⟩)
        (by decide +kernel)
      obtain ⟨c, hc, -⟩ := hgone.call
      exact (Sample.guarded_of_mem ha s).2 c hc
    have hunheard := hclaim Sample.idle Sample.first (Sample.found Sample.first)
      ((Sample.found Sample.first).after (.call .clear))
      (.call (.schedule (Sample.requestOf [⟨0, 0⟩]))) t Sample.reachable_idle trivial
      Sample.act_first (by decide +kernel) ht hkept (act_after (by decide +kernel))
    exact hunheard.not_heard (a := .work 0) .refl trivial (act_after (by decide +kernel))
      (by decide +kernel)

end TilePaint.Scheduler
