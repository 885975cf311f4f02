/-
  TilePaint/Proofs/DestroyedBatches.lean
  ======================================
  **Destroying makes every earlier batch inert, and no later one.**

  Every batch is governed by the flag that the scheduler had when it was
  dispatched.  Of these flags only the present one can be unset
  (`flagsAccounted_of_reachable`): to destroy is to set the present flag and to take a
  new one.  So afterwards all batches so far are silent, whatever became of their
  tasks, and the same holds when a scheduler is given up.

  A batch that is dispatched later has a flag that did not exist before.  Until the
  scheduler is destroyed again this flag stays unset, so the completion of the batch
  is heard unless its own task was cancelled or the client is gone; and it can still
  complete, because the pool has not been stopped (`FreshBatch`).

  The worker that completes a batch looks at the flags and then tells the client.  If
  the scheduler is destroyed between the two, the client is still told
  (`destroy_may_be_late`).
-/
import TilePaint.Proofs.BatchSilence

namespace TilePaint.Scheduler

variable {marked : Flag → Prop} {s s' u v : Scheduler} {a : Action} {t : Task} {k : Nat}
  {f g : Flag}

/-! ## 1. The flags of all batches -/

/-- The flag of the scheduler under which a batch was dispatched is set, or is the
    present one. -/
def FlagsAccounted (s : Scheduler) : Prop :=
  ∀ k, k < s.batches.size →
    ∃ t g, s.GovernedBy k t g ∧ (s.flags.isSet g = true ∨ g = s.flag)

theorem FlagsAccounted.step (h : s.FlagsAccounted) (horder : s.InOrder) (howned : s.Owned marked)
    (ha : guarded s a) (hact : s.act a = some s') : s'.FlagsAccounted := by
  have hlater := (howned.step ha hact).later
  intro k hk
  by_cases hold : k < s.batches.size
  · obtain ⟨t, g, hgoverned, hflag⟩ := h k hold
    refine ⟨t, g, hgoverned.step horder hact, ?_⟩
    rcases hflag with hset | rfl
    · exact Or.inl (hlater.set g hset)
    · rcases hlater.flag with hsame | ⟨-, hset⟩
      · exact Or.inr hsame.symm
      · exact Or.inl hset
  · -- no step adds more than one batch
    obtain ⟨-, -, hsame | ⟨t, hdispatch⟩⟩ := horder.step hact
    · omega
    · have hsize := hdispatch.size
      obtain ⟨t, -, hgoverned⟩ := horder.governs hact (by omega)
      obtain rfl : k = s.batches.size := by omega
      exact ⟨t, s'.flag, hgoverned, Or.inr rfl⟩

/-- **Of the flags of all batches only the present one can be unset.** -/
theorem flagsAccounted_of_reachable (hs : Reachable guarded s) : s.FlagsAccounted := by
  have hall := hs.invariant
    (P := fun s => s.FlagsAccounted ∧ s.InOrder ∧ s.Owned fun _ => True)
    (fun cache client config => ⟨nofun, inOrder_create cache client config,
      owned_create cache client config⟩)
    fun s a s' h ha hact => ⟨h.1.step h.2.1 h.2.2 ha hact, (h.2.1.step hact).1,
      (h.2.2.step ha hact).owned.mono fun _ _ => trivial⟩
  exact hall.1

/-! ## 2. Destroying -/

/-- A call that gives up the present flag. -/
def Detaches (c : Call) : Prop := c = .destroy ∨ c = .close

theorem Owned.detached (h : s.Owned marked) {c : Call} (hc : Detaches c) :
    (s.perform c).flags.isSet s.flag = true ∧ ¬s.flags.Has (s.perform c).flag := by
  have hset : s.destroy.flags.isSet s.flag = true := by
    rw [h.isSet_destroy, decide_eq_true rfl, Bool.true_or]
  rcases hc with rfl | rfl
  · exact ⟨hset, not_has_destroy s⟩
  · exact ⟨hset, not_has_destroy s⟩

theorem silent_of_detached (hs : Reachable guarded s) {c : Call} (hc : Detaches c)
    (hact : s.act (.call c) = some s') (hk : k < s.batches.size) : s'.Silent k := by
  have horder := inOrder_of_reachable hs
  have howned := owned_of_reachable hs
  obtain ⟨t, g, hgoverned, hflag⟩ := flagsAccounted_of_reachable hs k hk
  have hcontinues := howned.step (a := .call c) trivial hact
  have hset : s'.flags.isSet g = true := by
    rcases hflag with hset | rfl
    · exact hcontinues.later.set g hset
    · obtain ⟨-, rfl⟩ := act_call hact
      exact (howned.detached hc).1
  exact silent_of_set hcontinues.owned (horder.step hact).1 (hgoverned.step horder hact)
    (flagsSet_of_flag hset)

/-! ## 3. Later batches -/

theorem InOrder.running_of_new (h : s.InOrder) (hact : s.act a = some s')
    (hnew : s'.batches.size ≠ s.batches.size) : s'.pool.stopping = false := by
  cases act_cases hact with
  | dispatched hopen hsame _ =>
    rw [(goesOn_dispatched ..).stopping, hsame.pool]
    exact hopen
  | worked hworker hworks =>
    exact absurd (h.worked hworker hworks).2.2.size hnew
  | proceeded hproceed => exact absurd (h.proceeded hproceed).2.2.size hnew
  | timedOut _ => exact absurd rfl hnew
  | closed hbatches _ _ => exact absurd (congrArg Array.size hbatches) hnew
  | quiet _ hbatches _ _ => exact absurd (congrArg Array.size hbatches) hnew

/-- A pool is stopped only together with the flag. -/
theorem running_or_set (howned : s.Owned marked) (horder : s.InOrder)
    (hrunning : s.pool.stopping = false) (hrun : Run guarded s u) :
    u.InOrder ∧ (u.pool.stopping = false ∨ u.flags.isSet s.flag = true) := by
  induction hrun with
  | refl => exact ⟨horder, Or.inl hrunning⟩
  | @tail u u' hrun hlast ih =>
    obtain ⟨a, ha, hact⟩ := hlast
    have hu := howned.run hrun
    have hstep := hu.owned.step ha hact
    obtain ⟨horder', hcase⟩ := ih
    refine ⟨(horder'.step hact).1, ?_⟩
    rcases hcase with hopen | hset
    · rcases horder'.goesOn hact with hgoes | ⟨rfl, -⟩
      · exact Or.inl (hgoes.stopping.trans hopen)
      · right
        rcases hu.later.flag with hsame | ⟨-, hset⟩
        · obtain ⟨-, rfl⟩ := act_call hact
          rw [← hsame]
          exact (hu.owned.detached (Or.inr rfl)).1
        · exact hstep.later.set _ hset
    · exact Or.inr (hstep.later.set _ hset)

theorem verdict_of_unset (h : s.flags.isSet g = false) (f : Flag) :
    s.verdict k f g =
      (s.client.alive && (decide (s.stage k = .telling) || !s.flags.isSet f)) := by
  rw [verdict, h, Bool.not_false, Bool.and_true]

/-- Batch `u.batches.size`, which a step from `u` to `v` dispatches for task `t` after
    the flag of `s` was given up. -/
structure FreshBatch (s u v : Scheduler) (t : Task) : Prop where
  current : v.current = some t
  governed : v.GovernedBy u.batches.size t v.flag
  /-- The flag did not exist then. -/
  fresh : ¬s.flags.Has v.flag
  unset : v.flags.isSet v.flag = false
  at_once : tilesOf (TileRange.normalize t.ranges) = [] →
    ⟨u.batches.size, v.client.alive && !v.flags.isSet t.skipInvalidation⟩ ∈ u.completions v
  /-- As long as the flag is not given up as well, the completion is heard unless the
      client is gone, or the task was cancelled before the worker looked at its flags. -/
  heard : ∀ x y b, Run guarded v x → x.act b = some y → x.flag = v.flag →
    ∀ done ∈ x.completions y, done.batch = u.batches.size →
      done.heard = (x.client.alive &&
        (decide (x.stage u.batches.size = .telling) || !x.flags.isSet t.skipInvalidation))
  /-- Once its jobs have ended the batch is over. -/
  ended : ∀ x, Run guarded v x → (∀ w ∈ x.pool.jobs, w.job.batch ≠ u.batches.size) →
    x.stage u.batches.size = .closed
  /-- As long as the flag is not given up, the workers alone can bring it there. -/
  completes : ∀ x, Run guarded v x → x.flag = v.flag → x.stage u.batches.size ≠ .closed →
    ∃ y z b, Run byWorkers x y ∧ byWorkers y b ∧ y.act b = some z ∧
      ⟨u.batches.size, x.client.alive &&
        (decide (x.stage u.batches.size = .telling) || !x.flags.isSet t.skipInvalidation)⟩ ∈
          y.completions z

/-- A flag that is new stays so, and so do those that take its place. -/
theorem Later.flag_new (h : Later s s') (h' : Later s' u) (hnew : ¬s.flags.Has s'.flag) :
    ¬s.flags.Has u.flag := by
  rcases h'.flag with hsame | ⟨hlater, -⟩
  · rw [hsame]
    exact hnew
  · exact fun hold => hlater (h.has hold)

/-- **A batch dispatched later.** -/
theorem freshBatch_of_new (hs' : Reachable guarded s') (hlater : Later s s')
    (hflag : ¬s.flags.Has s'.flag) (hrun : Run guarded s' u) (ha : guarded u a)
    (hact : u.act a = some v) (hnew : v.batches.size ≠ u.batches.size) :
    ∃ t, FreshBatch s u v t := by
  have hu := hs'.run hrun
  have hv := hu.step ha hact
  have horder := inOrder_of_reachable hu
  have horder' := inOrder_of_reachable hv
  have howned := owned_of_reachable hv
  obtain ⟨t, hdispatch, hgoverned⟩ := horder.governs hact hnew
  -- until the flag is given up it is unset
  have hunset : ∀ x, Run guarded v x → x.flag = v.flag → x.flags.isSet v.flag = false := by
    intro x hx hsame
    rw [← hsame]
    exact (howned.run hx).owned.unset
  refine ⟨t, hdispatch.current, hgoverned, ?_, howned.unset, fun hnone => ?_,
    fun x y b hx hact' hsame done hdone hbatch => ?_, fun x hx hended => ?_,
    fun x hx hsame hopen => ?_⟩
  · have hsince := (owned_of_reachable hs').run (hrun.tail ⟨a, ha, hact⟩)
    exact hlater.flag_new hsince.later hflag
  · have hdone := hdispatch.completions
    rw [if_pos hnone, isHeard, howned.unset, Bool.not_false, Bool.and_true] at hdone
    have hmem := List.mem_singleton_self
      (⟨u.batches.size, v.client.alive && !v.flags.isSet t.skipInvalidation⟩ : Completion)
    rw [← hdone] at hmem
    exact (List.mem_filter.mp hmem).1
  · obtain ⟨hgoverned', hinOrder⟩ := hgoverned.run horder' hx
    rw [hgoverned'.heard (hinOrder.step hact').2.1 hdone hbatch,
      verdict_of_unset (hunset x hx hsame)]
  · obtain ⟨hgoverned', hinOrder⟩ := hgoverned.run horder' hx
    rw [stage, hinOrder.stageIn_eq hgoverned'.lt_size, owed_eq_nil hended,
      closing_eq_nil fun w hw hbatch => absurd hbatch (hended w hw)]
    rfl
  · -- as long as the flag is kept, the scheduler is not closed
    have hflag' := hunset x hx hsame
    obtain ⟨hinOrder, hrunning⟩ :=
      running_or_set howned horder' (horder.running_of_new hact hnew) hx
    have hstaffed : x.Open := ⟨hinOrder, staffed_of_reachable (hv.run hx),
      hrunning.resolve_right (Bool.eq_false_iff.mp hflag')⟩
    have hcomplete := hstaffed.can_complete (hgoverned.run horder' hx).1.quiet hopen
    rw [verdict_of_unset hflag'] at hcomplete
    exact hcomplete

/-! ## 4. Before and after -/

/-- **Destroying silences every batch so far and no later one**, and so does giving the
    scheduler up. -/
theorem destroy_silences {c : Call} (hs : Reachable guarded s) (hc : Detaches c)
    (hact : s.act (.call c) = some s') :
    (∀ k, k < s.batches.size → s'.Silent k) ∧
      ∀ u v a, Run guarded s' u → guarded u a → u.act a = some v →
        v.batches.size ≠ u.batches.size → ∃ t, FreshBatch s u v t := by
  have howned := owned_of_reachable hs
  have hlater := (howned.step (a := .call c) trivial hact).later
  refine ⟨fun k hk => silent_of_detached hs hc hact hk, fun u v a hrun ha hact' hnew => ?_⟩
  refine freshBatch_of_new (hs.step (a := .call c) trivial hact) hlater ?_ hrun ha hact' hnew
  obtain ⟨-, rfl⟩ := act_call hact
  exact (howned.detached hc).2

/-! The scheduler is destroyed while tile 0 is to be painted; then tile 2 is requested.

If the worker has painted tile 0 and found the flags of its batch unset by then, it tells the
client all the same.  And a batch that is dispatched later is not heard of if the client is
gone by the time it is complete. -/

namespace Sample

def destroyed : Scheduler := first.after (.call .destroy)

def resent : Scheduler := destroyed.after (.call (.schedule (requestOf [⟨2, 2⟩])))

def renewed : Scheduler := idle.after (.call .destroy)

def reasked : Scheduler := renewed.after (.call (.schedule (requestOf [⟨0, 0⟩])))

def orphaned : Scheduler := reasked.after (.setClient false false none)

theorem reachable_guarded_first : Reachable guarded first :=
  reachable_idle.step (a := .call (.schedule (requestOf [⟨0, 0⟩]))) trivial act_first

end Sample

theorem destroy_silences_first :
    Sample.destroyed.Silent 0 ∧ Sample.destroyed.stage 0 = .waiting ∧
      ∃ t, FreshBatch Sample.first Sample.destroyed Sample.resent t := by
  obtain ⟨hsilent, hlater⟩ :=
    destroy_silences Sample.reachable_guarded_first (Or.inl rfl) (act_after (by decide +kernel))
  refine ⟨hsilent 0 (by decide +kernel), by decide +kernel, ?_⟩
  exact hlater Sample.destroyed Sample.resent (.call (.schedule (Sample.requestOf [⟨2, 2⟩])))
    .refl trivial (act_after (by decide +kernel)) (by decide +kernel)

theorem destroy_may_be_late :
    (¬∀ (s s' : Scheduler) (c : Call) (k : Nat), Reachable guarded s → Detaches c →
      s.act (.call c) = some s' → k < s.batches.size → s'.Unheard k) ∧
    ¬∀ (s s' u v x y : Scheduler) (a b : Action) (t : Task), Reachable guarded s →
      s.act (.call .destroy) = some s' → Run guarded s' u → guarded u a → u.act a = some v →
      v.batches.size ≠ u.batches.size → v.current = some t → Run guarded v x →
      x.act b = some y → x.flag = v.flag → x.flags.isSet t.skipInvalidation = false →
      ∀ done ∈ x.completions y, done.batch = u.batches.size → done.heard = true := by
  constructor
  · intro hclaim
    have hfound : Reachable guarded (Sample.found Sample.first) :=
      Sample.reachable_guarded_first.run (Sample.run_found (by decide +kernel))
    have hunheard := hclaim (Sample.found Sample.first)
      ((Sample.found Sample.first).after (.call .destroy)) .destroy 0 hfound (Or.inl rfl)
      (act_after (by decide +kernel)) (by decide +kernel)
    exact hunheard.not_heard (a := .work 0) .refl trivial (act_after (by decide +kernel))
      (by decide +kernel)
  · intro hclaim
    have htask : Sample.reasked.current.isSome := by decide +kernel
    obtain ⟨t, ht⟩ := Option.isSome_iff_exists.mp htask
    have hunset : Sample.reasked.current.map (fun t =>
        (Sample.found Sample.orphaned).flags.isSet t.skipInvalidation) = some false := by
      decide +kernel
    rw [ht] at hunset
    have horphaned : Run guarded Sample.reasked (Sample.found Sample.orphaned) :=
      .head ⟨.setClient false false none, trivial, act_after (by decide +kernel)⟩
        (Sample.run_found (by decide +kernel))
    have hheard := hclaim Sample.idle Sample.renewed Sample.renewed Sample.reasked
      (Sample.found Sample.orphaned) ((Sample.found Sample.orphaned).after (.work 0))
      (.call (.schedule (Sample.requestOf [⟨0, 0⟩]))) (.work 0) t Sample.reachable_idle
      (act_after (by decide +kernel)) .refl trivial (act_after (by decide +kernel))
      (by decide +kernel) ht horphaned (act_after (by decide +kernel)) (by decide +kernel)
      (Option.some.inj hunset)
    -- the batch completes, but the client is gone
    exact Bool.noConfusion (hheard ⟨0, false⟩ (by decide +kernel) (by decide +kernel))

end TilePaint.Scheduler
