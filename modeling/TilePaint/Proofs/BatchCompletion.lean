/-
  TilePaint/Proofs/BatchCompletion.lean
  =====================================
  **Every batch completes exactly once.**

  The accounts of a scheduler stay in order along every run, whatever the owner,
  the workers, the engine, the client and those who set flags do, and in whatever
  order (`inOrder_of_reachable`).  Tiles only ever leave the list of those
  outstanding, and the barrier of a batch fires in the step in which the last of them
  leaves.

  A batch that has fired is in the hands of one worker.  First the worker looks at the
  flags of the batch, then it tells the client, and others may act in between.  The
  batch is over when the worker is done with it, and stays so.

  A run with its log (`Logged`) lists all completions in order.  The main theorem
  counts them.
-/
import TilePaint.Proofs.BatchProgress

namespace TilePaint.Scheduler

/-! ## 1. Runs -/

theorem inOrder_create (cache : TileCache) (client : Client) (config : PoolConfig) :
    (create cache client config).InOrder := by
  have hjobs : (create cache client config).pool.jobs = [] := Pool.jobs_ofConfig config
  refine .of_accounted ?_ nofun
  rw [hjobs]
  exact ⟨nofun, nofun, nofun, fun _ hclosing => absurd rfl hclosing, fun _ => Nat.zero_le _⟩

/-- **The accounts are always in order.** -/
theorem inOrder_of_reachable {allowed : Scheduler → Action → Prop} {s : Scheduler}
    (hs : Reachable allowed s) : s.InOrder :=
  hs.invariant inOrder_create fun _ _ _ h _ hact => (h.step hact).1

/-- A run, with all completions on its way, the earliest first. -/
inductive Logged (s : Scheduler) : List Completion → Scheduler → Prop where
  | start : Logged s [] s
  | step {log : List Completion} {u u' : Scheduler} {a : Action} (run : Logged s log u)
      (act : u.act a = some u') : Logged s (log ++ u.completions u') u'

/-- Whether a batch comes to be over between two states. -/
def ends (s s' : Scheduler) (k : Nat) : Bool :=
  !decide (s.stage k = .closed) && decide (s'.stage k = .closed)

/-- A step completes a batch exactly if the batch was not over before and is so then. -/
theorem countP_completions_batch {s s' : Scheduler} {k : Nat} (hk : k < s'.batches.size) :
    (s.completions s').countP (·.batch = k) = (ends s s' k).toNat := by
  rw [List.countP_eq_length_filter, filter_completions hk, completion?, ends]
  by_cases hbefore : s.stage k = .closed <;> by_cases hafter : s'.stage k = .closed <;>
    simp [hbefore, hafter]

/-- What a run does to a batch that was there at its start. -/
structure BatchRun (s : Scheduler) (log : List Completion) (s' : Scheduler) (k : Nat) : Prop where
  kept : s'.batches[k]?.map quietFlags = s.batches[k]?.map quietFlags
  arrived : ∃ arrived, (s.outstanding k).Perm (arrived ++ s'.outstanding k)
  closed : s.stage k = .closed → s'.stage k = .closed
  count : log.countP (·.batch = k) = (ends s s' k).toNat

theorem BatchRun.refl (s : Scheduler) (k : Nat) : BatchRun s [] s k := by
  refine ⟨rfl, ⟨[], .refl _⟩, id, ?_⟩
  rw [ends, Bool.not_and_self]
  rfl

theorem BatchRun.snoc {s u u' : Scheduler} {log : List Completion} {k : Nat}
    (hrun : BatchRun s log u k) (hprogress : Progress u u') (hk : k < u.batches.size) :
    BatchRun s (log ++ u.completions u') u' k := by
  have hsize := hprogress.size
  have hclosed : u.stage k = .closed → u'.stage k = .closed := hprogress.closed
  refine ⟨(hprogress.kept k hk).trans hrun.kept, ?_, fun hs => hclosed (hrun.closed hs), ?_⟩
  · obtain ⟨f, g, hflags⟩ := exists_flags hk
    obtain ⟨first, hfirst⟩ := hrun.arrived
    obtain ⟨second, hsecond, -⟩ := hprogress.turns k f g hflags
    refine ⟨first ++ second, ?_⟩
    rw [List.append_assoc]
    exact hfirst.trans (hsecond.append_left first)
  · -- once over, the batch stays so: at most one of the two parts counts
    rw [List.countP_append, hrun.count, countP_completions_batch (by omega)]
    refine (toNat_rises ?_ ?_).symm
    · simpa only [decide_eq_true_eq] using hrun.closed
    · simpa only [decide_eq_true_eq] using hclosed

/-- **Runs**, from any state whose accounts are in order. -/
theorem Logged.run {s s' : Scheduler} {log : List Completion} (h : s.InOrder)
    (hrun : Logged s log s') :
    s'.InOrder ∧ s.batches.size ≤ s'.batches.size ∧
      s'.client.invalidations = s.client.invalidations + log.countP (·.heard) ∧
      ∀ k, k < s.batches.size → BatchRun s log s' k := by
  induction hrun with
  | start => exact ⟨h, Nat.le_refl _, rfl, fun k _ => BatchRun.refl s k⟩
  | step hrun hact ih =>
    obtain ⟨horder, hsize, htold, hbatch⟩ := ih
    obtain ⟨horder', hprogress, -⟩ := horder.step hact
    refine ⟨horder', Nat.le_trans hsize hprogress.size, ?_, fun k hk => ?_⟩
    · rw [hprogress.told, htold, List.countP_append, Nat.add_assoc]
    · exact (hbatch k hk).snoc hprogress (by omega)

/-! ## 2. A batch from its dispatch on -/

/-- The batch of task `t` that is dispatched between `s₀` and `s₁`, in a later state
    `s` with all completions since `s₀`. -/
structure BatchRecord (s₀ s₁ : Scheduler) (t : Task) (s : Scheduler) (log : List Completion) :
    Prop where
  /-- The tiles that have arrived and those that have not are the tiles of the task. -/
  arrived : ∃ arrived,
    (tilesOf (TileRange.normalize t.ranges)).Perm (arrived ++ s.outstanding s₀.batches.size)
  /-- The barrier waits for those that have not, and has fired once there are none. -/
  batch : s.batches[s₀.batches.size]? = some
    { barrier :=
        { remaining := (s.outstanding s₀.batches.size).length
          fired := decide (s.outstanding s₀.batches.size = []) }
      skipInvalidation := t.skipInvalidation
      schedulerFlag := s₁.flag }
  /-- Once the jobs of the batch have ended, all tiles have arrived and the batch is over. -/
  ended : (∀ w ∈ s.pool.jobs, w.job.batch ≠ s₀.batches.size) →
    s.outstanding s₀.batches.size = [] ∧ s.stage s₀.batches.size = .closed
  /-- Whatever a job of the batch does next, it arrives for some of its pending tiles,
      and for no more than the barrier waits for; or, with the batch complete, it looks at
      the flags or tells the client. -/
  in_bounds : ∀ w ∈ s.pool.jobs, w.job.batch = s₀.batches.size →
    w.pending.length ≤ (s.outstanding s₀.batches.size).length ∧
      Advances s w (s.stepWork w) ∧
      (w.phase.stage? = none → Advances s w (s.endJob w.job)) ∧
      ∀ ticket pixels fault, w.phase = .rendering ticket →
        Advances s w (s.endWorkRender w.job ticket pixels fault)
  /-- The batch waits as long as a tile is outstanding. -/
  waiting : s.stage s₀.batches.size = .waiting ↔ s.outstanding s₀.batches.size ≠ []
  /-- Between the last arrival and its end the batch is in the hands of one job, and
      otherwise of none. -/
  in_hand : closing s₀.batches.size s.pool.jobs = (s.stage s₀.batches.size).inHand
  /-- The completion has been dealt with once if the batch is over, and not at all
      otherwise. -/
  once : log.countP (·.batch = s₀.batches.size) =
    if s.stage s₀.batches.size = .closed then 1 else 0
  /-- The client has been told of every completion that it heard, and of nothing else. -/
  told : s.client.invalidations = s₀.client.invalidations + log.countP (·.heard)
  /-- The barrier fires in the step in which the last tiles arrive, and who brought them
      deals with the completion: the client hears of it exactly if neither flag is set when
      they are looked at and it is there when it is told. -/
  next : ∀ a s', s.act a = some s' →
    Turns s s' s₀.batches.size t.skipInvalidation s₁.flag

/-- The stage of a batch says what its jobs have to do with it. -/
theorem InOrder.stage_cases {s : Scheduler} {k : Nat} (h : s.InOrder) (hk : k < s.batches.size) :
    (s.stage k = .waiting ↔ s.outstanding k ≠ []) ∧
      closing k s.pool.jobs = (s.stage k).inHand := by
  have hstage : s.stage k = if s.outstanding k = [] then
      (closing k s.pool.jobs).head?.getD .closed else .waiting := h.stageIn_eq hk
  by_cases hout : s.outstanding k = []
  · rw [hstage, if_pos hout]
    have halone := h.alone k
    -- at most one job deals with the batch, and its phase is the stage
    cases hclosing : closing k s.pool.jobs with
    | nil => simp [hout, Stage.inHand]
    | cons stage rest =>
      have hmem : stage ∈ closing k s.pool.jobs := by
        rw [hclosing]
        exact List.mem_cons_self ..
      have hinHand := mem_closing hmem
      rw [hclosing, List.length_cons] at halone
      obtain rfl : rest = [] := List.length_eq_zero_iff.mp (by omega)
      refine ⟨?_, hinHand.symm⟩
      simp only [List.head?_cons, Option.getD_some, hout, ne_eq, not_true, iff_false]
      rintro rfl
      cases hinHand
  · have hnone : closing k s.pool.jobs = [] :=
      Classical.byContradiction fun hclosing => hout (h.settled k hclosing)
    rw [hstage, if_neg hout, hnone]
    exact ⟨⟨fun _ => hout, fun _ => rfl⟩, rfl⟩

/-- Nothing of a batch has completed before its dispatch, so its completions since then
    are those that its stage stands for. -/
theorem BatchRun.count_once {s₀ s₁ s : Scheduler} {log : List Completion}
    (hrun : BatchRun s₁ log s s₀.batches.size) (hk₁ : s₀.batches.size < s₁.batches.size) :
    (s₀.completions s₁ ++ log).countP (·.batch = s₀.batches.size) =
      if s.stage s₀.batches.size = .closed then 1 else 0 := by
  have hmono := hrun.closed
  rw [List.countP_append, countP_completions_batch hk₁, hrun.count, ends, ends,
    stage_of_size_le (Nat.le_refl _)]
  -- what is over stays over, so it was over at the dispatch or came to be so in the run
  by_cases hclosed : s.stage s₀.batches.size = .closed
  · rw [if_pos hclosed, hclosed]
    by_cases hbefore : s₁.stage s₀.batches.size = .closed <;> simp [hbefore]
  · have hbefore : s₁.stage s₀.batches.size ≠ .closed := fun hs₁ => hclosed (hmono hs₁)
    simp [hbefore, hclosed]

theorem BatchRun.record {s₀ s₁ s : Scheduler} {t : Task} {log : List Completion}
    (h : s.InOrder) (hdispatch : Dispatches s₀ s₁ t)
    (hrun : BatchRun s₁ log s s₀.batches.size) (hsize : s₁.batches.size ≤ s.batches.size)
    (htold : s.client.invalidations =
      s₀.client.invalidations + (s₀.completions s₁ ++ log).countP (·.heard)) :
    BatchRecord s₀ s₁ t s (s₀.completions s₁ ++ log) := by
  have hk₁ := hdispatch.lt_size
  have hk := Nat.lt_of_lt_of_le hk₁ hsize
  have hflags := hrun.kept.trans hdispatch.flags
  obtain ⟨hwaiting, hinHand⟩ := h.stage_cases hk
  constructor
  · obtain ⟨arrived, hperm⟩ := hrun.arrived
    rw [hdispatch.outstanding] at hperm
    exact ⟨arrived, hperm⟩
  · obtain ⟨b, hb, hquiet⟩ := Option.map_eq_some_iff.mp hflags
    obtain ⟨hskip, hflag⟩ := Prod.mk.inj hquiet
    rw [hb, ← hskip, ← hflag]
    have hbarrier := h.barrier _ b hb
    rcases b with ⟨barrier, skip, flag⟩
    subst hbarrier
    rw [Barrier.counting_length]
    rfl
  · intro hended
    have hnone : s.outstanding s₀.batches.size = [] := owed_eq_nil hended
    refine ⟨hnone, ?_⟩
    rw [stage, h.stageIn_eq hk, closing_eq_nil fun w hw hbatch => absurd hbatch (hended w hw)]
    exact if_pos hnone
  · intro w hw hbatch
    refine ⟨?_, stepWork_advances s w (h.in_hand w hw), advances_endJob s s.cache, ?_⟩
    · -- the tiles of one job are among those of all
      have hpending : w.pendingFor s₀.batches.size = w.pending := if_pos hbatch
      rw [← hpending]
      exact (List.sublist_flatten_of_mem (List.mem_map_of_mem hw)).length_le
    · intro ticket pixels fault hphase
      refine endWorkRender_advances s ticket pixels fault hphase (h.in_hand w hw ?_)
      rw [hphase]
      rfl
  · exact hwaiting
  · exact hinHand
  · exact hrun.count_once hk₁
  · exact htold
  · intro a s' hact
    exact (h.step hact).2.1.turns _ _ _ hflags

/-- **Every batch completes exactly once.**  Whatever happens after a step that adds
    a batch, the batch is one of the current task, with a job for each range and every
    tile once; a batch without tiles completes in that very step. -/
theorem batch_completes_once {s₀ s₁ s : Scheduler} {a : Action} {log : List Completion}
    (hs : Reachable anyAction s₀) (hact : s₀.act a = some s₁)
    (hnew : s₁.batches.size ≠ s₀.batches.size) (hrun : Logged s₁ log s) :
    ∃ t, s₁.current = some t ∧
      TileRange.tileCount (TileRange.normalize t.ranges) =
        .ok (tilesOf (TileRange.normalize t.ranges)).length ∧
      (tilesOf (TileRange.normalize t.ranges)).Nodup ∧
      (∀ i, i ∈ tilesOf (TileRange.normalize t.ranges) ↔ Covers t.ranges i) ∧
      s₁.outstanding s₀.batches.size = tilesOf (TileRange.normalize t.ranges) ∧
      (s₀.completions s₁).filter (·.batch = s₀.batches.size) =
        (if tilesOf (TileRange.normalize t.ranges) = [] then
          [⟨s₀.batches.size, s₁.isHeard t.skipInvalidation s₁.flag⟩]
        else []) ∧
      BatchRecord s₀ s₁ t s (s₀.completions s₁ ++ log) := by
  have h₀ := inOrder_of_reachable hs
  obtain ⟨h₁, hprogress, hcases⟩ := h₀.step hact
  obtain ⟨t, hdispatch⟩ : ∃ t, Dispatches s₀ s₁ t := by
    rcases hcases with hsame | hdispatch
    · exact absurd hsame hnew
    · exact hdispatch
  obtain ⟨h, hsize, htold, hbatch⟩ := hrun.run h₁
  have hnodup := (TileRange.ascending_normalize t.ranges).nodup_tilesOf
  refine ⟨t, hdispatch.current, hdispatch.total, hnodup, fun i => ?_, hdispatch.outstanding,
    hdispatch.completions, ?_⟩
  · rw [mem_tilesOf, TileRange.covers_normalize]
  · refine (hbatch _ hdispatch.lt_size).record h hdispatch hsize ?_
    rw [htold, hprogress.told, List.countP_append, Nat.add_assoc]

theorem Logged.after {s u : Scheduler} {log log' : List Completion} {a : Action}
    (hrun : Logged s log u) (hact : (u.act a).isSome)
    (hlog : log ++ u.completions (u.after a) = log') : Logged s log' (u.after a) :=
  hlog ▸ hrun.step (act_after hact)

/-! ## 3. A batch of two tiles

The worker takes the only job and renders the first tile; the engine gives up, and
with the end of the job both tiles arrive.  The worker looks at the flags, finds them
unset and tells the client. -/

namespace Sample

def dispatched : Scheduler := idle.after (.call (.schedule (requestOf [⟨0, 1⟩])))

def taken : Scheduler := (dispatched.after (.work 0)).after (.work 0)

def rendering : Scheduler := ((taken.after (.work 0)).after (.work 0)).after (.work 0)

def raised : Scheduler := rendering.after (.endRender 0 #[] (some .addOverflow))

def looked : Scheduler := raised.after (.work 0)

def told : Scheduler := looked.after (.work 0)

theorem logged_told : Logged dispatched [⟨0, true⟩] told := by
  have hlook := Logged.start.after (s := dispatched) (a := .work 0) (by decide +kernel) rfl
  have htake := hlook.after (a := .work 0) (by decide +kernel) rfl
  have hcheck := htake.after (a := .work 0) (by decide +kernel) rfl
  have hpaint := hcheck.after (a := .work 0) (by decide +kernel) rfl
  have hadmit := hpaint.after (a := .work 0) (by decide +kernel) rfl
  have hraise := hadmit.after (a := .endRender 0 #[] (some .addOverflow)) (by decide +kernel) rfl
  have hflags := hraise.after (a := .work 0) (by decide +kernel) rfl
  exact hflags.after (by decide +kernel) (by decide +kernel)

end Sample

theorem batch_completes_once_raised :
    ∃ t, Sample.dispatched.current = some t ∧ Sample.raised.stage 0 = .completing ∧
      Sample.looked.stage 0 = .telling ∧ Sample.told.outstanding 0 = [] ∧
      BatchRecord Sample.idle Sample.dispatched t Sample.told [⟨0, true⟩] := by
  have hdispatch : Sample.idle.act (.call (.schedule (Sample.requestOf [⟨0, 1⟩]))) =
      some Sample.dispatched := act_after (by decide +kernel)
  obtain ⟨t, hcurrent, -, -, -, -, -, hrecord⟩ :=
    batch_completes_once Sample.reachable_idle hdispatch (by decide +kernel)
      Sample.logged_told
  have hnone : Sample.idle.completions Sample.dispatched = [] := by decide +kernel
  rw [hnone] at hrecord
  exact ⟨t, hcurrent, by decide +kernel, by decide +kernel, by decide +kernel, hrecord⟩

end TilePaint.Scheduler
