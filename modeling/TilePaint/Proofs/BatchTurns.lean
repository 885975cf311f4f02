/-
  TilePaint/Proofs/BatchTurns.lean
  ================================
  **How a batch gets from stage to stage.**

  Every step of a job arrives for some tiles, looks at the flags of a batch that is
  complete, or tells the client (`Advances`).  One lemma about such a step
  (`Accounted.advance`) keeps the accounts in order in all of them, and another says
  which way the batch of the job goes, and what the client hears (`Advances.turn`).

  Jobs that no worker is left to run are dropped all at once.  Then several batches may
  be over in one step, each for itself (`Dropped`).
-/
import TilePaint.Proofs.BatchAccounts

namespace TilePaint.Scheduler

/-! ## 1. Steps from stage to stage -/

/-- Nothing but work lies between two states: nobody sets a flag, and the client stays. -/
structure Settled (s s' : Scheduler) : Prop where
  flags : s'.flags = s.flags
  alive : s'.client.alive = s.client.alive
  size : s'.batches.size = s.batches.size
  kept : ∀ k : Nat, s'.batches[k]?.map quietFlags = s.batches[k]?.map quietFlags

namespace Settled

variable {s s' s'' : Scheduler}

theorem refl (s : Scheduler) : Settled s s := ⟨rfl, rfl, rfl, fun _ => rfl⟩

theorem trans (h : Settled s s') (h' : Settled s' s'') : Settled s s'' :=
  ⟨h'.flags.trans h.flags, h'.alive.trans h.alive, h'.size.trans h.size,
    fun k => (h'.kept k).trans (h.kept k)⟩

theorem congr_right {u : Scheduler} (h : Settled s s') (hbatches : u.batches = s'.batches)
    (hflags : u.flags = s'.flags) (halive : u.client.alive = s'.client.alive) : Settled s u :=
  ⟨hflags.trans h.flags, halive.trans h.alive, by rw [hbatches, h.size],
    fun k => by rw [hbatches, h.kept]⟩

theorem isHeard (h : Settled s s') (f g : Flag) : s'.isHeard f g = s.isHeard f g := by
  rw [Scheduler.isHeard, Scheduler.isHeard, h.flags, h.alive]

end Settled

theorem settled_arrive (s : Scheduler) (k n : Nat) : Settled s (s.arrive k n).1 := by
  unfold arrive
  split
  · exact Settled.refl s
  · next b hb =>
    refine ⟨rfl, rfl, Array.size_setIfInBounds, fun j => ?_⟩
    dsimp only
    rw [Array.getElem?_setIfInBounds]
    split
    · next hj =>
      subst hj
      rw [if_pos (Array.getElem?_eq_some_iff.mp hb).1, hb]
      rfl
    · rfl

/-- How a step takes a batch with flags `f` and `g` from one stage to another, and what
    completion it deals with; `last` tells whether the last tiles arrive in it. -/
inductive Turn (s s' : Scheduler) (k : Nat) (f g : Flag) (last : Prop) :
    Stage → Stage → List Completion → Prop where
  | stays {stage : Stage} (hlast : ¬last) : Turn s s' k f g last stage stage []
  /-- The worker that brought the last tiles has the completion to deal with. -/
  | fires (hlast : last) : Turn s s' k f g last .waiting .completing []
  /-- The last tiles are those of jobs that no worker is left to run. -/
  | drops (hlast : last) (hdeserted : s'.pool.isDeserted = true)
      (hsame : s'.isHeard f g = s.isHeard f g) :
      Turn s s' k f g last .waiting .closed [⟨k, s.isHeard f g⟩]
  /-- A flag was found set. -/
  | hushes (hlast : ¬last) (hset : (s.flags.isSet f || s.flags.isSet g) = true) :
      Turn s s' k f g last .completing .closed [⟨k, false⟩]
  /-- Both flags were found unset. -/
  | clears (hlast : ¬last) (hunset : (s.flags.isSet f || s.flags.isSet g) = false) :
      Turn s s' k f g last .completing .telling []
  | tells (hlast : ¬last) : Turn s s' k f g last .telling .closed [⟨k, s.client.alive⟩]

/-- What the client hears of a batch that is not over, if nothing comes in between: once
    the flags were found unset, only the client itself matters. -/
def verdict (s : Scheduler) (k : Nat) (f g : Flag) : Bool :=
  s.client.alive &&
    (decide (s.stage k = .telling) || !s.flags.isSet f && !s.flags.isSet g)

theorem verdict_of_ne_telling {s : Scheduler} {k : Nat} (h : s.stage k ≠ .telling)
    (f g : Flag) : s.verdict k f g = s.isHeard f g := by
  rw [verdict, decide_eq_false h, Bool.false_or, isHeard, Bool.and_assoc]

theorem verdict_of_telling {s : Scheduler} {k : Nat} (h : s.stage k = .telling)
    (f g : Flag) : s.verdict k f g = s.client.alive := by
  rw [verdict, decide_eq_true h, Bool.true_or, Bool.and_true]

theorem isHeard_of_set {s : Scheduler} {f g : Flag}
    (h : (s.flags.isSet f || s.flags.isSet g) = true) : s.isHeard f g = false := by
  rw [isHeard, Bool.and_assoc, ← Bool.not_or, h, Bool.not_true, Bool.and_false]

theorem isHeard_of_unset {s : Scheduler} {f g : Flag}
    (h : (s.flags.isSet f || s.flags.isSet g) = false) : s.isHeard f g = s.client.alive := by
  rw [isHeard, Bool.and_assoc, ← Bool.not_or, h, Bool.not_false, Bool.and_true]

namespace Turn

variable {s s' : Scheduler} {k : Nat} {f g : Flag} {last : Prop} {before after : Stage}
  {done : List Completion}

/-- What is dealt with in a turn is the completion between the two states. -/
theorem done_eq (h : Turn s s' k f g last (s.stage k) (s'.stage k) done)
    (hflags : s'.batches[k]?.map quietFlags = some (f, g)) :
    done = (completion? s s' k).toList := by
  generalize hbefore : s.stage k = before at h
  generalize hafter : s'.stage k = after at h
  unfold completion?
  rw [hbefore, hafter]
  cases h with
  | stays => rw [if_neg fun hclosed => hclosed.1 hclosed.2]; rfl
  | drops hlast hdeserted hsame =>
    rw [if_pos ⟨nofun, rfl⟩, heard_eq hflags, hsame]
    rfl
  | _ => rfl

/-- A batch that is over stays so. -/
theorem closed (h : Turn s s' k f g last .closed after done) : after = .closed := by
  cases h
  rfl

/-- The flags are found unset in the very step that leads to telling. -/
theorem telling (h : Turn s s' k f g last before .telling done) :
    before = .telling ∨
      before = .completing ∧ (s.flags.isSet f || s.flags.isSet g) = false := by
  cases h with
  | stays => exact Or.inl rfl
  | clears _ hunset => exact Or.inr ⟨rfl, hunset⟩

/-- **What the client hears is the verdict** right before the completion is dealt with. -/
theorem heard (h : Turn s s' k f g last (s.stage k) after done) {c : Completion}
    (hc : c ∈ done) : c = ⟨k, s.verdict k f g⟩ := by
  generalize hbefore : s.stage k = before at h
  cases h with
  | stays | fires | clears => cases hc
  | drops =>
    rw [verdict_of_ne_telling (by rw [hbefore]; nofun)]
    exact List.mem_singleton.mp hc
  | hushes _ hset =>
    rw [verdict_of_ne_telling (by rw [hbefore]; nofun), isHeard_of_set hset]
    exact List.mem_singleton.mp hc
  | tells =>
    rw [verdict_of_telling hbefore]
    exact List.mem_singleton.mp hc

/-- Nothing but work leaves the verdict as it is. -/
theorem verdict_eq (h : Turn s s' k f g last (s.stage k) (s'.stage k) done)
    (hsettled : Settled s s') (hopen : s'.stage k ≠ .closed) :
    s'.verdict k f g = s.verdict k f g := by
  generalize hbefore : s.stage k = before at h
  generalize hafter : s'.stage k = after at h hopen
  cases h with
  | stays =>
    rw [Scheduler.verdict, Scheduler.verdict, hsettled.flags, hsettled.alive, hbefore, hafter]
  | fires =>
    rw [verdict_of_ne_telling (by rw [hafter]; nofun),
      verdict_of_ne_telling (by rw [hbefore]; nofun), hsettled.isHeard]
  | clears _ hunset =>
    rw [verdict_of_telling hafter, verdict_of_ne_telling (by rw [hbefore]; nofun),
      isHeard_of_unset hunset, hsettled.alive]
  | drops | hushes | tells => exact absurd rfl hopen

end Turn

/-! ## 2. The step of a job -/

section Advance

variable {s : Scheduler} {w : Work} {others : List Work} {arrived : List Nat}
  {rest : Option Work} {result : Scheduler × Option Work} {k : Nat} {f g : Flag}

theorem Advances.settled (h : Advances s w result) : Settled s result.1 := by
  cases h with
  | arrives =>
    obtain ⟨hflags, halive, hsize, hkept⟩ := settled_arrive _ w.job.batch _
    exact ⟨hflags, halive, hsize, hkept⟩
  | looks => exact Settled.refl s
  | tells =>
    rw [tell_eq]
    exact ⟨rfl, rfl, rfl, fun _ => rfl⟩

/-- A batch whose job looks at its flags or tells the client has all its tiles, and no
    other job deals with it. -/
theorem Accounted.closing_head (h : s.Accounted (w :: others)) {stage : Stage}
    (hstage : w.phase.stage? = some stage) :
    closing w.job.batch (w :: others) = [stage] ∧ closing w.job.batch others = [] ∧
      owed w.job.batch (w :: others) = [] ∧ w.pending = [] := by
  have hhead : w.closingFor w.job.batch = some stage := by
    rw [Work.closingFor, if_pos rfl, hstage]
  have hclosing := closing_cons w.job.batch w others
  rw [hhead, Option.toList_some] at hclosing
  have halone := h.alone w.job.batch
  rw [hclosing, List.length_append, List.length_singleton] at halone
  have hothers : closing w.job.batch others = [] := List.length_eq_zero_iff.mp (by omega)
  rw [hothers] at hclosing
  have howed := h.settled w.job.batch (by rw [hclosing]; exact List.cons_ne_nil _ _)
  refine ⟨hclosing, hothers, howed, ?_⟩
  rw [owed_cons, List.append_eq_nil_iff, Work.pendingFor, if_pos rfl] at howed
  exact howed.1

/-- The other batches do not notice. -/
theorem Advances.other_batches (hadvances : Advances s w result) (others : List Work)
    (hk : w.job.batch ≠ k) :
    owed k (result.2.toList ++ others) = owed k (w :: others) ∧
      closing k (result.2.toList ++ others) = closing k (w :: others) := by
  rw [owed_append, owed_cons, closing_append, closing_cons, owed_toList hadvances.batch,
    if_neg hk, Work.pendingFor, if_neg hk, Work.closingFor, if_neg hk]
  refine ⟨rfl, congrArg (· ++ closing k others) ?_⟩
  refine closing_eq_nil fun w' hw' hbatch => ?_
  rw [hadvances.batch w' (Option.mem_toList.mp hw')] at hbatch
  exact absurd hbatch hk

/-- A job past its last arrival goes on to another phase. -/
theorem Accounted.rephase (h : s.Accounted (w :: others)) {stage : Stage}
    (hstage : w.phase.stage? = some stage) {phase : Phase} (hphase : phase.holdsTile = false) :
    s.Accounted ({ w with phase } :: others) := by
  obtain ⟨-, hothers, howed, -⟩ := h.closing_head hstage
  have hsame : ∀ k, owed k ({ w with phase } :: others) = owed k (w :: others) := fun _ => rfl
  have hclosing : ∀ k, w.job.batch ≠ k →
      closing k ({ w with phase } :: others) = closing k (w :: others) := by
    intro k hk
    rw [closing_cons, closing_cons, Work.closingFor, if_neg hk, Work.closingFor, if_neg hk]
  constructor
  · intro w' hw'
    rcases List.mem_cons.mp hw' with rfl | hw'
    · exact h.batch_lt w (List.mem_cons_self ..)
    · exact h.batch_lt w' (List.mem_cons_of_mem _ hw')
  · intro w' hw' htile
    rcases List.mem_cons.mp hw' with rfl | hw'
    · cases hphase.symm.trans htile
    · exact h.in_hand w' (List.mem_cons_of_mem _ hw') htile
  · intro k b hb
    rw [hsame]
    exact h.barrier k b hb
  · intro k hsome
    rw [hsame]
    by_cases hk : w.job.batch = k
    · rw [← hk]
      exact howed
    · rw [hclosing k hk] at hsome
      exact h.settled k hsome
  · intro k
    by_cases hk : w.job.batch = k
    · subst hk
      rw [closing_cons, hothers, List.append_nil]
      exact Option.length_toList_le
    · rw [hclosing k hk]
      exact h.alone k

/-- The stage of its batch before and after such a step. -/
theorem Accounted.stage_rephase {u : Scheduler} (h : s.Accounted (w :: others)) {stage : Stage}
    (hstage : w.phase.stage? = some stage) (hbatches : u.batches = s.batches) (phase : Phase) :
    s.stageIn (w :: others) w.job.batch = stage ∧
      u.stageIn ({ w with phase } :: others) w.job.batch = phase.stage?.getD .closed := by
  obtain ⟨hclosing, hothers, howed, -⟩ := h.closing_head hstage
  have hfired : s.hasFired w.job.batch = true := by
    rw [h.hasFired (h.batch_lt w (List.mem_cons_self ..)), howed]
    rfl
  have hafter : u.hasFired w.job.batch = true := by
    rw [Scheduler.hasFired, hbatches]
    exact hfired
  rw [stageIn, hfired, if_pos rfl, hclosing, stageIn, hafter, if_pos rfl, closing_cons, hothers,
    List.append_nil, Work.closingFor, if_pos rfl]
  refine ⟨rfl, ?_⟩
  cases phase.stage? <;> rfl

/-- The jobs after an arrival owe what they owed apart from the tiles that arrived, and the
    job that brought the last ones has the completion of its batch to deal with. -/
theorem Accounted.arriveFor_jobs (h : s.Accounted (w :: others))
    (hworking : w.phase.stage? = none) (hkeeps : Keeps w arrived rest) (k : Nat) :
    let jobs := (s.arriveFor w arrived.length rest).2.toList ++ others
    let last := arrived ≠ [] ∧ owed w.job.batch (rest.toList ++ others) = []
    owed k jobs = owed k (rest.toList ++ others) ∧
      closing k jobs =
        if last ∧ w.job.batch = k then [.completing] else closing k (w :: others) := by
  intro jobs last
  have hfires : (s.arrive w.job.batch arrived.length).2 = decide last := h.arrive_fires hkeeps
  obtain ⟨hbefore, hrest⟩ := hkeeps.closing hworking k others
  rw [hbefore]
  by_cases hlast : last
  · have hjobs : jobs = w.completed arrived.length :: others := by
      simp only [jobs, Scheduler.arriveFor, hfires, decide_eq_true hlast, if_true,
        Option.toList_some, List.singleton_append]
    obtain ⟨howed, hclosing⟩ := h.completed hworking hkeeps hlast.1 hlast.2 k
    rw [hjobs, howed, hclosing]
    simp only [hlast, true_and, and_self]
  · have hjobs : jobs = rest.toList ++ others := by
      simp only [jobs, Scheduler.arriveFor, hfires, decide_eq_false hlast, Bool.false_eq_true,
        if_false]
    rw [hjobs, hrest, if_neg fun hboth => hlast hboth.1]
    exact ⟨rfl, rfl⟩

/-- **An arrival keeps the accounts in order.** -/
theorem Accounted.arriveFor (h : s.Accounted (w :: others)) (hworking : w.phase.stage? = none)
    (hkeeps : Keeps w arrived rest) :
    (s.arriveFor w arrived.length rest).1.Accounted
      ((s.arriveFor w arrived.length rest).2.toList ++ others) := by
  have hadvances : Advances s w (s.arriveFor w arrived.length rest) :=
    .arrives s.cache hworking hkeeps
  have hjobs := h.arriveFor_jobs hworking hkeeps
  obtain ⟨b, hb, hbarrier⟩ := h.barrier_of_mem
  refine ⟨fun w' hw' => ?_, fun w' hw' htile => ?_, fun k b' hb' => ?_, fun k hsome => ?_,
    fun k => ?_⟩
  · rw [hadvances.settled.size]
    rcases List.mem_append.mp hw' with hw' | hw'
    · rw [hadvances.batch w' (Option.mem_toList.mp hw')]
      exact h.batch_lt w (List.mem_cons_self ..)
    · exact h.batch_lt w' (List.mem_cons_of_mem _ hw')
  · rcases List.mem_append.mp hw' with hw' | hw'
    · simp only [Scheduler.arriveFor] at hw'
      split at hw'
      · rw [Option.toList_some, List.mem_singleton] at hw'
        rw [hw'] at htile
        cases htile
      · exact hkeeps.in_hand w' (Option.mem_toList.mp hw') htile
    · exact h.in_hand w' (List.mem_cons_of_mem _ hw') htile
  · -- the barrier counts down by as many tiles as the jobs owe less
    have hbefore := hkeeps.owed k others
    have hlen := congrArg List.length (hkeeps.owed w.job.batch others)
    rw [if_pos rfl, List.length_append] at hlen
    rw [(hjobs k).1]
    simp only [Scheduler.arriveFor] at hb'
    rw [arrive_eq hb hbarrier (by omega)] at hb'
    dsimp only at hb'
    rw [Array.getElem?_setIfInBounds] at hb'
    split at hb'
    · next hsame =>
      subst hsame
      rw [if_pos (Array.getElem?_eq_some_iff.mp hb).1] at hb'
      cases hb'
      exact congrArg Barrier.counting (by omega)
    · next hother =>
      rw [h.barrier k b' hb', hbefore, if_neg hother]
      rfl
  · rw [(hjobs k).1]
    rw [(hjobs k).2] at hsome
    split at hsome
    · next hlast => exact hlast.2 ▸ hlast.1.2
    · have hnone := h.settled k hsome
      rw [hkeeps.owed, List.append_eq_nil_iff] at hnone
      exact hnone.2
  · rw [(hjobs k).2]
    split
    · exact Nat.le_refl _
    · exact h.alone k

/-- **A step of a job keeps the accounts in order.** -/
theorem Accounted.advance (h : s.Accounted (w :: others)) (hadvances : Advances s w result) :
    result.1.Accounted (result.2.toList ++ others) := by
  cases hadvances with
  | arrives cache hworking hkeeps =>
    exact (h.congr (u := { s with cache }) rfl).arriveFor hworking hkeeps
  | looks hphase =>
    have hstage : w.phase.stage? = some .completing := by rw [hphase]; rfl
    refine h.rephase hstage ?_
    split <;> rfl
  | tells hphase =>
    have hstage : w.phase.stage? = some .telling := by rw [hphase]; rfl
    refine (h.rephase hstage rfl).congr ?_
    rw [tell_eq]

/-- With its last tiles a batch begins to be completed; otherwise it stays at its stage. -/
theorem Accounted.stage_arriveFor (h : s.Accounted (w :: others))
    (hworking : w.phase.stage? = none) (hkeeps : Keeps w arrived rest) :
    let result := s.arriveFor w arrived.length rest
    let last := arrived ≠ [] ∧ owed w.job.batch (rest.toList ++ others) = []
    let before := s.stageIn (w :: others) w.job.batch
    let after := result.1.stageIn (result.2.toList ++ others) w.job.batch
    (last ∧ before = .waiting ∧ after = .completing) ∨ (¬last ∧ after = before) := by
  intro result last before after
  have hk := h.batch_lt w (List.mem_cons_self ..)
  have hk' : w.job.batch < result.1.batches.size :=
    (settled_arrive s w.job.batch arrived.length).size ▸ hk
  have haccounted := h.arriveFor hworking hkeeps
  obtain ⟨howed, hclosing⟩ := h.arriveFor_jobs hworking hkeeps w.job.batch
  have hbefore : before = if arrived ++ owed w.job.batch (rest.toList ++ others) = [] then
      (closing w.job.batch (w :: others)).head?.getD .closed else .waiting := by
    have hsplit := hkeeps.owed w.job.batch others
    rw [if_pos rfl] at hsplit
    rw [← hsplit]
    exact h.stageIn_eq hk
  have hafter : after = if owed w.job.batch (rest.toList ++ others) = [] then
      (closing w.job.batch (result.2.toList ++ others)).head?.getD .closed else .waiting := by
    rw [← howed]
    exact haccounted.stageIn_eq hk'
  by_cases hlast : last
  · rw [if_pos ⟨hlast, rfl⟩] at hclosing
    refine Or.inl ⟨hlast, ?_, ?_⟩
    · rw [hbefore, if_neg fun hnone => hlast.1 (List.append_eq_nil_iff.mp hnone).1]
    · rw [hafter, if_pos hlast.2, hclosing]
      rfl
  · rw [if_neg fun hboth => hlast hboth.1] at hclosing
    refine Or.inr ⟨hlast, ?_⟩
    rw [hbefore, hafter, hclosing]
    by_cases hnone : arrived = []
    · rw [hnone, List.nil_append]
    · -- some tiles have arrived, but not the last ones: the batch waits before and after
      rw [if_neg fun howed => hlast ⟨hnone, howed⟩,
        if_neg fun howed => hnone (List.append_eq_nil_iff.mp howed).1]

/-- **How a step of a job takes its batch from stage to stage**, and what the client is
    told. -/
theorem Advances.turn (hadvances : Advances s w result) (h : s.Accounted (w :: others))
    (hflags : s.batches[w.job.batch]?.map quietFlags = some (f, g)) (s' : Scheduler) :
    ∃ arriving done,
      owed w.job.batch (w :: others) =
        arriving ++ owed w.job.batch (result.2.toList ++ others) ∧
      Turn s s' w.job.batch f g
        (arriving ≠ [] ∧ owed w.job.batch (result.2.toList ++ others) = [])
        (s.stageIn (w :: others) w.job.batch)
        (result.1.stageIn (result.2.toList ++ others) w.job.batch) done ∧
      result.1.client.invalidations = s.client.invalidations + done.countP (·.heard) := by
  cases hadvances with
  | @arrives cache arrived rest hworking hkeeps =>
    have hu : ({ s with cache } : Scheduler).Accounted (w :: others) := h.congr rfl
    have hsplit := hkeeps.owed w.job.batch others
    have howed := (hu.arriveFor_jobs hworking hkeeps w.job.batch).1
    rw [if_pos rfl, ← howed] at hsplit
    refine ⟨arrived, [], hsplit, ?_, ?_⟩
    · have hstage := hu.stage_arriveFor hworking hkeeps
      dsimp only at hstage
      rw [← howed] at hstage
      rcases hstage with ⟨hlast, hwaiting, hcompleting⟩ | ⟨hlast, hsame⟩
      · rw [show s.stageIn (w :: others) w.job.batch = .waiting from hwaiting, hcompleting]
        exact .fires hlast
      · rw [hsame]
        exact .stays hlast
    · simp only [Scheduler.arriveFor, arrive]
      split <;> rfl
  | looks hphase =>
    have hstage : w.phase.stage? = some .completing := by rw [hphase]; rfl
    obtain ⟨-, -, howed, -⟩ := h.closing_head hstage
    rw [quiet_eq hflags]
    -- the look decides whether the client is told at all
    cases hset : s.flags.isSet f || s.flags.isSet g with
    | true =>
      obtain ⟨hcompleting, hclosed⟩ := h.stage_rephase (u := s) hstage rfl .checking
      refine ⟨[], [⟨w.job.batch, false⟩], rfl, ?_, rfl⟩
      rw [hcompleting]
      exact hclosed ▸ Turn.hushes (fun hlast => hlast.1 rfl) hset
    | false =>
      obtain ⟨hcompleting, htelling⟩ := h.stage_rephase (u := s) hstage rfl .telling
      refine ⟨[], [], rfl, ?_, rfl⟩
      rw [hcompleting]
      exact htelling ▸ Turn.clears (fun hlast => hlast.1 rfl) hset
  | tells hphase =>
    have hstage : w.phase.stage? = some .telling := by rw [hphase]; rfl
    obtain ⟨htelling, hclosed⟩ := h.stage_rephase (u := s.tell) hstage (by rw [tell_eq]) .checking
    refine ⟨[], [⟨w.job.batch, s.client.alive⟩], rfl, ?_, ?_⟩
    · rw [htelling]
      exact hclosed ▸ Turn.tells fun hlast => hlast.1 rfl
    · rw [tell_eq]
      cases s.client.alive <;> rfl

end Advance

/-! ## 3. Jobs that are dropped

A job that was never run completes its batch in one go, so several batches may be over at
once.  Whether the client hears of each is then a matter of its barrier alone. -/

variable {s s' : Scheduler} {w : Work} {others : List Work}

/-- Whether the barrier of a batch fires between two states and the client hears of it. -/
def firesHeard (s s' : Scheduler) (k : Nat) : Bool :=
  !s.hasFired k && s'.hasFired k && s'.batches[k]?.any s'.hears

/-- Nothing but dropped jobs lies between two states. -/
structure Dropped (s s' : Scheduler) : Prop extends Settled s s' where
  pool : s'.pool = s.pool
  fired : ∀ k : Nat, s.hasFired k = true → s'.hasFired k = true
  told : s'.client.invalidations =
    s.client.invalidations + (List.range s.batches.size).countP (firesHeard s s')

theorem Settled.any_hears (h : Settled s s') (k : Nat) :
    s'.batches[k]?.any s'.hears = s.batches[k]?.any s.hears := by
  have hkept := h.kept k
  cases hb : s.batches[k]? with
  | none =>
    rw [hb, Option.map_none, Option.map_eq_none_iff] at hkept
    rw [hkept]
    rfl
  | some b =>
    rw [hb, Option.map_some] at hkept
    have hquiet : s.batches[k]?.map quietFlags = some (quietFlags b) := by rw [hb]; rfl
    rw [heard_eq hkept, ← hb, heard_eq hquiet, h.isHeard]

theorem countP_add {α : Type} {l : List α} {p q r : α → Bool}
    (h : ∀ a, (p a).toNat = (q a).toNat + (r a).toNat) :
    l.countP p = l.countP q + l.countP r := by
  induction l with
  | nil => rfl
  | cons a l ih =>
    have ha := h a
    simp only [List.countP_cons, ih]
    cases hp : p a <;> cases hq : q a <;> cases hr : r a <;>
      simp only [hp, hq, hr, Bool.toNat_true, Bool.toNat_false, Bool.false_eq_true, if_true,
        if_false] at ha ⊢ <;> omega

theorem countP_range_eq {n k : Nat} {p : Nat → Bool} (hk : k < n)
    (h : ∀ j, j ≠ k → p j = false) : (List.range n).countP p = (p k).toNat := by
  induction n with
  | zero => omega
  | succ n ih =>
    rw [List.range_succ, List.countP_append, List.countP_singleton]
    by_cases hn : k = n
    · subst hn
      have hbefore : (List.range k).countP p = 0 := by
        rw [List.countP_eq_zero]
        intro j hj
        rw [h j (Nat.ne_of_lt (List.mem_range.mp hj))]
        exact Bool.false_ne_true
      rw [hbefore]
      cases p k <;> rfl
    · rw [ih (by omega), h n (Ne.symm hn)]
      exact Nat.add_zero _

/-- A bit that is never reset rises at most once. -/
theorem toNat_rises {b b' b'' : Bool} (h : b = true → b' = true) (h' : b' = true → b'' = true) :
    (!b && b'').toNat = (!b && b').toNat + (!b' && b'').toNat := by
  cases b with
  | true => rw [h rfl]; rfl
  | false =>
    cases b' with
    | true => rw [h' rfl]; rfl
    | false => exact (Nat.zero_add _).symm

namespace Dropped

variable {s'' : Scheduler}

theorem refl (s : Scheduler) : Dropped s s := by
  refine ⟨Settled.refl s, rfl, fun _ => id, ?_⟩
  have hnone : (List.range s.batches.size).countP (firesHeard s s) = 0 := by
    rw [List.countP_eq_zero]
    intro k _
    rw [firesHeard, Bool.not_and_self, Bool.false_and]
    exact Bool.false_ne_true
  rw [hnone]
  rfl

theorem trans (h : Dropped s s') (h' : Dropped s' s'') : Dropped s s'' := by
  refine ⟨h.toSettled.trans h'.toSettled, h'.pool.trans h.pool,
    fun k hk => h'.fired k (h.fired k hk), ?_⟩
  rw [h'.told, h.told, h.size, Nat.add_assoc]
  congr 1
  -- each barrier fires at most once, and nobody sets a flag in between
  refine (countP_add fun k => ?_).symm
  unfold firesHeard
  rw [h'.any_hears k]
  cases s'.batches[k]?.any s'.hears with
  | false => simp only [Bool.and_false, Bool.toNat_false]
  | true =>
    simp only [Bool.and_true]
    exact toNat_rises (h.fired k) (h'.fired k)

end Dropped

/-- A job without a tile can be forgotten. -/
theorem Accounted.forget (h : s.Accounted (w :: others)) (hpending : w.pending = []) :
    s.Accounted others := by
  have howed : ∀ k, owed k (w :: others) = owed k others := by
    intro k
    rw [owed_cons, Work.pendingFor, hpending, ite_self]
    rfl
  constructor
  · exact fun w' hw' => h.batch_lt w' (List.mem_cons_of_mem _ hw')
  · exact fun w' hw' => h.in_hand w' (List.mem_cons_of_mem _ hw')
  · intro k b hb
    rw [h.barrier k b hb, howed]
  · intro k hsome
    rw [← howed]
    refine h.settled k ?_
    rw [closing_cons]
    exact fun hnone => hsome (List.append_eq_nil_iff.mp hnone).2
  · intro k
    have halone := h.alone k
    rw [closing_cons, List.length_append] at halone
    omega

theorem settled_complete (s : Scheduler) (b : Batch) : Settled s (s.complete b) := by
  rw [complete_eq]
  exact ⟨rfl, rfl, rfl, fun _ => rfl⟩

/-- The same jobs, and the client told of batch `k` if the flags allow it. -/
theorem complete_at {k : Nat} :
    let u := s.batches[k]?.elim s s.complete
    u.batches = s.batches ∧ u.pool = s.pool ∧ Settled s u ∧
      u.client.invalidations = s.client.invalidations + (s.batches[k]?.any s.hears).toNat := by
  cases hb : s.batches[k]? with
  | none => exact ⟨rfl, rfl, Settled.refl s, rfl⟩
  | some b =>
    refine ⟨?_, ?_, settled_complete s b, ?_⟩
    · rw [Option.elim_some, complete_eq]
    · rw [Option.elim_some, complete_eq]
    · rw [Option.elim_some, complete_eq]
      rfl

/-- All that the accounts say of a job that is gone, and of its tiles with it. -/
theorem Accounted.dropped (h : s.Accounted (w :: others)) (h' : s'.Accounted others)
    (hsettled : Settled s s') (hpool : s'.pool = s.pool)
    (htold : s'.client.invalidations = s.client.invalidations +
      (decide (w.pending ≠ [] ∧ owed w.job.batch others = []) &&
        s.batches[w.job.batch]?.any s.hears).toNat) : Dropped s s' := by
  have hbefore : ∀ k, k < s.batches.size →
      s.hasFired k = decide (w.pendingFor k = [] ∧ owed k others = []) := by
    intro k hk
    rw [h.hasFired hk, owed_cons]
    simp only [List.append_eq_nil_iff]
  have hafter : ∀ k, k < s.batches.size → s'.hasFired k = decide (owed k others = []) :=
    fun k hk => h'.hasFired (by rw [hsettled.size]; exact hk)
  have hsmall : ∀ k, s.hasFired k = true → k < s.batches.size := by
    intro k hfired
    refine Nat.lt_of_not_le fun hge => ?_
    rw [hasFired_of_size_le hge] at hfired
    cases hfired
  refine ⟨hsettled, hpool, fun k hfired => ?_, ?_⟩
  · have hk := hsmall k hfired
    rw [hbefore k hk, decide_eq_true_eq] at hfired
    rw [hafter k hk, decide_eq_true hfired.2]
  · -- no other barrier fires
    have hk := h.batch_lt w (List.mem_cons_self ..)
    have hothers : ∀ k, k ≠ w.job.batch → firesHeard s s' k = false := by
      intro k hne
      have hsame : s'.hasFired k = s.hasFired k := by
        by_cases hk : k < s.batches.size
        · rw [hbefore k hk, hafter k hk, Work.pendingFor, if_neg (Ne.symm hne)]
          simp only [true_and]
        · have hge := Nat.le_of_not_lt hk
          rw [hasFired_of_size_le hge, hasFired_of_size_le (by rw [hsettled.size]; exact hge)]
      rw [firesHeard, hsame, Bool.not_and_self, Bool.false_and]
    have hfires : (!s.hasFired w.job.batch && s'.hasFired w.job.batch) =
        decide (w.pending ≠ [] ∧ owed w.job.batch others = []) := by
      rw [hbefore _ hk, hafter _ hk, Work.pendingFor, if_pos rfl, Bool.eq_iff_iff]
      simp only [Bool.and_eq_true, Bool.not_eq_true', decide_eq_false_iff_not, decide_eq_true_eq,
        not_and]
      exact ⟨fun ⟨hnot, howed⟩ => ⟨fun hnone => hnot hnone howed, howed⟩,
        fun ⟨hsome, howed⟩ => ⟨fun hnone => absurd hnone hsome, howed⟩⟩
    rw [htold, countP_range_eq hk hothers, firesHeard, hfires, hsettled.any_hears]

/-- **A job that is dropped before it was run** arrives for all its tiles, and completes
    its batch if these are the last ones. -/
theorem Accounted.dropJob (h : s.Accounted (w :: others)) (hworking : w.phase.stage? = none) :
    (s.dropJob w.job).Accounted others ∧ Dropped s (s.dropJob w.job) := by
  have hkeeps := keeps_none w
  have hfires : (s.arrive w.job.batch w.pending.length).2 =
      decide (w.pending ≠ [] ∧ owed w.job.batch others = []) := h.arrive_fires hkeeps
  have haccounted := h.arriveFor hworking hkeeps
  have hsettled := settled_arrive s w.job.batch w.pending.length
  have hpool := (BooksOnly.arrive s w.job.batch w.pending.length).pool
  have hclient : (s.arrive w.job.batch w.pending.length).1.client = s.client := by
    unfold arrive
    split <;> rfl
  unfold Scheduler.dropJob
  rw [endJob_eq]
  unfold Scheduler.arriveFor at haccounted ⊢
  cases hlast : (s.arrive w.job.batch w.pending.length).2 with
  | false =>
    simp only [hlast, Bool.false_eq_true, if_false] at haccounted ⊢
    refine ⟨haccounted, h.dropped haccounted hsettled hpool ?_⟩
    rw [← hfires, hlast, hclient]
    rfl
  | true =>
    simp only [hlast, if_true] at haccounted ⊢
    -- the job has no tile any more, so the accounts are in order without it
    have hforget := Accounted.forget haccounted (hkeeps.pending_completed rfl)
    obtain ⟨hbatches, hsame, hcomplete, hheard⟩ :=
      complete_at (s := (s.arrive w.job.batch w.pending.length).1) (k := w.job.batch)
    have hafter := hforget.congr hbatches
    refine ⟨hafter, h.dropped hafter (hsettled.trans hcomplete) (hsame.trans hpool) ?_⟩
    rw [hheard, ← hfires, hlast, hclient, hsettled.any_hears, Bool.true_and]

/-- They are dropped one after the other. -/
theorem foldl_dropJob (queue : List Work) (h : s.Accounted (queue ++ others))
    (hworking : ∀ w ∈ queue, w.phase.stage? = none) :
    (queue.foldl (fun s work => s.dropJob work.job) s).Accounted others ∧
      Dropped s (queue.foldl (fun s work => s.dropJob work.job) s) := by
  induction queue generalizing s with
  | nil => exact ⟨h, Dropped.refl s⟩
  | cons w queue ih =>
    obtain ⟨haccounted, hdropped⟩ := h.dropJob (hworking w (List.mem_cons_self ..))
    obtain ⟨hrest, hdropped'⟩ :=
      ih haccounted fun w' hw' => hworking w' (List.mem_cons_of_mem _ hw')
    exact ⟨hrest, hdropped.trans hdropped'⟩

end TilePaint.Scheduler
