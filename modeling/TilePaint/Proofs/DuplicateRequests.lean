/-
  TilePaint/Proofs/DuplicateRequests.lean
  =======================================
  **A request for the very tiles that are being painted.**

  Such a request should leave the batch in flight alone, wherever its view is.  The
  current task is compared with the queued one only after the unfinished tiles were
  folded into the queued one, and the comparison is one of lists.  Folding adds no
  tile, but it may join ranges: where two ranges of the task meet and neither of the
  two tiles there is painted (`Seam`), the remaining tiles are cut anew and the seam
  is gone.  Then the lists differ, and if the view has moved the task is cancelled.

  `schedule_duplicate` says that this is the one exception.
-/
import TilePaint.Proofs.BatchCompletion
import TilePaint.Proofs.RequestCoverage
import TilePaint.Proofs.TaskMerging

namespace TilePaint

/-! ## 1. Seams -/

/-- Two ranges of a list meet between tiles `k` and `k + 1`, and neither of the two
    tiles is painted. -/
def TileCache.Seam (c : TileCache) (ranges : List TileRange) (k : Nat) : Prop :=
  Covers (c.remaining ranges) k ∧ Covers (c.remaining ranges) (k + 1) ∧ ¬Joins ranges k

namespace Scheduler

open TileCache

/-! ## 2. An advance in favour of a duplicate -/

/-- A request for the tiles of task `c`, whose view has all of them. -/
structure Repeats (s : Scheduler) (c : Task) (r : Request) : Prop where
  document : c.document.same r.document = true
  ranges : TileRange.normalize r.ranges = c.ranges
  band : ∀ i, Covers c.ranges i → InBand s.cache r.y r.height i

/-- In the middle of the advance from `s`: the queued task has the view of the request
    and the tiles of the current one, and joins neighbours as in `joined`. -/
structure Follows (s : Scheduler) (c : Task) (r : Request) (joined : Nat → Prop)
    (u : Scheduler) (q : Task) : Prop where
  current : u.current = some c
  queued : u.queued = some q
  cache : u.cache = s.cache
  grows : s.flags.cells.size ≤ u.flags.cells.size
  flags : ∀ f, u.flags.isSet f = s.flags.isSet f
  view : HasView r q
  ascending : TileRange.Ascending q.ranges
  wellFormed : TileRange.AllWellFormed q.ranges
  covers : ∀ i, Covers q.ranges i ↔ Covers c.ranges i
  joins : ∀ k, Joins q.ranges k ↔ joined k

variable {s u : Scheduler} {c q : Task} {r : Request} {joined joined' : Nat → Prop}

theorem Follows.congr (h : Follows s c r joined u q) (hjoined : ∀ k, joined k ↔ joined' k) :
    Follows s c r joined' u q :=
  { h with joins := fun k => (h.joins k).trans (hjoined k) }

/-- Merging tiles of the task into the queued one changes joins only. -/
theorem Follows.queueMerged (h : Follows s c r joined u q) (hrepeats : s.Repeats c r)
    {extra : List TileRange} (hextra : TileRange.AllWellFormed extra)
    (hsub : ∀ i, Covers extra i → Covers c.ranges i) :
    Follows s c r (fun k => joined k ∨ Joins extra k) (u.queueMerged q extra)
      (q.merge extra u.cache u.flags).1 := by
  -- all that the merge adds is inside the band, so clipping removes nothing
  have hband : ∀ i, Covers q.ranges i ∨ Covers extra i →
      InBand u.cache q.y q.height i := by
    intro i hi
    rw [h.cache, h.view.y, h.view.height]
    exact hrepeats.band i (hi.elim (h.covers i).mp (hsub i))
  have hsize := Task.size_cells_merge q extra u.cache u.flags
  have hgrows := h.grows
  refine ⟨h.current, rfl, h.cache, ?_, ?_, ⟨h.view.document, h.view.y, h.view.height,
    h.view.scale⟩, TileRange.ascending_normalize _,
    Task.wellFormed_merge h.wellFormed hextra u.cache u.flags, ?_, ?_⟩
  · show _ ≤ (q.merge extra u.cache u.flags).2.cells.size
    omega
  · intro f
    show (q.merge extra u.cache u.flags).2.isSet f = _
    rw [← h.flags]
    simp only [Task.merge, FlagStore.isSet_fresh]
  · intro i
    rw [covers_merge]
    constructor
    · rintro ⟨hi | hi, -⟩
      · exact (h.covers i).mp hi
      · exact hsub i hi
    · intro hi
      have hi := (h.covers i).mpr hi
      exact ⟨Or.inl hi, hband i (Or.inl hi)⟩
  · intro k
    rw [Task.joins_merge, h.joins]
    refine and_iff_left_of_imp fun hk => ?_
    rcases hk with hk | hk
    · obtain ⟨hleft, hright⟩ := ((h.joins k).mpr hk).covers
      exact ⟨hband _ (Or.inl hleft), hband _ (Or.inl hright)⟩
    · exact ⟨hband _ (Or.inr hk.covers.1), hband _ (Or.inr hk.covers.2)⟩

/-- The joins of the queued task at the end: those of the task, and those that the
    fold of its unfinished tiles adds. -/
def FoldedJoins (s : Scheduler) (c : Task) (r : Request) (k : Nat) : Prop :=
  Joins c.ranges k ∨ (c.compatible (Task.ofRequest r s.flags).1 = true ∧
    Joins (s.cache.remaining c.ranges) k)

theorem Follows.foldRemaining (h : Follows s c r (Joins c.ranges) u q)
    (hrepeats : s.Repeats c r) :
    ∃ q', Follows s c r (s.FoldedJoins c r) u.foldRemaining q' := by
  have hsub : ∀ i, Covers (s.cache.remaining c.ranges) i → Covers c.ranges i :=
    fun i hi => (covers_remaining.mp hi).1
  have hcompatible : c.compatible q = c.compatible (Task.ofRequest r s.flags).1 :=
    (h.view.compatible ⟨rfl, rfl, rfl, rfl⟩ c).2
  rcases foldRemaining_cases h.current h.queued with ⟨hsame, hnothing⟩ | ⟨hmerged, htogether⟩
  · rw [hsame]
    refine ⟨q, h.congr fun k => (or_iff_left ?_).symm⟩
    rintro ⟨htogether, hjoins⟩
    rw [← h.cache, hnothing (hcompatible.trans htogether)] at hjoins
    exact joins_nil.mp hjoins
  · rw [hmerged, h.cache]
    refine ⟨_, (h.queueMerged hrepeats (wellFormed_remaining s.cache c.ranges) hsub).congr
      fun k => ?_⟩
    simp only [FoldedJoins, hcompatible.symm.trans htogether, true_and]

theorem Follows.clipQueued (h : Follows s c r joined u q) (hrepeats : s.Repeats c r) :
    ∃ q', Follows s c r joined u.clipQueued q' := by
  have hnone : TileRange.AllWellFormed [] := nofun
  unfold Scheduler.clipQueued
  rw [h.queued]
  refine ⟨_, (h.queueMerged hrepeats hnone fun i hi => ?_).congr fun k => ?_⟩
  · exact absurd hi (covers_nil.mp ·)
  · rw [joins_nil, or_false]

theorem follows_enqueue (hcurrent : s.current = some c) (hr : TileRange.AllWellFormed r.ranges)
    (hleft : s.leftover r = []) (hrepeats : s.Repeats c r) :
    ∃ q, Follows s c r (Joins c.ranges) (s.enqueue r) q := by
  have habsorb : (s.absorb r).ranges = r.ranges := by
    rw [absorb_eq, hleft]
    exact List.append_nil _
  have hranges : (Task.ofRequest (s.absorb r) s.flags).1.ranges = c.ranges := by
    show TileRange.normalize (s.absorb r).ranges = _
    rw [habsorb]
    exact hrepeats.ranges
  have hsize := Task.size_cells_ofRequest (s.absorb r) s.flags
  refine ⟨_, hcurrent, rfl, rfl, ?_, ?_, ?_, ?_, ?_, ?_, ?_⟩
  · show _ ≤ (Task.ofRequest (s.absorb r) s.flags).2.cells.size
    omega
  · intro f
    show (Task.ofRequest (s.absorb r) s.flags).2.isSet f = _
    simp only [Task.ofRequest, FlagStore.isSet_fresh]
  · rw [absorb_eq]
    exact ⟨rfl, rfl, rfl, rfl⟩
  · exact TileRange.ascending_normalize _
  · rw [hranges, ← hrepeats.ranges]
    exact hr.normalize
  · intro i
    rw [hranges]
  · intro k
    rw [hranges]

/-- The one case in which a request for the tiles of the current task cancels it. -/
def Overridden (s : Scheduler) (c : Task) (r : Request) : Prop :=
  s.clientCache = .ok true ∧ c.compatible (Task.ofRequest r s.flags).1 = true ∧ c.y ≠ r.y ∧
    ∃ k, s.cache.Seam c.ranges k

/-- The queued task is the same list of ranges unless it gained a join. -/
theorem Follows.sameTiles_iff (h : Follows s c r joined u q) (hrepeats : s.Repeats c r)
    (hr : TileRange.AllWellFormed r.ranges) :
    c.sameTiles q = true ↔ ∀ k, joined k ↔ Joins c.ranges k := by
  have hdocument : c.document.same q.document = true := by
    rw [h.view.document]
    exact hrepeats.document
  rw [Task.sameTiles, hdocument, Bool.true_and, beq_iff_eq]
  constructor
  · intro hranges k
    rw [← h.joins, hranges]
  · intro hjoins
    refine TileRange.Ascending.ext ?_ h.ascending ?_ h.wellFormed (fun i => (h.covers i).symm)
      fun k => ((h.joins k).trans (hjoins k)).symm
    · rw [← hrepeats.ranges]
      exact TileRange.ascending_normalize _
    · rw [← hrepeats.ranges]
      exact hr.normalize

/-- Folding gains a join at a seam, and only there. -/
theorem foldedJoins_iff (hasc : TileRange.Ascending c.ranges) :
    (∀ k, s.FoldedJoins c r k ↔ Joins c.ranges k) ↔
      ¬(c.compatible (Task.ofRequest r s.flags).1 = true ∧ ∃ k, s.cache.Seam c.ranges k) := by
  unfold FoldedJoins Seam
  simp only [joins_remaining hasc]
  constructor
  · rintro hsame ⟨htogether, k, hleft, hright, hapart⟩
    exact hapart ((hsame k).mp (Or.inr ⟨htogether, hleft, hright⟩))
  · intro hnone k
    refine ⟨fun hk => ?_, Or.inl⟩
    by_contra hapart
    rcases hk with hk | ⟨htogether, hleft, hright⟩
    · exact hapart hk
    · exact hnone ⟨htogether, k, hleft, hright, hapart⟩

/-- Retiring the current task leaves the flags alone or sets its two flags. -/
theorem Follows.retire (h : Follows s c r joined u q) (hc : c.Kept s.flags) :
    (c.sameTiles q = true ∨ c.y = r.y → ∀ f, u.retire.flags.isSet f = s.flags.isSet f) ∧
      (¬(c.sameTiles q = true ∨ c.y = r.y) →
        u.retire.flags.isSet c.skipPaint = true ∧
          u.retire.flags.isSet c.skipInvalidation = true) := by
  have hpaint : u.flags.Has c.skipPaint := Nat.lt_of_lt_of_le hc.skipPaint h.grows
  have hinvalidation : (u.flags.set c.skipPaint).Has c.skipInvalidation :=
    FlagStore.Has.set (Nat.lt_of_lt_of_le hc.skipInvalidation h.grows)
  rw [← h.view.y]
  rcases retire_cases u with ⟨c', q', hc', hq', ⟨hother, hy⟩, hretire⟩ | ⟨hkeep, hretire⟩
  · cases h.current.symm.trans hc'
    cases h.queued.symm.trans hq'
    rw [hretire]
    refine ⟨fun hkeep => ?_, fun _ => ?_⟩
    · rcases hkeep with hsame | hsame
      · cases hsame.symm.trans hother
      · exact absurd hsame hy
    · simp only [Task.cancel, FlagStore.isSet_set hinvalidation, FlagStore.isSet_set hpaint,
        decide_true, Bool.true_or, Bool.or_true, and_self]
  · rw [hretire]
    exact ⟨fun _ => h.flags, absurd (hkeep c q h.current h.queued)⟩

/-! ## 3. A duplicate -/

theorem flags_of_duplicate (hkept : s.TasksKept) (hcurrent : s.current = some c)
    (hr : TileRange.AllWellFormed r.ranges) (hleft : s.leftover r = [])
    (hrepeats : s.Repeats c r) :
    (¬s.Overridden c r → ∀ f, (s.schedule r).1.flags.isSet f = s.flags.isSet f) ∧
      (s.Overridden c r →
        (s.schedule r).1.flags.isSet c.skipPaint = true ∧
          (s.schedule r).1.flags.isSet c.skipInvalidation = true) := by
  have hc := hkept.current c hcurrent
  obtain ⟨q, hq⟩ := follows_enqueue hcurrent hr hleft hrepeats
  rw [schedule_of_some hcurrent]
  rcases scheduleNext_cases (s.enqueue r) [] with ⟨fault, hfault, hnext⟩ | ⟨hasCache, hok, hnext⟩
  · rw [hnext]
    refine ⟨fun _ => hq.flags, fun hover => ?_⟩
    cases hover.1.symm.trans hfault
  · rw [hnext, (SameTasks.dispatch _).flags]
    cases hasCache with
    | false =>
      -- nothing is folded, so the lists are the same
      have hsame := (hq.sameTiles_iff hrepeats hr).mpr fun _ => Iff.rfl
      refine ⟨fun _ => (hq.retire hc).1 (Or.inl hsame), fun hover => ?_⟩
      cases hover.1.symm.trans hok
    | true =>
      obtain ⟨q₁, hq₁⟩ := hq.foldRemaining hrepeats
      obtain ⟨q₂, hq₂⟩ := hq₁.clipQueued hrepeats
      have hasc : TileRange.Ascending c.ranges := by
        rw [← hrepeats.ranges]
        exact TileRange.ascending_normalize _
      have hkeep : c.sameTiles q₂ = true ∨ c.y = r.y ↔ ¬s.Overridden c r := by
        rw [hq₂.sameTiles_iff hrepeats hr, foldedJoins_iff hasc]
        constructor
        · rintro hkeep ⟨-, htogether, hy, hseam⟩
          rcases hkeep with hnone | hsame
          · exact hnone ⟨htogether, hseam⟩
          · exact hy hsame
        · intro hnot
          refine or_iff_not_imp_right.mpr fun hy hboth => ?_
          exact hnot ⟨hok, hboth.1, hy, hboth.2⟩
      obtain ⟨hkeeps, hcancels⟩ := hq₂.retire hc
      refine ⟨fun hnot => hkeeps (hkeep.mpr hnot), fun hover => hcancels fun hkept => ?_⟩
      exact hkeep.mp hkept hover

/-- A dispatch leaves the batches before it alone, and their jobs. -/
theorem dispatch_keeps (hopen : s.pool.stopping = false) :
    (∀ k, k < s.batches.size → s.dispatch.1.batches[k]? = s.batches[k]?) ∧
      s.pool.jobs <+: s.dispatch.1.pool.jobs ∧
      s.dispatch.1.client.alive = s.client.alive := by
  rcases dispatch_cases s with ⟨t, total, -, h⟩ | ⟨cache, outcome, h, -⟩
  · rw [h]
    refine ⟨fun k hk => ?_, ?_, ?_⟩
    · unfold dispatched
      rw [addBatch_eq]
      exact (Array.getElem?_push ..).trans (if_neg (Nat.ne_of_lt hk))
    · rw [dispatched_pool hopen, Pool.jobs_append]
      exact List.prefix_append _ _
    · unfold dispatched
      rw [addBatch_eq]
      rfl
  · rw [h]
    exact ⟨fun _ _ => rfl, List.prefix_refl _, rfl⟩

theorem schedule_keeps (hopen : s.pool.stopping = false) (r : Request) :
    (∀ k, k < s.batches.size → (s.schedule r).1.batches[k]? = s.batches[k]?) ∧
      s.pool.jobs <+: (s.schedule r).1.pool.jobs ∧
      (s.schedule r).1.client.alive = s.client.alive := by
  rcases perform_cases s (.schedule r) with ⟨u, hsame, hcall⟩ | ⟨hbatches, hclient, hpool⟩
  · have hopen' : u.pool.stopping = false := by
      rw [hsame.pool]
      exact hopen
    have hkeeps := dispatch_keeps hopen'
    rw [← hcall, hsame.batches, hsame.pool, hsame.client] at hkeeps
    exact hkeeps
  · exact ⟨fun _ _ => congrArg (·[_]?) hbatches,
      ⟨[], (List.append_nil _).trans (Pool.jobs_eq_of_stop (hpool.imp_right And.right)).symm⟩,
      congrArg Client.alive hclient⟩

/-- **A request for the tiles of the current task**, in a view that has all of them
    and with no task left queued.  It leaves every batch in flight and its jobs alone.
    No flag changes, and the client is told of every completion that it would have been
    told of, unless the request is compatible with the task, is for another place, and the
    task has a seam between two unpainted tiles: then both flags of the task are set. -/
theorem schedule_duplicate (hs : Reachable wellFormed s) (hcurrent : s.current = some c)
    (hr : TileRange.AllWellFormed r.ranges) (hleft : s.leftover r = [])
    (hrepeats : s.Repeats c r) {s' : Scheduler}
    (hact : s.act (.call (.schedule r)) = some s') :
    (¬s.Overridden c r →
      (∀ f, s'.flags.isSet f = s.flags.isSet f) ∧ ∀ b, s'.hears b = s.hears b) ∧
    (s.Overridden c r →
      s'.flags.isSet c.skipPaint = true ∧ s'.flags.isSet c.skipInvalidation = true) ∧
    (∀ k, k < s.batches.size → s'.batches[k]? = s.batches[k]?) ∧
    s.pool.jobs <+: s'.pool.jobs := by
  obtain ⟨hopen, rfl⟩ := act_call hact
  obtain ⟨hbatches, hjobs, halive⟩ := schedule_keeps hopen r
  obtain ⟨hsame, hcancelled⟩ :=
    flags_of_duplicate (tasksKept_of_reachable hs) hcurrent hr hleft hrepeats
  refine ⟨fun hnot => ⟨hsame hnot, fun b => ?_⟩, hcancelled, hbatches, hjobs⟩
  show (s.schedule r).1.hears b = s.hears b
  rw [hears, hears, halive, hsame hnot, hsame hnot]

/-! ## 4. A seam

The current task is for tiles 0 and 1, asked for as two ranges, and nobody has painted
either.  A request for the same two ranges, one row further down, cancels it. -/

namespace Sample

def pairOf (y : Int) : Request := { requestOf [⟨0, 0⟩, ⟨1, 1⟩] with y, height := 2 }

def seamed : Scheduler := idle.after (.call (.schedule (pairOf 0)))

def seamedTask : Task where
  document
  y := 0
  height := 2
  scale := 1
  full := false
  ranges := [⟨0, 0⟩, ⟨1, 1⟩]
  skipPaint := ⟨1⟩
  skipInvalidation := ⟨2⟩

theorem current_seamed : seamed.current = some seamedTask := rfl

theorem reachable_seamed : Reachable wellFormed seamed :=
  Reachable.after (a := .call (.schedule (pairOf 0))) reachable_idle
    (show TileRange.AllWellFormed (pairOf 0).ranges by decide)

theorem repeats_pairOf {y : Int} (hband : seamed.cache.viewportBand y 2 = some ⟨0, 2⟩) :
    seamed.Repeats seamedTask (pairOf y) where
  document := by
    show document.same document = true
    decide
  ranges := by
    show TileRange.normalize [⟨0, 0⟩, ⟨1, 1⟩] = _
    decide
  band := by
    intro i hi limit hlimit
    have hlimit : some ⟨0, 2⟩ = some limit := hband.symm.trans hlimit
    cases hlimit
    simp only [seamedTask, covers_cons, covers_nil, or_false, TileRange.mem_def] at hi
    simp only [TileRange.mem_def]
    omega

theorem overridden_pairOf_one : seamed.Overridden seamedTask (pairOf 1) :=
  ⟨rfl, by decide +kernel, by decide, 0, by decide +kernel, by decide +kernel, by decide⟩

end Sample

theorem schedule_duplicate_seamed :
    Reachable wellFormed Sample.seamed ∧ Sample.seamed.current = some Sample.seamedTask ∧
      Sample.seamed.leftover (Sample.pairOf 1) = [] ∧
      Sample.seamed.Repeats Sample.seamedTask (Sample.pairOf 0) ∧
      Sample.seamed.Repeats Sample.seamedTask (Sample.pairOf 1) ∧
      (∀ f, (Sample.seamed.after (.call (.schedule (Sample.pairOf 0)))).flags.isSet f =
        Sample.seamed.flags.isSet f) ∧
      (Sample.seamed.after (.call (.schedule (Sample.pairOf 1)))).flags.isSet
        Sample.seamedTask.skipPaint = true := by
  have hleft : ∀ r, Sample.seamed.leftover r = [] := leftover_eq_nil rfl
  have hhere := Sample.repeats_pairOf (y := 0) (by decide +kernel)
  have hbelow := Sample.repeats_pairOf (y := 1) (by decide +kernel)
  obtain ⟨hkeeps, -, -⟩ := schedule_duplicate Sample.reachable_seamed Sample.current_seamed
    (by decide) (hleft _) hhere (act_after (by decide +kernel))
  obtain ⟨-, hcancels, -⟩ := schedule_duplicate Sample.reachable_seamed Sample.current_seamed
    (by decide) (hleft _) hbelow (act_after (by decide +kernel))
  exact ⟨Sample.reachable_seamed, Sample.current_seamed, hleft _, hhere, hbelow,
    (hkeeps fun hover => hover.2.2.1 rfl).1, (hcancels Sample.overridden_pairOf_one).1⟩

/-- A request for the very tiles that are being painted can cancel them. -/
theorem duplicate_may_cancel :
    ¬∀ (s s' : Scheduler) (c : Task) (r : Request), Reachable wellFormed s →
      s.current = some c → TileRange.AllWellFormed r.ranges → s.queued = none →
      c.compatible (Task.ofRequest r s.flags).1 = true → c.scale = r.scale → s.Repeats c r →
      s.act (.call (.schedule r)) = some s' →
        s'.flags.isSet c.skipPaint = s.flags.isSet c.skipPaint := by
  intro hnever
  have hsame := hnever Sample.seamed (Sample.seamed.after (.call (.schedule (Sample.pairOf 1))))
    Sample.seamedTask (Sample.pairOf 1) Sample.reachable_seamed Sample.current_seamed (by decide)
    rfl (by decide +kernel) rfl (Sample.repeats_pairOf (by decide +kernel))
    (act_after (by decide +kernel))
  have hbefore : Sample.seamed.flags.isSet Sample.seamedTask.skipPaint = false := by
    decide +kernel
  have hafter : (Sample.seamed.after (.call (.schedule (Sample.pairOf 1)))).flags.isSet
      Sample.seamedTask.skipPaint = true := by decide +kernel
  rw [hbefore, hafter] at hsame
  cases hsame

end Scheduler

end TilePaint
