/-
  TilePaint/Proofs/TaskMerging.lean
  =================================
  **Merging ranges into a task, list after list.**

  Every merge keeps the result to the viewport band before it brings it into
  canonical form.  A range over the edge of the band is cut there, and the ranges it
  would have been joined with may lie outside.  So it is not plain that what is merged
  first and what later, or in one list with it, makes no difference.

  `IsMerge` says of a task what it covers and which neighbours share a range in it;
  being in the band is part of both.  This does determine the task (`IsMerge.unique`),
  and it composes, since the band asks the same of a tile each time.  So nothing but
  the ranges that were merged in shows in the result (`mergeEach_congr`).
-/
import TilePaint.Proofs.Coalescing
import TilePaint.Proofs.RangeJoins

namespace TilePaint

namespace Task

/-! ## 1. What one merge leaves -/

/-- Nothing tells the tasks apart but their flags. -/
def EqUpToFlags (a b : Task) : Prop :=
  a = { b with skipPaint := a.skipPaint, skipInvalidation := a.skipInvalidation }

theorem EqUpToFlags.ranges {a b : Task} (h : a.EqUpToFlags b) : a.ranges = b.ranges := by
  unfold EqUpToFlags at h
  rw [h]

/-- Task `m` is task `t` with further ranges, kept to the viewport band of `t`. -/
structure IsMerge (c : TileCache) (t : Task) (extra : List TileRange) (m : Task) : Prop where
  document : m.document = t.document
  y : m.y = t.y
  height : m.height = t.height
  scale : m.scale = t.scale
  full : m.full = t.full
  wellFormed : TileRange.AllWellFormed m.ranges
  ascending : TileRange.Ascending m.ranges
  covers : ∀ i, Covers m.ranges i ↔
    (Covers t.ranges i ∨ Covers extra i) ∧ InBand c t.y t.height i
  joins : ∀ k, Joins m.ranges k ↔
    (Joins t.ranges k ∨ Joins extra k) ∧ InBand c t.y t.height k ∧ InBand c t.y t.height (k + 1)

variable {t m m' : Task} {c : TileCache} {flags : FlagStore} {extra extra' more : List TileRange}
  {i k : Nat}

theorem joins_merge :
    Joins (t.merge extra c flags).1.ranges k ↔
      (Joins t.ranges k ∨ Joins extra k) ∧
        InBand c t.y t.height k ∧ InBand c t.y t.height (k + 1) := by
  show Joins (TileRange.normalize _) k ↔ _
  rw [TileRange.joins_normalize]
  unfold InBand
  split
  · next limit hlimit =>
    simp only [TileRange.joins_restrict, joins_append, hlimit, Option.some.injEq, forall_eq']
  · next hnone =>
    simp only [joins_append, hnone, reduceCtorEq, false_implies, implies_true, and_true]

theorem isMerge_merge (c : TileCache) (flags : FlagStore) (ht : TileRange.AllWellFormed t.ranges)
    (hextra : TileRange.AllWellFormed extra) : IsMerge c t extra (t.merge extra c flags).1 where
  document := rfl
  y := rfl
  height := rfl
  scale := rfl
  full := rfl
  wellFormed := wellFormed_merge ht hextra c flags
  ascending := TileRange.ascending_normalize _
  covers _ := covers_merge
  joins _ := joins_merge

/-- **One merge after another** is one with the ranges of both. -/
theorem IsMerge.merge (h : IsMerge c t extra m) (flags : FlagStore)
    (hmore : TileRange.AllWellFormed more) :
    IsMerge c t (extra ++ more) (m.merge more c flags).1 := by
  refine { isMerge_merge c flags h.wellFormed hmore with
    document := h.document, y := h.y, height := h.height, scale := h.scale, full := h.full
    covers := fun i => ?_, joins := fun k => ?_ }
  · -- the tiles of `m` are in the band already
    rw [covers_merge, h.covers, h.y, h.height, covers_append, or_and_right, and_assoc, and_self,
      ← or_and_right, or_assoc]
  · rw [joins_merge, h.joins, h.y, h.height, joins_append, or_and_right, and_assoc, and_self,
      ← or_and_right, or_assoc]

/-- Two merges that add the same to the task differ in their flags at most. -/
theorem IsMerge.unique (h : IsMerge c t extra m) (h' : IsMerge c t extra' m')
    (hcovers : ∀ i, Covers t.ranges i ∨ Covers extra i ↔ Covers t.ranges i ∨ Covers extra' i)
    (hjoins : ∀ k, Joins t.ranges k ∨ Joins extra k ↔ Joins t.ranges k ∨ Joins extra' k) :
    m.EqUpToFlags m' := by
  -- all but the ranges comes from the task; these are determined by tiles and joins
  have hranges : m.ranges = m'.ranges :=
    h.ascending.ext h'.ascending h.wellFormed h'.wellFormed
      (fun i => by rw [h.covers, h'.covers, hcovers])
      fun k => by rw [h.joins, h'.joins, hjoins]
  have hdocument := h.document.trans h'.document.symm
  have hy := h.y.trans h'.y.symm
  have hheight := h.height.trans h'.height.symm
  have hscale := h.scale.trans h'.scale.symm
  have hfull := h.full.trans h'.full.symm
  cases m
  cases m'
  cases hranges
  cases hdocument
  cases hy
  cases hheight
  cases hscale
  cases hfull
  rfl

/-! ## 2. A sequence of merges -/

/-- The task after the lists of `extras` were merged into it, one after the other. -/
def mergeEach (t : Task) (extras : List (List TileRange)) (c : TileCache) (flags : FlagStore) :
    Task × FlagStore :=
  extras.foldl (fun merged extra => merged.1.merge extra c merged.2) (t, flags)

theorem IsMerge.mergeEach {extras : List (List TileRange)} (h : IsMerge c t extra m)
    (hextras : ∀ more ∈ extras, TileRange.AllWellFormed more) :
    IsMerge c t (extra ++ extras.flatten) (m.mergeEach extras c flags).1 := by
  induction extras generalizing m extra flags with
  | nil =>
    rw [List.flatten_nil, List.append_nil]
    exact h
  | cons more rest ih =>
    have hmore := h.merge flags (hextras more (List.mem_cons_self ..))
    rw [List.flatten_cons, ← List.append_assoc]
    exact ih hmore fun later hlater => hextras later (List.mem_cons_of_mem _ hlater)

/-- **A whole sequence** of merges is one with all their ranges.  A task that nothing
    was merged into need not keep to its band. -/
theorem isMerge_mergeEach {extras : List (List TileRange)} (hsome : extras ≠ [])
    (ht : TileRange.AllWellFormed t.ranges)
    (hextras : ∀ extra ∈ extras, TileRange.AllWellFormed extra) :
    IsMerge c t extras.flatten (t.mergeEach extras c flags).1 := by
  cases extras with
  | nil => exact absurd rfl hsome
  | cons extra rest =>
    have hfirst := isMerge_merge c flags ht
      (hextras extra (List.mem_cons_self ..))
    exact hfirst.mergeEach fun more hmore => hextras more (List.mem_cons_of_mem _ hmore)

/-- **Only the ranges count**: not their order, nor how they are spread over lists. -/
theorem mergeEach_congr {extras extras' : List (List TileRange)} (hsome : extras ≠ [])
    (hsome' : extras' ≠ []) (ht : TileRange.AllWellFormed t.ranges)
    (hextras : ∀ extra ∈ extras, TileRange.AllWellFormed extra)
    (hsame : ∀ r, r ∈ extras.flatten ↔ r ∈ extras'.flatten) :
    (t.mergeEach extras c flags).1.EqUpToFlags (t.mergeEach extras' c flags).1 := by
  have hextras' : ∀ extra ∈ extras', TileRange.AllWellFormed extra := by
    intro extra hextra r hr
    obtain ⟨other, hother, hr⟩ :=
      List.mem_flatten.mp ((hsame r).mpr (List.mem_flatten.mpr ⟨extra, hextra, hr⟩))
    exact hextras other hother r hr
  refine (isMerge_mergeEach hsome ht hextras).unique (isMerge_mergeEach hsome' ht hextras')
    (fun i => ?_) fun k => ?_
  · simp only [Covers, hsame]
  · simp only [Joins, hsame]

/-- Merging in what the task has got by a merge changes nothing. -/
theorem mergeEach_own (ht : TileRange.AllWellFormed t.ranges)
    (hextra : TileRange.AllWellFormed extra) :
    (t.mergeEach [extra, (t.merge extra c flags).1.ranges] c flags).1.EqUpToFlags
      (t.merge extra c flags).1 := by
  have hmerge := isMerge_merge c flags ht hextra
  refine (hmerge.merge _ hmerge.wellFormed).unique hmerge (fun i => ?_) fun k => ?_
  · rw [covers_append, hmerge.covers, ← or_assoc, or_iff_left_of_imp And.left]
  · rw [joins_append, hmerge.joins, ← or_assoc, or_iff_left_of_imp And.left]

/-! ## 3. The algebra

In the sample, a view of one row is at the second of four rows of two tiles.  Its band
has a row more. -/

namespace Sample

def fourRows : TileCache :=
  ((CacheSession.ofCache CacheSession.Sample.twoSlots).operate (.resize 30 60)).cache

def secondRow : Task where
  document := ⟨0, 1⟩
  y := 1
  height := 1
  scale := 1
  full := false
  ranges := [⟨1, 2⟩, ⟨6, 6⟩]
  skipPaint := ⟨0⟩
  skipInvalidation := ⟨1⟩

end Sample

/-- **The algebra of merges.**  Two lists of ranges may be merged into a task in either
    order, or as one list.  Merging the first one again changes nothing, nor does merging
    no range, or the ranges that the task has by then.  What is merged is an ascending
    list of disjoint ranges for the tiles of both that are in the viewport band; a grid
    without tiles has no band, and all of them are kept.  All else stays as it was, but for
    the flags: they are new, and nobody has set them. -/
theorem merge_algebra (c : TileCache) (flags : FlagStore) {a b : List TileRange}
    (ht : TileRange.AllWellFormed t.ranges) (ha : TileRange.AllWellFormed a)
    (hb : TileRange.AllWellFormed b) :
    (t.mergeEach [a, b] c flags).1.EqUpToFlags (t.mergeEach [b, a] c flags).1 ∧
      (t.mergeEach [a, b] c flags).1.EqUpToFlags (t.merge (a ++ b) c flags).1 ∧
      (t.mergeEach [a, a] c flags).1.EqUpToFlags (t.merge a c flags).1 ∧
      (t.mergeEach [a, []] c flags).1.EqUpToFlags (t.merge a c flags).1 ∧
      (t.mergeEach [a, (t.merge a c flags).1.ranges] c flags).1.EqUpToFlags
        (t.merge a c flags).1 ∧
      TileRange.Ascending (t.merge a c flags).1.ranges ∧
      TileRange.AllWellFormed (t.merge a c flags).1.ranges ∧
      (c.grid.isEmpty = false → ∃ limit, c.viewportBand t.y t.height = some limit ∧
        ∀ i, Covers (t.merge a c flags).1.ranges i ↔
          (Covers t.ranges i ∨ Covers a i) ∧ i ∈ limit) ∧
      (c.grid.isEmpty = true → c.viewportBand t.y t.height = none ∧
        ∀ i, Covers (t.merge a c flags).1.ranges i ↔ Covers t.ranges i ∨ Covers a i) ∧
      (t.merge a c flags).1 = { t with
        ranges := (t.merge a c flags).1.ranges
        skipPaint := (t.merge a c flags).1.skipPaint
        skipInvalidation := (t.merge a c flags).1.skipInvalidation } ∧
      NewFlags flags (t.merge a c flags).2 (t.merge a c flags).1.skipPaint
        (t.merge a c flags).1.skipInvalidation := by
  have hmerge := isMerge_merge c flags ht ha
  have hempty : TileRange.AllWellFormed [] := List.forall_mem_nil _
  refine ⟨?_, ?_, ?_, ?_, mergeEach_own ht ha, hmerge.ascending, hmerge.wellFormed, ?_, ?_, rfl,
    newFlags_fresh (Nat.le_refl _)⟩
  · exact mergeEach_congr nofun nofun ht (by simp [ha, hb]) (by simp [or_comm])
  · -- merging all at once is merging a single list
    show (t.mergeEach [a, b] c flags).1.EqUpToFlags (t.mergeEach [a ++ b] c flags).1
    exact mergeEach_congr nofun nofun ht (by simp [ha, hb]) (by simp)
  · show (t.mergeEach [a, a] c flags).1.EqUpToFlags (t.mergeEach [a] c flags).1
    exact mergeEach_congr nofun nofun ht (by simp [ha]) (by simp)
  · show (t.mergeEach [a, []] c flags).1.EqUpToFlags (t.mergeEach [a] c flags).1
    exact mergeEach_congr nofun nofun ht (by simp [ha, hempty]) (by simp)
  · intro hgrid
    obtain ⟨limit, hlimit⟩ := exists_viewportBand t.y t.height hgrid
    refine ⟨limit, hlimit, fun i => ?_⟩
    rw [hmerge.covers, inBand_iff_mem hlimit]
  · intro hgrid
    have hnone := viewportBand_of_isEmpty t.y t.height hgrid
    refine ⟨hnone, fun i => ?_⟩
    rw [hmerge.covers, and_iff_left (inBand_of_none hnone)]

theorem merge_algebra_over_the_edge :
    TileRange.AllWellFormed Sample.secondRow.ranges ∧ TileRange.AllWellFormed [⟨2, 3⟩] ∧
      TileRange.AllWellFormed [⟨5, 9⟩, ⟨3, 4⟩] ∧
      Sample.fourRows.viewportBand Sample.secondRow.y Sample.secondRow.height = some ⟨2, 5⟩ ∧
      (Sample.secondRow.mergeEach [[⟨5, 9⟩, ⟨3, 4⟩], [⟨2, 3⟩]] Sample.fourRows .empty).1.ranges =
        [⟨2, 4⟩, ⟨5, 5⟩] := by
  have ht : TileRange.AllWellFormed Sample.secondRow.ranges := by decide
  have ha : TileRange.AllWellFormed [⟨2, 3⟩] := by decide
  have hb : TileRange.AllWellFormed [⟨5, 9⟩, ⟨3, 4⟩] := by decide
  have horder := (merge_algebra Sample.fourRows .empty ht ha hb).1.ranges
  refine ⟨ht, ha, hb, by decide +kernel, ?_⟩
  rw [← horder]
  decide +kernel

end Task

end TilePaint
