/-
  TilePaint/Proofs/RemainingScan.lean
  ===================================
  **Finding the tiles that still need a render, one at a time.**

  `TileCache.remaining` says which tiles of some ranges are left, as a whole.  Here
  it is a scan in machine words: each range is walked from its first index up to the
  edge of the grid, each tile is looked up in the validity bits and in its slot, and
  an index that is kept is pushed behind the last range.  The lookup can be out of
  bounds and the push can overflow.  In a reachable session neither happens, and
  the scan answers what `remaining` says (`remaining_exact`), for ranges in any order
  that may overlap, reach beyond the grid, or be malformed.

  What carries the scan is that the ranges pushed so far are the runs of the indices
  kept so far (`pushIndex_runs`).  This is so for any walk that pushes the indices of
  what it keeps (`foldlM_pushWithin`), also for the survey of a display.
-/
import TilePaint.Proofs.CacheInvariant
import TilePaint.Proofs.RangeLists
import TilePaint.TileCache.Display

namespace TilePaint

namespace TileRange

variable {indices : List Nat} {index : Nat} {ranges : List TileRange}

/-! ## 1. Runs, one index at a time -/

/-- The two ends of a list of ranges grow independently. -/
theorem pushIndex_consIndex (i : Nat) (h : ranges ≠ []) :
    pushIndex (consIndex i ranges) index = consIndex i (pushIndex ranges index) := by
  cases ranges with
  | nil => exact absurd rfl h
  | cons r rest =>
    cases rest with
    | nil =>
      by_cases hfront : i + 1 = r.first <;> by_cases hback : r.last + 1 = index <;>
        simp only [consIndex, pushIndex, hfront, hback, if_true, if_false]
    | cons s rest =>
      by_cases hfront : i + 1 = r.first <;>
        simp only [consIndex, pushIndex, hfront, if_true, if_false]

theorem runs_cons_ne_nil (i : Nat) (indices : List Nat) : runs (i :: indices) ≠ [] := by
  intro hnil
  have hcovers : Covers (runs (i :: indices)) i := covers_runs.mpr (List.mem_cons_self ..)
  rw [hnil] at hcovers
  exact covers_nil.mp hcovers

/-- **An index that is pushed behind the runs of some indices** makes them the runs of
    the longer list. -/
theorem pushIndex_runs (indices : List Nat) (index : Nat) :
    pushIndex (runs indices) index = runs (indices ++ [index]) := by
  induction indices with
  | nil => rfl
  | cons i rest ih =>
    show pushIndex (consIndex i (runs rest)) index = consIndex i (runs (rest ++ [index]))
    cases rest with
    | nil =>
      simp only [runs, List.foldr_nil, List.nil_append, List.foldr_cons, consIndex, pushIndex,
        single]
    | cons j rest => rw [pushIndex_consIndex i (runs_cons_ne_nil j rest), ih]

/-- The push in machine words.  The successor of the last index is computed first, and
    it may not fit. -/
def pushWithin (ranges : List TileRange) (index : Nat) : Except Fault (List TileRange) :=
  match ranges.getLast? with
  | none => .ok (pushIndex ranges index)
  | some r => (addWithin maxIndex r.last 1).map fun _ => pushIndex ranges index

theorem pushWithin_runs (h : ∀ i ∈ indices, i < maxIndex) (index : Nat) :
    pushWithin (runs indices) index = .ok (runs (indices ++ [index])) := by
  unfold pushWithin
  rw [pushIndex_runs]
  cases hlast : (runs indices).getLast? with
  | none => rfl
  | some r =>
    have hmem : r ∈ runs indices := List.mem_of_getLast? hlast
    have hcovers : Covers (runs indices) r.last :=
      ⟨r, hmem, wellFormed_runs indices r hmem, Nat.le_refl _⟩
    have hfits : r.last < maxIndex := h _ (covers_runs.mp hcovers)
    have hnext : addWithin maxIndex r.last 1 = .ok (r.last + 1) :=
      addWithin_eq_ok_iff.mpr ⟨rfl, hfits⟩
    simp only [hnext, Except.map]

/-- A walk along some items that pushes the indices of those to keep.  The ranges found
    are the runs of the indices kept so far, and no index is too great to be pushed. -/
theorem foldlM_pushWithin {α : Type} (visit : List TileRange → α → Except Fault (List TileRange))
    (keep : α → Bool) (indexOf : α → Nat) (kept : List Nat) {items : List α}
    (hvisit : ∀ item ∈ items, ∀ found,
      visit found item = if keep item then pushWithin found (indexOf item) else .ok found)
    (hkept : ∀ i ∈ kept, i < maxIndex) (hfits : ∀ item ∈ items, indexOf item < maxIndex) :
    items.foldlM visit (runs kept) = .ok (runs (kept ++ (items.filter keep).map indexOf)) := by
  induction items generalizing kept with
  | nil =>
    rw [List.filter_nil, List.map_nil, List.append_nil]
    rfl
  | cons item rest ih =>
    have hvisitRest := fun other hother => hvisit other (List.mem_cons_of_mem _ hother)
    have hfitsRest := fun other hother => hfits other (List.mem_cons_of_mem _ hother)
    rw [List.foldlM_cons, hvisit item (List.mem_cons_self ..), List.filter_cons]
    cases keep item with
    | false => exact ih kept hvisitRest hkept hfitsRest
    | true =>
      have hmore : ∀ i ∈ kept ++ [indexOf item], i < maxIndex := by
        intro i hi
        rcases List.mem_append.mp hi with hi | hi
        · exact hkept i hi
        · rw [List.mem_singleton.mp hi]
          exact hfits item (List.mem_cons_self ..)
      -- the item joins those that were kept, and the runs with it
      have hfound := ih (kept ++ [indexOf item]) hvisitRest hmore hfitsRest
      rw [← List.append_cons] at hfound
      simp only [if_true, pushWithin_runs hkept, List.map_cons]
      exact hfound

end TileRange

/-! ## 2. The scan -/

namespace TileCache

variable {c : TileCache} {ranges : List TileRange}

/-- Look at one tile: it is pushed unless it is valid and resident. -/
def scanTile (c : TileCache) (found : List TileRange) (index : Nat) :
    Except Fault (List TileRange) := do
  let valid ← c.valid.get index
  if valid && c.isResident index then return found
  else TileRange.pushWithin found index

/-- Walk each range from its first index as far as the grid goes. -/
def scan (c : TileCache) (ranges : List TileRange) : Except Fault (List TileRange) := do
  let indices := ranges.flatMap fun r => r.toList.takeWhile (· < c.tileCount)
  return TileRange.normalize (← indices.foldlM c.scanTile [])

theorem takeWhile_range' (first count limit : Nat) :
    (List.range' first count).takeWhile (· < limit) =
      List.range' first (min count (limit - first)) := by
  induction count generalizing first with
  | zero => simp
  | succ count ih =>
    rw [List.range'_succ, List.takeWhile_cons]
    by_cases hlt : first < limit
    · rw [if_pos (decide_eq_true hlt), ih, ← List.range'_succ]
      congr 1
      omega
    · rw [if_neg (by simpa using hlt)]
      have hzero : min (count + 1) (limit - first) = 0 := by omega
      rw [hzero]
      rfl

theorem takeWhile_toList (c : TileCache) (r : TileRange) :
    r.toList.takeWhile (· < c.tileCount) =
      List.range' r.first (min (r.last + 1) c.tileCount - r.first) := by
  rw [TileRange.toList, takeWhile_range']
  congr 1
  omega

/-- The lookup of a tile in the grid is in bounds. -/
theorem scanTile_eq (h : WellKept c) {index : Nat} (hin : index < c.tileCount)
    (found : List TileRange) : c.scanTile found index =
      if !c.isFresh index then TileRange.pushWithin found index else .ok found := by
  have hbit : index < c.valid.size := by
    have hbits := h.bits
    omega
  have hget : c.valid.get index = .ok (decide (index ∈ c.valid)) := by
    simp only [BitSet.get, hbit, if_true, BitSet.mem_def, Bool.decide_eq_true]
  have hstep : c.scanTile found index =
      if c.isFresh index then .ok found else TileRange.pushWithin found index := by
    simp only [scanTile, hget]
    rfl
  rw [hstep]
  cases c.isFresh index <;> rfl

/-- **The scan answers what remains.** -/
theorem scan_eq (h : WellKept c) (ranges : List TileRange) :
    c.scan ranges = .ok (c.remaining ranges) := by
  have hin : ∀ i ∈ ranges.flatMap fun r => r.toList.takeWhile (· < c.tileCount),
      i < c.tileCount := by
    intro i hi
    obtain ⟨r, -, hi⟩ := List.mem_flatMap.mp hi
    rw [takeWhile_toList, List.mem_range'_1] at hi
    omega
  have hfound := TileRange.foldlM_pushWithin c.scanTile (fun i => !c.isFresh i) id []
    (fun i hi => scanTile_eq h (hin i hi)) nofun fun i hi => Nat.lt_trans (hin i hi) h.fits
  rw [List.map_id, List.nil_append] at hfound
  simp only [scan, remaining, takeWhile_toList] at hfound ⊢
  rw [show ([] : List TileRange) = TileRange.runs [] from rfl, hfound]
  rfl

/-- A malformed range has no tile that could remain. -/
theorem remaining_wellFormed (c : TileCache) (ranges : List TileRange) :
    c.remaining (ranges.filter fun r => r.WellFormed) = c.remaining ranges := by
  unfold remaining
  dsimp only
  congr 3
  induction ranges with
  | nil => rfl
  | cons r rest ih =>
    rw [List.filter_cons]
    by_cases hwf : r.WellFormed
    · rw [if_pos (decide_eq_true hwf), List.flatMap_cons, List.flatMap_cons, ih]
    · have hnone : min (r.last + 1) c.tileCount - r.first = 0 := by
        simp only [TileRange.WellFormed] at hwf
        omega
      rw [if_neg (by simpa using hwf), List.flatMap_cons, ih, hnone]
      rfl

end TileCache

namespace CacheSession

open TileCache TileRange

variable {s : CacheSession}

/-- **What remains of any ranges, in any reachable session.**  The scan comes to an end
    with an answer.  The answer is ascending, each of its ranges has a tile and no two share
    one.  It covers the tiles of the given ranges that lie in the grid and are not both valid
    and resident, to which malformed ranges add nothing. -/
theorem remaining_exact (h : s.Reachable) (ranges : List TileRange) :
    let c := s.cache
    let answer := c.remaining ranges
    c.scan ranges = .ok answer ∧
      Ascending answer ∧ AllWellFormed answer ∧
      (∀ i, Covers answer i ↔ (∃ r ∈ ranges, r.first ≤ i ∧ i ≤ r.last) ∧
        i < c.grid.columns * c.grid.rows ∧ ¬(c.isValid i = true ∧ c.isResident i = true)) ∧
      c.remaining (ranges.filter fun r => r.WellFormed) = answer := by
  have hkept := (sound_of_reachable h).cache
  refine ⟨scan_eq hkept ranges, ascending_normalize _, wellFormed_remaining _ _, ?_,
    remaining_wellFormed _ _⟩
  intro i
  rw [covers_remaining]
  refine and_congr Iff.rfl (and_congr_right fun hin => ?_)
  have hin : i < s.cache.tileCount := hin
  simp only [isFresh, isValid, hin, decide_true, Bool.true_and, ← Bool.and_eq_true,
    Bool.not_eq_true]

/-- Ranges out of order that overlap, one of them malformed and one reaching as far as
    an index can: tile 2 of the three is valid and resident. -/
theorem remaining_exact_second :
    let ranges : List TileRange := [⟨1, maxIndex⟩, ⟨2, 0⟩, ⟨0, 1⟩]
    Sample.second.Reachable ∧ Sample.second.cache.scan ranges = .ok [⟨0, 1⟩] ∧
      Ascending [⟨0, 1⟩] ∧
      (Covers [⟨0, 1⟩] 2 ↔ (∃ r ∈ ranges, r.first ≤ 2 ∧ 2 ≤ r.last) ∧
        2 < Sample.second.cache.grid.columns * Sample.second.cache.grid.rows ∧
        ¬(Sample.second.cache.isValid 2 = true ∧ Sample.second.cache.isResident 2 = true)) := by
  intro ranges
  have hanswer : Sample.second.cache.remaining ranges = [⟨0, 1⟩] := by decide +kernel
  obtain ⟨hscan, hascending, -, hcovers, -⟩ := remaining_exact Sample.reachable_second ranges
  rw [hanswer] at hscan hascending hcovers
  exact ⟨Sample.reachable_second, hscan, hascending, hcovers 2⟩

end CacheSession

end TilePaint
