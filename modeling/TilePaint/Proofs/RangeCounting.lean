/-
  TilePaint/Proofs/RangeCounting.lean
  ===================================
  **The number of tiles of a list of ranges.**

  A batch is over once every one of its tiles has been reported, so their number has to be
  right: one too many and the batch never ends, one too few and it ends early.  What is added
  up are the sizes of the ranges, in machine words.

  For a canonical list the sum is the number of tiles (`length_tilesOf_normalize`), and it is
  a word unless every word is a tile (`ncard_covered_le_iff`).  In any other list a tile is
  counted once for each range that has it, so the sum is the number of tiles exactly if the
  ranges are disjoint (`ncard_covered_eq_iff`).
-/
import Mathlib.Order.Interval.Set.Nat
import TilePaint.Proofs.RangeLists

namespace TilePaint

namespace TileRange

variable {ranges : List TileRange}

/-! ## 1. Tiles and covered indices -/

theorem coe_toFinset_tilesOf (ranges : List TileRange) :
    {i | Covers ranges i} = ((tilesOf ranges).toFinset : Set Nat) := by
  ext i
  simp only [Set.mem_ofPred_eq, Finset.mem_coe, List.mem_toFinset, mem_tilesOf]

theorem ncard_covered (ranges : List TileRange) :
    {i | Covers ranges i}.ncard = (tilesOf ranges).dedup.length := by
  rw [coe_toFinset_tilesOf, Set.ncard_coe_finset, List.card_toFinset]

/-- No range of the list shares a tile with another one, nor is it there twice. -/
def PairwiseDisjoint (ranges : List TileRange) : Prop :=
  ranges.Pairwise fun a b => ∀ i, i ∈ a → i ∉ b

theorem nodup_tilesOf_iff : (tilesOf ranges).Nodup ↔ PairwiseDisjoint ranges := by
  simp only [tilesOf, List.nodup_flatMap]
  constructor
  · rintro ⟨-, hpairs⟩
    apply hpairs.imp
    intro a b hab i ha hb
    exact hab (mem_toList.mpr ha) (mem_toList.mpr hb)
  · intro hpairs
    refine ⟨fun r _ => List.nodup_range', hpairs.imp ?_⟩
    intro a b hab i ha hb
    exact hab i (mem_toList.mp ha) (mem_toList.mp hb)

theorem ncard_covered_le (ranges : List TileRange) :
    {i | Covers ranges i}.ncard ≤ (tilesOf ranges).length := by
  rw [ncard_covered]
  exact (List.dedup_sublist _).length_le

/-- **Tiles are counted more than once**, unless the ranges are disjoint. -/
theorem ncard_covered_eq_iff :
    {i | Covers ranges i}.ncard = (tilesOf ranges).length ↔ PairwiseDisjoint ranges := by
  rw [ncard_covered, (List.dedup_sublist _).length_eq, List.dedup_eq_self, nodup_tilesOf_iff]

/-- **A canonical list counts every tile once.** -/
theorem length_tilesOf_normalize (ranges : List TileRange) :
    (tilesOf (normalize ranges)).length = {i | Covers ranges i}.ncard := by
  have hdisjoint := nodup_tilesOf_iff.mp (ascending_normalize ranges).nodup_tilesOf
  have hcount := ncard_covered_eq_iff.mpr hdisjoint
  simpa only [covers_normalize] using hcount.symm

/-- **The number of tiles is a word**, unless every word is a tile. -/
theorem ncard_covered_le_iff (hwords : ∀ r ∈ ranges, r.last ≤ maxIndex) :
    {i | Covers ranges i}.ncard ≤ maxIndex ↔ ∃ i ≤ maxIndex, ¬Covers ranges i := by
  have hsubset : {i | Covers ranges i} ⊆ Set.Iic maxIndex := by
    rintro i ⟨r, hr, hi⟩
    exact Nat.le_trans hi.2 (hwords r hr)
  have hall : (Set.Iic maxIndex).ncard = maxIndex + 1 := Set.ncard_Iic_nat maxIndex
  constructor
  · intro hle
    by_contra hnone
    -- otherwise every word is covered, and there are one too many of them
    have hcovered : Set.Iic maxIndex ⊆ {i | Covers ranges i} := by
      intro i hi
      by_contra hi'
      exact hnone ⟨i, hi, hi'⟩
    have heq := Set.Subset.antisymm hsubset hcovered
    rw [heq, hall] at hle
    omega
  · rintro ⟨i, hi, hfree⟩
    have hless : {i | Covers ranges i} ⊂ Set.Iic maxIndex :=
      (Set.ssubset_iff_of_subset hsubset).mpr ⟨i, hi, hfree⟩
    have hlt := Set.ncard_lt_ncard hless (Set.finite_Iic maxIndex)
    omega

/-! ## 2. The count in machine words -/

/-- The sum of the sizes, which may be greater than a word. -/
def totalSize (ranges : List TileRange) : Nat := (ranges.map fun r => r.last - r.first + 1).sum

theorem length_tilesOf (h : AllWellFormed ranges) :
    (tilesOf ranges).length = totalSize ranges := by
  rw [tilesOf, List.length_flatMap, totalSize]
  congr 1
  apply List.map_congr_left
  intro r hr
  have hr : r.first ≤ r.last := h r hr
  simp only [toList, List.length_range']
  omega

theorem foldlM_size_le {total n : Nat} (htotal : total ≤ maxIndex)
    (h : ranges.foldlM (fun total r => do addWithin maxIndex total (← r.size)) total = .ok n) :
    n ≤ maxIndex := by
  induction ranges generalizing total with
  | nil =>
    cases h
    exact htotal
  | cons r rest ih =>
    rw [List.foldlM_cons] at h
    obtain ⟨next, hnext, hrest⟩ := bind_eq_ok_iff.mp h
    obtain ⟨size, -, hadd⟩ := bind_eq_ok_iff.mp hnext
    exact ih (addWithin_eq_ok_iff.mp hadd).2 hrest

/-- **The count of well-formed ranges** is the sum of the sizes, if that is a word, and fails
    otherwise. -/
theorem tileCount_eq_ok_iff (h : AllWellFormed ranges) {n : Nat} :
    tileCount ranges = .ok n ↔ n = (tilesOf ranges).length ∧ n ≤ maxIndex := by
  constructor
  · intro hcount
    exact ⟨tileCount_eq_ok hcount, foldlM_size_le (Nat.zero_le _) hcount⟩
  · rintro ⟨rfl, hfits⟩
    exact tileCount_of_fits h hfits

/-- **The tile count.**  That of a canonical list is the number of tiles, and no step of it
    overflows unless every word is a tile.  That of any list of well-formed ranges, if the sum of
    their sizes is a word, is not less than that of its canonical form, and the same exactly if the
    ranges are disjoint. -/
theorem tile_count_exact (h : AllWellFormed ranges) :
    ((∀ r ∈ ranges, r.last ≤ maxIndex) →
      (tileCount (normalize ranges) = .ok {i | Covers ranges i}.ncard ↔
        ∃ i ≤ maxIndex, ¬Covers ranges i)) ∧
      (totalSize ranges ≤ maxIndex →
        tileCount ranges = .ok (totalSize ranges) ∧
          tileCount (normalize ranges) = .ok {i | Covers ranges i}.ncard ∧
          {i | Covers ranges i}.ncard ≤ totalSize ranges ∧
          (totalSize ranges = {i | Covers ranges i}.ncard ↔ PairwiseDisjoint ranges)) := by
  have hnormal : tileCount (normalize ranges) = .ok {i | Covers ranges i}.ncard ↔
      {i | Covers ranges i}.ncard ≤ maxIndex := by
    simp only [tileCount_eq_ok_iff h.normalize, length_tilesOf_normalize, true_and]
  have hle : {i | Covers ranges i}.ncard ≤ totalSize ranges :=
    length_tilesOf h ▸ ncard_covered_le ranges
  constructor
  · intro hwords
    exact hnormal.trans (ncard_covered_le_iff hwords)
  · intro hfits
    refine ⟨?_, hnormal.mpr (Nat.le_trans hle hfits), hle, ?_⟩
    · apply (tileCount_eq_ok_iff h).mpr
      exact ⟨(length_tilesOf h).symm, hfits⟩
    · rw [eq_comm, ← length_tilesOf h]
      exact ncard_covered_eq_iff

/-- Up to the last word: eleven tiles, and three of them are there twice. -/
theorem tile_count_exact_overlapping :
    {i | Covers [⟨0, 5⟩, ⟨3, 8⟩, ⟨maxIndex - 1, maxIndex⟩] i}.ncard = 11 ∧
      tileCount [⟨0, 5⟩, ⟨3, 8⟩, ⟨maxIndex - 1, maxIndex⟩] = .ok 14 ∧
      ¬PairwiseDisjoint [⟨0, 5⟩, ⟨3, 8⟩, ⟨maxIndex - 1, maxIndex⟩] := by
  obtain ⟨hwords, hfits⟩ := @tile_count_exact [⟨0, 5⟩, ⟨3, 8⟩, ⟨maxIndex - 1, maxIndex⟩] (by decide)
  have hcount := (hwords (by decide)).mpr ⟨9, by decide, by decide⟩
  have hnumber : {i | Covers [⟨0, 5⟩, ⟨3, 8⟩, ⟨maxIndex - 1, maxIndex⟩] i}.ncard = 11 :=
    Except.ok.inj (hcount.symm.trans rfl)
  obtain ⟨htotal, -, -, hdisjoint⟩ := hfits (by decide)
  refine ⟨hnumber, htotal, ?_⟩
  rw [← hdisjoint, hnumber]
  decide

end TileRange

end TilePaint
