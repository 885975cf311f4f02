/-
  TilePaint/Proofs/RangeLists.lean
  ================================
  **Canonical lists of tile ranges.**

  In an `Ascending` list every range ends before any later one begins, so its
  ranges are pairwise disjoint and its tiles, written out, are all different.
  `normalize` always answers with such a list, and it covers what it was given;
  `restrict` keeps what the limit has.  `TileCache.remaining` covers the tiles of
  the grid that still need a render.

  Only where a single range has to have a tile does anything here ask for
  `first ≤ last`.
-/
import TilePaint.TileCache.Basic

namespace TilePaint

/-- The tiles of a list of ranges, range by range. -/
def tilesOf (ranges : List TileRange) : List Nat := ranges.flatMap TileRange.toList

theorem mem_tilesOf {ranges : List TileRange} {index : Nat} :
    index ∈ tilesOf ranges ↔ Covers ranges index := by
  simp only [tilesOf, List.mem_flatMap, TileRange.mem_toList, Covers]

theorem length_tilesOf_cons (r : TileRange) (rest : List TileRange) :
    (tilesOf (r :: rest)).length = r.toList.length + (tilesOf rest).length := by
  simp only [tilesOf, List.flatMap_cons, List.length_append]

namespace TileRange

variable {ranges : List TileRange}

/-! ## 1. Ascending lists -/

/-- Every range ends before any later one begins. -/
def Ascending (ranges : List TileRange) : Prop := ranges.Pairwise fun a b => a.last < b.first

instance (ranges : List TileRange) : Decidable (Ascending ranges) :=
  inferInstanceAs (Decidable (List.Pairwise _ _))

theorem first_le_of_mem_sweep {front r : TileRange} {rest : List TileRange}
    (hfront : ∀ s ∈ rest, front.first ≤ s.first)
    (hsorted : rest.Pairwise fun a b => a.first ≤ b.first) (hr : r ∈ sweep front rest) :
    front.first ≤ r.first := by
  induction rest generalizing front with
  | nil =>
    rcases List.mem_singleton.mp hr with rfl
    exact Nat.le_refl _
  | cons s rest ih =>
    have hs := hfront s (List.mem_cons_self ..)
    have hp := List.pairwise_cons.mp hsorted
    unfold sweep at hr
    split at hr
    · exact @ih ⟨front.first, max front.last s.last⟩
        (fun t ht => Nat.le_trans hs (hp.1 t ht)) hp.2 hr
    · rcases List.mem_cons.mp hr with rfl | hr
      · exact Nat.le_refl _
      · exact Nat.le_trans hs (ih hp.1 hp.2 hr)

theorem ascending_sweep {front : TileRange} {rest : List TileRange}
    (hfront : ∀ s ∈ rest, front.first ≤ s.first)
    (hsorted : rest.Pairwise fun a b => a.first ≤ b.first) : Ascending (sweep front rest) := by
  induction rest generalizing front with
  | nil => exact List.pairwise_singleton _ _
  | cons s rest ih =>
    have hs := hfront s (List.mem_cons_self ..)
    have hp := List.pairwise_cons.mp hsorted
    unfold sweep
    split
    · exact @ih ⟨front.first, max front.last s.last⟩
        (fun t ht => Nat.le_trans hs (hp.1 t ht)) hp.2
    · next hapart =>
      -- `front` ends before `s`, and nothing that follows starts before `s`
      refine List.pairwise_cons.mpr ⟨fun r hr => ?_, ih hp.1 hp.2⟩
      have hle := first_le_of_mem_sweep hp.1 hp.2 hr
      omega

/-- **The canonical form is ascending**, also for ranges that are not well formed. -/
theorem ascending_normalize (ranges : List TileRange) : Ascending (normalize ranges) := by
  have hsorted := pairwise_sortByFirst ranges
  unfold normalize
  split
  · exact .nil
  · next r rest hsort =>
    rw [hsort] at hsorted
    have hp := List.pairwise_cons.mp hsorted
    exact ascending_sweep hp.1 hp.2

/-- The tiles of an ascending list are all different. -/
theorem Ascending.nodup_tilesOf (h : Ascending ranges) : (tilesOf ranges).Nodup := by
  induction ranges with
  | nil => exact .nil
  | cons r rest ih =>
    have hp := List.pairwise_cons.mp h
    refine List.nodup_append.mpr ⟨List.nodup_range' .., ih hp.2, ?_⟩
    intro i hi j hj hij
    obtain ⟨s, hs, hjs⟩ := mem_tilesOf.mp hj
    have hi := mem_toList.mp hi
    have hlt := hp.1 s hs
    simp only [mem_def] at hi hjs
    omega

/-! ## 2. Counting -/

theorem size_eq_ok_iff {r : TileRange} {n : Nat} :
    r.size = .ok n ↔ r.WellFormed ∧ n = r.toList.length ∧ n ≤ maxIndex := by
  simp only [size, bind_eq_ok_iff, subWithin_eq_ok_iff, addWithin_eq_ok_iff, WellFormed, toList,
    List.length_range']
  constructor
  · rintro ⟨gap, hgap, hn, hmax⟩
    omega
  · rintro ⟨hwf, hn, hmax⟩
    exact ⟨r.last - r.first, by omega, by omega, hmax⟩

theorem foldlM_size_eq_ok {total n : Nat}
    (h : ranges.foldlM (fun total r => do addWithin maxIndex total (← r.size)) total = .ok n) :
    n = total + (tilesOf ranges).length := by
  induction ranges generalizing total with
  | nil =>
    cases h
    rfl
  | cons r rest ih =>
    rw [List.foldlM_cons] at h
    obtain ⟨next, hnext, hrest⟩ := bind_eq_ok_iff.mp h
    obtain ⟨size, hsize, hadd⟩ := bind_eq_ok_iff.mp hnext
    obtain ⟨-, hsize, -⟩ := size_eq_ok_iff.mp hsize
    obtain ⟨hadd, -⟩ := addWithin_eq_ok_iff.mp hadd
    have hn := ih hrest
    have hlen := length_tilesOf_cons r rest
    omega

/-- A count that fits is the number of tiles. -/
theorem tileCount_eq_ok {n : Nat} (h : tileCount ranges = .ok n) :
    n = (tilesOf ranges).length := by
  have hn := foldlM_size_eq_ok h
  omega

/-! ## 3. Restriction -/

theorem clip_eq_some_iff {r limit s : TileRange} :
    r.clip limit = some s ↔
      (limit.first ≤ r.last ∧ r.first ≤ limit.last) ∧
        s = ⟨max r.first limit.first, min r.last limit.last⟩ := by
  unfold clip
  split
  · next hapart =>
    constructor
    · intro h
      cases h
    · rintro ⟨⟨hfirst, hlast⟩, -⟩
      omega
  · next hmeet =>
    simp only [Option.some.injEq]
    constructor
    · intro h
      exact ⟨by omega, h.symm⟩
    · rintro ⟨-, rfl⟩
      rfl

/-- A restricted list covers what the list covers inside the limit. -/
theorem covers_restrict {limit : TileRange} {index : Nat} :
    Covers (restrict ranges limit) index ↔ Covers ranges index ∧ index ∈ limit := by
  simp only [Covers, restrict, List.mem_filterMap, clip_eq_some_iff, mem_def]
  constructor
  · rintro ⟨s, ⟨r, hr, hmeet, rfl⟩, hfirst, hlast⟩
    obtain ⟨hfirst, hbegin⟩ := Nat.max_le.mp hfirst
    obtain ⟨hlast, hend⟩ := Nat.le_min.mp hlast
    exact ⟨⟨r, hr, hfirst, hlast⟩, hbegin, hend⟩
  · rintro ⟨⟨r, hr, hfirst, hlast⟩, hlimit⟩
    exact ⟨_, ⟨r, hr, by omega, rfl⟩, Nat.max_le.mpr ⟨hfirst, hlimit.1⟩,
      Nat.le_min.mpr ⟨hlast, hlimit.2⟩⟩

/-! ## 4. Well-formed lists -/

def AllWellFormed (ranges : List TileRange) : Prop := ∀ r ∈ ranges, r.WellFormed

instance (ranges : List TileRange) : Decidable (AllWellFormed ranges) :=
  inferInstanceAs (Decidable (∀ r ∈ ranges, r.WellFormed))

theorem AllWellFormed.append {as bs : List TileRange} (ha : AllWellFormed as)
    (hb : AllWellFormed bs) : AllWellFormed (as ++ bs) := by
  intro r hr
  rcases List.mem_append.mp hr with hr | hr
  · exact ha r hr
  · exact hb r hr

theorem AllWellFormed.restrict {limit : TileRange} (h : AllWellFormed ranges)
    (hlimit : limit.WellFormed) : AllWellFormed (restrict ranges limit) := by
  intro s hs
  obtain ⟨r, hr, hclip⟩ := List.mem_filterMap.mp hs
  obtain ⟨hmeet, rfl⟩ := clip_eq_some_iff.mp hclip
  have hr : r.first ≤ r.last := h r hr
  have hlimit : limit.first ≤ limit.last := hlimit
  show max r.first limit.first ≤ min r.last limit.last
  omega

theorem AllWellFormed.sweep {front : TileRange} {rest : List TileRange} (hfront : front.WellFormed)
    (h : AllWellFormed rest) : AllWellFormed (sweep front rest) := by
  induction rest generalizing front with
  | nil =>
    intro r hr
    rcases List.mem_singleton.mp hr with rfl
    exact hfront
  | cons s rest ih =>
    have hs := h s (List.mem_cons_self ..)
    have hrest : AllWellFormed rest := fun r hr => h r (List.mem_cons_of_mem _ hr)
    unfold TileRange.sweep
    split
    · -- a joined range reaches at least as far as the front
      refine ih ?_ hrest
      exact Nat.le_trans hfront (Nat.le_max_left ..)
    · intro r hr
      rcases List.mem_cons.mp hr with rfl | hr
      · exact hfront
      · exact ih hs hrest r hr

theorem AllWellFormed.normalize (h : AllWellFormed ranges) : AllWellFormed (normalize ranges) := by
  have hsorted : AllWellFormed (sortByFirst ranges) := by
    intro r hr
    exact h r ((sortByFirst_perm ranges).mem_iff.mp hr)
  unfold TileRange.normalize
  split
  · exact nofun
  · next r rest hsort =>
    rw [hsort] at hsorted
    exact AllWellFormed.sweep (hsorted r (List.mem_cons_self ..))
      fun s hs => hsorted s (List.mem_cons_of_mem _ hs)

theorem foldlM_size_of_fits (total : Nat) (h : AllWellFormed ranges)
    (hfits : total + (tilesOf ranges).length ≤ maxIndex) :
    ranges.foldlM (fun total r => do addWithin maxIndex total (← r.size)) total =
      .ok (total + (tilesOf ranges).length) := by
  induction ranges generalizing total with
  | nil => rfl
  | cons r rest ih =>
    have hlen := length_tilesOf_cons r rest
    have hr : r.WellFormed := h r (List.mem_cons_self ..)
    have hsize : r.size = .ok r.toList.length := size_eq_ok_iff.mpr ⟨hr, rfl, by omega⟩
    have hadd : addWithin maxIndex total r.toList.length = .ok (total + r.toList.length) :=
      addWithin_eq_ok_iff.mpr ⟨rfl, by omega⟩
    rw [List.foldlM_cons, hlen, ← Nat.add_assoc]
    refine bind_eq_ok_iff.mpr ⟨total + r.toList.length, ?_, ?_⟩
    · exact bind_eq_ok_iff.mpr ⟨_, hsize, hadd⟩
    · exact ih _ (fun s hs => h s (List.mem_cons_of_mem _ hs)) (by omega)

/-- Tiles are counted if their number fits. -/
theorem tileCount_of_fits (h : AllWellFormed ranges)
    (hfits : (tilesOf ranges).length ≤ maxIndex) :
    tileCount ranges = .ok (tilesOf ranges).length := by
  have hcount := foldlM_size_of_fits 0 h (by omega)
  rw [Nat.zero_add] at hcount
  exact hcount

end TileRange

/-! ## 5. The tiles that still need a render -/

namespace TileCache

variable {c : TileCache} {ranges : List TileRange}

/-- What remains of some ranges: their tiles in the grid that are not both up to
    date and resident. -/
theorem covers_remaining {index : Nat} :
    Covers (c.remaining ranges) index ↔
      Covers ranges index ∧ index < c.tileCount ∧ c.isFresh index = false := by
  unfold remaining
  dsimp only
  rw [TileRange.covers_normalize, TileRange.covers_runs]
  simp only [List.mem_filter, List.mem_flatMap, List.mem_range'_1, Bool.not_eq_true', Covers,
    TileRange.mem_def]
  constructor
  · rintro ⟨⟨r, hr, hfirst, hlast⟩, hfresh⟩
    exact ⟨⟨r, hr, by omega, by omega⟩, by omega, hfresh⟩
  · rintro ⟨⟨r, hr, hfirst, hlast⟩, hgrid, hfresh⟩
    exact ⟨⟨r, hr, by omega, by omega⟩, hfresh⟩

theorem wellFormed_remaining (c : TileCache) (ranges : List TileRange) :
    TileRange.AllWellFormed (c.remaining ranges) :=
  TileRange.AllWellFormed.normalize (TileRange.wellFormed_runs _)

theorem viewportBand_wellFormed {y : Int} {height : Nat} {limit : TileRange}
    (h : c.viewportBand y height = some limit) : limit.WellFormed := by
  simp only [viewportBand, Grid.viewportBand, Grid.rowBand] at h
  split at h
  · cases h
  · cases h
    -- the band starts at the first column of a row and ends at the last one of a later row
    refine Nat.add_le_add (Nat.mul_le_mul_right _ ?_) (Nat.zero_le _)
    simp only [Grid.windowRows]
    omega

end TileCache

end TilePaint
