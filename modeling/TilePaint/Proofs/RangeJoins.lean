/-
  TilePaint/Proofs/RangeJoins.lean
  ================================
  **How a set of tiles is cut into ranges.**

  Ranges that only touch stay apart in a canonical list, so the tiles of the list
  do not determine it: `0..=3` and `0..=1, 2..=3` are both canonical.  What is missing
  is which neighbours share a range (`Joins`).  Tiles and joins together determine a
  canonical list (`Ascending.ext`).

  `normalize`, `restrict` and appending keep the joins that they are given; `remaining`
  does not.  It writes its tiles out one by one and cuts them anew, so neighbours
  share a range there whether or not they did before (`joins_remaining`).

  So a list has one canonical form, and `normalize` finds it.  Neither the order of
  the ranges shows in it nor a range that another one has whole (`canonical_form`).

  It does not matter either whether a list is clipped to a limit before or after it is
  brought into that form (`restrict_normalize`), although clipping may leave out the very
  overlaps for which ranges were joined.
-/
import TilePaint.Proofs.RangeLists

namespace TilePaint

/-- Tile `k` and the next one are in one range of the list. -/
def Joins (ranges : List TileRange) (k : Nat) : Prop := ∃ r ∈ ranges, k ∈ r ∧ k + 1 ∈ r

instance (ranges : List TileRange) (k : Nat) : Decidable (Joins ranges k) :=
  inferInstanceAs (Decidable (∃ r ∈ ranges, k ∈ r ∧ k + 1 ∈ r))

@[simp] theorem joins_nil {k : Nat} : Joins [] k ↔ False := by
  simp [Joins]

@[simp] theorem joins_cons {r : TileRange} {ranges : List TileRange} {k : Nat} :
    Joins (r :: ranges) k ↔ (k ∈ r ∧ k + 1 ∈ r) ∨ Joins ranges k := by
  simp [Joins]

@[simp] theorem joins_append {as bs : List TileRange} {k : Nat} :
    Joins (as ++ bs) k ↔ Joins as k ∨ Joins bs k := by
  simp [Joins, or_and_right, exists_or]

theorem Joins.covers {ranges : List TileRange} {k : Nat} (h : Joins ranges k) :
    Covers ranges k ∧ Covers ranges (k + 1) := by
  obtain ⟨r, hr, hk, hnext⟩ := h
  exact ⟨⟨r, hr, hk⟩, ⟨r, hr, hnext⟩⟩

namespace TileRange

variable {a b : TileRange} {as bs ranges : List TileRange} {i k : Nat}

/-! ## 1. Tiles and joins determine a canonical list -/

theorem Ascending.first_le (h : Ascending (a :: as)) (ha : a.WellFormed)
    (hi : Covers (a :: as) i) : a.first ≤ i := by
  have hp := List.pairwise_cons.mp h
  have ha : a.first ≤ a.last := ha
  rcases covers_cons.mp hi with hi | ⟨r, hr, hi⟩
  · exact hi.1
  · have hlt := hp.1 r hr
    have hfirst := hi.1
    omega

theorem Ascending.last_lt (h : Ascending (a :: as)) (hi : Covers as i) : a.last < i := by
  obtain ⟨r, hr, hi⟩ := hi
  exact Nat.lt_of_lt_of_le ((List.pairwise_cons.mp h).1 r hr) hi.1

/-- What the rest of the list covers lies behind its first range. -/
theorem Ascending.covers_tail (h : Ascending (a :: as)) :
    Covers as i ↔ Covers (a :: as) i ∧ a.last < i := by
  constructor
  · intro hi
    exact ⟨covers_cons.mpr (Or.inr hi), h.last_lt hi⟩
  · rintro ⟨hi, hbehind⟩
    exact (covers_cons.mp hi).resolve_left fun hmem => Nat.not_le_of_lt hbehind hmem.2

theorem Ascending.joins_tail (h : Ascending (a :: as)) :
    Joins as k ↔ Joins (a :: as) k ∧ a.last < k := by
  constructor
  · intro hk
    exact ⟨joins_cons.mpr (Or.inr hk), h.last_lt hk.covers.1⟩
  · rintro ⟨hk, hbehind⟩
    exact (joins_cons.mp hk).resolve_left fun hmem => Nat.not_le_of_lt hbehind hmem.1.2

theorem Ascending.not_joins_last (h : Ascending (a :: as)) : ¬Joins (a :: as) a.last := by
  intro hjoins
  rcases joins_cons.mp hjoins with ⟨-, hnext⟩ | hjoins
  · have hle := hnext.2
    omega
  · exact Nat.lt_irrefl _ (h.last_lt hjoins.covers.1)

/-- The first ranges of two lists end together. -/
theorem Ascending.last_le (h : Ascending (a :: as)) (ha : a.WellFormed)
    (hfirst : b.first = a.first) (hjoins : ∀ k, Joins (b :: bs) k → Joins (a :: as) k) :
    b.last ≤ a.last := by
  have ha : a.first ≤ a.last := ha
  refine Nat.le_of_not_lt fun hlonger => h.not_joins_last (hjoins a.last ?_)
  refine joins_cons.mpr (Or.inl ?_)
  simp only [mem_def]
  omega

theorem AllWellFormed.covers_first (h : AllWellFormed (a :: as)) : Covers (a :: as) a.first :=
  ⟨a, List.mem_cons_self .., Nat.le_refl _, h a (List.mem_cons_self ..)⟩

/-- **A canonical list is determined by its tiles and its joins.** -/
theorem Ascending.ext (ha : Ascending as) (hb : Ascending bs) (hwa : AllWellFormed as)
    (hwb : AllWellFormed bs) (hcovers : ∀ i, Covers as i ↔ Covers bs i)
    (hjoins : ∀ k, Joins as k ↔ Joins bs k) : as = bs := by
  induction as generalizing bs with
  | nil =>
    cases bs with
    | nil => rfl
    | cons b bs => exact absurd ((hcovers b.first).mpr hwb.covers_first) (covers_nil.mp ·)
  | cons a as ih =>
    cases bs with
    | nil => exact absurd ((hcovers a.first).mp hwa.covers_first) (covers_nil.mp ·)
    | cons b bs =>
      have hwa₁ := hwa a (List.mem_cons_self ..)
      have hwb₁ := hwb b (List.mem_cons_self ..)
      -- the first range starts at the least index covered and ends where no join goes on
      have hfirst : a.first = b.first := Nat.le_antisymm
        (ha.first_le hwa₁ ((hcovers _).mpr hwb.covers_first))
        (hb.first_le hwb₁ ((hcovers _).mp hwa.covers_first))
      have hlast : a.last = b.last := Nat.le_antisymm
        (hb.last_le hwb₁ hfirst fun k => (hjoins k).mp)
        (ha.last_le hwa₁ hfirst.symm fun k => (hjoins k).mpr)
      have hab : a = b := by
        cases a
        cases b
        cases hfirst
        cases hlast
        rfl
      subst hab
      have hrest : as = bs := by
        refine ih (List.pairwise_cons.mp ha).2 (List.pairwise_cons.mp hb).2
          (fun r hr => hwa r (List.mem_cons_of_mem _ hr))
          (fun r hr => hwb r (List.mem_cons_of_mem _ hr)) (fun i => ?_) fun k => ?_
        · rw [ha.covers_tail, hb.covers_tail, hcovers]
        · rw [ha.joins_tail, hb.joins_tail, hjoins]
      rw [hrest]

/-! ## 2. What the operations join -/

theorem joins_sweep {front : TileRange} {rest : List TileRange}
    (sorted : ∀ r ∈ rest, front.first ≤ r.first)
    (pairwise : rest.Pairwise fun a b => a.first ≤ b.first) :
    Joins (sweep front rest) k ↔ Joins (front :: rest) k := by
  induction rest generalizing front with
  | nil => exact Iff.rfl
  | cons r rest ih =>
    have hr := sorted r (List.mem_cons_self ..)
    have hp := List.pairwise_cons.mp pairwise
    unfold sweep
    split
    · next join =>
      have hfront : ∀ s ∈ rest, front.first ≤ s.first := fun s hs => Nat.le_trans hr (hp.1 s hs)
      rw [@ih ⟨front.first, max front.last r.last⟩ hfront hp.2]
      simp only [joins_cons, mem_def, ← or_assoc]
      refine or_congr ?_ Iff.rfl
      -- the two ranges share a tile, so no pair has one tile in each range only
      omega
    · rw [joins_cons, ih hp.1 hp.2, ← joins_cons]

theorem joins_normalize : Joins (normalize ranges) k ↔ Joins ranges k := by
  have hsorted := pairwise_sortByFirst ranges
  have hsame : Joins (sortByFirst ranges) k ↔ Joins ranges k := by
    simp only [Joins, (sortByFirst_perm ranges).mem_iff]
  rw [← hsame, normalize]
  split
  · next h => rw [h]
  · next r rest h =>
    rw [h] at hsorted ⊢
    have hp := List.pairwise_cons.mp hsorted
    rw [joins_sweep hp.1 hp.2]

theorem joins_restrict {limit : TileRange} :
    Joins (restrict ranges limit) k ↔ Joins ranges k ∧ k ∈ limit ∧ k + 1 ∈ limit := by
  simp only [Joins, restrict, List.mem_filterMap, clip_eq_some_iff, mem_def]
  constructor
  · rintro ⟨s, ⟨r, hr, hmeet, rfl⟩, hk, hnext⟩
    dsimp only at hk hnext
    exact ⟨⟨r, hr, by omega, by omega⟩, by omega, by omega⟩
  · rintro ⟨⟨r, hr, hk, hnext⟩, hlimit, hlimit'⟩
    refine ⟨_, ⟨r, hr, by omega, rfl⟩, ?_, ?_⟩
    · dsimp only
      omega
    · dsimp only
      omega

/-- A range begins at `index`. -/
def StartsAt (ranges : List TileRange) (index : Nat) : Prop :=
  ranges.head?.map TileRange.first = some index

theorem joins_consIndex {index : Nat} (wf : ∀ r ∈ ranges, r.WellFormed) :
    Joins (consIndex index ranges) k ↔
      (k = index ∧ StartsAt ranges (index + 1)) ∨ Joins ranges k := by
  cases ranges with
  | nil =>
    simp only [consIndex, joins_cons, joins_nil, mem_single, StartsAt, List.head?_nil,
      Option.map_none, reduceCtorEq, and_false, or_false, iff_false]
    omega
  | cons r rest =>
    have hr : r.first ≤ r.last := wf r (List.mem_cons_self ..)
    simp only [StartsAt, List.head?_cons, Option.map_some, Option.some.injEq, consIndex]
    split
    · next hnext =>
      simp only [joins_cons, mem_def, ← or_assoc]
      refine or_congr ?_ Iff.rfl
      omega
    · next hgap =>
      rw [joins_cons]
      refine or_congr ?_ Iff.rfl
      simp only [mem_single]
      omega

theorem startsAt_runs {indices : List Nat} {index : Nat} :
    StartsAt (runs indices) index ↔ indices.head? = some index := by
  cases indices with
  | nil => rfl
  | cons i rest =>
    show StartsAt (consIndex i (runs rest)) index ↔ _
    cases runs rest with
    | nil => rfl
    | cons r tail =>
      simp only [consIndex]
      split
      · rfl
      · rfl

theorem head?_eq_some_iff_mem {i : Nat} {rest : List Nat} (h : (i :: rest).Pairwise (· < ·)) :
    rest.head? = some (i + 1) ↔ i + 1 ∈ rest := by
  cases rest with
  | nil => simp only [List.head?_nil, reduceCtorEq, List.not_mem_nil]
  | cons j rest =>
    have hp := List.pairwise_cons.mp h
    have hj := hp.1 j (List.mem_cons_self ..)
    rw [List.head?_cons, Option.some.injEq, List.mem_cons]
    constructor
    · intro heq
      exact Or.inl heq.symm
    · rintro (heq | hmem)
      · exact heq.symm
      · have hlt := (List.pairwise_cons.mp hp.2).1 _ hmem
        omega

/-- **Runs are as long as can be**: of an ascending list of tiles, all neighbours
    share a range. -/
theorem joins_runs {indices : List Nat} (h : indices.Pairwise (· < ·)) :
    Joins (runs indices) k ↔ k ∈ indices ∧ k + 1 ∈ indices := by
  induction indices with
  | nil => simp [runs]
  | cons i rest ih =>
    have hp := List.pairwise_cons.mp h
    rw [show runs (i :: rest) = consIndex i (runs rest) from rfl,
      joins_consIndex (wellFormed_runs rest), startsAt_runs, head?_eq_some_iff_mem h, ih hp.2,
      List.mem_cons, List.mem_cons]
    constructor
    · rintro (⟨rfl, hnext⟩ | ⟨hk, hnext⟩)
      · exact ⟨Or.inl rfl, Or.inr hnext⟩
      · exact ⟨Or.inr hk, Or.inr hnext⟩
    · rintro ⟨rfl | hk, hback | hnext⟩
      · omega
      · exact Or.inl ⟨rfl, hnext⟩
      · have hlt := hp.1 k hk
        omega
      · exact Or.inr ⟨hk, hnext⟩

/-! ## 3. The canonical form -/

/-- What is asked of a canonical form of `ranges`.  Every range ends before any later
    one begins, so the ranges ascend and no two of them share a tile. -/
structure CanonicalFor (ranges out : List TileRange) : Prop where
  wellFormed : AllWellFormed out
  ascending : Ascending out
  covers : ∀ i, Covers out i ↔ Covers ranges i
  joins : ∀ k, Joins out k ↔ Joins ranges k

theorem canonicalFor_normalize (h : AllWellFormed ranges) :
    CanonicalFor ranges (normalize ranges) where
  wellFormed := h.normalize
  ascending := ascending_normalize ranges
  covers _ := covers_normalize
  joins _ := joins_normalize

theorem CanonicalFor.congr (h : CanonicalFor as ranges) (hcovers : ∀ i, Covers as i ↔ Covers bs i)
    (hjoins : ∀ k, Joins as k ↔ Joins bs k) : CanonicalFor bs ranges where
  wellFormed := h.wellFormed
  ascending := h.ascending
  covers i := (h.covers i).trans (hcovers i)
  joins k := (h.joins k).trans (hjoins k)

theorem CanonicalFor.unique (ha : CanonicalFor ranges as) (hb : CanonicalFor ranges bs) :
    as = bs :=
  ha.ascending.ext hb.ascending ha.wellFormed hb.wellFormed
    (fun i => (ha.covers i).trans (hb.covers i).symm)
    fun k => (ha.joins k).trans (hb.joins k).symm

/-- Lists with the same tiles and the same joins have the same canonical form. -/
theorem normalize_congr (ha : AllWellFormed as) (hb : AllWellFormed bs)
    (hcovers : ∀ i, Covers as i ↔ Covers bs i) (hjoins : ∀ k, Joins as k ↔ Joins bs k) :
    normalize as = normalize bs :=
  ((canonicalFor_normalize ha).congr hcovers hjoins).unique (canonicalFor_normalize hb)

/-- The canonical form does not depend on the order of the ranges, nor on ranges that
    are part of others. -/
theorem normalize_eq_of_perm_append {more other : List TileRange} (h : AllWellFormed ranges)
    (hmore : AllWellFormed more)
    (hpart : ∀ r ∈ more, ∃ s ∈ ranges, s.first ≤ r.first ∧ r.last ≤ s.last)
    (hperm : other.Perm (ranges ++ more)) : normalize other = normalize ranges := by
  have hmem : ∀ r, r ∈ other ↔ r ∈ ranges ++ more := fun _ => hperm.mem_iff
  have hother : AllWellFormed other := fun r hr => h.append hmore r ((hmem r).mp hr)
  refine normalize_congr hother h (fun i => ?_) fun k => ?_
  · have hsame : Covers other i ↔ Covers (ranges ++ more) i := by
      simp only [Covers, hmem]
    rw [hsame, covers_append]
    refine or_iff_left_of_imp ?_
    rintro ⟨r, hr, hfirst, hlast⟩
    obtain ⟨s, hs, hbefore, hafter⟩ := hpart r hr
    exact ⟨s, hs, Nat.le_trans hbefore hfirst, Nat.le_trans hlast hafter⟩
  · have hsame : Joins other k ↔ Joins (ranges ++ more) k := by
      simp only [Joins, hmem]
    rw [hsame, joins_append]
    refine or_iff_left_of_imp ?_
    rintro ⟨r, hr, hk, hnext⟩
    obtain ⟨s, hs, hbefore, hafter⟩ := hpart r hr
    exact ⟨s, hs, ⟨Nat.le_trans hbefore hk.1, Nat.le_trans hk.2 hafter⟩,
      Nat.le_trans hbefore hnext.1, Nat.le_trans hnext.2 hafter⟩

/-- **The canonical form.**  `normalize` answers with an ascending list of disjoint
    ranges for the same tiles, in which two neighbours share a range exactly if they did
    in a range of the list it was given.  No other list is like that.  So the order of the
    ranges makes no difference, the canonical form is its own, and a range that is part of
    another one, or is there twice, has no effect. -/
theorem canonical_form (h : AllWellFormed ranges) :
    CanonicalFor ranges (normalize ranges) ∧
      (∀ out, CanonicalFor ranges out → out = normalize ranges) ∧
      (∀ other, other.Perm ranges → normalize other = normalize ranges) ∧
      normalize (normalize ranges) = normalize ranges ∧
      ∀ more other, AllWellFormed more →
        (∀ r ∈ more, ∃ s ∈ ranges, s.first ≤ r.first ∧ r.last ≤ s.last) →
        other.Perm (ranges ++ more) → normalize other = normalize ranges := by
  have hform := canonicalFor_normalize h
  refine ⟨hform, fun out hout => hout.unique hform, fun other hperm => ?_, ?_,
    fun more other hmore hpart hperm => normalize_eq_of_perm_append h hmore hpart hperm⟩
  · rw [← List.append_nil ranges] at hperm
    exact normalize_eq_of_perm_append h (List.forall_mem_nil _) (List.forall_mem_nil _) hperm
  · exact normalize_congr hform.wellFormed h hform.covers hform.joins

theorem canonical_form_touching :
    AllWellFormed [⟨5, 20⟩, ⟨0, 5⟩, ⟨21, 21⟩, ⟨0, 3⟩] ∧
      normalize [⟨0, 3⟩, ⟨0, 5⟩, ⟨5, 20⟩, ⟨21, 21⟩] = [⟨0, 20⟩, ⟨21, 21⟩] ∧
      normalize [⟨6, 9⟩, ⟨5, 20⟩, ⟨0, 5⟩, ⟨21, 21⟩, ⟨0, 3⟩, ⟨21, 21⟩] = [⟨0, 20⟩, ⟨21, 21⟩] := by
  have hwf : AllWellFormed [⟨5, 20⟩, ⟨0, 5⟩, ⟨21, 21⟩, ⟨0, 3⟩] := by decide
  have hform : normalize [⟨5, 20⟩, ⟨0, 5⟩, ⟨21, 21⟩, ⟨0, 3⟩] = [⟨0, 20⟩, ⟨21, 21⟩] := by decide
  obtain ⟨-, -, hperm, -, hpart⟩ := canonical_form hwf
  refine ⟨hwf, ?_, ?_⟩
  · rw [← hform]
    exact hperm _ (by decide)
  · rw [← hform]
    exact hpart [⟨6, 9⟩, ⟨21, 21⟩] _ (by decide) (by decide) (by decide)

/-! ## 4. Restriction -/

theorem Ascending.restrict {limit : TileRange} (h : Ascending ranges) :
    Ascending (restrict ranges limit) := by
  refine List.Pairwise.filterMap _ ?_ h
  intro r s hrs r' hr' s' hs'
  obtain ⟨-, rfl⟩ := clip_eq_some_iff.mp hr'
  obtain ⟨-, rfl⟩ := clip_eq_some_iff.mp hs'
  dsimp only
  omega

/-- **Restriction commutes with the canonical form.**  An overlap that is left outside of the
    limit has joined no two tiles inside of it. -/
theorem restrict_normalize {limit : TileRange} (h : AllWellFormed ranges)
    (hlimit : limit.WellFormed) :
    restrict (normalize ranges) limit = normalize (restrict ranges limit) := by
  apply Ascending.ext
  · exact (ascending_normalize ranges).restrict
  · exact ascending_normalize _
  · exact h.normalize.restrict hlimit
  · exact (h.restrict hlimit).normalize
  · intro i
    simp only [covers_restrict, covers_normalize]
  · intro k
    simp only [joins_restrict, joins_normalize]

theorem clip_comm (a b : TileRange) : a.clip b = b.clip a := by
  apply Option.ext
  intro s
  simp only [clip_eq_some_iff, and_comm, Nat.max_comm, Nat.min_comm]

/-- The part that a range has of another one is what they have in common. -/
theorem clip_of_mem {i : Nat} (ha : i ∈ a) (hb : i ∈ b) :
    ∃ meet, a.clip b = some meet ∧ ∀ j, j ∈ meet ↔ j ∈ a ∧ j ∈ b := by
  simp only [mem_def] at ha hb
  refine ⟨_, clip_eq_some_iff.mpr ⟨⟨by omega, by omega⟩, rfl⟩, ?_⟩
  intro j
  simp only [mem_def]
  omega

theorem clip_clip {meet : TileRange} (h : a.clip b = some meet) (r : TileRange) :
    (r.clip a).bind (·.clip b) = r.clip meet := by
  obtain ⟨hoverlap, rfl⟩ := clip_eq_some_iff.mp h
  apply Option.ext
  intro s
  simp only [Option.bind_eq_some_iff, clip_eq_some_iff]
  constructor
  · rintro ⟨s', ⟨hfirst, rfl⟩, hsecond, rfl⟩
    dsimp only at hsecond
    refine ⟨by omega, ?_⟩
    simp only [mk.injEq]
    omega
  · rintro ⟨hmeet, rfl⟩
    refine ⟨_, ⟨by omega, rfl⟩, ?_, ?_⟩
    · dsimp only
      omega
    · simp only [mk.injEq]
      omega

/-- **Two limits that overlap** are as good as what they have in common. -/
theorem restrict_restrict {meet : TileRange} (h : a.clip b = some meet) :
    restrict (restrict ranges a) b = restrict ranges meet := by
  simp only [restrict, List.filterMap_filterMap, clip_clip h]

/-- **Clipping and the canonical form.**  They can change places.  The result is for the tiles
    of the list that the limit has, and well formed.  To clip by two limits that overlap, in either
    order, is to clip by the range that they have in common. -/
theorem clipping_commutes {limit : TileRange} (h : AllWellFormed ranges)
    (hlimit : limit.WellFormed) :
    restrict (normalize ranges) limit = normalize (restrict ranges limit) ∧
      (∀ i, Covers (restrict (normalize ranges) limit) i ↔ Covers ranges i ∧ i ∈ limit) ∧
      AllWellFormed (restrict (normalize ranges) limit) ∧
      ∀ other, (∃ i, i ∈ limit ∧ i ∈ other) →
        ∃ meet, limit.clip other = some meet ∧ (∀ i, i ∈ meet ↔ i ∈ limit ∧ i ∈ other) ∧
          restrict (restrict ranges limit) other = restrict ranges meet ∧
          restrict (restrict ranges other) limit = restrict ranges meet := by
  refine ⟨restrict_normalize h hlimit, ?_, h.normalize.restrict hlimit, ?_⟩
  · intro i
    simp only [covers_restrict, covers_normalize]
  · rintro other ⟨i, hi, hother⟩
    obtain ⟨meet, hmeet, hmem⟩ := clip_of_mem hi hother
    exact ⟨meet, hmeet, hmem, restrict_restrict hmeet,
      restrict_restrict ((clip_comm other limit).trans hmeet)⟩

/-- The limit leaves out all overlaps: those of the first two ranges, and of the last two. -/
theorem clipping_commutes_outside :
    restrict (normalize [⟨0, 5⟩, ⟨5, 20⟩, ⟨21, 30⟩, ⟨28, 40⟩]) ⟨6, 25⟩ = [⟨6, 20⟩, ⟨21, 25⟩] ∧
      restrict (restrict [⟨0, 5⟩, ⟨5, 20⟩, ⟨21, 30⟩, ⟨28, 40⟩] ⟨18, 33⟩) ⟨6, 25⟩ =
        [⟨18, 20⟩, ⟨21, 25⟩] := by
  obtain ⟨hcommute, -, -, hlimits⟩ := @clipping_commutes
    [⟨0, 5⟩, ⟨5, 20⟩, ⟨21, 30⟩, ⟨28, 40⟩] ⟨6, 25⟩ (by decide) (by decide)
  obtain ⟨meet, hmeet, -, -, heq⟩ := hlimits ⟨18, 33⟩ ⟨18, by decide, by decide⟩
  obtain rfl : meet = ⟨18, 25⟩ := Option.some.inj (hmeet.symm.trans (by decide))
  constructor
  · rw [hcommute]
    decide
  · rw [heq]
    decide

end TileRange

namespace TileCache

variable {c : TileCache} {ranges : List TileRange} {k : Nat}

theorem joins_remaining (h : TileRange.Ascending ranges) :
    Joins (c.remaining ranges) k ↔
      Covers (c.remaining ranges) k ∧ Covers (c.remaining ranges) (k + 1) := by
  unfold remaining
  dsimp only
  rw [TileRange.joins_normalize, TileRange.joins_runs, TileRange.covers_normalize,
    TileRange.covers_normalize, TileRange.covers_runs, TileRange.covers_runs]
  refine List.Pairwise.filter _ (List.pairwise_flatMap.mpr ⟨?_, ?_⟩)
  · intro r _
    exact List.pairwise_lt_range'
  · refine h.imp ?_
    intro r s hrs i hi j hj
    have hi := List.mem_range'_1.mp hi
    have hj := List.mem_range'_1.mp hj
    omega

end TileCache

end TilePaint
