/-
  TilePaint/TileRange.lean
  ========================
  **Inclusive ranges of tile indices.**

  A set of tiles travels as a list of ranges `first..=last`.  The list may be in
  any order and its ranges may overlap; what it stands for is the set of indices
  it covers (`Covers`).

    * `normalize` brings a list into its canonical form: ascending, pairwise
      disjoint, the same covered indices.  Ranges that share an index are joined;
      ranges that only touch stay apart.
    * `restrict` restricts a list to a limit.
    * `tileCount` adds up the sizes, within the range of an index.
    * `runs` cuts a list of single indices into its runs of successors.

  Nothing here asks for `first ≤ last`: a range that fails it is empty, and the
  operations treat it as it stands.
-/
import TilePaint.Fault

namespace TilePaint

/-! ### One range -/

/-- The tile indices from `first` to `last`, both included. -/
structure TileRange where
  first : Nat
  last : Nat
deriving DecidableEq, Repr, Inhabited

namespace TileRange

def WellFormed (r : TileRange) : Prop := r.first ≤ r.last

instance (r : TileRange) : Decidable r.WellFormed := inferInstanceAs (Decidable (_ ≤ _))

/-- The range between two bounds, which have to be in order. -/
def ofBounds (first last : Nat) : Except Fault TileRange :=
  if first ≤ last then .ok ⟨first, last⟩ else .error (.malformedRange first last)

def single (index : Nat) : TileRange := ⟨index, index⟩

instance : Membership Nat TileRange := ⟨fun r index => r.first ≤ index ∧ index ≤ r.last⟩

theorem mem_def {r : TileRange} {index : Nat} :
    index ∈ r ↔ r.first ≤ index ∧ index ≤ r.last := Iff.rfl

instance (index : Nat) (r : TileRange) : Decidable (index ∈ r) :=
  inferInstanceAs (Decidable (_ ∧ _))

@[simp] theorem mem_single {index i : Nat} : i ∈ single index ↔ i = index := by
  simp only [mem_def, single]
  omega

/-- The number of indices of the range, if the range is well formed and its size
    is itself an index. -/
def size (r : TileRange) : Except Fault Nat := do
  let gap ← subWithin r.last r.first
  addWithin maxIndex gap 1

/-- The part of the range inside `limit`, unless the two are disjoint. -/
def clip (r limit : TileRange) : Option TileRange :=
  if r.last < limit.first ∨ limit.last < r.first then none
  else some ⟨max r.first limit.first, min r.last limit.last⟩

def toList (r : TileRange) : List Nat := List.range' r.first (r.last + 1 - r.first)

@[simp] theorem mem_toList {r : TileRange} {index : Nat} : index ∈ r.toList ↔ index ∈ r := by
  simp only [toList, List.mem_range'_1, mem_def]
  omega

end TileRange

/-! ### Lists of ranges -/

/-- An index is covered by a list when one of the ranges has it. -/
def Covers (ranges : List TileRange) (index : Nat) : Prop := ∃ r ∈ ranges, index ∈ r

instance (ranges : List TileRange) (index : Nat) : Decidable (Covers ranges index) :=
  inferInstanceAs (Decidable (∃ r ∈ ranges, index ∈ r))

@[simp] theorem covers_nil {index : Nat} : Covers [] index ↔ False := by
  simp [Covers]

@[simp] theorem covers_cons {r : TileRange} {ranges : List TileRange} {index : Nat} :
    Covers (r :: ranges) index ↔ index ∈ r ∨ Covers ranges index := by
  simp [Covers]

@[simp] theorem covers_append {as bs : List TileRange} {index : Nat} :
    Covers (as ++ bs) index ↔ Covers as index ∨ Covers bs index := by
  simp [Covers, or_and_right, exists_or]

namespace TileRange

/-- Join `front` with every following range that starts inside it, then go on
    with the first one that does not. -/
def sweep (front : TileRange) : List TileRange → List TileRange
  | [] => [front]
  | r :: rest =>
      if r.first ≤ front.last then sweep ⟨front.first, max front.last r.last⟩ rest
      else front :: sweep r rest

/-- Put a range in front of the first one that does not start before it. -/
def insertByFirst (r : TileRange) : List TileRange → List TileRange
  | [] => [r]
  | s :: rest => if r.first ≤ s.first then r :: s :: rest else s :: insertByFirst r rest

/-- The ranges in the order of their first indices.  Ranges that start together
    keep their order. -/
def sortByFirst (ranges : List TileRange) : List TileRange := ranges.foldr insertByFirst []

/-- The canonical form of a list of ranges: sorted by first index, with the
    ranges that share an index joined. -/
def normalize (ranges : List TileRange) : List TileRange :=
  match sortByFirst ranges with
  | [] => []
  | r :: rest => sweep r rest

/-- The sum of the sizes, added up from the left.  A tile covered twice counts
    twice. -/
def tileCount (ranges : List TileRange) : Except Fault Nat :=
  ranges.foldlM (fun total r => do addWithin maxIndex total (← r.size)) 0

def restrict (ranges : List TileRange) (limit : TileRange) : List TileRange :=
  ranges.filterMap (·.clip limit)

/-- A list of ranges that begins with `index`: the first range grows downwards if
    the index is its predecessor. -/
def consIndex (index : Nat) : List TileRange → List TileRange
  | [] => [single index]
  | r :: rest => if index + 1 = r.first then ⟨index, r.last⟩ :: rest else single index :: r :: rest

/-- The runs of a list of indices: a new range starts at every index that is not
    the successor of the one before it. -/
def runs (indices : List Nat) : List TileRange := indices.foldr consIndex []

/-! ### What the operations cover -/

theorem covers_sweep {front : TileRange} {rest : List TileRange} {index : Nat}
    (sorted : ∀ r ∈ rest, front.first ≤ r.first)
    (pairwise : rest.Pairwise fun a b => a.first ≤ b.first) :
    Covers (sweep front rest) index ↔ index ∈ front ∨ Covers rest index := by
  induction rest generalizing front with
  | nil => simp [sweep]
  | cons r rest ih =>
    have hr := sorted r (List.mem_cons_self ..)
    have hp := List.pairwise_cons.mp pairwise
    unfold sweep
    split
    · next join =>
      have front_le : ∀ s ∈ rest, front.first ≤ s.first :=
        fun s hs => Nat.le_trans hr (hp.1 s hs)
      rw [@ih ⟨front.first, max front.last r.last⟩ front_le hp.2]
      simp only [covers_cons, mem_def]
      constructor
      · rintro (⟨h₁, h₂⟩ | h)
        · -- what the front does not reach lies in the joined range
          rcases Nat.lt_or_ge front.last index with h | h
          · exact Or.inr (Or.inl ⟨by omega, by omega⟩)
          · exact Or.inl ⟨h₁, h⟩
        · exact Or.inr (Or.inr h)
      · rintro (⟨h₁, h₂⟩ | ⟨h₁, h₂⟩ | h)
        · exact Or.inl ⟨h₁, by omega⟩
        · exact Or.inl ⟨by omega, by omega⟩
        · exact Or.inr h
    · rw [covers_cons, ih hp.1 hp.2, covers_cons]

theorem insertByFirst_perm (r : TileRange) (ranges : List TileRange) :
    (insertByFirst r ranges).Perm (r :: ranges) := by
  induction ranges with
  | nil => exact .refl _
  | cons s rest ih =>
    simp only [insertByFirst]
    split
    · exact .refl _
    · exact (ih.cons s).trans (.swap r s rest)

theorem sortByFirst_perm (ranges : List TileRange) : (sortByFirst ranges).Perm ranges := by
  induction ranges with
  | nil => exact .refl _
  | cons r rest ih => exact (insertByFirst_perm r _).trans (ih.cons r)

theorem pairwise_insertByFirst {r : TileRange} {ranges : List TileRange}
    (h : ranges.Pairwise fun a b => a.first ≤ b.first) :
    (insertByFirst r ranges).Pairwise fun a b => a.first ≤ b.first := by
  induction ranges with
  | nil => exact List.pairwise_singleton _ _
  | cons s rest ih =>
    have hs := List.pairwise_cons.mp h
    simp only [insertByFirst]
    split
    · next le =>
      refine List.pairwise_cons.mpr ⟨fun t ht => ?_, h⟩
      rcases List.mem_cons.mp ht with rfl | ht
      · exact le
      · exact Nat.le_trans le (hs.1 t ht)
    · refine List.pairwise_cons.mpr ⟨fun t ht => ?_, ih hs.2⟩
      rcases List.mem_cons.mp ((insertByFirst_perm r rest).mem_iff.mp ht) with rfl | ht
      · omega
      · exact hs.1 t ht

theorem pairwise_sortByFirst (ranges : List TileRange) :
    (sortByFirst ranges).Pairwise fun a b => a.first ≤ b.first := by
  induction ranges with
  | nil => exact .nil
  | cons r rest ih => exact pairwise_insertByFirst ih

theorem covers_normalize {ranges : List TileRange} {index : Nat} :
    Covers (normalize ranges) index ↔ Covers ranges index := by
  have sorted := pairwise_sortByFirst ranges
  have same : Covers (sortByFirst ranges) index ↔ Covers ranges index := by
    simp only [Covers, (sortByFirst_perm ranges).mem_iff]
  rw [← same, normalize]
  split
  · next h => rw [h]
  · next r rest h =>
    rw [h] at sorted ⊢
    have hp := List.pairwise_cons.mp sorted
    rw [covers_sweep hp.1 hp.2, covers_cons]

theorem covers_consIndex {index i : Nat} {ranges : List TileRange}
    (wf : ∀ r ∈ ranges, r.WellFormed) :
    Covers (consIndex index ranges) i ↔ i = index ∨ Covers ranges i := by
  cases ranges with
  | nil => simp [consIndex]
  | cons r rest =>
    have hr : r.first ≤ r.last := wf r (List.mem_cons_self ..)
    simp only [consIndex]
    split
    · next h =>
      simp only [covers_cons, mem_def, ← or_assoc]
      refine or_congr ?_ Iff.rfl
      omega
    · simp only [covers_cons, mem_single]

theorem wellFormed_consIndex {index : Nat} {ranges : List TileRange}
    (wf : ∀ r ∈ ranges, r.WellFormed) : ∀ r ∈ consIndex index ranges, r.WellFormed := by
  cases ranges with
  | nil => simp [consIndex, single, WellFormed]
  | cons r rest =>
    have hr : r.first ≤ r.last := wf r (List.mem_cons_self ..)
    have hrest : ∀ s ∈ rest, s.WellFormed := fun s hs => wf s (List.mem_cons_of_mem _ hs)
    simp only [consIndex]
    split <;> intro s hs
    · next h =>
      rcases List.mem_cons.mp hs with rfl | hs
      · show index ≤ r.last
        omega
      · exact hrest s hs
    · rcases List.mem_cons.mp hs with rfl | hs
      · exact Nat.le_refl _
      · exact wf s hs

theorem wellFormed_runs (indices : List Nat) : ∀ r ∈ runs indices, r.WellFormed := by
  induction indices with
  | nil => simp [runs]
  | cons index indices ih => exact wellFormed_consIndex ih

@[simp] theorem covers_runs {indices : List Nat} {index : Nat} :
    Covers (runs indices) index ↔ index ∈ indices := by
  induction indices with
  | nil => simp [runs]
  | cons i indices ih =>
    rw [show runs (i :: indices) = consIndex i (runs indices) from rfl,
      covers_consIndex (wellFormed_runs indices), ih, List.mem_cons]

end TileRange

end TilePaint
