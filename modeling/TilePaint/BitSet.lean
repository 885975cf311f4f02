/-
  TilePaint/BitSet.lean
  =====================
  **A fixed number of bits, kept in 64-bit words.**

  The capacity is chosen once (`BitSet.ofSize`); all bits start unset.  Bits are
  set, reset and read one at a time, a whole range is reset word by word, and the
  bits that are set can be counted.

  The view of a bitset is the finite set of its positions: `i ∈ s` says that bit
  `i` is set, and every operation comes with one lemma that says what it does to
  membership (`mem_insert`, `mem_erase`, `mem_eraseRange`, `not_mem_clear`).  Bits
  behind the capacity, in the last word, are never set (`BitSet.padding`).
-/
import TilePaint.Fault

namespace TilePaint

/-! ### Words -/

abbrev Word := BitVec 64

/-- Bit `index` of an array of words; words that are not there count as zero. -/
def bitAt (words : Array Word) (index : Nat) : Bool :=
  (words.getD (index / 64) 0#64).getLsbD (index % 64)

def bitMask (index : Nat) : Word := BitVec.twoPow 64 (index % 64)

/-- Set `count` words to zero, from word `k` on. -/
def zeroWords (words : Array Word) (k : Nat) : Nat → Array Word
  | 0 => words
  | count + 1 => zeroWords (words.setIfInBounds k 0#64) (k + 1) count

/-- Reset the bits from `first` to `last`.  Inside one word that takes one mask.
    Otherwise the first word is cut at its low end, every word between the two
    becomes zero, and the last word is cut at its high end. -/
def eraseBits (words : Array Word) (first last : Nat) : Array Word :=
  let low := BitVec.allOnes 64 <<< (first % 64)
  let high := BitVec.allOnes 64 >>> (63 - last % 64)
  if first / 64 = last / 64 then words.modify (first / 64) (· &&& ~~~(low &&& high))
  else
    let words := words.modify (first / 64) (· &&& ~~~low)
    let words := zeroWords words (first / 64 + 1) (last / 64 - (first / 64 + 1))
    words.modify (last / 64) (· &&& ~~~high)

def popCount (w : Word) : Nat := (List.range 64).countP w.getLsbD

theorem getLsbD_bitMask {index j : Nat} :
    (bitMask index).getLsbD j = decide (j = index % 64) := by
  have : index % 64 < 64 := Nat.mod_lt _ (by decide)
  simp only [bitMask, BitVec.getLsbD_twoPow]
  grind

theorem getLsbD_lowMask {first j : Nat} (h : j < 64) :
    (BitVec.allOnes 64 <<< (first % 64)).getLsbD j = decide (first % 64 ≤ j) := by
  simp only [BitVec.getLsbD_shiftLeft, BitVec.getLsbD_allOnes, h]
  grind

theorem getLsbD_highMask {last j : Nat} :
    (BitVec.allOnes 64 >>> (63 - last % 64)).getLsbD j = decide (j ≤ last % 64) := by
  have : last % 64 < 64 := Nat.mod_lt _ (by decide)
  simp only [BitVec.getLsbD_ushiftRight, BitVec.getLsbD_allOnes]
  grind

theorem bitAt_eq_false_of_le {words : Array Word} {index : Nat}
    (h : words.size * 64 ≤ index) : bitAt words index = false := by
  have : ¬ index / 64 < words.size := by omega
  simp [bitAt, Array.getD, this]

theorem bitAt_modify {words : Array Word} {f : Word → Word} {k index : Nat} :
    bitAt (words.modify k f) index =
      if k = index / 64 ∧ k < words.size then (f (words.getD k 0#64)).getLsbD (index % 64)
      else bitAt words index := by
  simp only [bitAt, Array.getD, Array.size_modify]
  by_cases hk : index / 64 < words.size
  · simp only [hk, dif_pos, Array.getInternal_eq_getElem, Array.getElem_modify]
    split
    · next h => subst h; simp [hk]
    · next h => simp [h]
  · simp only [hk, dif_neg, not_false_eq_true]
    split
    · next h => exact absurd (h.1 ▸ h.2) hk
    · rfl

/-- Masking one word takes the bits of the mask out of it. -/
theorem bitAt_mask {words : Array Word} {mask : Word} {k index : Nat} :
    bitAt (words.modify k (· &&& ~~~mask)) index =
      (bitAt words index && !(decide (k = index / 64) && mask.getLsbD (index % 64))) := by
  have hlt : index % 64 < 64 := Nat.mod_lt _ (by decide)
  rw [bitAt_modify]
  split
  · next hk =>
    rw [BitVec.getLsbD_and, BitVec.getLsbD_not, decide_eq_true hlt, decide_eq_true hk.1,
      Bool.true_and, Bool.true_and, hk.1]
    rfl
  · next hk =>
    by_cases hword : k = index / 64
    · -- the word is not there, and none of its bits is set
      have hnone : words.size * 64 ≤ index := by
        have : ¬ k < words.size := fun h => hk ⟨hword, h⟩
        omega
      rw [bitAt_eq_false_of_le hnone, Bool.false_and]
    · rw [decide_eq_false hword, Bool.false_and, Bool.not_false, Bool.and_true]

theorem bitAt_zeroWords {words : Array Word} {k count index : Nat} :
    bitAt (zeroWords words k count) index =
      (bitAt words index && !decide (k ≤ index / 64 ∧ index / 64 < k + count)) := by
  induction count generalizing words k with
  | zero =>
    have : ¬(k ≤ index / 64 ∧ index / 64 < k + 0) := by omega
    rw [zeroWords, decide_eq_false this, Bool.not_false, Bool.and_true]
  | succ count ih =>
    rw [zeroWords, ih]
    by_cases hword : index / 64 = k
    · have hzero : bitAt (words.setIfInBounds k 0#64) index = false := by
        rw [bitAt, hword, Array.getD_eq_getD_getElem?, Array.getElem?_setIfInBounds_self]
        split <;> exact BitVec.getLsbD_zero
      have hin : k ≤ index / 64 ∧ index / 64 < k + (count + 1) := by omega
      rw [hzero, Bool.false_and, decide_eq_true hin, Bool.not_true, Bool.and_false]
    · have hkept : bitAt (words.setIfInBounds k 0#64) index = bitAt words index := by
        rw [bitAt, bitAt, Array.getD_eq_getD_getElem?, Array.getD_eq_getD_getElem?,
          Array.getElem?_setIfInBounds_ne (Ne.symm hword)]
      rw [hkept]
      congr 2
      exact decide_eq_decide.mpr (by omega)

@[simp] theorem size_zeroWords {words : Array Word} {k count : Nat} :
    (zeroWords words k count).size = words.size := by
  induction count generalizing words k with
  | zero => rfl
  | succ count ih => rw [zeroWords, ih, Array.size_setIfInBounds]

@[simp] theorem size_eraseBits {words : Array Word} {first last : Nat} :
    (eraseBits words first last).size = words.size := by
  unfold eraseBits
  dsimp only
  split
  · exact Array.size_modify
  · rw [Array.size_modify, size_zeroWords, Array.size_modify]

/-- **The phases together** reset the bits from `first` to `last`, and no others. -/
theorem bitAt_eraseBits {words : Array Word} {first last index : Nat} (h : first ≤ last) :
    bitAt (eraseBits words first last) index =
      (bitAt words index && !decide (first ≤ index ∧ index ≤ last)) := by
  have hlt : index % 64 < 64 := Nat.mod_lt _ (by decide)
  unfold eraseBits
  dsimp only
  split
  · next hword =>
    rw [bitAt_mask, BitVec.getLsbD_and, getLsbD_lowMask hlt, getLsbD_highMask, ← Bool.decide_and,
      ← Bool.decide_and]
    congr 2
    exact decide_eq_decide.mpr (by omega)
  · next hwords =>
    rw [bitAt_mask, bitAt_zeroWords, bitAt_mask, getLsbD_lowMask hlt, getLsbD_highMask,
      Bool.and_assoc, Bool.and_assoc, ← Bool.not_or, ← Bool.not_or, ← Bool.decide_and,
      ← Bool.decide_and, ← Bool.decide_or, ← Bool.decide_or]
    congr 2
    exact decide_eq_decide.mpr (by omega)

/-! ### Bitsets -/

/-- `size` bits in as few words as hold them. -/
structure BitSet where
  size : Nat
  words : Array Word
  words_size : words.size = (size + 63) / 64
  padding : ∀ index, size ≤ index → bitAt words index = false

namespace BitSet

def ofSize (size : Nat) : BitSet where
  size := size
  words := Array.replicate ((size + 63) / 64) 0#64
  words_size := Array.size_replicate
  padding := fun index _ => by
    by_cases h : index / 64 < (size + 63) / 64 <;> simp [bitAt, Array.getD, h]

def empty : BitSet := ofSize 0

instance : Inhabited BitSet := ⟨empty⟩

instance : Membership Nat BitSet := ⟨fun s index => bitAt s.words index = true⟩

theorem mem_def {s : BitSet} {index : Nat} : index ∈ s ↔ bitAt s.words index = true := Iff.rfl

instance (index : Nat) (s : BitSet) : Decidable (index ∈ s) :=
  inferInstanceAs (Decidable (_ = true))

theorem lt_size_of_mem {s : BitSet} {index : Nat} (h : index ∈ s) : index < s.size := by
  refine Nat.lt_of_not_le fun hle => ?_
  have := s.padding index hle
  rw [mem_def, this] at h
  exact Bool.false_ne_true h

/-- The positions set, in ascending order. -/
def toList (s : BitSet) : List Nat := (List.range s.size).filter (bitAt s.words)

@[simp] theorem mem_toList {s : BitSet} {index : Nat} : index ∈ s.toList ↔ index ∈ s := by
  simp only [toList, List.mem_filter, List.mem_range]
  exact ⟨fun h => h.2, fun h => ⟨lt_size_of_mem h, h⟩⟩

def insert (s : BitSet) (index : Nat) (h : index < s.size) : BitSet where
  size := s.size
  words := s.words.modify (index / 64) (· ||| bitMask index)
  words_size := by rw [Array.size_modify, s.words_size]
  padding := fun i hi => by
    have hsize := s.words_size
    have hpad := s.padding i hi
    have hlt : i % 64 < 64 := Nat.mod_lt _ (by decide)
    rw [bitAt_modify]
    split
    · next hk =>
      rw [hk.1, BitVec.getLsbD_or, getLsbD_bitMask]
      simp only [bitAt] at hpad
      simp only [hpad, Bool.false_or, decide_eq_false_iff_not]
      omega
    · exact hpad

def erase (s : BitSet) (index : Nat) : BitSet where
  size := s.size
  words := s.words.modify (index / 64) (· &&& ~~~bitMask index)
  words_size := by rw [Array.size_modify, s.words_size]
  padding := fun i hi => by
    have hpad := s.padding i hi
    rw [bitAt_modify]
    split
    · next hk =>
      rw [hk.1, BitVec.getLsbD_and]
      simp only [bitAt] at hpad
      simp only [hpad, Bool.false_and]
    · exact hpad

def eraseRange (s : BitSet) (first last : Nat) (h : first ≤ last) : BitSet where
  size := s.size
  words := eraseBits s.words first last
  words_size := by rw [size_eraseBits, s.words_size]
  padding := fun i hi => by rw [bitAt_eraseBits h, s.padding i hi, Bool.false_and]

/-! ### Operations

An index beyond the capacity is a fault, and then no bit changes. -/

def get (s : BitSet) (index : Nat) : Except Fault Bool :=
  if index < s.size then .ok (bitAt s.words index) else .error (.bitOutOfBounds index s.size)

/-- The bit that `get` reads, as one of the two constants. -/
def index (s : BitSet) (index : Nat) : Except Fault Bool := do
  if ← s.get index then return true else return false

/-- Set bit `index`; the answer is its previous value. -/
def set (s : BitSet) (index : Nat) : Except Fault (Bool × BitSet) :=
  if h : index < s.size then .ok (bitAt s.words index, s.insert index h)
  else .error (.bitOutOfBounds index s.size)

def reset (s : BitSet) (index : Nat) : Except Fault (Bool × BitSet) :=
  if index < s.size then .ok (bitAt s.words index, s.erase index)
  else .error (.bitOutOfBounds index s.size)

def resetRange (s : BitSet) (first last : Nat) : Except Fault BitSet :=
  if h : last < first then .error (.malformedBits first last)
  else if s.size ≤ last then .error (.bitsOutOfBounds last s.size)
  else .ok (s.eraseRange first last (Nat.le_of_not_lt h))

def clear (s : BitSet) : BitSet := ofSize s.size

def count (s : BitSet) : Nat :=
  s.words.toList.foldr (fun word total => popCount word + total) 0

/-- Hand over the bits and keep a bitset without any. -/
def take (s : BitSet) : BitSet × BitSet := (s, empty)

/-! ### What the operations do to membership -/

@[simp] theorem not_mem_ofSize {size index : Nat} : ¬ index ∈ ofSize size := by
  intro h
  have : bitAt (ofSize size).words index = false := by
    by_cases h : index / 64 < (size + 63) / 64 <;> simp [ofSize, bitAt, Array.getD, h]
  rw [mem_def, this] at h
  exact Bool.false_ne_true h

@[simp] theorem not_mem_clear {s : BitSet} {index : Nat} : ¬ index ∈ s.clear := not_mem_ofSize

@[simp] theorem mem_insert {s : BitSet} {i index : Nat} {h : index < s.size} :
    i ∈ s.insert index h ↔ i = index ∨ i ∈ s := by
  have hsize := s.words_size
  have hlt : i % 64 < 64 := Nat.mod_lt _ (by decide)
  simp only [mem_def, insert, bitAt_modify]
  split
  · next hk =>
    rw [hk.1, BitVec.getLsbD_or, getLsbD_bitMask]
    simp only [bitAt, Bool.or_eq_true, decide_eq_true_eq]
    rw [or_comm]
    refine or_congr ?_ Iff.rfl
    omega
  · next hk =>
    have : i ≠ index := by
      rintro rfl
      exact hk ⟨rfl, by omega⟩
    simp [this]

@[simp] theorem mem_erase {s : BitSet} {i index : Nat} :
    i ∈ s.erase index ↔ i ≠ index ∧ i ∈ s := by
  have hlt : i % 64 < 64 := Nat.mod_lt _ (by decide)
  simp only [mem_def, erase, bitAt_modify]
  split
  · next hk =>
    rw [hk.1, BitVec.getLsbD_and, BitVec.getLsbD_not, getLsbD_bitMask]
    simp only [bitAt, hlt, decide_true, Bool.true_and, Bool.and_eq_true, Bool.not_eq_true',
      decide_eq_false_iff_not]
    rw [and_comm]
    refine and_congr ?_ Iff.rfl
    omega
  · next hk =>
    refine ⟨fun h => ⟨?_, h⟩, fun h => h.2⟩
    rintro rfl
    have : s.words.size * 64 ≤ i := by
      have : ¬ i / 64 < s.words.size := fun h => hk ⟨rfl, h⟩
      omega
    rw [bitAt_eq_false_of_le this] at h
    exact Bool.false_ne_true h

@[simp] theorem mem_eraseRange {s : BitSet} {first last i : Nat} {h : first ≤ last} :
    i ∈ s.eraseRange first last h ↔ ¬ (first ≤ i ∧ i ≤ last) ∧ i ∈ s := by
  rw [mem_def, mem_def, eraseRange, bitAt_eraseBits h, Bool.and_eq_true, Bool.not_eq_true',
    decide_eq_false_iff_not]
  exact and_comm

@[simp] theorem size_insert {s : BitSet} {index : Nat} {h : index < s.size} :
    (s.insert index h).size = s.size := rfl

@[simp] theorem size_erase {s : BitSet} {index : Nat} : (s.erase index).size = s.size := rfl

@[simp] theorem size_eraseRange {s : BitSet} {first last : Nat} {h : first ≤ last} :
    (s.eraseRange first last h).size = s.size := rfl

@[simp] theorem size_clear {s : BitSet} : s.clear.size = s.size := rfl

@[simp] theorem size_ofSize {size : Nat} : (ofSize size).size = size := rfl

end BitSet

end TilePaint
