/-
  TilePaint/Proofs/BitSetRefinement.lean
  ======================================
  **Bits in words are a finite set of positions.**

  `IndexSet` is what a bitset stands for: a size, and a set of positions below it.
  `BitSet.view` reads a bitset so.  Every operation on words is an operation on the
  set (`view_apply`), with the same answer and the same faults, and so is every
  sequence of operations (`view_run`).

  What has to be shown of the words themselves:

    * a bitset is determined by its positions (`BitSet.ext_mem`), because no bit
      behind its size is ever set;
    * the ones in all words are as many as the positions (`count_eq_card`);
    * the phases of a range reset come to the same words as one reset for each
      position (`resetRange_eq_resetEach`).
-/
import Mathlib.Data.Finset.Card
import Mathlib.Order.Interval.Finset.Nat
import TilePaint.BitSet

namespace TilePaint

/-! ## 1. Operations -/

inductive BitOp where
  | set (index : Nat)
  | reset (index : Nat)
  | get (index : Nat)
  | index (index : Nat)
  | resetRange (first last : Nat)
  | clear
  | count
  | take
deriving DecidableEq, Repr

/-- What an operation answers, on bits that are kept as `σ`. -/
inductive BitAnswer (σ : Type) where
  | done
  | bit (b : Bool)
  | total (n : Nat)
  | handed (bits : σ)
  | fault (f : Fault)

def BitAnswer.map {σ τ : Type} (f : σ → τ) : BitAnswer σ → BitAnswer τ
  | .done => .done
  | .bit b => .bit b
  | .total n => .total n
  | .handed bits => .handed (f bits)
  | .fault reason => .fault reason

namespace BitOp

/-- A position that a bitset of this size does not have, or a range that ends before
    it begins. -/
def OutOfBounds (size : Nat) : BitOp → Prop
  | .set i | .reset i | .get i | .index i => size ≤ i
  | .resetRange first last => last < first ∨ size ≤ last
  | .clear | .count | .take => False

/-- A sequence of operations, with their answers. -/
def run {σ : Type} (apply : σ → BitOp → σ × BitAnswer σ) (s : σ) :
    List BitOp → σ × List (BitAnswer σ)
  | [] => (s, [])
  | op :: ops =>
      let (s, answer) := apply s op
      let (s, answers) := run apply s ops
      (s, answer :: answers)

end BitOp

/-- An operation that fails leaves the bits alone. -/
def BitSet.attempt (s : BitSet) :
    Except Fault (BitSet × BitAnswer BitSet) → BitSet × BitAnswer BitSet
  | .ok result => result
  | .error reason => (s, .fault reason)

def BitSet.apply (s : BitSet) : BitOp → BitSet × BitAnswer BitSet
  | .set i => s.attempt ((s.set i).map fun (old, s) => (s, .bit old))
  | .reset i => s.attempt ((s.reset i).map fun (old, s) => (s, .bit old))
  | .get i => s.attempt ((s.get i).map fun b => (s, .bit b))
  | .index i => s.attempt ((s.index i).map fun b => (s, .bit b))
  | .resetRange first last => s.attempt ((s.resetRange first last).map fun s => (s, .done))
  | .clear => (s.clear, .done)
  | .count => (s, .total s.count)
  | .take => (s.take.2, .handed s.take.1)

/-! ## 2. Sets of positions -/

/-- A set of positions below `size`. -/
@[ext] structure IndexSet where
  size : Nat
  members : Finset Nat
  members_lt : ∀ i ∈ members, i < size

namespace IndexSet

def ofSize (size : Nat) : IndexSet := ⟨size, ∅, fun _ hi => absurd hi (Finset.notMem_empty _)⟩

def insert (S : IndexSet) (i : Nat) (h : i < S.size) : IndexSet where
  size := S.size
  members := Insert.insert i S.members
  members_lt := fun j hj => by
    rcases Finset.mem_insert.mp hj with rfl | hj
    · exact h
    · exact S.members_lt j hj

def remove (S : IndexSet) (gone : Finset Nat) : IndexSet where
  size := S.size
  members := S.members \ gone
  members_lt := fun i hi => S.members_lt i (Finset.mem_sdiff.mp hi).1

def apply (S : IndexSet) : BitOp → IndexSet × BitAnswer IndexSet
  | .set i =>
      if h : i < S.size then (S.insert i h, .bit (decide (i ∈ S.members)))
      else (S, .fault (.bitOutOfBounds i S.size))
  | .reset i =>
      if i < S.size then (S.remove {i}, .bit (decide (i ∈ S.members)))
      else (S, .fault (.bitOutOfBounds i S.size))
  | .get i | .index i =>
      if i < S.size then (S, .bit (decide (i ∈ S.members)))
      else (S, .fault (.bitOutOfBounds i S.size))
  | .resetRange first last =>
      if last < first then (S, .fault (.malformedBits first last))
      else if S.size ≤ last then (S, .fault (.bitsOutOfBounds last S.size))
      else (S.remove (Finset.Icc first last), .done)
  | .clear => (ofSize S.size, .done)
  | .count => (S, .total S.members.card)
  | .take => (ofSize 0, .handed S)

end IndexSet

namespace BitSet

/-- The positions that are set. -/
def view (s : BitSet) : IndexSet where
  size := s.size
  members := s.toList.toFinset
  members_lt := fun _ hi => lt_size_of_mem (mem_toList.mp (List.mem_toFinset.mp hi))

@[simp] theorem size_view (s : BitSet) : s.view.size = s.size := rfl

@[simp] theorem mem_view {s : BitSet} {i : Nat} : i ∈ s.view.members ↔ i ∈ s := by
  rw [view, List.mem_toFinset, mem_toList]

theorem decide_mem_view {s : BitSet} {i : Nat} :
    decide (i ∈ s.view.members) = bitAt s.words i := by
  rw [Bool.eq_iff_iff, decide_eq_true_eq, mem_view, mem_def]

/-! ## 3. Words and positions -/

/-- **A bitset is determined by its positions.** -/
theorem ext_mem {s t : BitSet} (hsize : s.size = t.size) (h : ∀ i, i ∈ s ↔ i ∈ t) : s = t := by
  have hbit : ∀ i, bitAt s.words i = bitAt t.words i := by
    intro i
    rw [Bool.eq_iff_iff, ← mem_def, ← mem_def]
    exact h i
  have hwords : s.words = t.words := by
    have hlen : s.words.size = t.words.size := by
      rw [s.words_size, t.words_size, hsize]
    refine Array.ext hlen fun k hs ht => BitVec.eq_of_getLsbD_eq fun j hj => ?_
    have hpos := hbit (64 * k + j)
    have hdiv : (64 * k + j) / 64 = k := by omega
    have hmod : (64 * k + j) % 64 = j := by omega
    simpa only [bitAt, hdiv, hmod, Array.getD, hs, ht, dif_pos, Array.getInternal_eq_getElem]
      using hpos
  rcases s with ⟨size, words, _, _⟩
  rcases t with ⟨size', words', _, _⟩
  cases hsize
  cases hwords
  rfl

/-- The ones in a list of words are the ones at all its positions. -/
theorem sum_popCount (words : List Word) :
    words.foldr (fun word total => popCount word + total) 0 =
      (List.range (64 * words.length)).countP fun i =>
        (words.getD (i / 64) 0#64).getLsbD (i % 64) := by
  induction words with
  | nil => rfl
  | cons word words ih =>
    have hfirst : popCount word = (List.range 64).countP fun i =>
        ((word :: words).getD (i / 64) 0#64).getLsbD (i % 64) := by
      refine List.countP_congr fun i hi => ?_
      have hlt := List.mem_range.mp hi
      rw [Nat.div_eq_of_lt hlt, Nat.mod_eq_of_lt hlt, List.getD_cons_zero]
    have hrest : ∀ i, ((word :: words).getD ((64 + i) / 64) 0#64).getLsbD ((64 + i) % 64) =
        (words.getD (i / 64) 0#64).getLsbD (i % 64) := by
      intro i
      have hdiv : (64 + i) / 64 = i / 64 + 1 := by omega
      have hmod : (64 + i) % 64 = i % 64 := by omega
      rw [hdiv, hmod, List.getD_cons_succ]
    rw [List.foldr_cons, ih, List.length_cons, Nat.mul_succ, Nat.add_comm _ 64, List.range_add,
      List.countP_append, List.countP_map, hfirst]
    exact congrArg _ (List.countP_congr fun i _ => by rw [Function.comp_apply, hrest])

/-- **The count is the number of positions.**  The bits behind the size, which the
    last word has as well, are not set. -/
theorem count_eq_card (s : BitSet) : s.count = s.view.members.card := by
  have hsize := s.words_size
  obtain ⟨behind, hbehind⟩ : ∃ behind, 64 * s.words.toList.length = s.size + behind :=
    ⟨64 * s.words.toList.length - s.size, by rw [Array.length_toList]; omega⟩
  have hnone : ((List.range behind).map (s.size + ·)).countP (bitAt s.words) = 0 := by
    rw [List.countP_eq_zero]
    intro i hi
    obtain ⟨j, -, rfl⟩ := List.mem_map.mp hi
    rw [s.padding _ (Nat.le_add_right _ _)]
    exact Bool.false_ne_true
  have hbits : (fun i => (s.words.toList.getD (i / 64) 0#64).getLsbD (i % 64)) =
      bitAt s.words := by
    funext i
    rw [bitAt, List.getD_eq_getElem?_getD, Array.getD_eq_getD_getElem?, Array.getElem?_toList]
  have hnodup : s.toList.Nodup := List.nodup_range.filter _
  calc s.count
      = (List.range (s.size + behind)).countP (bitAt s.words) := by
        rw [count, sum_popCount, hbehind, hbits]
    _ = (List.range s.size).countP (bitAt s.words) := by
        rw [List.range_add, List.countP_append, hnone, Nat.add_zero]
    _ = s.view.members.card := by
        rw [view, List.toFinset_card_of_nodup hnodup, toList, List.countP_eq_length_filter]

/-! ## 4. One operation -/

theorem view_ofSize (size : Nat) : (ofSize size).view = IndexSet.ofSize size := by
  refine IndexSet.ext rfl (Finset.ext fun i => ?_)
  rw [mem_view]
  exact iff_of_false not_mem_ofSize (Finset.notMem_empty i)

theorem view_insert {s : BitSet} {i : Nat} (h : i < s.size) :
    (s.insert i h).view = s.view.insert i h := by
  refine IndexSet.ext rfl (Finset.ext fun j => ?_)
  show _ ↔ j ∈ Insert.insert i s.view.members
  rw [mem_view, mem_insert, Finset.mem_insert, mem_view]

theorem view_erase (s : BitSet) (i : Nat) : (s.erase i).view = s.view.remove {i} := by
  refine IndexSet.ext rfl (Finset.ext fun j => ?_)
  rw [mem_view, mem_erase, IndexSet.remove, Finset.mem_sdiff, mem_view, Finset.mem_singleton]
  exact and_comm

theorem view_eraseRange {s : BitSet} {first last : Nat} (h : first ≤ last) :
    (s.eraseRange first last h).view = s.view.remove (Finset.Icc first last) := by
  refine IndexSet.ext rfl (Finset.ext fun j => ?_)
  rw [mem_view, mem_eraseRange, IndexSet.remove, Finset.mem_sdiff, mem_view, Finset.mem_Icc]
  exact and_comm

theorem index_eq_get (s : BitSet) (i : Nat) : s.index i = s.get i := by
  rw [index]
  cases s.get i with
  | error fault => rfl
  | ok b => cases b <;> rfl

/-- The positions of a bitset and of what it answers. -/
def viewed : BitSet × BitAnswer BitSet → IndexSet × BitAnswer IndexSet :=
  Prod.map view (BitAnswer.map view)

theorem viewed_get (s : BitSet) (i : Nat) : viewed (s.apply (.get i)) = s.view.apply (.get i) := by
  simp only [apply, get, IndexSet.apply, size_view, decide_mem_view]
  split <;> rfl

/-- **One operation** on the words is the operation on the set. -/
theorem view_apply (s : BitSet) (op : BitOp) : viewed (s.apply op) = s.view.apply op := by
  cases op with
  | set i =>
    simp only [apply, set, IndexSet.apply, size_view, decide_mem_view]
    split
    · next h => exact Prod.ext (view_insert h) rfl
    · rfl
  | reset i =>
    simp only [apply, reset, IndexSet.apply, size_view, decide_mem_view]
    split
    · exact Prod.ext (view_erase s i) rfl
    · rfl
  | get i => exact viewed_get s i
  | index i =>
    have hget : s.apply (.index i) = s.apply (.get i) := by
      rw [apply, apply, index_eq_get]
    rw [hget]
    exact viewed_get s i
  | resetRange first last =>
    simp only [apply, resetRange, IndexSet.apply]
    split
    · rfl
    · next hle =>
      by_cases hout : s.size ≤ last
      · have hout' : s.view.size ≤ last := hout
        rw [if_pos hout, if_pos hout']
        rfl
      · have hin : ¬s.view.size ≤ last := hout
        rw [if_neg hout, if_neg hin]
        exact Prod.ext (view_eraseRange (Nat.le_of_not_lt hle)) rfl
  | clear => exact Prod.ext (view_ofSize s.size) rfl
  | count => exact Prod.ext rfl (congrArg BitAnswer.total (count_eq_card s))
  | take => exact Prod.ext (view_ofSize 0) rfl

theorem apply_of_outOfBounds {s : BitSet} {op : BitOp} (h : op.OutOfBounds s.size) :
    ∃ reason, s.apply op = (s, .fault reason) := by
  cases op with
  | set i =>
    have hout : ¬i < s.size := Nat.not_lt_of_le h
    rw [apply, set, dif_neg hout]
    exact ⟨_, rfl⟩
  | reset i =>
    have hout : ¬i < s.size := Nat.not_lt_of_le h
    rw [apply, reset, if_neg hout]
    exact ⟨_, rfl⟩
  | get i =>
    have hout : ¬i < s.size := Nat.not_lt_of_le h
    rw [apply, get, if_neg hout]
    exact ⟨_, rfl⟩
  | index i =>
    have hout : ¬i < s.size := Nat.not_lt_of_le h
    rw [apply, index_eq_get, get, if_neg hout]
    exact ⟨_, rfl⟩
  | resetRange first last =>
    rw [apply, resetRange]
    split
    · exact ⟨_, rfl⟩
    · next hle =>
      -- the range is no range, or it ends behind the last bit; each has a fault of its own
      rw [if_pos (h.resolve_left hle)]
      exact ⟨_, rfl⟩
  | clear => cases h
  | count => cases h
  | take => cases h

theorem answer_of_inBounds {s : BitSet} {op : BitOp} (h : ¬op.OutOfBounds s.size)
    (reason : Fault) : (s.apply op).2 ≠ .fault reason := by
  cases op with
  | set i =>
    have hin : i < s.size := Nat.lt_of_not_le h
    rw [apply, set, dif_pos hin]
    nofun
  | reset i =>
    have hin : i < s.size := Nat.lt_of_not_le h
    rw [apply, reset, if_pos hin]
    nofun
  | get i =>
    have hin : i < s.size := Nat.lt_of_not_le h
    rw [apply, get, if_pos hin]
    nofun
  | index i =>
    have hin : i < s.size := Nat.lt_of_not_le h
    rw [apply, index_eq_get, get, if_pos hin]
    nofun
  | resetRange first last =>
    obtain ⟨hle, hlt⟩ := not_or.mp h
    rw [apply, resetRange, dif_neg hle, if_neg hlt]
    nofun
  | clear => nofun
  | count => nofun
  | take => nofun

/-- **An operation fails exactly if it is out of bounds**, and then no bit changes. -/
theorem apply_fault_iff (s : BitSet) (op : BitOp) :
    ((∃ reason, (s.apply op).2 = .fault reason) ↔ op.OutOfBounds s.size) ∧
      (op.OutOfBounds s.size → (s.apply op).1 = s) := by
  refine ⟨⟨?_, fun h => ?_⟩, fun h => ?_⟩
  · rintro ⟨reason, hfault⟩
    by_contra hin
    exact answer_of_inBounds hin reason hfault
  · obtain ⟨reason, hfault⟩ := apply_of_outOfBounds h
    exact ⟨reason, congrArg Prod.snd hfault⟩
  · obtain ⟨reason, hfault⟩ := apply_of_outOfBounds h
    exact congrArg Prod.fst hfault

/-! ## 5. Resetting one by one -/

def resetEach (s : BitSet) (first last : Nat) : Except Fault BitSet :=
  (List.range' first (last + 1 - first)).foldlM (fun s i => do return (← s.reset i).2) s

theorem mem_foldl_erase {positions : List Nat} {s : BitSet} {i : Nat} :
    i ∈ positions.foldl erase s ↔ i ∉ positions ∧ i ∈ s := by
  induction positions generalizing s with
  | nil => simp only [List.foldl_nil, List.not_mem_nil, not_false_eq_true, true_and]
  | cons j positions ih =>
    rw [List.foldl_cons, ih, mem_erase, List.mem_cons, not_or, and_assoc]
    exact and_left_comm

theorem size_foldl_erase (positions : List Nat) (s : BitSet) :
    (positions.foldl erase s).size = s.size := by
  induction positions generalizing s with
  | nil => rfl
  | cons i positions ih => exact ih (s.erase i)

theorem foldlM_reset {positions : List Nat} {s : BitSet} (h : ∀ i ∈ positions, i < s.size) :
    positions.foldlM (fun s i => do return (← s.reset i).2) s =
      .ok (positions.foldl erase s) := by
  induction positions generalizing s with
  | nil => rfl
  | cons i positions ih =>
    have hreset : s.reset i = .ok (bitAt s.words i, s.erase i) :=
      if_pos (h i (List.mem_cons_self ..))
    rw [List.foldlM_cons, hreset, List.foldl_cons]
    exact ih fun j hj => h j (List.mem_cons_of_mem _ hj)

/-- **A range reset word by word** comes to the same words as one reset for each
    position of the range. -/
theorem resetRange_eq_resetEach {s : BitSet} {first last : Nat} (hle : first ≤ last)
    (hlt : last < s.size) : s.resetRange first last = s.resetEach first last := by
  have hbounds : ∀ i ∈ List.range' first (last + 1 - first), i < s.size := by
    intro i hi
    rw [List.mem_range'_1] at hi
    omega
  rw [resetEach, foldlM_reset hbounds, resetRange, dif_neg (Nat.not_lt_of_le hle),
    if_neg (Nat.not_le_of_lt hlt)]
  refine congrArg Except.ok (ext_mem (size_foldl_erase _ s).symm fun i => ?_)
  rw [mem_eraseRange, mem_foldl_erase, List.mem_range'_1]
  refine and_congr_left' (not_congr ?_)
  omega

/-! ## 6. Sequences of operations -/

theorem view_run (s : BitSet) (ops : List BitOp) :
    Prod.map view (List.map (BitAnswer.map view)) (BitOp.run apply s ops) =
      BitOp.run IndexSet.apply s.view ops := by
  induction ops generalizing s with
  | nil => rfl
  | cons op ops ih =>
    have hstate : (s.view.apply op).1 = (s.apply op).1.view :=
      congrArg Prod.fst (view_apply s op).symm
    have hanswer : (s.view.apply op).2 = (s.apply op).2.map view :=
      congrArg Prod.snd (view_apply s op).symm
    simp only [BitOp.run, hstate, hanswer, ← ih]
    rfl

/-- **Bits in words behave as a set of positions**, from the empty set on: every
    sequence of operations has the answers and the faults that it has on the set.  An
    operation fails exactly if it is out of bounds, and then no bit changes.  A range
    reset agrees with one reset for each position. -/
theorem refines_index_set (size : Nat) (s : BitSet) (ops : List BitOp) :
    Prod.map view (List.map (BitAnswer.map view)) (BitOp.run apply (ofSize size) ops) =
        BitOp.run IndexSet.apply (IndexSet.ofSize size) ops ∧
      Prod.map view (List.map (BitAnswer.map view)) (BitOp.run apply s ops) =
        BitOp.run IndexSet.apply s.view ops ∧
      (∀ op, ((∃ reason, (s.apply op).2 = .fault reason) ↔ op.OutOfBounds s.size) ∧
        (op.OutOfBounds s.size → (s.apply op).1 = s)) ∧
      ∀ first last, first ≤ last → last < s.size →
        s.resetRange first last = s.resetEach first last := by
  refine ⟨?_, view_run s ops, apply_fault_iff s, fun first last => resetRange_eq_resetEach⟩
  rw [← view_ofSize]
  exact view_run (ofSize size) ops

namespace Sample

/-- Bits in three words, the last of which has two positions only. -/
def scattered : BitSet :=
  (BitOp.run apply (ofSize 130) [.set 3, .set 63, .set 64, .set 127, .set 128, .set 129]).1

end Sample

theorem refines_index_set_scattered :
    (BitOp.set 130).OutOfBounds Sample.scattered.size ∧
      (Sample.scattered.apply (.set 130)).1 = Sample.scattered ∧
      63 ≤ 128 ∧ 128 < Sample.scattered.size ∧
      Sample.scattered.resetRange 63 128 = Sample.scattered.resetEach 63 128 := by
  have hout : (BitOp.set 130).OutOfBounds Sample.scattered.size := by
    show Sample.scattered.size ≤ 130
    decide +kernel
  have hlt : 128 < Sample.scattered.size := by decide +kernel
  obtain ⟨-, -, hfault, heach⟩ := refines_index_set 130 Sample.scattered []
  exact ⟨hout, (hfault _).2 hout, by decide, hlt, heach 63 128 (by decide) hlt⟩

end BitSet

end TilePaint
