/-
  TilePaint/Fault.lean
  ====================
  **Why an operation is abandoned.**

  Tile indices, bit positions and byte sizes are machine words: they are natural
  numbers that never pass `maxIndex`.  An operation whose arithmetic would leave
  that range, or whose arguments break its contract, is abandoned with a `Fault`;
  it has no other effect unless the operation says so.  A collaborator (the
  engine that renders a tile, the client that owns the cache) may also give up by
  itself, with a text of its own (`Fault.raised`).

  `Fault.message` is the only place that knows the wording.
-/

namespace TilePaint

/-! ### Causes -/

inductive Fault where
  | addOverflow
  | subOverflow
  | mulOverflow
  /-- A tile range whose first index lies behind its last one. -/
  | malformedRange (first last : Nat)
  | bitOutOfBounds (index size : Nat)
  /-- A range of bits whose first position lies behind its last one. -/
  | malformedBits (first last : Nat)
  | bitsOutOfBounds (last size : Nat)
  | outsideGrid (column row columns rows : Nat)
  | tileSizeZero
  /-- A collaborator gave up. -/
  | raised (text : String)
deriving DecidableEq, Repr, Inhabited

def Fault.message : Fault → String
  | .addOverflow => "attempt to add with overflow"
  | .subOverflow => "attempt to subtract with overflow"
  | .mulOverflow => "attempt to multiply with overflow"
  | .malformedRange first last => s!"malformed tile range {first}..={last}"
  | .bitOutOfBounds index size => s!"bit index {index} out of bounds for bitset of {size} bits"
  | .malformedBits first last => s!"malformed bit range {first}..={last}"
  | .bitsOutOfBounds last size => s!"bit range end {last} out of bounds for bitset of {size} bits"
  | .outsideGrid column row columns rows =>
      s!"tile ({column}, {row}) outside {columns}x{rows} grid"
  | .tileSizeZero => "tile size must be positive"
  | .raised text => text

/-! ### Checked arithmetic

Each operation takes the largest value its word can hold. -/

/-- The largest tile index, bit position or byte size. -/
def maxIndex : Nat := UInt64.size - 1

/-- The largest 32-bit length in pixels. -/
def maxLength : Nat := UInt32.size - 1

/-- The sum, if it fits below `limit`. -/
def addWithin (limit a b : Nat) : Except Fault Nat :=
  if a + b ≤ limit then .ok (a + b) else .error .addOverflow

def mulWithin (limit a b : Nat) : Except Fault Nat :=
  if a * b ≤ limit then .ok (a * b) else .error .mulOverflow

/-- The difference of two words, if it is not negative. -/
def subWithin (a b : Nat) : Except Fault Nat :=
  if b ≤ a then .ok (a - b) else .error .subOverflow

theorem addWithin_eq_ok_iff {limit a b c : Nat} :
    addWithin limit a b = .ok c ↔ c = a + b ∧ c ≤ limit := by
  unfold addWithin
  split
  · next h => simp only [Except.ok.injEq]; omega
  · next h => simp only [reduceCtorEq, false_iff]; omega

theorem mulWithin_eq_ok_iff {limit a b c : Nat} :
    mulWithin limit a b = .ok c ↔ c = a * b ∧ c ≤ limit := by
  unfold mulWithin
  split
  · next h =>
    simp only [Except.ok.injEq]
    exact ⟨fun e => ⟨e.symm, e ▸ h⟩, fun e => e.1.symm⟩
  · next h =>
    simp only [reduceCtorEq, false_iff]
    exact fun e => h (e.1 ▸ e.2)

theorem subWithin_eq_ok_iff {a b c : Nat} : subWithin a b = .ok c ↔ a = b + c := by
  unfold subWithin
  split
  · next h => simp only [Except.ok.injEq]; omega
  · next h => simp only [reduceCtorEq, false_iff]; omega

/-- A computation in two parts succeeds when both parts do. -/
theorem bind_eq_ok_iff {α β : Type} {x : Except Fault α} {f : α → Except Fault β} {b : β} :
    x >>= f = .ok b ↔ ∃ a, x = .ok a ∧ f a = .ok b := by
  cases x with
  | error fault =>
    constructor
    · intro h
      cases h
    · rintro ⟨a, h, -⟩
      cases h
  | ok a =>
    constructor
    · intro h
      exact ⟨a, rfl, h⟩
    · rintro ⟨a', h, hf⟩
      cases h
      exact hf

end TilePaint
