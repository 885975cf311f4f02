/-
  TilePaint/Barrier.lean
  ======================
  **Completion barriers.**

  A barrier expects a number of arrivals.  The arrival that brings the number of
  outstanding ones to zero fires it, once; a barrier that expects none fires when
  it is made.  More arrivals at once than are outstanding are refused as a whole.

  What firing means is the business of whoever made the barrier: each operation
  answers whether the barrier fires in this very call.
-/

namespace TilePaint

/-- The arrivals still outstanding, and whether the barrier has fired. -/
structure Barrier where
  remaining : Nat
  fired : Bool
deriving DecidableEq, Repr, Inhabited

namespace Barrier

/-- Fire, unless that has been done; the answer is whether it happens now. -/
def fire (b : Barrier) : Barrier × Bool := ({ b with fired := true }, !b.fired)

def ofCount (count : Nat) : Barrier × Bool :=
  let b : Barrier := ⟨count, false⟩
  if count = 0 then b.fire else (b, false)

def arrive (b : Barrier) (n : Nat) : Barrier × Bool :=
  -- more arrivals than are outstanding are refused as a whole
  if n = 0 ∨ b.remaining < n then (b, false)
  else
    let b := { b with remaining := b.remaining - n }
    if b.remaining = 0 then b.fire else (b, false)

def describe (b : Barrier) : String :=
  "CompletionBarrier \x7b remaining: " ++ toString b.remaining ++ " \x7d"

end Barrier

end TilePaint
