/-
  TilePaint/Config/Basic.lean
  ===========================
  **The size of a tile and of the pool that holds the pixels.**

  A configuration names the edge of a tile in pixels and the bytes reserved for
  the pool.  From the two follow the bytes of one tile (`stride`) and the number
  of tiles the pool keeps (`slots`); one tile of the budget is left as headroom.

  Sizes are byte counts of a machine word, so both may fail by overflow.
-/
import TilePaint.Fault

namespace TilePaint

/-- Why no configuration could be obtained. -/
inductive ConfigError where
  | invalidValue (key : String)
  | unreadable
  | fault (cause : Fault)
deriving DecidableEq, Repr

def ConfigError.message : ConfigError → String
  | .invalidValue key => s!"invalid value for configuration key: {key}"
  | .unreadable => "I/O error"
  | .fault cause => cause.message

/-- The edge of a tile in pixels and the budget of the pool in bytes. -/
structure Config where
  edge : Nat := 256
  budget : Nat := 256 * 1024 * 1024
deriving DecidableEq, Repr, Inhabited

namespace Config

def bytesPerPixel : Nat := 4

/-- The bytes of one unit of the budget as users write it. -/
def mebibyte : Nat := 1024 * 1024

def withEdge (c : Config) (edge : Nat) : Config := { c with edge }

def withBudget (c : Config) (bytes : Nat) : Config := { c with budget := bytes }

/-- Choose the budget in mebibytes, at most as much as fits a word. -/
def withBudgetMiB (c : Config) (count : Nat) : Config :=
  { c with budget := min maxIndex (count * mebibyte) }

def stride (c : Config) : Except Fault Nat := do
  mulWithin maxIndex (← mulWithin maxIndex c.edge c.edge) bytesPerPixel

/-- The number of tiles the pool keeps: what the budget affords less one, but at
    least one. -/
def slots (c : Config) : Except Fault Nat := do
  let stride ← c.stride
  return if stride = 0 then 1 else max 1 (c.budget / stride - 1)

def budgetMiB (c : Config) : Nat := c.budget / mebibyte

def edgeKey : String := "tile_size_px"

def budgetKey : String := "pool_budget_mb"

/-- A usable configuration has a tile size, and a budget of at least two tiles. -/
def validate (c : Config) : Except ConfigError Unit := do
  if c.edge = 0 then throw (.invalidValue edgeKey)
  let least ← (do mulWithin maxIndex (← c.stride) 2).mapError .fault
  if c.budget < least then throw (.invalidValue budgetKey)

end Config

end TilePaint
