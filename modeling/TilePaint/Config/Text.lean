/-
  TilePaint/Config/Text.lean
  ==========================
  **Configurations as text.**

  A configuration file is a list of lines `key = value`.  Blank lines, lines that
  start with `#`, lines without `=` and lines with an unknown key say nothing.
  What remains are assignments to the two keys; they are applied in order to the
  default configuration, so the last one wins, and the first one whose value is
  not a number in range decides the error.  The outcome is validated at the end.

  Blanks around lines, keys and values are dropped, and so are double quotes
  around a value.  A number is written in decimal digits, with an optional plus
  sign in front.

  `Config.toText` writes the form that `Config.ofText` reads.
-/
import TilePaint.Config.Basic

namespace TilePaint

/-! ### Characters and lines -/

/-- The blank characters: the ones with the white space property. -/
def isBlank (c : Char) : Bool :=
  let n := c.toNat
  (9 ≤ n && n ≤ 13) || n == 0x20 || n == 0x85 || n == 0xA0 || n == 0x1680 ||
    (0x2000 ≤ n && n ≤ 0x200A) || n == 0x2028 || n == 0x2029 || n == 0x202F || n == 0x205F ||
    n == 0x3000

def trimBy (drop : Char → Bool) (cs : List Char) : List Char :=
  ((cs.dropWhile drop).reverse.dropWhile drop).reverse

def trimBlanks : List Char → List Char := trimBy isBlank

def trimQuotes : List Char → List Char := trimBy (· == '"')

/-- The lines of a text: what stands between its line feeds. -/
def splitLines : List Char → List (List Char)
  | [] => [[]]
  | c :: rest =>
      if c = '\n' then [] :: splitLines rest
      else match splitLines rest with
        | [] => [[c]]
        | line :: lines => (c :: line) :: lines

def cutAt (mark : Char) (cs : List Char) : Option (List Char × List Char) :=
  match cs.dropWhile (· ≠ mark) with
  | [] => none
  | _ :: after => some (cs.takeWhile (· ≠ mark), after)

def digitValue (c : Char) : Nat := c.toNat - '0'.toNat

/-- The number that a non-empty text of decimal digits stands for, if it is at
    most `limit`.  A plus sign may precede the digits. -/
def wordOfText (limit : Nat) (cs : List Char) : Option Nat :=
  let digits := match cs with
    | '+' :: rest => rest
    | _ => cs
  if digits.isEmpty || !digits.all Char.isDigit then none
  else
    let value := digits.foldl (fun n c => 10 * n + digitValue c) 0
    if value ≤ limit then some value else none

/-! ### Assignments -/

inductive ConfigKey where
  | edge
  | budget
deriving DecidableEq, Repr

def ConfigKey.name : ConfigKey → String
  | .edge => Config.edgeKey
  | .budget => Config.budgetKey

def ConfigKey.ofName (name : List Char) : Option ConfigKey :=
  if name = Config.edgeKey.toList then some .edge
  else if name = Config.budgetKey.toList then some .budget
  else none

structure Assignment where
  key : ConfigKey
  value : List Char
deriving DecidableEq, Repr

/-- The assignment that a line makes, if it makes one. -/
def Assignment.ofLine (line : List Char) : Option Assignment := do
  let line := trimBlanks line
  if line.isEmpty || line.head? == some '#' then none
  let (name, value) ← cutAt '=' line
  let key ← ConfigKey.ofName (trimBlanks name)
  return ⟨key, trimQuotes (trimBlanks value)⟩

namespace Config

/-- Set a key to a number as text: the edge in pixels, the budget in mebibytes. -/
def assign (c : Config) (key : ConfigKey) (value : List Char) : Option Config :=
  match key with
  | .edge => (wordOfText maxLength value).map c.withEdge
  | .budget => do
      -- a budget that does not fit in bytes is refused here, and not cut as by `withBudgetMiB`
      let count ← wordOfText maxIndex value
      if count * mebibyte ≤ maxIndex then some (c.withBudget (count * mebibyte)) else none

def apply (c : Config) (a : Assignment) : Except ConfigError Config :=
  match c.assign a.key a.value with
  | some c => .ok c
  | none => .error (.invalidValue a.key.name)

/-- The configuration itself, if it is usable. -/
def checked (c : Config) : Except ConfigError Config := do
  c.validate
  return c

/-! ### Files -/

def ofChars (cs : List Char) : Except ConfigError Config := do
  let c ← ((splitLines cs).filterMap Assignment.ofLine).foldlM apply {}
  c.checked

def ofText (text : String) : Except ConfigError Config := ofChars text.toList

/-- The configuration that the bytes of a file describe; a file that is not there
    or is not text cannot be read. -/
def ofFile (contents : Option ByteArray) : Except ConfigError Config :=
  match contents.bind String.fromUTF8? with
  | some text => ofText text
  | none => .error .unreadable

def digitsOf (n : Nat) : List Char := Nat.toDigits 10 n

/-- The text that is saved for a configuration; the budget is rounded down to
    whole mebibytes. -/
def toChars (c : Config) : List Char :=
  "# doctile tile buffer configuration\n".toList ++
    edgeKey.toList ++ " = ".toList ++ digitsOf c.edge ++ ['\n'] ++
    budgetKey.toList ++ " = ".toList ++ digitsOf c.budgetMiB ++ ['\n']

def toText (c : Config) : String := String.ofList c.toChars

end Config

end TilePaint
