import TypeTheory.Checker.Basic
import TypeTheory.Text.Blank

/-!
# Configuration

Three settings: the budget of reduction steps, whether loaded units are checked
again, and whether results are remembered. Each may be set by a variable. Blanks
around a value do not matter, and a value that cannot be read leaves the setting
as it is.
-/

namespace TypeTheory

/-- How a session works. -/
structure Config where
  /-- The number of reduction steps that one declaration or query may spend. -/
  maxSteps : Nat := Checker.defaultLimit
  /-- Whether the declarations of a unit are checked before they are added. -/
  verifyUnits : Bool := true
  /-- Whether results for closed terms are remembered. -/
  memoize : Bool := true
  deriving DecidableEq, Inhabited, Repr

namespace Config

/-! ## Reading values -/

/-- The number with the given decimal digits, highest first. -/
def ofDecimal (digits : List Char) : Nat :=
  digits.foldl (fun n c => 10 * n + (c.toNat - '0'.toNat)) 0

/-- Drops a plus sign in front. -/
def dropPlus : List Char → List Char
  | '+' :: rest => rest
  | text => text

/-- The largest budget that can be set. -/
def largestSteps : Nat :=
  0xFFFFFFFFFFFFFFFF

/-- The budget that a text stands for: a positive number of at most 64 bits in
decimal, perhaps with a plus sign. -/
def readSteps? (value : String) : Option Nat :=
  let digits := dropPlus (Text.trim value.toList)
  if digits.isEmpty || !digits.all Char.isDigit then none
  else
    let n := ofDecimal digits
    if 0 < n ∧ n ≤ largestSteps then some n else none

/-- The truth value that a text stands for, in capitals or not. -/
def readFlag? (value : String) : Option Bool :=
  let word := String.ofList ((Text.trim value.toList).map Char.toLower)
  if word ∈ ["1", "true", "yes", "on"] then some true
  else if word ∈ ["0", "false", "no", "off"] then some false
  else none

/-! ## Variables -/

def maxStepsVariable : String :=
  "DTK_MAX_STEPS"

def verifyUnitsVariable : String :=
  "DTK_VERIFY_UNITS"

def memoizeVariable : String :=
  "DTK_CACHE"

/-- The configuration that some variables give. -/
def ofVariables (lookup : String → Option String) : Config :=
  let base : Config := {}
  { maxSteps := ((lookup maxStepsVariable).bind readSteps?).getD base.maxSteps
    verifyUnits := ((lookup verifyUnitsVariable).bind readFlag?).getD base.verifyUnits
    memoize := ((lookup memoizeVariable).bind readFlag?).getD base.memoize }

end Config

end TypeTheory
