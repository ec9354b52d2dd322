import SyntaxTables.Interval

/-!
# Variables of the environment

A program reads flags and numbers from its environment. A variable that is not set, or that does not
hold a number, leaves the default.
-/

namespace SyntaxTables

/-- The variables that are set. -/
abbrev Environment := List (String × String)

/-- The number that a text writes: digits, with a plus sign before them at most, below 2⁶⁴. -/
def readNumber? (text : String) : Option Nat :=
  let digits := match text.toList with
    | '+' :: ds => ds
    | ds => ds
  if digits.isEmpty || digits.any fun c => !c.isDigit then none
  else
    let n := digits.foldl (fun n d => 10 * n + (d.toNat - '0'.toNat)) 0
    if n < sizeLimit then some n else none

namespace Environment

def get? (env : Environment) (name : String) : Option String := env.lookup name

/-- A flag is up when its variable is set to anything but the empty text or `0`. -/
def flag (env : Environment) (name : String) : Bool :=
  (env.get? name).any fun v => v ≠ "" && v ≠ "0"

def number (env : Environment) (name : String) (default : Nat) : Nat :=
  ((env.get? name).bind readNumber?).getD default

end Environment

end SyntaxTables
