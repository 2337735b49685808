/-!
Limits and switches of a machine, and how the environment sets them.
-/

namespace StackScript

structure Config where
  maxFrames : Nat := 256
  stackCapacity : Nat := 256
  traces : Bool := false
  /-- Printed lines are kept for the embedding program; otherwise they are meant for standard output. -/
  captures : Bool := false
deriving DecidableEq, Repr

namespace Config

def captured : Config := { captures := true }

def isYes (text : String) : Bool :=
  ["1", "true", "yes"].contains text

def maxNumber : Nat := UInt64.size - 1

def number? (text : String) : Option Nat :=
  let digits :=
    match text.toList with
    | '+' :: rest => rest
    | all => all
  if digits.isEmpty || !digits.all Char.isDigit then none
  else
    let value := digits.foldl (fun value digit => 10 * value + (digit.toNat - '0'.toNat)) 0
    if value ≤ maxNumber then some value else none

/-- The usual settings, changed by the variables of the environment. A number of frames that cannot be read or
is zero changes nothing. -/
def ofEnvironment (setting? : String → Option String) : Config :=
  let frames := ((setting? "GEARS_MAX_FRAMES").bind number?).filter (· > 0)
  { maxFrames := frames.getD 256, traces := (setting? "GEARS_TRACE").any isYes }

end Config

end StackScript
