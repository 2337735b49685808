/-!
Reading decimal numerals. A numeral is a run of digits, optionally followed by a point and a second run; its
value is the double nearest to the decimal it spells, infinite when the decimal is too large.
-/

namespace StackScript.Decimal

def ofDigits (digits : List Char) : Nat :=
  digits.foldl (fun value digit => 10 * value + (digit.toNat - '0'.toNat)) 0

def isRun (text : List Char) : Bool :=
  !text.isEmpty && text.all Char.isDigit

def nearest (whole fraction : List Char) : Float :=
  Float.ofScientific (ofDigits (whole ++ fraction)) true fraction.length

def read? (text : List Char) : Option Float :=
  let whole := text.takeWhile (· != '.')
  match text.dropWhile (· != '.') with
  | [] => if isRun whole then some (nearest whole []) else none
  | _ :: fraction => if isRun whole && isRun fraction then some (nearest whole fraction) else none

end StackScript.Decimal
