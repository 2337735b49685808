/-!
The fewest decimal digits that read back as a given double. All arithmetic is exact: a positive finite double is
`mantissa * 2 ^ exponent`, the reals that round to it form an interval around it, and a decimal with `n` digits
reads back exactly when it lies in that interval. For `n = 1, 2, …` the two neighbours of the value on the grid
of `n`-digit decimals are tried; if any point of the grid is in the interval, one of these two is.
-/

namespace StackScript.Decimal

/-- A positive decimal: `d₁.d₂d₃… * 10 ^ exponent`, where the digits of `digits` are `d₁d₂d₃…`. -/
structure Scientific where
  digits : Nat
  exponent : Int
deriving DecidableEq, Repr

/-- A positive double as `mantissa * 2 ^ exponent`. -/
structure Binary where
  mantissa : Nat
  exponent : Int
deriving DecidableEq, Repr

namespace Binary

/-- The magnitude held in the lower 63 bits of a word, if it is finite. -/
def ofBits (bits : UInt64) : Binary :=
  let fraction : Nat := bits.toNat % Nat.pow 2 52
  let biased : Nat := bits.toNat / Nat.pow 2 52 % Nat.pow 2 11
  if biased = 0 then ⟨fraction, -1074⟩ else ⟨Nat.pow 2 52 + fraction, (biased : Int) - 1075⟩

/-- The next double below is only half as far away as the next one above. -/
def narrowBelow (value : Binary) : Bool :=
  value.mantissa == Nat.pow 2 52 && value.exponent > -1074

/-- A quarter of the last place and the decimal step `10 ^ place`, over a common denominator. -/
def scale (value : Binary) (place : Int) : Nat × Nat :=
  let shift := value.exponent - 2
  (Nat.pow 2 shift.toNat * Nat.pow 10 (-place).toNat, Nat.pow 2 (-shift).toNat * Nat.pow 10 place.toNat)

def atLeastPower (value : Binary) (place : Int) : Bool :=
  let (quarter, step) := value.scale place
  step ≤ 4 * value.mantissa * quarter

/-- The decimal exponent of the leading digit: the value lies between `10 ^ e` and `10 ^ (e + 1)`.
The estimate from the binary exponent is at most one off. -/
def leadingPlace (value : Binary) : Int :=
  let estimate := ((value.mantissa.log2 : Int) + value.exponent) * 30103 / 100000
  if !value.atLeastPower estimate then estimate - 1
  else if value.atLeastPower (estimate + 1) then estimate + 1
  else estimate

/-- The multiple of `10 ^ place` next to the value that reads back as it, if there is one. Of two the nearer
one is taken, and the upper one where both are equally near. -/
def roundAt? (value : Binary) (place : Int) : Option Nat :=
  let (quarter, step) := value.scale place
  let exact := 4 * value.mantissa * quarter
  let low := exact - (if value.narrowBelow then 1 else 2) * quarter
  let high := exact + 2 * quarter
  let closed := value.mantissa % 2 == 0
  let below := exact / step
  let above := below + 1
  let belowFits := if closed then low ≤ below * step else low < below * step
  let aboveFits := if closed then above * step ≤ high else above * step < high
  match decide belowFits, decide aboveFits with
  | true, true => if exact - below * step < above * step - exact then some below else some above
  | true, false => some below
  | false, true => some above
  | false, false => none

/-- Tries the digit counts from `count` on. Seventeen digits always suffice. -/
def shortestFrom (value : Binary) (leading : Int) : Nat → Nat → Nat × Int
  | 0, count => (value.mantissa, leading - count)
  | tries + 1, count =>
    let place := leading - count + 1
    match value.roundAt? place with
    | some digits => (digits, place)
    | none => shortestFrom value leading tries (count + 1)

def width (digits : Nat) : Nat :=
  (Nat.toDigits 10 digits).length

def shortest (value : Binary) : Scientific :=
  let (digits, place) := value.shortestFrom value.leadingPlace 17 1
  ⟨digits, place + width digits - 1⟩

end Binary

end StackScript.Decimal
