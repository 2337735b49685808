import StackScript.Decimal.Shortest

/-!
Writing doubles. The digits are always the shortest that read back; a `Layout` decides where the point goes.
Two layouts are used: `plain` for printed values and `exact` for constants in listings.
-/

namespace StackScript.Decimal

/-- How a number is laid out around its digits. -/
structure Layout where
  keepsPoint : Bool
  /-- The decimal exponents, from the first up to but not including the second, that are written without an
  exponent part; with `none` all are. -/
  positional : Option (Int × Int)

namespace Layout

def plain : Layout := ⟨false, none⟩

/-- Always a point; very small and very large magnitudes have an exponent part. -/
def exact : Layout := ⟨true, some (-4, 16)⟩

def significant (digits : Nat) : List Char :=
  ((Nat.toDigits 10 digits).reverse.dropWhile (· == '0')).reverse

/-- The digits with the point placed by the exponent of the leading one. -/
def positionally (layout : Layout) (digits : List Char) (exponent : Int) : List Char :=
  if exponent < 0 then
    '0' :: '.' :: List.replicate ((-exponent).toNat - 1) '0' ++ digits
  else
    let wholeWidth := exponent.toNat + 1
    let whole := digits.take wholeWidth ++ List.replicate (wholeWidth - digits.length) '0'
    match digits.drop wholeWidth with
    | [] => if layout.keepsPoint then whole ++ ['.', '0'] else whole
    | fraction => whole ++ '.' :: fraction

def withExponent (digits : List Char) (exponent : Int) : List Char :=
  let scaled :=
    match digits with
    | first :: second :: rest => first :: '.' :: second :: rest
    | few => few
  scaled ++ 'e' :: (toString exponent).toList

def writeScientific (layout : Layout) (number : Scientific) : List Char :=
  let digits := significant number.digits
  match layout.positional with
  | none => layout.positionally digits number.exponent
  | some (least, limit) =>
    if least ≤ number.exponent ∧ number.exponent < limit then layout.positionally digits number.exponent
    else withExponent digits number.exponent

/-- A double. Zero keeps its sign; what is not a number has none. -/
def write (layout : Layout) (x : Float) : String :=
  if x.isNaN then "NaN"
  else
    let bits := x.toBits
    let magnitude :=
      if x.isInf then "inf".toList
      else if bits <<< 1 == 0 then layout.positionally ['0'] 0
      else layout.writeScientific (Binary.ofBits bits).shortest
    String.ofList (if bits >>> 63 == 1 then '-' :: magnitude else magnitude)

end Layout

end StackScript.Decimal
