import StackScript.Decimal.Layout

/-!
Values, and the 64-bit words that constants are stored as. A number is stored as its own bits. The bits of a
number that is no number start with twelve ones and leave 51 free, so the other values live there: three fixed
tags, and, with the sign set, heap indices.
-/

namespace StackScript

abbrev Ref := Nat

inductive Value where
  | number (x : Float)
  | bool (b : Bool)
  | nil
  | object (ref : Ref)
deriving DecidableEq, Inhabited

namespace Value

/-- Only `nil` and `false` count as false. -/
def isFalsey : Value → Bool
  | nil => true
  | bool b => !b
  | _ => false

/-- Equality in the language: numbers compare as numbers, and no object equals anything. -/
def equals : Value → Value → Bool
  | number x, number y => x == y
  | bool b, bool c => b == c
  | nil, nil => true
  | _, _ => false

def number? : Value → Option Float
  | number x => some x
  | _ => none

def object? : Value → Option Ref
  | object ref => some ref
  | _ => none

def typeName : Value → String
  | number _ => "number"
  | bool _ => "bool"
  | nil => "nil"
  | object _ => "object"

def signMask : UInt64 := 0x8000000000000000

/-- The bits that are all set in every word that is not an ordinary number. -/
def tagMask : UInt64 := 0x7ffc000000000000

/-- The word that stands for every number that is not a number. -/
def nanWord : UInt64 := 0x7ff8000000000000

def nilWord : UInt64 := tagMask ||| 1

def falseWord : UInt64 := tagMask ||| 2

def trueWord : UInt64 := tagMask ||| 3

def toWord : Value → UInt64
  | number x => if x.isNaN then nanWord else x.toBits
  | nil => nilWord
  | bool false => falseWord
  | bool true => trueWord
  | object ref => signMask ||| tagMask ||| ref.toUInt64

/-- The value that a word stands for. Words that are no tag stand for numbers. -/
def ofWord (word : UInt64) : Value :=
  if word &&& tagMask != tagMask then number (Float.ofBits word)
  else if word &&& signMask != 0 then object (word &&& ~~~(signMask ||| tagMask)).toNat
  else if word == nilWord then nil
  else if word == falseWord then bool false
  else if word == trueWord then bool true
  else number (Float.ofBits word)

def inspect : Value → String
  | number x => s!"Number({Decimal.Layout.exact.write x})"
  | bool b => s!"Bool({b})"
  | nil => "Nil"
  | object ref => s!"Object(ObjPtr({ref}))"

end Value

end StackScript
