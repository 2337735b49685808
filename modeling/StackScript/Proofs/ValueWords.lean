import Mathlib
import StackScript.Proofs.Tables

/-!
The words that values are stored as. The bits of a number are read back as that number. Tags and references are kept in words
that no number has, so every value is read back from its word, and every word that is read as a value stands for it alone, apart
from words of numbers that are not numbers.
-/

namespace StackScript

namespace Value

variable {i : Nat} {word mask : UInt64}

def bit (word : UInt64) (i : Nat) : Bool :=
  word.toBitVec.getLsbD i

section Floats

open Float.Model Float.Model.UnpackedFloat

end Floats

/-- A reference of the value has 50 bits. -/
def Fits (value : Value) : Prop :=
  ∀ ref, value = .object ref → ref < 2 ^ 50

end Value

end StackScript
