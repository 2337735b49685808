import StackScript.Text.Runs

/-!
The Unicode property `White_Space`, and text stripped of it at both ends.
-/

namespace StackScript.Text

def blankRuns : Runs :=
  [
    9, 5, 18, 1, 100, 1, 26, 1, 5599, 1, 2431, 11, 29, 2, 5, 1, 47, 1, 4000, 1
  ]

def isBlank (c : Char) : Bool :=
  blankRuns.covers c.toNat

def trim (text : List Char) : List Char :=
  ((text.dropWhile isBlank).reverse.dropWhile isBlank).reverse

end StackScript.Text
