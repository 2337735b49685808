/-!
Classes of characters given by their code points. The lengths of the runs of code points are listed, from zero on: by turns of
those outside the class and those in it.
-/

namespace StackScript.Text

abbrev Runs := List Nat

def Runs.covers : Runs → Nat → Bool
  | outside :: inside :: rest, code =>
    outside ≤ code && (code < outside + inside || Runs.covers rest (code - (outside + inside)))
  | _, _ => false

end StackScript.Text
