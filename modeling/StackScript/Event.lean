/-!
What a machine reports about its own work, apart from the output of scripts: a level, a message, and named
details as text.
-/

namespace StackScript

inductive Level where
  | debug | warn
deriving DecidableEq, Repr

structure Event where
  level : Level
  message : String
  details : List (String × String)
deriving DecidableEq, Repr

end StackScript
