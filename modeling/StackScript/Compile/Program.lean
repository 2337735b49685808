import StackScript.Compile.Statement

/-!
Whole programs. All declarations are compiled, whatever complaints there are; the result is the script, or the
complaints in the order in which they arose.
-/

namespace StackScript

namespace Compile

def programSuffix : Parse Bool := do
  if ← Parse.isAtEnd then return false
  else
    declaration (.within maxNesting)
    return true

def program : Parse Unit := do
  Parse.whileProgress programSuffix
  Parse.update (·.emitReturn)

/-- The state that a compilation ends in. A declaration never fails. -/
def finalState (tokens : Array Token) : Compilation :=
  match program (.start tokens) with
  | .ok () state => state
  | .error _ state => state

end Compile

def compile (tokens : Array Token) : Except (List CompileError) Proto :=
  let state := Compile.finalState tokens
  if state.errors.isEmpty then .ok state.scope.finish else .error state.errors.toList

end StackScript
