import StackScript.Complaint
import StackScript.Fault
import StackScript.Token.Scan

/-!
Why a source text could not be run: one of the phases failed, or the text could not be read at all.
-/

namespace StackScript

inductive Failure where
  | scan (error : ScanError)
  | compile (errors : List CompileError)
  | runtime (error : RuntimeError)
  | input (message : String)

namespace Failure

def scanText (error : ScanError) : String :=
  s!"Lexer error: {error.text}"

def compileText {α : Type} (wording : α → String) (errors : List (Located α)) : String :=
  s!"Compile error:\n{Located.lines wording errors}"

def runtimeText (error : RuntimeError) : String :=
  s!"Runtime error: {error.text}"

def text : Failure → String
  | scan error => scanText error
  | compile errors => compileText Complaint.text errors
  | runtime error => runtimeText error
  | input message => s!"IO error: {message}"

end Failure

end StackScript
