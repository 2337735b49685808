/-!
The arguments of the command line. They are read from the left, and the first one that asks for something other
than a run decides.
-/

namespace StackScript.CommandLine

inductive Task where
  | runFile (name : String)
  | evaluate (code : String)
  | converse
deriving DecidableEq, Repr

structure Options where
  task : Task := .converse
  lists : Bool := false
  traces : Bool := false
deriving DecidableEq, Repr

inductive Refusal where
  | help
  | version
  | missingCode
  | unknownOption (argument : String)
  | secondScript
deriving DecidableEq, Repr

namespace Options

def isOption (argument : String) : Bool :=
  argument.toList.head? == some '-'

/-- Reads arguments after some that have set a task and switches. Code to evaluate takes the place of an earlier
task, a script does not. -/
def parseFrom (task : Option Task) (lists traces : Bool) : List String → Except Refusal Options
  | [] => .ok ⟨task.getD .converse, lists, traces⟩
  | argument :: further =>
    if argument = "--help" ∨ argument = "-h" then .error .help
    else if argument = "--version" ∨ argument = "-V" then .error .version
    else if argument = "--disassemble" then parseFrom task true traces further
    else if argument = "--trace" then parseFrom task lists true further
    else if argument = "-e" then
      match further with
      | [] => .error .missingCode
      | code :: further => parseFrom (some (.evaluate code)) lists traces further
    else if isOption argument then .error (.unknownOption argument)
    else if task.isSome then .error .secondScript
    else parseFrom (some (.runFile argument)) lists traces further

def parse (arguments : List String) : Except Refusal Options :=
  parseFrom none false false arguments

end Options

end StackScript.CommandLine
