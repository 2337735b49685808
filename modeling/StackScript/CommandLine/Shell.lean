import StackScript.CommandLine.Entry
import StackScript.CommandLine.Transcript
import StackScript.Session

/-!
The command line as a function of its arguments and what surrounds it. Scripts know no host objects here.
-/

namespace StackScript.CommandLine

/-- What surrounds a run: the environment, the files, the time, and the lines on standard input. A file or a
line that cannot be read says why. -/
structure Surroundings where
  setting? : String → Option String
  file : String → Except String String
  lines : List (Except String String)
  now : Float

def newMachine (options : Options) (setting? : String → Option String) (now : Float) : Machine Empty :=
  let config := Config.ofEnvironment setting?
  let machine : Machine Empty := .fresh { config with traces := config.traces || options.traces }
  { machine with store := { machine.store with now } }

def takeOutput (machine : Machine Empty) (seen : Transcript) : Machine Empty × Transcript :=
  ({ machine with output := #[] }, seen.printLines machine.output)

def perform (fuel : Nat) (lists : Bool) (source : String) (machine : Machine Empty) (seen : Transcript) :
    Option Failure × Machine Empty × Transcript :=
  if lists then
    match listSource source with
    | .ok listing => (none, machine, seen.print listing)
    | .error failure => (some failure, machine, seen)
  else
    match machine.interpretSource fuel source with
    | (.failed failure, machine) => (some failure, takeOutput machine seen)
    | (_, machine) => (none, takeOutput machine seen)

def once (fuel : Nat) (options : Options) (around : Surroundings) (source : String) : Transcript :=
  match perform fuel options.lists source (newMachine options around.setting? around.now) {} with
  | (some failure, _, seen) => (seen.complain failure).leave failure.status
  | (none, _, seen) => seen

/-- Entries from line to line against one machine. A failure is reported and the conversation goes on; it ends
with the lines, at a line that cannot be read, or when asked to. -/
def converse (fuel : Nat) (lists : Bool) :
    List (Except String String) → Draft → Machine Empty → Transcript → Transcript
  | [], draft, _, seen => (seen.print draft.prompt).print "\n"
  | .error message :: _, draft, _, seen => (seen.print draft.prompt).complain (.input message)
  | .ok line :: further, draft, machine, seen =>
    let seen := seen.print draft.prompt
    match draft.add line with
    | .leave => seen
    | .more draft => converse fuel lists further draft machine seen
    | .skip => converse fuel lists further {} machine seen
    | .submit entry =>
      match perform fuel lists entry machine seen with
      | (some failure, machine, seen) => converse fuel lists further {} machine (seen.complain failure)
      | (none, machine, seen) => converse fuel lists further {} machine seen

/-- Does what the arguments ask for. A run that is out of fuel counts as over. -/
def execute (fuel : Nat) (arguments : List String) (around : Surroundings) : Transcript :=
  match Options.parse arguments with
  | .error refusal => refusal.transcript
  | .ok options =>
    match options.task with
    | .evaluate code => once fuel options around code
    | .runFile name =>
      match around.file name with
      | .ok source => once fuel options around source
      | .error message =>
        let failure := Failure.input message
        (Transcript.complain failure {}).leave failure.status
    | .converse =>
      converse fuel options.lists around.lines {} (newMachine options around.setting? around.now)
        (Transcript.print greeting {})

end StackScript.CommandLine
