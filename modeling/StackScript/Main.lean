import Std.Time.DateTime.Timestamp
import StackScript.CommandLine.Input
import StackScript.CommandLine.Shell

/-!
The program. Scripts run a slice at a time, so that what they print appears while they run.
-/

namespace StackScript.CommandLine

def slice : Nat := 100000

def currentTime : IO Float := do
  let now ← Std.Time.Timestamp.now
  return (Float.ofInt now.toMillisecondsSinceUnixEpoch.val) / 1000

def display (seen : Transcript) : IO Unit := do
  let output ← IO.getStdout
  output.putStr seen.output
  output.flush
  (← IO.getStderr).putStr seen.errors

def eventLine (event : Event) : String :=
  let level := match event.level with
    | .debug => "DEBUG"
    | .warn => "WARN"
  " ".intercalate (level :: event.message :: event.details.map fun (name, text) => s!"{name}={text}")

def flush (machine : Machine Empty) : IO (Machine Empty) := do
  let (machine, seen) := takeOutput machine {}
  display (seen.warnAll (machine.events.toList.map eventLine))
  return { machine with events := #[], store := { machine.store with now := ← currentTime } }

partial def complete : Machine.Outcome × Machine Empty → IO (Option Failure × Machine Empty)
  | (.finished, machine) => return (none, ← flush machine)
  | (.failed failure, machine) => return (some failure, ← flush machine)
  | (.running, machine) => do complete ((← flush machine).resumeSource slice)

def performNow (lists : Bool) (source : String) (machine : Machine Empty) :
    IO (Option Failure × Machine Empty) := do
  if lists then
    let (failure, machine, seen) := perform 0 lists source machine {}
    display seen
    return (failure, machine)
  else complete (machine.interpretSource slice source)

partial def readLine (input : IO.FS.Stream) (line : ByteArray) : IO ByteArray := do
  let byte ← input.read 1
  if byte.isEmpty then return line
  let line := line ++ byte
  if byte.get! 0 == 10 then return line else readLine input line

partial def converseNow (lists : Bool) (draft : Draft) (machine : Machine Empty) : IO Unit := do
  display (Transcript.print draft.prompt {})
  let bytes ← readLine (← IO.getStdin) .empty
  if bytes.isEmpty then display (Transcript.print "\n" {})
  else
    match decode bytes with
    | .error message => display (Transcript.complain (.input message) {})
    | .ok line =>
      match draft.add line with
      | .leave => return
      | .more draft => converseNow lists draft machine
      | .skip => converseNow lists {} machine
      | .submit entry =>
        let (failure, machine) ← performNow lists entry machine
        if let some failure := failure then display (Transcript.complain failure {})
        converseNow lists {} machine

/-- An error of the system by its number and text. Some layers negate the number. -/
def numbered (code : UInt32) (details : String) : String :=
  let code := if code < 0x80000000 then code else 0 - code
  match PathFault.ofCode? code.toNat with
  | some fault => fault.text
  | none => s!"{details.capitalize} (os error {code})"

def systemText (error : IO.Error) : String :=
  match error with
  | .noFileOrDirectory _ code details => numbered code details
  | .inappropriateType _ code details => numbered code details
  | .permissionDenied _ code details => numbered code details
  | .resourceExhausted _ code details => numbered code details
  | .invalidArgument _ code details => numbered code details
  | .otherError code details => numbered code details
  | other => toString other

def readFile (name : String) : IO (Except String String) := do
  match ← (IO.FS.readBinFile name).toBaseIO with
  | .ok bytes => return decode bytes
  | .error error => return .error (systemText error)

def runOnce (options : Options) (source : String) (machine : Machine Empty) : IO UInt32 := do
  match ← performNow options.lists source machine with
  | (some failure, _) =>
    display (Transcript.complain failure {})
    return failure.status.toUInt32
  | (none, _) => return 0

def runOptions (options : Options) : IO UInt32 := do
  let frames ← IO.getEnv "GEARS_MAX_FRAMES"
  let trace ← IO.getEnv "GEARS_TRACE"
  let isObserved := (← IO.getEnv "GEARS_LOG").any (["debug", "trace"].contains ·)
  let setting? (name : String) : Option String := if name = "GEARS_MAX_FRAMES" then frames else trace
  let machine := { newMachine options setting? (← currentTime) with isObserved }
  match options.task with
  | .evaluate code => runOnce options code machine
  | .runFile name =>
    match ← readFile name with
    | .ok source => runOnce options source machine
    | .error message =>
      let failure := Failure.input message
      display (Transcript.complain failure {})
      return failure.status.toUInt32
  | .converse =>
    display (Transcript.print greeting {})
    converseNow options.lists {} machine
    return 0

end StackScript.CommandLine

open StackScript.CommandLine in
def main (arguments : List String) : IO UInt32 := do
  match Options.parse arguments with
  | .ok options => runOptions options
  | .error refusal =>
    let seen := refusal.transcript
    display seen
    return seen.status.toUInt32
