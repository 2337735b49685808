import StackScript.CommandLine.Options
import StackScript.Failure

/-!
What the command line shows: texts on its two channels and an exit status.
-/

namespace StackScript

def Failure.status : Failure → Nat
  | scan _ => 65
  | compile _ => 65
  | runtime _ => 70
  | input _ => 74

def Failure.report : Failure → List String
  | compile errors => errors.map (Located.text Complaint.text)
  | other => [other.text]

end StackScript

namespace StackScript.CommandLine

def version : String := "0.3.0"

def usage : List String :=
  [s!"Gears {version} - bytecode VM",
   "",
   "Usage: gears [options] [script.gears]",
   "       gears -e <code>",
   "",
   "Options:",
   "  --disassemble   Print the bytecode listing instead of running",
   "  --trace         Log every executed instruction (needs GEARS_LOG=debug)",
   "  -e <code>       Evaluate code directly",
   "  --help, -h      Show this help message",
   "  --version, -V   Show version",
   "",
   "Environment:",
   "  GEARS_LOG          Log filter (default: warn)",
   "  GEARS_TRACE        Same as --trace when set to 1",
   "  GEARS_MAX_FRAMES   Maximum call depth (default: 256)",
   "",
   "Examples:",
   "  gears                     Start interactive REPL",
   "  gears script.gears        Run a script file",
   "  gears -e 'print 1 + 1;'   Evaluate code directly"]

def greeting : String :=
  s!"Gears {version} - REPL\nType .exit or press Ctrl-D to quit.\n\n"

structure Transcript where
  output : String := ""
  errors : String := ""
  status : Nat := 0
deriving DecidableEq, Repr

namespace Transcript

def print (text : String) (seen : Transcript) : Transcript :=
  { seen with output := seen.output ++ text }

def printLines (lines : Array String) (seen : Transcript) : Transcript :=
  lines.foldl (fun seen line => (seen.print line).print "\n") seen

def warn (line : String) (seen : Transcript) : Transcript :=
  { seen with errors := seen.errors ++ line ++ "\n" }

def warnAll (lines : List String) (seen : Transcript) : Transcript :=
  lines.foldl (fun seen line => seen.warn line) seen

def complain (failure : Failure) (seen : Transcript) : Transcript :=
  seen.warnAll (failure.report.map ("error: " ++ ·))

def leave (status : Nat) (seen : Transcript) : Transcript :=
  { seen with status }

end Transcript

def Refusal.transcript : Refusal → Transcript
  | help => Transcript.warnAll usage {}
  | version => Transcript.print s!"gears {CommandLine.version}\n" {}
  | missingCode => (Transcript.warnAll ("-e requires code to evaluate" :: usage) {}).leave 64
  | unknownOption argument => (Transcript.warnAll (s!"Unknown option: {argument}" :: usage) {}).leave 64
  | secondScript => (Transcript.warn "Only one script may be given" {}).leave 64

end StackScript.CommandLine
