import StackScript.Machine.Step
import StackScript.Bytecode.Listing

/-!
Runs. A run is a number of steps; `fuel` bounds it, and a run that is out of fuel can be resumed. Before each
step the line of the instruction is noted, so that a fault is reported there. A fault ends the run and clears the
stacks, which leaves the machine usable; the globals and the heap stay.
-/

namespace StackScript

variable {State : Type}

namespace Machine

def shownStack (machine : Machine State) : String :=
  machine.stack.foldl (fun shown value => shown ++ s!"[ {machine.heap.render value} ]") ""

@[inline]
def trace (frame : Frame) (machine : Machine State) : Machine State :=
  if machine.config.traces && machine.isObserved then
    machine.report
      ⟨.debug, (Listing.instruction frame.function.chunk frame.ip).1, [("stack", machine.shownStack)]⟩
  else machine

def abort (error : RuntimeError) (machine : Machine State) : Machine State :=
  (machine.report ⟨.debug, "runtime error",
    [("error", error.text), ("frames", toString machine.frames.size)]⟩).clear

end Machine

namespace Exec

@[inline]
def anchoring {α : Type} (span : Span) (action : Exec State α) : Exec State α := fun machine =>
  match action machine with
  | .ok a machine => .ok a machine
  | .error error machine => .error (error.anchored span) machine

def cycle : Exec State Flow := do
  let frame ← frame
  let span := Span.onLine (frame.function.chunk.lineAt frame.ip)
  update (·.trace frame)
  anchoring span (step span)

def run : (fuel : Nat) → Exec State Flow
  | 0 => pure .running
  | fuel + 1 => do
    match ← cycle with
    | .halted => return .halted
    | .running => run fuel

def aborting {α : Type} (action : Exec State α) : Exec State α := fun machine =>
  match action machine with
  | .ok a machine => .ok a machine
  | .error error machine => .error error (machine.abort error)

/-- Puts a script on the stack and starts its frame. Nothing is left of an earlier run. -/
def start (script : Proto) : Exec State Unit := do
  update (·.clear)
  push (.object (← alloc (.function script)))
  callFunction script none 0 .nowhere

def interpret (fuel : Nat) (script : Proto) : Exec State Flow :=
  aborting do
    start script
    run fuel

def resume (fuel : Nat) : Exec State Flow :=
  aborting (run fuel)

end Exec

end StackScript
