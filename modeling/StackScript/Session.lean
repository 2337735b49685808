import StackScript.Compile.Program
import StackScript.Failure
import StackScript.Machine.Run

/-!
The machine as an embedding program uses it: natives, host classes and objects, and source texts that run one
after the other against the same globals and heap.
-/

namespace StackScript

def compileSource (source : String) : Except Failure Proto :=
  match scan source with
  | .error error => .error (.scan error)
  | .ok tokens =>
    match compile tokens with
    | .error errors => .error (.compile errors)
    | .ok script => .ok script

def listSource (source : String) : Except Failure String :=
  (compileSource source).map Proto.listing

def CompileError.event (error : CompileError) : Event :=
  ⟨.debug, error.what.text, [("lexeme", error.lexeme), ("line", toString error.span.line)]⟩

/-- The events of a failure, apart from those that the machine reports itself. -/
def Failure.events : Failure → List Event
  | .compile errors => errors.map CompileError.event
  | _ => []

namespace Machine

variable {State : Type}

def addNative (name : String) (arity : Option Nat) (body : NativeBody State) (machine : Machine State) :
    Ref × Machine State :=
  let native : Native := ⟨name, arity, .listed machine.natives.size⟩
  let heap := machine.store.heap
  (heap.size,
    { machine with
      natives := machine.natives.push body
      store := { machine.store with heap := heap.push (.native native) } })

def defineNative (name : String) (arity : Option Nat) (body : NativeBody State) (machine : Machine State) :
    Machine State :=
  let (ref, machine) := machine.addNative name arity body
  machine.setGlobal name (.object ref)

def clock : NativeBody State := fun _ store => .ok (.number store.now) store

def fresh (config : Config) : Machine State :=
  defineNative "clock" (some 0) clock { config }

def reportAll (events : List Event) (machine : Machine State) : Machine State :=
  events.foldl (fun machine event => machine.report event) machine

def register (cls : Host.HostClass State) (machine : Machine State) : Machine State :=
  let (hosts, events) := machine.hosts.register cls
  { machine with hosts }.reportAll events

def newObject (tag : Host.Tag) (state : State) (machine : Machine State) : Host.Handle × Machine State :=
  let (handle, cells) := machine.store.cells.newObject tag state
  (handle, { machine with store := { machine.store with cells } })

/-- Puts a host object on the heap. Its type has to be registered. -/
def wrap (handle : Host.Handle) : Exec State Value := do
  if ← Exec.read (·.hosts.contains handle.tag.id) then return .object (← Exec.alloc (.host handle))
  else Exec.fail (.host (.unregistered handle.tag.name)) .nowhere

def handleOf (heap : Heap) : Value → Except RuntimeError Host.Handle
  | .object ref => do
    match ← heap.fetch ref with
    | .host handle => return handle
    | other => throw (.unplaced (.host (.notHost other.kindName)))
  | other => throw (.unplaced (.host (.notHost other.typeName)))

def hostState (machine : Machine State) (value : Value) (tag : Host.Tag) : Except RuntimeError State := do
  let handle ← handleOf machine.heap value
  let state ← machine.store.borrow handle
  if handle.isOf tag then return state else throw (.unplaced (.host (.wrongType tag.name)))

/-- How a source text fared: it is running, halted, or failed. -/
inductive Outcome where
  | running
  | finished
  | failed (failure : Failure)

def outcomeOf : EStateM.Result RuntimeError (Machine State) Flow → Outcome × Machine State
  | .ok .running machine => (.running, machine)
  | .ok .halted machine => (.finished, machine)
  | .error error machine => (.failed (.runtime error), machine)

def interpretSource (fuel : Nat) (source : String) (machine : Machine State) : Outcome × Machine State :=
  match compileSource source with
  | .error failure => (.failed failure, machine.reportAll failure.events)
  | .ok script => outcomeOf (Exec.interpret fuel script machine)

def resumeSource (fuel : Nat) (machine : Machine State) : Outcome × Machine State :=
  outcomeOf (Exec.resume fuel machine)

end Machine

end StackScript
