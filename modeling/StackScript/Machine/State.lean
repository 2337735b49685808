import StackScript.Config
import StackScript.Host.Registry

/-!
The machine: a stack of values, a stack of frames, globals, the list of open upvalues, and the store. The
innermost frame is the last one. Actions of the machine may fail; what they did before stays done.
-/

namespace StackScript

/-- A call in progress. Its locals start at `base` on the stack; a script has no closure. -/
structure Frame where
  function : Proto
  closure : Option Ref
  ip : Nat
  base : Nat

/-- What a native function does with its arguments, which come in the order in which they were pushed. -/
abbrev NativeBody (State : Type) := List Value → OnStore State Value

structure Machine (State : Type) where
  stack : Array Value := #[]
  frames : Array Frame := #[]
  globals : Table := ∅
  openUpvalues : Option Ref := none
  store : Store State := {}
  hosts : Host.Registry State := {}
  natives : Array (NativeBody State) := #[]
  config : Config := {}
  output : Array String := #[]
  isObserved : Bool := false
  events : Array Event := #[]

abbrev Exec (State : Type) := EStateM RuntimeError (Machine State)

namespace Machine

variable {State : Type}

def report (event : Event) (machine : Machine State) : Machine State :=
  if machine.isObserved then { machine with events := machine.events.push event } else machine

@[inline]
def push (value : Value) (machine : Machine State) : Machine State :=
  { machine with stack := machine.stack.push value }

def truncate (height : Nat) (machine : Machine State) : Machine State :=
  { machine with stack := machine.stack.shrink height }

/-- No call in progress: nothing on the stacks, and no open upvalue is known. -/
def clear (machine : Machine State) : Machine State :=
  { machine with stack := #[], frames := #[], openUpvalues := none }

def setSlot (slot : Nat) (value : Value) (machine : Machine State) : Machine State :=
  { machine with stack := machine.stack.setIfInBounds slot value }

def setObject (ref : Ref) (object : Object) (machine : Machine State) : Machine State :=
  { machine with store := { machine.store with heap := machine.store.heap.set ref object } }

def setGlobal (name : String) (value : Value) (machine : Machine State) : Machine State :=
  { machine with globals := machine.globals.insert name value }

def global? (machine : Machine State) (name : String) : Option Value :=
  machine.globals[name]?

def shownGlobals (machine : Machine State) : List (String × String) :=
  machine.globals.toList.map fun (name, value) => (name, machine.store.heap.render value)

def heap (machine : Machine State) : Heap :=
  machine.store.heap

end Machine

namespace Exec

variable {State : Type} {α : Type}

@[inline]
def update (change : Machine State → Machine State) : Exec State Unit :=
  fun machine => .ok () (change machine)

@[inline]
def read (view : Machine State → α) : Exec State α :=
  fun machine => .ok (view machine) machine

/-- Reads off the machine, which may be a fault. -/
@[inline]
def look (view : Machine State → Except RuntimeError α) : Exec State α := fun machine =>
  match view machine with
  | .ok a => .ok a machine
  | .error error => .error error machine

@[inline]
def fail (fault : Fault) (span : Span) : Exec State α :=
  fun machine => .error ⟨fault, span⟩ machine

@[inline]
def onStore (action : OnStore State α) : Exec State α := fun machine =>
  match action machine.store with
  | .ok a store => .ok a { machine with store }
  | .error error store => .error error { machine with store }

@[inline]
def alloc (object : Object) : Exec State Ref :=
  onStore (Store.alloc object)

@[inline]
def fetch (ref : Ref) : Exec State Object :=
  look (·.heap.fetch ref)

def readMember (object : Host.Handle) (name : String) : Exec State Value := do
  let member ← look (·.hosts.lookup object name)
  onStore (member.read object name)

def writeMember (object : Host.Handle) (name : String) (value : Value) : Exec State Unit := do
  let member ← look (·.hosts.lookup object name)
  onStore (member.write object name value)

def callMember (object : Host.Handle) (name : String) (args : List Value) : Exec State Value := do
  let member ← look (·.hosts.lookup object name)
  onStore (member.call object args)

@[inline]
def push (value : Value) : Exec State Unit :=
  update (·.push value)

@[inline]
def pop : Exec State Value := fun machine =>
  match machine.stack.back? with
  | some value => .ok value { machine with stack := machine.stack.pop }
  | none => .error (.unplaced .stackUnderflow) machine

@[inline]
def slotBelow (distance : Nat) : Exec State Nat := fun machine =>
  if distance < machine.stack.size then .ok (machine.stack.size - 1 - distance) machine
  else .error (.unplaced .stackUnderflow) machine

@[inline]
def slotValue (slot : Nat) : Exec State Value := fun machine =>
  match machine.stack[slot]? with
  | some value => .ok value machine
  | none => .error (.unplaced .stackUnderflow) machine

@[inline]
def peek (distance : Nat) : Exec State Value := do
  slotValue (← slotBelow distance)

/-- Takes away the values above a slot, from the lowest up, and that slot. -/
def takeAbove (slot : Nat) : Exec State (List Value) := fun machine =>
  .ok (machine.stack.extract (slot + 1)).toList (machine.truncate slot)

/-- Fails because the code being run is inside a frame that is not there. -/
def noFrame : RuntimeError :=
  .unplaced .stackUnderflow

@[inline]
def frame : Exec State Frame := fun machine =>
  match machine.frames.back? with
  | some frame => .ok frame machine
  | none => .error noFrame machine

end Exec

end StackScript
