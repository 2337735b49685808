import StackScript.Span
import StackScript.Text.Column

/-!
Why a run fails. A fault is a cause; a runtime error is a fault with the place it is reported at. Faults that
arise far from the code being run carry no place (line zero) and are anchored to the line of the instruction
later. Native functions and host classes may report faults in their own words (`other`).
-/

namespace StackScript

/-- A value is not of the type that an operation needs. -/
inductive TypeFault where
  | operandNotNumber
  | operandsNotNumbers
  | operandsNotAddable
  | methodsNeedInstance
  | propertiesNeedInstance
  | fieldsNeedInstance
  | superclassNotClass
  | inheritorNotClass
  | methodOutsideClass
  | notClosable (kind : String)
  | other (message : String)
deriving DecidableEq, Repr

def TypeFault.text : TypeFault → String
  | operandNotNumber => "Operand must be a number."
  | operandsNotNumbers => "Operands must be numbers."
  | operandsNotAddable => "Operands must be two numbers or two strings."
  | methodsNeedInstance => "Only instances have methods."
  | propertiesNeedInstance => "Only instances have properties."
  | fieldsNeedInstance => "Only instances have fields."
  | superclassNotClass => "Superclass must be a class."
  | inheritorNotClass => "Only classes can inherit."
  | methodOutsideClass => "Methods belong to a class."
  | notClosable kind => s!"Cannot close over a {kind}."
  | other message => message

/-- Something that code refers to is not there, or is not what it has to be. -/
inductive AccessFault where
  | noObject (ref : Nat)
  | wrongKind (expected found : String)
  | constantOutOfRange (index : Nat)
  | functionOutOfRange (index : Nat)
  | noString (entry : Nat)
  | noClosure
  | upvalueOutOfRange (index : Nat)
  | notUpvalue
  | closedOnOpenList
  | slotOffStack (slot : Nat)
  | other (message : String)
deriving DecidableEq, Repr

def AccessFault.text : AccessFault → String
  | noObject ref => s!"no object at heap index {ref}"
  | wrongKind expected found => s!"expected {expected} but found {found}"
  | constantOutOfRange index => s!"constant {index} out of range"
  | functionOutOfRange index => s!"function {index} out of range"
  | noString entry => s!"no string at table offset {entry}"
  | noClosure => "frame has no closure"
  | upvalueOutOfRange index => s!"upvalue {index} out of range"
  | notUpvalue => "expected an upvalue"
  | closedOnOpenList => "closed upvalue left on the open list"
  | slotOffStack slot => s!"upvalue slot {slot} is off the stack"
  | other message => message

/-- A value cannot pass between a script and the program that runs it. -/
inductive HostFault where
  | noConversion (source target : String)
  | noGetter (type member : String)
  | noSetter (type member : String)
  | methodAssigned (type member : String)
  | notMethod (type : String)
  | busy (type : String)
  | wrongType (type : String)
  | unregistered (type : String)
  | notHost (found : String)
  | other (message : String)
deriving DecidableEq, Repr

def HostFault.text : HostFault → String
  | noConversion source target => s!"Unsupported native conversion from {source} to {target}."
  | noGetter type member => s!"{type}.{member} has no public getter"
  | noSetter type member => s!"{type}.{member} has no public setter"
  | methodAssigned type member => s!"cannot assign to method {type}.{member}"
  | notMethod type => s!"{type} member is not a method"
  | busy type => s!"{type} is already borrowed by a running host call"
  | wrongType type => s!"host member registered for {type} called on another type"
  | unregistered type => s!"{type} is not a registered host class"
  | notHost found => s!"expected a host object, found {found}"
  | other message => message

/-- The code itself cannot be followed. -/
inductive CodeFault where
  | ranOff (ip : Nat)
  | unknownOpcode (byte : UInt8)
  | loopBeforeStart
  | other (message : String)
deriving DecidableEq, Repr

def CodeFault.text : CodeFault → String
  | ranOff ip => s!"Instruction pointer {ip} ran off the chunk."
  | unknownOpcode byte => s!"Unknown opcode 0x{Text.hexByte byte}."
  | loopBeforeStart => "Loop target before start of chunk."
  | other message => message

inductive Fault where
  | undefinedVariable (name : String)
  | undefinedProperty (name : String)
  | notCallable
  | wrongArity (expected got : Nat)
  | type (cause : TypeFault)
  | stackOverflow
  | stackUnderflow
  | access (cause : AccessFault)
  | host (cause : HostFault)
  | code (cause : CodeFault)
deriving DecidableEq, Repr

def Fault.text : Fault → String
  | undefinedVariable name => s!"Undefined variable '{name}'"
  | undefinedProperty name => s!"Undefined property '{name}'"
  | notCallable => "Can only call functions and classes"
  | wrongArity expected got => s!"Expected {expected} arguments but got {got}"
  | type cause => s!"Type error: {cause.text}"
  | stackOverflow => "Stack overflow"
  | stackUnderflow => "Stack underflow"
  | access cause => s!"Invalid heap access: {cause.text}"
  | host cause => s!"Host interop error: {cause.text}"
  | code cause => cause.text

structure RuntimeError where
  fault : Fault
  span : Span
deriving DecidableEq, Repr

namespace RuntimeError

def unplaced (fault : Fault) : RuntimeError :=
  ⟨fault, .nowhere⟩

def moved (error : RuntimeError) (span : Span) : RuntimeError :=
  { error with span }

/-- Reports a fault that has no place yet at the given one. -/
def anchored (error : RuntimeError) (span : Span) : RuntimeError :=
  if error.span.line = 0 then error.moved span else error

def text (error : RuntimeError) : String :=
  s!"{error.fault.text} at {error.span.text}"

end RuntimeError

end StackScript
