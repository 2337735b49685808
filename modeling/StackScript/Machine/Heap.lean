import Std.Data.TreeMap
import StackScript.Bytecode.Chunk
import StackScript.Fault
import StackScript.Host.Value

/-!
Objects and the heap. The heap only grows, so a reference stays good once it has been handed out. References
that were never handed out dangle: fetching through them is a fault, showing them is not.

Native functions are data here: what they do is kept by the machine and found through their code. That keeps
objects first-order.
-/

namespace StackScript

abbrev Table := Std.TreeMap String Value compare

/-- Where a captured variable lives: in a stack slot while its scope is alive, afterwards in the upvalue. -/
inductive Location where
  | «open» (slot : Nat)
  | closed (value : Value)
deriving DecidableEq

/-- A captured variable. Open ones form a list, from the highest slot down. -/
structure Upvalue where
  location : Location
  next : Option Ref
deriving DecidableEq

structure Closure where
  function : Proto
  upvalues : Array Ref

structure Class where
  name : String
  methods : Table

structure Instance where
  ofClass : Ref
  fields : Table

structure BoundMethod where
  receiver : Value
  method : Ref
deriving DecidableEq

/-- What a native function does: the entry of the machine's list of natives, or a method of a host object. -/
inductive NativeCode where
  | listed (index : Nat)
  | hostMethod (receiver : Host.Handle) (member : String)
deriving DecidableEq

/-- A function of the embedding program. Without an arity it takes any number of arguments. -/
structure Native where
  name : String
  arity : Option Nat
  code : NativeCode
deriving DecidableEq

inductive Object where
  | string (text : String)
  | function (proto : Proto)
  | closure (closure : Closure)
  | upvalue (upvalue : Upvalue)
  | «class» (cls : Class)
  | instance (inst : Instance)
  | bound (bound : BoundMethod)
  | native (native : Native)
  | host (handle : Host.Handle)

def Object.kindName : Object → String
  | string _ => "string"
  | function _ => "function"
  | closure _ => "closure"
  | upvalue _ => "upvalue"
  | «class» _ => "class"
  | «instance» _ => "instance"
  | bound _ => "bound method"
  | native _ => "native function"
  | host _ => "host object"

structure Heap where
  objects : Array Object := #[]

namespace Heap

def size (heap : Heap) : Nat :=
  heap.objects.size

def push (heap : Heap) (object : Object) : Heap :=
  { heap with objects := heap.objects.push object }

def set (heap : Heap) (ref : Ref) (object : Object) : Heap :=
  { heap with objects := heap.objects.setIfInBounds ref object }

def get? (heap : Heap) (ref : Ref) : Option Object :=
  heap.objects[ref]?

def fetch (heap : Heap) (ref : Ref) : Except RuntimeError Object :=
  match heap.get? ref with
  | some object => .ok object
  | none => .error (.unplaced (.access (.noObject ref)))

def wrongKind {α : Type} (expected : String) (found : Object) : Except RuntimeError α :=
  .error (.unplaced (.access (.wrongKind expected found.kindName)))

def fetchClass (heap : Heap) (ref : Ref) : Except RuntimeError Class := do
  match ← heap.fetch ref with
  | .class cls => return cls
  | other => wrongKind "class" other

def fetchInstance (heap : Heap) (ref : Ref) : Except RuntimeError Instance := do
  match ← heap.fetch ref with
  | .instance inst => return inst
  | other => wrongKind "instance" other

def fetchClosure (heap : Heap) (ref : Ref) : Except RuntimeError Closure := do
  match ← heap.fetch ref with
  | .closure closure => return closure
  | other => wrongKind "closure" other

def fetchUpvalue (heap : Heap) (ref : Ref) : Except RuntimeError Upvalue := do
  match ← heap.fetch ref with
  | .upvalue upvalue => return upvalue
  | _ => .error (.unplaced (.access .notUpvalue))

def text? (heap : Heap) : Value → Option String
  | .object ref =>
    match heap.get? ref with
    | some (.string text) => some text
    | _ => none
  | _ => none

def describe (heap : Heap) : Value → String
  | .object ref => ((heap.get? ref).map Object.kindName).getD "object"
  | other => other.typeName

def showFunction (proto : Proto) : String :=
  if proto.name.isEmpty then "<script>" else proto.title

def showNative (native : Native) : String :=
  s!"<native fn {native.name}>"

def showHandle (handle : Host.Handle) : String :=
  s!"<host {handle.tag.name}>"

def showInstance (heap : Heap) (inst : Instance) : String :=
  match heap.fetchClass inst.ofClass with
  | .ok cls => s!"<{cls.name} instance>"
  | .error _ => "<instance>"

/-- An object as `print` shows it. A bound method shows as its method, which may be bound itself: `depth` bounds
how far such a chain is followed. -/
def showRef (heap : Heap) : (depth : Nat) → Ref → String
  | 0, _ => ""
  | depth + 1, ref =>
    match heap.get? ref with
    | none => s!"<dangling {ref}>"
    | some (.string text) => text
    | some (.function proto) => showFunction proto
    | some (.closure closure) => showFunction closure.function
    | some (.upvalue _) => "upvalue"
    | some (.class cls) => cls.name
    | some (.instance inst) => heap.showInstance inst
    | some (.bound bound) => heap.showRef depth bound.method
    | some (.native native) => showNative native
    | some (.host handle) => showHandle handle

/-- A value as `print` shows it. A chain of bound methods without a cycle is no longer than the heap. -/
def render (heap : Heap) : Value → String
  | .number x => Decimal.Layout.plain.write x
  | .bool b => if b then "true" else "false"
  | .nil => "nil"
  | .object ref => heap.showRef (heap.size + 1) ref

end Heap

end StackScript
