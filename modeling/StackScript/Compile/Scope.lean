import StackScript.Bytecode.Chunk
import StackScript.Complaint

/-!
Names at compile time. Every function that is being compiled has its own list of locals, in the order of their
stack slots, and its own list of captured variables. A name is looked up among the locals from the innermost
outwards; a name that is found in a function further out is threaded inwards as a capture, one function at a
time.
-/

namespace StackScript.Compile

/-- At most this many locals per function; a slot is below it. -/
def maxLocals : Nat := 256

def maxCaptures : Nat := 256

inductive FunctionKind where
  | script | function | method | initializer
deriving DecidableEq, Repr

/-- A local variable. Its depth is missing while its initializer is being compiled. -/
structure Local where
  name : String
  depth : Option Nat
  isCaptured : Bool
deriving DecidableEq, Repr

def Local.isDeeperThan (binding : Local) (depth : Nat) : Bool :=
  binding.depth.any fun own => own > depth

/-- A function that is being compiled. Depth zero is its outermost scope. -/
structure FunctionScope where
  kind : FunctionKind
  name : String
  arity : Nat := 0
  chunk : Chunk Proto := {}
  locals : Array Local
  captures : Array Capture := #[]
  depth : Nat := 0

namespace FunctionScope

/-- A function without code. Its first slot holds the callee, or the receiver where there is one. -/
def enter (kind : FunctionKind) (name : String) : FunctionScope :=
  let first :=
    match kind with
    | .method | .initializer => "this"
    | .script | .function => ""
  { kind, name, locals := #[⟨first, some 0, false⟩] }

/-- The last slot below `bound` that holds a variable of this name. -/
def slotBelow? (locals : Array Local) (name : String) : (bound : Nat) → Option Nat
  | 0 => none
  | bound + 1 =>
    if locals[bound]?.any (·.name == name) then some bound else slotBelow? locals name bound

/-- The slot of the innermost local of this name. A variable cannot be read while it is being initialized. -/
def slotOf? (scope : FunctionScope) (name : String) : Except Complaint (Option Nat) :=
  match slotBelow? scope.locals name scope.locals.size with
  | none => .ok none
  | some slot =>
    if scope.locals[slot]?.any (·.depth.isSome) then .ok (some slot) else .error .readInOwnInitializer

def markCaptured (scope : FunctionScope) (slot : Nat) : FunctionScope :=
  { scope with locals := scope.locals.modify slot fun binding => { binding with isCaptured := true } }

/-- The index of a capture, which is appended unless the function has it already. -/
def addCapture (scope : FunctionScope) (capture : Capture) : Except Complaint (Nat × FunctionScope) :=
  match scope.captures.idxOf? capture with
  | some index => .ok (index, scope)
  | none =>
    if scope.captures.size = maxCaptures then .error .tooManyUpvalues
    else .ok (scope.captures.size, { scope with captures := scope.captures.push capture })

def finish (scope : FunctionScope) : Proto :=
  { name := scope.name, arity := scope.arity, chunk := scope.chunk, captures := scope.captures }

end FunctionScope

/-- The outcome of threading a name inwards: the index of the capture in the inner function, if some function
around it has such a local, and the functions with what was noted on the way. What was noted stays noted when
a limit is hit. -/
structure Threading where
  index : Except Complaint (Option Nat)
  inner : FunctionScope
  outers : List FunctionScope

def Threading.capture (inner : FunctionScope) (outers : List FunctionScope) (capture : Capture) : Threading :=
  match inner.addCapture capture with
  | .ok (index, inner) => ⟨.ok (some index), inner, outers⟩
  | .error complaint => ⟨.error complaint, inner, outers⟩

/-- Looks a name up in the functions around `inner`, the nearest first, and threads it inwards. -/
def thread (name : String) (inner : FunctionScope) : (outers : List FunctionScope) → Threading
  | [] => ⟨.ok none, inner, []⟩
  | outer :: further =>
    match outer.slotOf? name with
    | .error complaint => ⟨.error complaint, inner, outer :: further⟩
    | .ok (some slot) => .capture inner (outer.markCaptured slot :: further) ⟨true, slot⟩
    | .ok none =>
      let around := thread name outer further
      match around.index with
      | .ok (some index) => .capture inner (around.inner :: around.outers) ⟨false, index⟩
      | .ok none => ⟨.ok none, inner, around.inner :: around.outers⟩
      | .error complaint => ⟨.error complaint, inner, around.inner :: around.outers⟩

end StackScript.Compile
