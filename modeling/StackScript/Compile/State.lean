import StackScript.Compile.Scope
import StackScript.Bytecode.Opcode
import StackScript.Token.Cursor

/-!
The state of a compilation, and the actions that the grammar is written in. An action may fail with a
complaint; what it did before stays done. Code is emitted into the innermost function and carries the line of
the token behind the cursor.
-/

namespace StackScript.Compile

def maxConstantIndex : Nat := 32767

def maxOperand : Nat := 65535

def maxArguments : Nat := 255

def maxNesting : Nat := 200

structure ClassScope where
  hasSuperclass : Bool
deriving DecidableEq, Repr

/-- A compilation in progress. The innermost function and class come first. -/
structure Compilation where
  cursor : Cursor
  scope : FunctionScope
  enclosing : List FunctionScope := []
  classes : List ClassScope := []
  errors : Array CompileError := #[]
  nesting : Nat := 0

namespace Compilation

def start (tokens : Array Token) : Compilation :=
  { cursor := .ofTokens tokens, scope := .enter .script "" }

def emitByte (state : Compilation) (byte : UInt8) : Compilation :=
  let line := state.cursor.previous.span.line
  { state with scope := { state.scope with chunk := state.scope.chunk.write byte line } }

def emit (state : Compilation) (op : Opcode) : Compilation :=
  state.emitByte op.toByte

def emitOperand (state : Compilation) (operand : Nat) : Compilation :=
  let (high, low) := Chunk.bytesOf operand
  (state.emitByte high).emitByte low

def emitWith (state : Compilation) (op : Opcode) (operand : Nat) : Compilation :=
  (state.emit op).emitOperand operand

def offset (state : Compilation) : Nat :=
  state.scope.chunk.code.size

/-- Ends a function that falls off its end: an initializer returns its receiver, others return `nil`. -/
def emitReturn (state : Compilation) : Compilation :=
  if state.scope.kind = .initializer then (state.emitWith .getLocal 0).emit .return
  else (state.emit .pushNil).emit .return

def beginScope (state : Compilation) : Compilation :=
  { state with scope := { state.scope with depth := state.scope.depth + 1 } }

/-- Leaves a scope: each of its locals is popped, or closed if a function captures it. -/
def endScope (state : Compilation) : Compilation :=
  let depth := state.scope.depth - 1
  let leaving := state.scope.locals.toList.reverse.takeWhile (·.isDeeperThan depth)
  let staying := state.scope.locals.shrink (state.scope.locals.size - leaving.length)
  let popped := leaving.foldl
    (fun (state : Compilation) binding => state.emit (if binding.isCaptured then .closeUpvalue else .pop)) state
  { popped with scope := { popped.scope with depth, locals := staying } }

def markInitialized (state : Compilation) : Compilation :=
  if state.scope.depth = 0 then state
  else
    let depth := some state.scope.depth
    let newest := state.scope.locals.size - 1
    let locals := state.scope.locals.modify newest fun binding => { binding with depth }
    { state with scope := { state.scope with locals } }

/-- The string-table offset of a name that is declared here, if it is a global. A local has none. -/
def globalName? (state : Compilation) (name : Nat) : Option Nat :=
  if state.scope.depth > 0 then none else some name

/-- Makes a declared variable readable; a global gets the value on the stack under its name. -/
def defineVariable (state : Compilation) : (global? : Option Nat) → Compilation
  | none => state.markInitialized
  | some name => state.emitWith .defineGlobal name

def openFunction (state : Compilation) (kind : FunctionKind) (name : String) : Compilation :=
  { state with scope := .enter kind name, enclosing := state.scope :: state.enclosing }

def closeFunction (state : Compilation) : Compilation :=
  match state.enclosing with
  | outer :: further => { state with scope := outer, enclosing := further }
  | [] => state

def deeper (state : Compilation) : Compilation :=
  { state with nesting := state.nesting + 1 }

def shallower (state : Compilation) : Compilation :=
  { state with nesting := state.nesting - 1 }

/-- Notes a complaint and goes on behind the statement: what it declared is forgotten. -/
def recover (state : Compilation) (error : CompileError) (depth locals : Nat) : Compilation :=
  { state with
    errors := state.errors.push error
    scope := { state.scope with depth, locals := state.scope.locals.shrink locals }
    cursor := state.cursor.synchronize }

end Compilation

abbrev Parse := EStateM CompileError Compilation

namespace Parse

def update (change : Compilation → Compilation) : Parse Unit :=
  fun state => .ok () (change state)

def read {α : Type} (view : Compilation → α) : Parse α :=
  fun state => .ok (view state) state

def failHere {α : Type} (complaint : Complaint) : Parse α :=
  fun state => .error (state.cursor.remarkHere complaint) state

def failBehind {α : Type} (complaint : Complaint) : Parse α :=
  fun state => .error (state.cursor.remarkBehind complaint) state

def peek : Parse Token :=
  read (·.cursor.peek)

def previous : Parse Token :=
  read (·.cursor.previous)

def check (kind : Kind) : Parse Bool :=
  read (·.cursor.check kind)

def isAtEnd : Parse Bool :=
  read (·.cursor.isAtEnd)

def advance : Parse Unit :=
  update fun state => { state with cursor := state.cursor.advance }

def accept (kind : Kind) : Parse Bool := fun state =>
  if state.cursor.check kind then .ok true { state with cursor := state.cursor.advance } else .ok false state

def expect (kind : Kind) (what : Expectation) : Parse Unit := fun state =>
  match state.cursor.expect kind (Complaint.expect what) with
  | .ok cursor => .ok () { state with cursor }
  | .error error => .error error state

def expectName (what : Expectation) : Parse String := do
  expect .identifier what
  return (← previous).lexeme

/-- Runs an action one level further in, unless the phrases in progress nest too deep for that. The level is left also
when the action fails. -/
def nested (phrase : Phrase) (body : Parse Unit) : Parse Unit := fun state =>
  if state.nesting ≥ maxNesting then failHere (.nestedTooDeeply phrase) state
  else
    match body state.deeper with
    | .ok () state => .ok () state.shallower
    | .error error state => .error error state.shallower

def repeatUpTo (again : Parse Bool) : (bound : Nat) → Parse Unit
  | 0 => pure ()
  | bound + 1 => do if ← again then repeatUpTo again bound

/-- One more than the number of tokens left. An action that passes a token whenever it wants to be repeated
runs out of tokens before it runs out of repetitions. -/
def tokenBound : Parse Nat :=
  read (·.cursor.remaining + 1)

/-- Repeats an action that passes a token whenever it wants to be repeated. -/
def whileProgress (again : Parse Bool) : Parse Unit := do
  repeatUpTo again (← tokenBound)

def emitByte (byte : UInt8) : Parse Unit := update (·.emitByte byte)

def emit (op : Opcode) : Parse Unit := update (·.emit op)

def emitOperand (operand : Nat) : Parse Unit := update (·.emitOperand operand)

def emitWith (op : Opcode) (operand : Nat) : Parse Unit := update (·.emitWith op operand)

/-- Emits a jump whose distance is not known yet, and gives the offset of its operand. -/
def emitJump (op : Opcode) : Parse Nat := do
  emitWith op maxOperand
  read (·.offset - 2)

def patchJump (operandOffset : Nat) : Parse Unit := do
  let distance ← read (·.offset - operandOffset - 2)
  if distance > maxOperand then failBehind .jumpTooFar
  else
    let (high, low) := Chunk.bytesOf distance
    update fun state =>
      { state with
        scope := { state.scope with
          chunk := (state.scope.chunk.writeAt operandOffset high).writeAt (operandOffset + 1) low } }

def emitLoop (target : Nat) : Parse Unit := do
  emit .loop
  let distance ← read (·.offset - target + 2)
  if distance > maxOperand then failBehind .loopTooLarge else emitOperand distance

def makeConstant (value : Value) : Parse Nat := do
  let index ← read (·.scope.chunk.constants.size)
  update fun state => { state with scope := { state.scope with chunk := state.scope.chunk.addConstant value } }
  if index > maxConstantIndex then failBehind .tooManyConstants else return index

def makeString (text : String) : Parse Nat := do
  match ← read (·.scope.chunk.storeString? text) with
  | some (entry, chunk) =>
    update fun state => { state with scope := { state.scope with chunk } }
    if entry > maxOperand then failBehind .tooManyConstants else return entry
  | none => failBehind .nulInString

theorem makeString_eq (text : String) :
    makeString text = if Chunk.isStorable text then do
      let entry ← read (·.scope.chunk.strings.size)
      update fun state => { state with scope := { state.scope with chunk := state.scope.chunk.addString text } }
      if entry > maxOperand then failBehind .tooManyConstants else return entry
    else failBehind .nulInString := by
  funext state
  cases storable : Chunk.isStorable text <;> simp [makeString, bind, EStateM.bind, read, Chunk.storeString?, storable] <;> rfl

def addLocal (name : String) : Parse Unit := do
  if (← read (·.scope.locals.size)) = maxLocals then failBehind .tooManyLocals
  else update fun state =>
    { state with scope := { state.scope with locals := state.scope.locals.push ⟨name, none, false⟩ } }

/-- The innermost scope declares the name. Locals of that scope, and one that is being initialized, stand at
the end of the list. -/
def declaresName (scope : FunctionScope) (name : String) : Bool :=
  let own := scope.locals.toList.reverse.takeWhile fun binding => binding.depth.all fun depth => depth ≥ scope.depth
  own.any (·.name == name)

/-- Declares the name behind the cursor in the current scope. Globals need no declaration. -/
def declareVariable : Parse Unit := do
  if (← read (·.scope.depth)) = 0 then return
  let name := (← previous).lexeme
  if ← read (declaresName ·.scope name) then failBehind .redefinition else addLocal name

/-- Passes a name and declares it. Gives the string-table offset of a global, nothing for a local. -/
def parseVariable (what : Expectation) : Parse (Option Nat) := do
  let name ← expectName what
  declareVariable
  if (← read (·.scope.depth)) > 0 then return none else return some (← makeString name)

inductive Access where
  | «local» (slot : Nat)
  | upvalue (index : Nat)
  | global (name : Nat)
deriving DecidableEq, Repr

def resolveCapture (name : String) : Parse (Option Nat) := fun state =>
  let threading := thread name state.scope state.enclosing
  let state := { state with scope := threading.inner, enclosing := threading.outers }
  match threading.index with
  | .ok index => .ok index state
  | .error complaint => .error (state.cursor.remarkBehind complaint) state

/-- Finds what a name stands for here. What is no local of any function is a global. -/
def resolve (name : String) : Parse Access := do
  match ← read (·.scope.slotOf? name) with
  | .error complaint => failBehind complaint
  | .ok (some slot) => return .local slot
  | .ok none =>
    match ← resolveCapture name with
    | some index => return .upvalue index
    | none => return .global (← makeString name)

end Parse

end StackScript.Compile
