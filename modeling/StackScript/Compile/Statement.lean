import StackScript.Compile.Expression

/-!
Statements and declarations. As with expressions, the actions of one level of nesting are given those of the
next, and only `statement` and `functionBody` recur, on the budget that all phrases share.

A declaration never fails: a complaint is noted, what the declaration had begun is undone, and compilation goes
on at the next boundary between statements.
-/

namespace StackScript.Compile

open Parse

structure Inner where
  expression : Parse Unit
  statement : Parse Unit
  functionBody : Parse Unit

/-- A function whose name is behind the cursor: its code becomes a nested function, and a closure over it is
left on the stack. -/
def function (body : Parse Unit) (kind : FunctionKind) : Parse Unit := fun state =>
  let name := state.cursor.previous.lexeme
  match body (state.openFunction kind name) with
  | .error error state => .error error state.closeFunction
  | .ok () state =>
    let proto := state.scope.finish
    let state := state.closeFunction
    let index := state.scope.chunk.functions.size
    let state := { state with scope := { state.scope with chunk := state.scope.chunk.addFunction proto } }
    if index > maxOperand then failBehind .tooManyFunctions state
    else
      let state := (state.emitWith .function index).emitWith .closure proto.captures.size
      let emitCapture (state : Compilation) (capture : Capture) : Compilation :=
        (state.emitByte (if capture.isLocal then 1 else 0)).emitOperand capture.index
      .ok () (proto.captures.foldl emitCapture state)

def varDeclaration (inner : Inner) : Parse Unit := do
  let name ← parseVariable .variableName
  if ← accept .equal then inner.expression else emit .pushNil
  expect .semicolon .semicolonAfterVariable
  update (·.defineVariable name)

/-- `fun name(parameters) body`. The function may call itself, so its name is readable in its body. -/
def funDeclaration (inner : Inner) : Parse Unit := do
  let name ← parseVariable .functionName
  update (·.markInitialized)
  function inner.functionBody .function
  update (·.defineVariable name)

/-- One method of a class, which lies below it on the stack. -/
def method (inner : Inner) : Parse Unit := do
  let name ← expectName .methodName
  let entry ← makeString name
  function inner.functionBody (if name = "init" then .initializer else .method)
  emitWith .method entry

def methodSuffix (inner : Inner) : Parse Bool := do
  if (← check .rightBrace) || (← isAtEnd) then return false
  else
    method inner
    return true

def Compilation.markSuperclass (state : Compilation) : Compilation :=
  { state with classes := state.classes.modifyHead fun _ => ⟨true⟩ }

/-- The superclass is kept in a local named `super` around the class body, where the methods capture it. -/
def superclassClause (className : String) : Parse Unit := do
  let superclass ← expectName .superclassName
  readVariable superclass
  if superclass = className then failBehind .inheritsFromItself
  update (·.beginScope)
  addLocal "super"
  update (·.markInitialized)
  readVariable className
  emit .inherit
  update (·.markSuperclass)

def classBody (inner : Inner) (className : String) : Parse Unit := do
  if ← accept .less then superclassClause className
  readVariable className
  expect .leftBrace .leftBraceBeforeClassBody
  whileProgress (methodSuffix inner)
  expect .rightBrace .rightBraceAfterClassBody
  emit .pop

/-- Compiles a class body inside its own class scope, which is left also when the body fails. Gives whether the
class has a superclass. -/
def inClass (body : Parse Unit) : Parse Bool := fun state =>
  match body { state with classes := ⟨false⟩ :: state.classes } with
  | .error error state => .error error { state with classes := state.classes.tail }
  | .ok () state =>
    let hasSuperclass := state.classes.head?.any (·.hasSuperclass)
    .ok hasSuperclass { state with classes := state.classes.tail }

/-- `class Name < Super` and the methods in braces. The class is bound to its name before its methods are
compiled, so that they can refer to it. -/
def classDeclaration (inner : Inner) : Parse Unit := do
  let name ← expectName .className
  let entry ← makeString name
  declareVariable
  emitWith .newClass entry
  update fun state => state.defineVariable (state.globalName? entry)
  if ← inClass (classBody inner name) then update (·.endScope)

def declarationOrFail (inner : Inner) : Parse Unit := do
  if ← accept (.keyword .«class») then classDeclaration inner
  else if ← accept (.keyword .«fun») then funDeclaration inner
  else if ← accept (.keyword .var) then varDeclaration inner
  else inner.statement

/-- Turns a failure into a note; `depth` and `locals` say what the scope looked like before. -/
@[noinline] def orRecover (depth locals : Nat) :
    EStateM.Result CompileError Compilation Unit → EStateM.Result CompileError Compilation Unit
  | .ok () state => .ok () state
  | .error error state => .ok () (state.recover error depth locals)

/-- A declaration or a statement. A failure is noted and undone. -/
def declaration (inner : Inner) : Parse Unit := fun state =>
  orRecover state.scope.depth state.scope.locals.size (declarationOrFail inner state)

def blockSuffix (inner : Inner) : Parse Bool := do
  if (← check .rightBrace) || (← isAtEnd) then return false
  else
    declaration inner
    return true

def block (inner : Inner) : Parse Unit := do
  whileProgress (blockSuffix inner)
  expect .rightBrace .rightBraceAfterBlock

/-- Runs an action in a scope of its own, which is left also when the action fails. -/
def inScope (body : Parse Unit) : Parse Unit := fun state =>
  match body state.beginScope with
  | .ok () state => .ok () state.endScope
  | .error error state => .error error state.endScope

def printStatement (inner : Inner) : Parse Unit := do
  inner.expression
  expect .semicolon .semicolonAfterValue
  emit .print

def expressionStatement (inner : Inner) : Parse Unit := do
  inner.expression
  expect .semicolon .semicolonAfterExpression
  emit .pop

/-- `return value;`. A script cannot return, and an initializer always returns its receiver. -/
def returnStatement (inner : Inner) : Parse Unit := do
  let kind ← read (·.scope.kind)
  if kind = .script then failBehind .returnFromTopLevel
  else if ← accept .semicolon then update (·.emitReturn)
  else if kind = .initializer then failBehind .returnValueFromInitializer
  else
    inner.expression
    expect .semicolon .semicolonAfterReturnValue
    emit .return

def ifStatement (inner : Inner) : Parse Unit := do
  expect .leftParen .leftParenAfterIf
  inner.expression
  expect .rightParen .rightParenAfterCondition
  let toElse ← emitJump .jumpIfFalse
  emit .pop
  inner.statement
  let toEnd ← emitJump .jump
  patchJump toElse
  emit .pop
  if ← accept (.keyword .«else») then inner.statement
  patchJump toEnd

def whileStatement (inner : Inner) : Parse Unit := do
  let start ← read (·.offset)
  expect .leftParen .leftParenAfterWhile
  inner.expression
  expect .rightParen .rightParenAfterCondition
  let toExit ← emitJump .jumpIfFalse
  emit .pop
  inner.statement
  emitLoop start
  patchJump toExit
  emit .pop

def forInitializer (inner : Inner) : Parse Unit := do
  if ← accept .semicolon then return
  else if ← accept (.keyword .var) then varDeclaration inner
  else expressionStatement inner

def forCondition (inner : Inner) : Parse (Option Nat) := do
  if ← accept .semicolon then return none
  else
    inner.expression
    expect .semicolon .semicolonAfterLoopCondition
    let toExit ← emitJump .jumpIfFalse
    emit .pop
    return some toExit

/-- The increment of a `for` statement stands in front of the body and is jumped over on the way in. Gives the
offset that the body jumps back to: the increment, or the condition where there is none. -/
def forIncrement (inner : Inner) (start : Nat) : Parse Nat := do
  if ← accept .rightParen then return start
  else
    let toBody ← emitJump .jump
    let increment ← read (·.offset)
    inner.expression
    emit .pop
    expect .rightParen .rightParenAfterForClauses
    emitLoop start
    patchJump toBody
    return increment

def forClauses (inner : Inner) : Parse Unit := do
  expect .leftParen .leftParenAfterFor
  forInitializer inner
  let start ← read (·.offset)
  let toExit ← forCondition inner
  let start ← forIncrement inner start
  inner.statement
  emitLoop start
  match toExit with
  | some toExit =>
    patchJump toExit
    emit .pop
  | none => return

def wholeStatement (inner : Inner) : Parse Unit := do
  if ← accept (.keyword .print) then printStatement inner
  else if ← accept (.keyword .«if») then ifStatement inner
  else if ← accept (.keyword .«return») then returnStatement inner
  else if ← accept (.keyword .«while») then whileStatement inner
  else if ← accept (.keyword .«for») then inScope (forClauses inner)
  else if ← accept .leftBrace then inScope (block inner)
  else expressionStatement inner

def parameter : Parse Bool := do
  if (← read (·.scope.arity)) = maxArguments then failHere .tooManyParameters
  else
    update fun state => { state with scope := { state.scope with arity := state.scope.arity + 1 } }
    let name ← parseVariable .parameterName
    update (·.defineVariable name)
    accept .comma

def wholeFunctionBody (inner : Inner) : Parse Unit := do
  update (·.beginScope)
  expect .leftParen .leftParenAfterFunctionName
  if !(← check .rightParen) then whileProgress parameter
  expect .rightParen .rightParenAfterParameters
  expect .leftBrace .leftBraceBeforeFunctionBody
  block inner
  update (·.emitReturn)

mutual

def statement : (budget : Nat) → Parse Unit
  | 0 => fun state => failHere (.nestedTooDeeply .statement) state
  | budget + 1 => fun state =>
    nested .statement (wholeStatement ⟨expression budget, statement budget, functionBody budget⟩) state

def functionBody : (budget : Nat) → Parse Unit
  | 0 => fun state => failHere (.nestedTooDeeply .function) state
  | budget + 1 => fun state =>
    nested .function (wholeFunctionBody ⟨expression budget, statement budget, functionBody budget⟩) state

end

def Inner.within (budget : Nat) : Inner :=
  ⟨Compile.expression budget, Compile.statement budget, Compile.functionBody budget⟩

end StackScript.Compile
