import StackScript.Compile.State

/-!
Expressions. There is one action for each level of precedence, from the loosest to the tightest. An expression
that stands inside another one (in parentheses, as an argument, on the right of an assignment) and the operand
of a unary operator are one level further in. The levels in progress are counted; how many are left is the budget,
which the recursion ends by. The actions of one level are given those of the next as arguments, so that only
`expression` and `operand` recur.

An equals sign makes an assignment only while no operator has been passed that binds tighter. Elsewhere it is
left over, and `expression` complains about it.
-/

namespace StackScript.Compile

open Parse

/-- The operations that a binary operator stands for, at one level of precedence. -/
abbrev Operators := Kind → Option (List Opcode)

def equalityOperators : Operators
  | .equalEqual => some [.equal]
  | .bangEqual => some [.equal, .not]
  | _ => none

/-- The comparisons. There is no operation for "at least": it is "not less". -/
def comparisonOperators : Operators
  | .greater => some [.greater]
  | .greaterEqual => some [.less, .not]
  | .less => some [.less]
  | .lessEqual => some [.greater, .not]
  | _ => none

def termOperators : Operators
  | .plus => some [.add]
  | .minus => some [.subtract]
  | _ => none

def factorOperators : Operators
  | .star => some [.multiply]
  | .slash => some [.divide]
  | _ => none

def unaryOperator? : Kind → Option Opcode
  | .bang => some .not
  | .minus => some .negate
  | _ => none

def emitAll : List Opcode → Parse Unit
  | [] => pure ()
  | op :: further => do
    emit op
    emitAll further

/-- Reads a variable, or assigns to it where an equals sign follows and may. -/
def namedVariable (expression : Parse Unit) (name : String) (canAssign : Bool) : Parse Unit := do
  let (get, set, operand) : Opcode × Opcode × Nat :=
    match ← resolve name with
    | .local slot => (.getLocal, .setLocal, slot)
    | .upvalue index => (.getUpvalue, .setUpvalue, index)
    | .global entry => (.getGlobal, .setGlobal, entry)
  if ← pure canAssign <&&> accept .equal then
    expression
    emitWith set operand
  else
    emitWith get operand

def readVariable (name : String) : Parse Unit :=
  namedVariable (pure ()) name false

def argumentsFrom (expression : Parse Unit) : (bound count : Nat) → Parse Nat
  | 0, count => pure count
  | bound + 1, count => do
    expression
    if count = maxArguments then failBehind .tooManyArguments
    else if ← accept .comma then argumentsFrom expression bound (count + 1)
    else return count + 1

def arguments (expression : Parse Unit) : Parse Nat := do
  let count ←
    if ← check .rightParen then pure 0
    else argumentsFrom expression (← tokenBound) 0
  expect .rightParen .rightParenAfterArguments
  return count

def thisExpression : Parse Unit := do
  if (← read (·.classes.isEmpty)) then failBehind .thisOutsideClass
  else readVariable "this"

/-- `super.name` is the method of the superclass bound to the receiver; with arguments it is called at once. -/
def superExpression (expression : Parse Unit) : Parse Unit := do
  match ← read (·.classes.head?) with
  | none => failBehind .superOutsideClass
  | some ⟨false⟩ => failBehind .superWithoutSuperclass
  | some ⟨true⟩ =>
    expect .dot .dotAfterSuper
    let name ← makeString (← expectName .superclassMethodName)
    readVariable "this"
    if ← accept .leftParen then
      let count ← arguments expression
      readVariable "super"
      emitWith .superInvoke name
      emitByte count.toUInt8
    else
      readVariable "super"
      emitWith .getSuper name

def numberOf (token : Token) : Float :=
  match token.literal with
  | some (.number value) => value
  | _ => 0

def textOf (token : Token) : String :=
  match token.literal with
  | some (.text value) => value
  | _ => ""

def primary (expression : Parse Unit) (canAssign : Bool) : Parse Unit := do
  let token ← peek
  match token.kind with
  | .keyword .«false» =>
    advance
    emit .pushFalse
  | .keyword .«true» =>
    advance
    emit .pushTrue
  | .keyword .nil =>
    advance
    emit .pushNil
  | .number =>
    advance
    emitWith .constant (← makeConstant (.number (numberOf token)))
  | .string =>
    advance
    emitWith .string (← makeString (textOf token))
  | .identifier =>
    advance
    namedVariable expression token.lexeme canAssign
  | .leftParen =>
    advance
    expression
    expect .rightParen .rightParenAfterExpression
  | .keyword .«this» =>
    advance
    thisExpression
  | .keyword .super =>
    advance
    superExpression expression
  | _ => failHere (.expect .expression)

def property (expression : Parse Unit) (canAssign : Bool) : Parse Unit := do
  let name ← makeString (← expectName .propertyName)
  if ← pure canAssign <&&> accept .equal then
    expression
    emitWith .setProperty name
  else if ← accept .leftParen then
    let count ← arguments expression
    emitWith .invoke name
    emitByte count.toUInt8
  else
    emitWith .getProperty name

def callSuffix (expression : Parse Unit) (canAssign : Bool) : Parse Bool := do
  if ← accept .leftParen then
    let count ← arguments expression
    emit .call
    emitByte count.toUInt8
    return true
  else if ← accept .dot then
    property expression canAssign
    return true
  else
    return false

def call (expression : Parse Unit) (canAssign : Bool) : Parse Unit := do
  primary expression canAssign
  whileProgress (callSuffix expression canAssign)

def unary (expression operand : Parse Unit) (canAssign : Bool) : Parse Unit := do
  match unaryOperator? (← peek).kind with
  | some op =>
    advance
    operand
    emit op
  | none => call expression canAssign

def binarySuffix (operators : Operators) (right : Parse Unit) : Parse Bool := do
  match operators (← peek).kind with
  | some ops =>
    advance
    right
    emitAll ops
    return true
  | none => return false

def binary (operators : Operators) (tighter : Bool → Parse Unit) (canAssign : Bool) : Parse Unit := do
  tighter canAssign
  whileProgress (binarySuffix operators (tighter false))

def equality (expression operand : Parse Unit) : Bool → Parse Unit :=
  binary equalityOperators (binary comparisonOperators (binary termOperators (binary factorOperators
    (unary expression operand))))

/-- One more `and` and its right operand, if there is one. The right operand is skipped, and the left one kept,
if that is false. -/
def andSuffix (right : Parse Unit) : Parse Bool := do
  if ← accept (.keyword .and) then
    let toEnd ← emitJump .jumpIfFalse
    emit .pop
    right
    patchJump toEnd
    return true
  else
    return false

def logicalAnd (expression operand : Parse Unit) (canAssign : Bool) : Parse Unit := do
  equality expression operand canAssign
  whileProgress (andSuffix (equality expression operand false))

/-- One more `or` and its right operand, if there is one. The right operand is skipped, and the left one kept,
unless that is false. -/
def orSuffix (right : Parse Unit) : Parse Bool := do
  if ← accept (.keyword .or) then
    let toRight ← emitJump .jumpIfFalse
    let toEnd ← emitJump .jump
    patchJump toRight
    emit .pop
    right
    patchJump toEnd
    return true
  else
    return false

def logicalOr (expression operand : Parse Unit) (canAssign : Bool) : Parse Unit := do
  logicalAnd expression operand canAssign
  whileProgress (orSuffix (logicalAnd expression operand false))

def wholeExpression (expression operand : Parse Unit) : Parse Unit := do
  logicalOr expression operand true
  if ← accept .equal then failBehind .invalidAssignmentTarget

mutual

def expression : (budget : Nat) → Parse Unit
  | 0 => fun state => failHere (.nestedTooDeeply .expression) state
  | budget + 1 => fun state => nested .expression (wholeExpression (expression budget) (operand budget)) state

def operand : (budget : Nat) → Parse Unit
  | 0 => fun state => failHere (.nestedTooDeeply .expression) state
  | budget + 1 => fun state => nested .expression (unary (expression budget) (operand budget) false) state

end

end StackScript.Compile
