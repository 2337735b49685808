import StackScript.Located

/-!
Why a text does not compile. Complaints are of four sorts: the grammar expects something else, an assignment
has no target, a phrase is out of place, or a limit of the code format is exceeded.
-/

namespace StackScript

inductive Expectation where
  | expression
  | rightParenAfterExpression
  | propertyName
  | rightParenAfterArguments
  | dotAfterSuper
  | superclassMethodName
  | variableName
  | semicolonAfterVariable
  | semicolonAfterValue
  | semicolonAfterExpression
  | semicolonAfterReturnValue
  | leftParenAfterIf
  | leftParenAfterWhile
  | rightParenAfterCondition
  | leftParenAfterFor
  | semicolonAfterLoopCondition
  | rightParenAfterForClauses
  | rightBraceAfterBlock
  | functionName
  | leftParenAfterFunctionName
  | parameterName
  | rightParenAfterParameters
  | leftBraceBeforeFunctionBody
  | className
  | superclassName
  | leftBraceBeforeClassBody
  | methodName
  | rightBraceAfterClassBody
deriving DecidableEq, Repr

def Expectation.text : Expectation → String
  | expression => "Expect expression."
  | rightParenAfterExpression => "Expect ')' after expression."
  | propertyName => "Expect property name after '.'."
  | rightParenAfterArguments => "Expect ')' after arguments."
  | dotAfterSuper => "Expect '.' after 'super'."
  | superclassMethodName => "Expect superclass method name."
  | variableName => "Expect variable name."
  | semicolonAfterVariable => "Expect ';' after variable declaration."
  | semicolonAfterValue => "Expect ';' after value."
  | semicolonAfterExpression => "Expect ';' after expression."
  | semicolonAfterReturnValue => "Expect ';' after return value."
  | leftParenAfterIf => "Expect '(' after 'if'."
  | leftParenAfterWhile => "Expect '(' after 'while'."
  | rightParenAfterCondition => "Expect ')' after condition."
  | leftParenAfterFor => "Expect '(' after 'for'."
  | semicolonAfterLoopCondition => "Expect ';' after loop condition."
  | rightParenAfterForClauses => "Expect ')' after for clauses."
  | rightBraceAfterBlock => "Expect '\x7d' after block."
  | functionName => "Expect function name."
  | leftParenAfterFunctionName => "Expect '(' after function name."
  | parameterName => "Expect parameter name."
  | rightParenAfterParameters => "Expect ')' after parameters."
  | leftBraceBeforeFunctionBody => "Expect '\x7b' before function body."
  | className => "Expect class name."
  | superclassName => "Expect superclass name."
  | leftBraceBeforeClassBody => "Expect '\x7b' before class body."
  | methodName => "Expect method name."
  | rightBraceAfterClassBody => "Expect '\x7d' after class body."

/-- The phrases that nest, and whose nesting is limited. -/
inductive Phrase where
  | expression | statement | function
deriving DecidableEq, Repr

def Phrase.text : Phrase → String
  | expression => "Expression"
  | statement => "Statement"
  | function => "Function"

inductive Complaint where
  | expect (what : Expectation)
  /-- An equals sign follows something that cannot be assigned to. -/
  | invalidAssignmentTarget
  -- Phrases out of place.
  | returnFromTopLevel
  | returnValueFromInitializer
  | thisOutsideClass
  | superOutsideClass
  | superWithoutSuperclass
  | inheritsFromItself
  | redefinition
  | readInOwnInitializer
  -- Limits of the code format.
  | nulInString
  | tooManyConstants
  | tooManyFunctions
  | tooManyLocals
  | tooManyUpvalues
  | tooManyParameters
  | tooManyArguments
  | jumpTooFar
  | loopTooLarge
  | nestedTooDeeply (phrase : Phrase)
deriving DecidableEq, Repr

namespace Complaint

def text : Complaint → String
  | expect what => what.text
  | invalidAssignmentTarget => "Invalid assignment target."
  | returnFromTopLevel => "Can't return from top-level code."
  | returnValueFromInitializer => "Can't return a value from an initializer."
  | thisOutsideClass => "Can't use 'this' outside of a class."
  | superOutsideClass => "Can't use 'super' outside of a class."
  | superWithoutSuperclass => "Can't use 'super' in a class with no superclass."
  | inheritsFromItself => "A class can't inherit from itself."
  | redefinition => "Cannot redefine a local variable in the same scope."
  | readInOwnInitializer => "Cannot read local variable in its own initializer."
  | nulInString => "String constant contains a NUL byte."
  | tooManyConstants => "Too many constants in one chunk."
  | tooManyFunctions => "Too many functions in one chunk."
  | tooManyLocals => "Too many local variables in function."
  | tooManyUpvalues => "Too many closure variables in function."
  | tooManyParameters => "Can't have more than 255 parameters."
  | tooManyArguments => "Can't have more than 255 arguments."
  | jumpTooFar => "Too much code to jump over."
  | loopTooLarge => "Loop body too large."
  | nestedTooDeeply phrase => s!"{phrase.text} nested too deeply."

/-- The complaint is about the shape of the text alone, not about what its phrases mean or how large they are. -/
def isSyntactic : Complaint → Bool
  | expect _ => true
  | invalidAssignmentTarget => true
  | _ => false

end Complaint

abbrev CompileError := Located Complaint

end StackScript
