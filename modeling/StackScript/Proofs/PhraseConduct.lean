import StackScript.Proofs.PhraseComposition

/-!
How the compiler behaves, phrase by phrase. If its small actions keep to a conduct, so does all that is built from them.
-/

namespace StackScript.Conduct

open Compile Parse Reading

variable {α : Type} {conduct : Conduct CompileError Compilation} {known : Nat → Prop} {mode : Mode}

/-- The small actions of the compiler keep to the conduct, apart from those that change scopes. -/
class Closed (conduct : Conduct CompileError Compilation) : Prop extends conduct.Writes where
  here : ∀ (complaint : Complaint) state, conduct.fails state (state.cursor.remarkHere complaint) state
  behind : ∀ (complaint : Complaint) state, conduct.fails state (state.cursor.remarkBehind complaint) state
  advance : ∀ state, conduct.goes state { state with cursor := state.cursor.advance }

theorem Closed.within {wide : Conduct CompileError Compilation} (closed : conduct.Closed) (within : conduct.Within wide) : wide.Closed where
  toWrites := closed.toWrites.within within
  here complaint state := within.fails (closed.here complaint state)
  behind complaint state := within.fails (closed.behind complaint state)
  advance state := within.goes (closed.advance state)

/-- What keeps to the conduct one level of nesting further in does so here. -/
class Deepens (conduct : Conduct CompileError Compilation) : Prop where
  shallower : ∀ {before after}, conduct.goes before.deeper after → conduct.goes before after.shallower
  escape : ∀ {before after error}, conduct.fails before.deeper error after → conduct.fails before error after.shallower

section Actions

variable [closed : conduct.Closed]

theorem failHere_obeys (complaint : Complaint) : conduct.Obeys (failHere complaint : Parse α) := closed.here complaint

theorem small_obeys (action : Act α) (proper : action.Proper False mode known) : conduct.Obeys action.run := by
  cases action with
  | read view => exact .read view
  | depth => exact .read _
  | declares name => exact .read _
  | failHere complaint => exact failHere_obeys complaint
  | failBehind complaint => exact closed.behind complaint
  | advance => exact closed.advance
  | emit op => exact emit_obeys op
  | emitWith op operand => exact emitWith_obeys op operand
  | emitCount count => exact emitByte_obeys count.toUInt8
  | patchJump jump => exact patchJump_obeys jump
  | emitLoop start => exact emitLoop_obeys start
  | makeConstant value => exact makeConstant_obeys value
  | makeString text => exact makeString_obeys text
  | resolveCapture name => exact closed.capture name
  | beginScope | endScope | addLocal | markInitialized => exact proper.1.elim
  | _ => exact proper.elim

theorem small_obeys_rescoping [conduct.Rescopes] (action : Act α) (proper : action.Proper True mode known) :
    conduct.Obeys action.run := by
  cases action with
  | beginScope => exact beginScope_obeys
  | endScope => exact endScope_obeys
  | addLocal name => exact addLocal_obeys name
  | markInitialized => exact markInitialized_obeys
  | countParameter => exact (Obeys.read _).bind fun _ => .ite (failHere_obeys _) (.update fun state => Rescopes.rescope state _ _ _)
  | markSuperclass => exact .update fun state => Rescopes.reclass state _
  | leaveLevel | leaveClass | leaveFunction => exact proper.elim
  | _ => exact @small_obeys _ _ known mode _ _ proper

end Actions

def stock (conduct : Conduct CompileError Compilation) (rescoping : Prop) : Stock := ⟨rescoping, fun _ action _ _ => conduct.Obeys action⟩

theorem obeys_of_shifts {rescoping : Prop} {action action' : Parse α} {after : α → Mode}
    (shifts : (conduct.stock rescoping).Shifts known mode action action' after)
    (small : ∀ {α : Type} {mode : Mode} {known : Nat → Prop} (action : Act α), action.Proper rescoping mode known → conduct.Obeys action.run) :
    conduct.Obeys action := by
  induction shifts with
  | given obeys => exact obeys
  | yield value => exact .pure value
  | small action proper => exact small action proper
  | bind _ _ one two => exact one.bind two
  | settle _ _ ih => exact ih

section Phrases

variable [closed : conduct.Closed]

theorem built_obeys {action : Parse α} (builds : (conduct.stock False).Builds (fun _ => True) .settled action action) :
    conduct.Obeys action :=
  obeys_of_shifts builds small_obeys

theorem rebuilt_obeys [conduct.Rescopes] {action : Parse α} (builds : (conduct.stock True).Builds (fun _ => True) .settled action action) :
    conduct.Obeys action :=
  obeys_of_shifts builds small_obeys_rescoping

theorem accept_obeys (kind : Kind) : conduct.Obeys (accept kind) := built_obeys (.accept kind)

theorem expect_obeys (kind : Kind) (what : Expectation) : conduct.Obeys (expect kind what) := built_obeys (.expect kind what)

theorem expectName_obeys (what : Expectation) : conduct.Obeys (expectName what) :=
  (expect_obeys _ what).bind fun _ => (Obeys.read _).bind fun _ => .pure _

theorem leaveFunction_allows (listed : ∀ state chunk, conduct.goes state (state.recoded chunk)) (state : Compilation) :
    conduct.Allows state.closeFunction (leaveFunction state) := by
  have listed := listed state.closeFunction (state.closeFunction.scope.chunk.addFunction state.scope.finish)
  unfold leaveFunction
  dsimp only
  split
  · exact conduct.fails_after listed (closed.behind _ _)
  · exact conduct.trans listed (emitBytes_goes _ _)

theorem nested_obeys [deepens : conduct.Deepens] {body : Parse Unit} (obeys : conduct.Obeys body) (phrase : StackScript.Phrase) :
    conduct.Obeys (nested phrase body) := by
  intro state
  rw [nested_eq]
  split
  · exact closed.here _ state
  · exact Obeys.wrapped obeys deepens.shallower deepens.escape state

theorem expressions_obey [conduct.Deepens] (budget : Nat) :
    conduct.Obeys (Compile.expression budget) ∧ conduct.Obeys (Compile.operand budget) := by
  induction budget with
  | zero => exact ⟨failHere_obeys _, failHere_obeys _⟩
  | succ budget ih =>
    exact ⟨nested_obeys (built_obeys (.wholeExpression (.given ih.1) (.given ih.2))) _,
      nested_obeys (built_obeys (.unary (.given ih.1) (.given ih.2) false)) _⟩

variable {inner : Inner} (expression : conduct.Obeys inner.expression) (statement : conduct.Obeys inner.statement)
include expression statement

theorem forClauses_obeys (declares : conduct.Obeys (varDeclaration inner)) : conduct.Obeys (forClauses inner) :=
  built_obeys (.forClauses (.given expression) (.given statement) (.given declares))

theorem wholeStatement_obeys (loops : conduct.Obeys (inScope (forClauses inner))) (blocks : conduct.Obeys (inScope (block inner))) :
    conduct.Obeys (wholeStatement inner) :=
  built_obeys (.wholeStatement (.given expression) (.given statement) (.given loops) (.given blocks))

end Phrases

end StackScript.Conduct
