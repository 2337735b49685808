import StackScript.Proofs.CompilationRuns

/-!
Where the compiler comes to declarations: at the top level of a text, in blocks, and in the bodies of functions. To say of
all these places that something holds there, the compiler is written once more with a watch around each declaration. A watch
that steps in where it does not hold changes nothing.
-/

namespace StackScript

namespace Compile

open Parse Reading Conduct

section Watched

variable (watch : Parse Unit → Parse Unit)

def watchedBlock (inner : Inner) : Parse Unit := do
  whileProgress do
    if (← check .rightBrace) || (← isAtEnd) then return false
    else
      watch (declaration inner)
      return true
  expect .rightBrace .rightBraceAfterBlock

def watchedStatement (inner : Inner) : Parse Unit := do
  if ← accept (.keyword .print) then printStatement inner
  else if ← accept (.keyword .«if») then ifStatement inner
  else if ← accept (.keyword .«return») then returnStatement inner
  else if ← accept (.keyword .«while») then whileStatement inner
  else if ← accept (.keyword .«for») then inScope (forClauses inner)
  else if ← accept .leftBrace then inScope (watchedBlock watch inner)
  else expressionStatement inner

def watchedFunctionBody (inner : Inner) : Parse Unit := do
  update (·.beginScope)
  expect .leftParen .leftParenAfterFunctionName
  if !(← check .rightParen) then whileProgress parameter
  expect .rightParen .rightParenAfterParameters
  expect .leftBrace .leftBraceBeforeFunctionBody
  watchedBlock watch inner
  update (·.emitReturn)

/-- The phrases within a given budget, with a watch around all their declarations. -/
def Inner.watched : (budget : Nat) → Inner
  | 0 => .within 0
  | budget + 1 =>
    { expression := Compile.expression (budget + 1)
      statement := nested .statement (watchedStatement watch (watched budget))
      functionBody := nested .function (watchedFunctionBody watch (watched budget)) }

def watchedProgram : Parse Unit := do
  whileProgress do
    if ← isAtEnd then return false
    else
      watch (declaration (.watched watch maxNesting))
      return true
  update (·.emitReturn)

end Watched

section Watches

variable {watch : Parse Unit → Parse Unit}
  (lenient : ∀ declares (state : Compilation), state.Neat → watch declares state = declares state)
include lenient

-- A watch is around a declaration only where the tables of locals are in order, and there it does not step in.
theorem watched_declaration {inner inner' : Inner} (leads : orderly.Leads inner inner') :
    orderly.Keeps .settled (declaration inner) (watch (declaration inner')) := by
  intro state stands
  have upheld := leads.declaration state stands
  exact { upheld with same := upheld.same.trans (lenient _ state stands.neat).symm }

theorem watched_leads (budget : Nat) : orderly.Leads (.within budget) (.watched watch budget) := by
  induction budget with
  | zero => exact orderly_nests.outermost
  | succ budget ih =>
    have block : orderly.Builds (fun _ => True) .settled (block (.within budget)) (watchedBlock watch (.watched watch budget)) :=
      .seq (.whileProgress (.another (.given (watched_declaration lenient ih)))) fun _ => .expect _ _
    have expression : orderly.Builds (fun _ => True) .settled _ _ := .given (ih.expression .settled)
    have statement : orderly.Builds (fun _ => True) .settled _ _ := .given ih.statement
    refine orderly_nests.deeper (Stock.Closed.built ?_) (Stock.Closed.built ?_)
    · refine .accepting fun _ => .ite (.printStatement expression) (.accepting fun _ => .ite (.ifStatement expression statement) ?_)
      refine .accepting fun _ => .ite (.returnStatement expression) (.accepting fun _ => .ite (.whileStatement expression statement) ?_)
      refine .accepting fun _ => .ite (.given ih.forStatement) (.accepting fun _ => .ite (.given ?_) (.expressionStatement expression))
      exact inScope_upheld (Stock.Closed.built block)
    · refine .seq (.settle (.small .beginScope ⟨trivial, Mode.noConfusion⟩) fun _ => Mode.noConfusion) fun _ => .expecting ?_
      refine .reading (fun sight => ?_) fun empty => .ite (.seq (.whileProgress (.parameter trivial)) fun _ => ?_) ?_
      · exact congrArg (·.kind == .rightParen) sight.peek
      all_goals exact .expecting (.expecting (.seq block fun _ => .emitReturn))

theorem watchedProgram_eq (tokens : Array Token) : watchedProgram watch (.start tokens) = program (.start tokens) := by
  have watched : orderly.Keeps .settled program (watchedProgram watch) := by
    refine Stock.Closed.built (.seq (.whileProgress (.reading (fun sight => ?_) fun ended => .ite (.pure false) ?_)) fun _ => .emitReturn)
    · exact congrArg (·.kind == .eof) sight.peek
    · exact .seq (.given (watched_declaration lenient (watched_leads lenient maxNesting))) fun _ => .pure true
  exact (watched _ (start_orderly tokens)).same.symm

end Watches

end Compile

open Compile in
/-- Declarations leave the scopes of the compiler in order. A declaration never fails: where something in it does, the functions
around, the classes, the nesting, the depth and the locals are as they were before it, apart from captures that have been
noted. Where it goes through, there is one more local if it declares a variable in a scope, which is initialized and belongs to
that scope. This holds of all states without locals of inner scopes, and the compiler comes to declarations in such states only:
whatever is done with declarations in other states, the outcome is the same. -/
theorem declarations_keep_scopes :
    (∀ (budget : Nat) (state : Compilation), state.Neat → ∃ after, declaration (.within budget) state = .ok () after ∧
      (∀ error broken, declarationOrFail (.within budget) state = .error error broken → Steady state after) ∧
      ∀ done, declarationOrFail (.within budget) state = .ok () done →
        if state.declares ∧ state.scope.depth ≠ 0 then Adds (some state.scope.depth) state after else Steady state after) ∧
    ∀ (tokens : Array Token) (watch : Parse Unit → Parse Unit),
      (∀ declares (state : Compilation), state.Neat → watch declares state = declares state) →
        watchedProgram watch (.start tokens) = program (.start tokens) := by
  refine ⟨fun budget state neat => ?_, fun tokens watch lenient => watchedProgram_eq lenient tokens⟩
  have left := declarationOrFail_leaves (within_keeping budget) neat
  unfold declaration
  cases performed : declarationOrFail (.within budget) state with
  | ok _ after =>
    rw [Leaves, performed] at left
    refine ⟨after, rfl, fun error broken same => ?_, fun done same => ?_⟩
    · cases same
    split
    · next inScope => exact (left.declares inScope.1).inScope inScope.2
    · next other =>
      cases declares : state.declares with
      | false => exact left.otherwise declares
      | true => exact (left.declares declares).outermost (by_contra fun inScope => other ⟨declares, inScope⟩)
  | error error broken =>
    rw [Leaves, performed] at left
    refine ⟨_, rfl, fun _ _ _ => recover_steady left error, fun done same => ?_⟩
    cases same

open Compile in
/-- A class in a scope, whose first method breaks off while the scope of its superclass is open. -/
theorem declarations_keep_scopes_class : ∃ tokens after, scan "class A < B \x7b m(" = .ok tokens ∧
    declaration (.within maxNesting) (Compilation.start tokens).beginScope = .ok () after ∧
      Steady (Compilation.start tokens).beginScope after := by
  have breaks : (scan "class A < B \x7b m(").toOption.map (fun tokens =>
      (EStateM.run' (declarationOrFail (.within maxNesting)) (Compilation.start tokens).beginScope).isNone) = some true := by
    decide +kernel
  cases scanned : scan "class A < B \x7b m(" with
  | error errors =>
    rw [scanned] at breaks
    cases breaks
  | ok tokens =>
    have neat : (Compilation.start tokens).beginScope.Neat := Compilation.Neat.beginScope (.enter rfl)
    obtain ⟨after, declared, failed, -⟩ := declarations_keep_scopes.1 maxNesting _ neat
    refine ⟨tokens, after, rfl, declared, ?_⟩
    rw [scanned] at breaks
    have breaks : (EStateM.run' (declarationOrFail (.within maxNesting)) (Compilation.start tokens).beginScope).isNone = true :=
      Option.some.inj breaks
    cases performed : declarationOrFail (.within maxNesting) (Compilation.start tokens).beginScope with
    | ok _ done =>
      unfold EStateM.run' EStateM.run at breaks
      rw [performed] at breaks
      cases breaks
    | error error broken => exact failed error broken performed

end StackScript
