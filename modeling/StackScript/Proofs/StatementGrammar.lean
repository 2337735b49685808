import StackScript.Proofs.ExpressionGrammar
import StackScript.Proofs.SourceCode

/-!
What the actions for statements and declarations read, and whole programs: what compiles belongs to the grammar, and what
belongs to the grammar compiles unless something else than its shape is wrong with it.

The grammar leaves open which `if` an `else` belongs to, and the actions take the nearest one. So a statement is read in
front of an `else` only if that `else` cannot go on with it. A string that is no such choice can be split differently: the
statement inside takes the `else`, and the one around it has none.
-/

namespace StackScript.Reading

open Compile Compile.Parse Conduct Grammar

variable {takes follow : List Kind → List Kind → Prop} {gives : List Kind → Kind → Prop} {string : List Kind} {body : Parse Unit}

/-- What may follow a string that ends a statement: no `else`, or one that does not go on with the statement. -/
def Inside (strings : Language Kind) (string rest : List Kind) : Prop :=
  before (· ≠ .keyword .else) string rest ∨
    ∃ front other tail, (∀ part ∈ strings, front ++ part ∈ Grammar.strings .statement) ∧
      rest = .keyword .else :: (other ++ tail) ∧ other ∈ Grammar.strings .statement ∧
      front ++ (string ++ .keyword .else :: other) ∉ Grammar.strings .statement

section Ends

variable {α β : Type} {action : Parse α} {next : α → Parse β} {strings strings₁ strings₂ : Language Kind} {rest : List Kind}

theorem Inside.mono (inside : Inside strings₂ string rest) (less : ∀ part ∈ strings₁, part ∈ strings₂) :
    Inside strings₁ string rest := by
  rcases inside with apart | ⟨front, other, tail, fits, found⟩
  · exact .inl apart
  · exact .inr ⟨front, other, tail, fun part member => fits part (less part member), found⟩

theorem Inside.second {first : List Kind} (inside : Inside (strings₁ * strings₂) (first ++ string) rest)
    (member : first ∈ strings₁) : Inside strings₂ string rest := by
  rcases inside with apart | ⟨front, other, tail, fits, same, found, not⟩
  · exact .inl apart
  · refine .inr ⟨front ++ first, other, tail, fun part further => ?_, same, found, ?_⟩
    · rw [List.append_assoc]
      exact fits _ (Language.mem_mul.mpr ⟨first, member, part, further, rfl⟩)
    · simpa only [List.append_assoc] using not

theorem Parses.inside (parses : Parses action strings always) : Parses action strings (Inside strings) :=
  parses.mono fun _ _ _ _ => trivial

theorem Parses.inside_seq (one : Parses action strings₁ always) (two : ∀ value, Parses (next value) strings₂ (Inside strings₂)) :
    Parses (action >>= next) (strings₁ * strings₂) (Inside (strings₁ * strings₂)) :=
  one.seq two fun _ first _ _ _ fits => ⟨trivial, fits.second first⟩

theorem Parses.inside_expect {kind : Kind} {what : Expectation} {next : Unit → Parse β} (real : kind ≠ .eof)
    (two : ∀ value, Parses (next value) strings (Inside strings)) :
    Parses (Parse.expect kind what >>= next) (one kind * strings) (Inside (one kind * strings)) :=
  Parses.inside_seq (.expect real what) two

theorem Parses.inside_accept {kind : Kind} (real : kind ≠ .eof) {next : Bool → Parse α}
    (yes : Parses (next true) strings₁ (Inside strings₁)) (no : Parses (next false) strings₂ (Inside strings₂))
    {heads : Kind → Bool} (starts : Starts heads strings₂) (other : heads kind = false) :
    Parses (Parse.accept kind >>= next) (one kind * strings₁ + strings₂) (Inside (one kind * strings₁ + strings₂)) := by
  refine Parses.accept real (yes.mono fun string rest _ fits => ?_) (no.mono fun string rest _ fits => ?_) ?_
  · have whole : Inside (one kind * strings₁) ([kind] ++ string) rest := fits.mono fun _ => .inl
    exact whole.second rfl
  · exact fits.mono fun _ => .inr
  · exact fun string member rest _ => starts.apart other member rest

end Ends

-- Actions that declare variables or enter scopes pass no token of their own.
section Scopes

theorem parseVariable_parses (what : Expectation) : Parses (parseVariable what) (one .identifier) follow := by
  refine Reads.then_silent (Parses.expectName what) fun name => declareVariable_obeys.bind fun _ => ?_
  exact (Obeys.read _).bind fun _ => .ite (.pure none) ((makeString_obeys name).bind fun _ => .pure _)

theorem inScope_eq (body : Parse Unit) :
    inScope body = wrapped Compilation.beginScope Compilation.endScope body fun _ => update (·.endScope) := by
  funext state
  unfold inScope wrapped
  cases body state.beginScope <;> rfl

theorem inScope_reads (reads : Reads body takes gives) : Reads (inScope body) takes gives := by
  rw [inScope_eq]
  exact reads.wrapped (fun _ => ⟨rfl, rfl⟩) endScope_errors fun _ => endScope_obeys

theorem inClass_eq (body : Parse Unit) :
    inClass body = wrapped (fun state => { state with classes := ⟨false⟩ :: state.classes })
      (fun state => { state with classes := state.classes.tail }) body
      (fun _ => do
        let hasSuperclass ← read (·.classes.head?.any (·.hasSuperclass))
        update fun state => { state with classes := state.classes.tail }
        return hasSuperclass) := by
  funext state
  unfold inClass wrapped
  cases body { state with classes := ⟨false⟩ :: state.classes } <;> rfl

theorem inClass_reads (reads : Reads body takes gives) : Reads (inClass body) takes gives := by
  rw [inClass_eq]
  refine reads.wrapped (fun _ => ⟨rfl, rfl⟩) (fun _ => rfl) fun _ => (Obeys.read _).bind fun _ => ?_
  refine .bind (.update fun _ => ?_) fun _ => .pure _
  exact ⟨rfl, rfl⟩

theorem closeFunction_cursor (state : Compilation) : state.closeFunction.cursor = state.cursor := by
  unfold Compilation.closeFunction
  split <;> rfl

def leaveFunction : Parse Unit := fun state =>
  let outer := state.closeFunction
  let chunk := outer.scope.chunk.addFunction state.scope.finish
  let listed := { outer with scope := { outer.scope with chunk } }
  if outer.scope.chunk.functions.size > maxOperand then failBehind .tooManyFunctions listed
  else .ok () (emitBytes listed (closureBytes outer.scope.chunk.functions.size state.scope.finish))

theorem leaveFunction_silent : Silent leaveFunction := by
  intro state
  unfold leaveFunction
  dsimp only
  split
  · exact ⟨rfl, closeFunction_errors state⟩
  · refine silence.trans ?_ (emitBytes_goes _ _)
    exact ⟨closeFunction_cursor state, closeFunction_errors state⟩

theorem function_eq (body : Parse Unit) (kind : FunctionKind) :
    function body kind = wrapped (fun state => state.openFunction kind state.cursor.previous.lexeme)
      Compilation.closeFunction body fun _ => leaveFunction := by
  funext state
  unfold function wrapped leaveFunction
  dsimp only
  cases body (state.openFunction kind state.cursor.previous.lexeme) with
  | error error after => rfl
  | ok _ after =>
    dsimp only
    rw [emitCaptures_eq, closureBytes, emitBytes_append, emitBytes_append]
    rfl

theorem function_reads (reads : Reads body takes gives) (kind : FunctionKind) : Reads (function body kind) takes gives := by
  rw [function_eq]
  exact reads.wrapped (fun _ => ⟨rfl, rfl⟩) closeFunction_errors fun _ => leaveFunction_silent

end Scopes

structure Phrases (inner : Inner) : Prop where
  expression : Expresses inner.expression
  statement : Parses inner.statement (strings .statement) (Inside (strings .statement))
  functionBody : Parses inner.functionBody functionRest always

section Statements

variable {inner : Inner}

section

variable (phrases : Phrases inner)
include phrases

theorem printStatement_parses :
    Parses (printStatement inner) (strings .expression * one .semicolon) follow :=
  phrases.expression.closed rfl (by decide) fun _ => emit_obeys _

theorem expressionStatement_parses :
    Parses (expressionStatement inner) (strings .expressionStatement) follow := by
  rw [strings_expressionStatement]
  exact phrases.expression.closed rfl (by decide) fun _ => emit_obeys _

theorem returnStatement_parses :
    Parses (returnStatement inner) ((strings .expression + 1) * one .semicolon) always := by
  refine .after_silent (.read _) fun kind => ?_
  by_cases script : kind = .script
  · rw [if_pos script]
    exact .failBehind rfl
  rw [if_neg script, add_mul, one_mul, add_comm, ← mul_one (one .semicolon)]
  refine Parses.accept (by decide) (.silent emitReturn_obeys) ?_ fun string member rest _ =>
    expression_starts.mul.apart rfl member rest
  by_cases initializer : kind = .initializer
  · rw [if_neg (by decide), if_pos initializer]
    exact .failBehind rfl
  · rw [if_neg (by decide), if_neg initializer, mul_one]
    exact phrases.expression.closed rfl (by decide) fun _ => emit_obeys _

theorem condition_parses {opening closing : Expectation} {next : Unit → Parse Unit}
    {strings : Language Kind} (two : ∀ value, Parses (next value) strings (Inside strings)) :
    Parses (do expect .leftParen opening; inner.expression; expect .rightParen closing >>= next)
      (one .leftParen * (Grammar.strings .expression * (one .rightParen * strings)))
      (Inside (one .leftParen * (Grammar.strings .expression * (one .rightParen * strings)))) := by
  refine Parses.inside_expect (by decide) fun _ => ?_
  refine phrases.expression.seq (fun _ => Parses.inside_expect (by decide) two) (.mul (.one rfl)) ?_
  exact fun _ member _ _ fits => fits.second member

theorem whileStatement_parses :
    Parses (whileStatement inner)
      (one .leftParen * (strings .expression * (one .rightParen * strings .statement)))
      (Inside (one .leftParen * (strings .expression * (one .rightParen * strings .statement)))) := by
  refine .after_silent (.read _) fun start => condition_parses phrases fun _ => ?_
  refine .after_silent (emitJump_obeys _) fun toExit => .after_silent (emit_obeys _) fun _ => ?_
  refine phrases.statement.then_silent fun _ => (emitLoop_obeys start).bind fun _ => ?_
  exact (patchJump_obeys toExit).bind fun _ => emit_obeys _

omit phrases in
theorem nearest_splits {rest : List Kind} (member : string ∈ strings .statement * (one (.keyword .else) * strings .statement + 1))
    (inside : Inside (strings .statement * (one (.keyword .else) * strings .statement + 1)) string rest) :
    ∃ front back, string = front ++ back ∧ (front ∈ strings .statement ∧ Inside (strings .statement) front (back ++ rest)) ∧
      back ∈ one (.keyword .else) * strings .statement + 1 ∧ Inside (strings .statement) back.tail rest ∧
      (back = [] → before (· ≠ .keyword .else) back rest) := by
  have extended {first second : List Kind} (one : first ∈ strings .statement) (two : second ∈ strings .statement) :
      first ++ .keyword .else :: second ∈ strings .statement * (Grammar.one (.keyword .else) * strings .statement + 1) :=
    Language.mem_mul.mpr ⟨first, one, _, .inl (mem_one_mul.mpr ⟨second, two, rfl⟩), rfl⟩
  have alone {first : List Kind} (one : first ∈ strings .statement) :
      first ∈ strings .statement * (Grammar.one (.keyword .else) * strings .statement + 1) :=
    Language.mem_mul.mpr ⟨first, one, [], .inr rfl, List.append_nil _⟩
  -- A statement that is not followed by an `else` of its own is not followed by one at all.
  have last {first : List Kind} (one : first ∈ strings .statement)
      (inside : Inside (strings .statement * (Grammar.one (.keyword .else) * strings .statement + 1)) first rest) :
      ∀ back, before (· ≠ .keyword .else) back rest := by
    intro back
    rcases inside with apart | ⟨front, other, tail, fits, -, found, not⟩
    · exact apart
    · exact absurd (fits _ (extended one found)) not
  obtain ⟨first, one, back, further, rfl⟩ := Language.mem_mul.mp member
  rcases further with further | rfl
  · obtain ⟨second, two, rfl⟩ := mem_one_mul.mp further
    -- The `else` may belong to a statement inside the first one. Then both are a single statement.
    by_cases whole : first ++ .keyword .else :: second ∈ strings .statement
    · exact ⟨_, [], (List.append_nil _).symm, ⟨whole, inside.mono fun _ => alone⟩, .inr rfl, .inl (last whole inside _),
        fun _ => last whole inside _⟩
    · refine ⟨first, _, rfl, ⟨one, .inr ⟨[], second, rest, fun _ => id, rfl, two, whole⟩⟩, .inl further, ?_, nofun⟩
      rcases inside with apart | ⟨front, other, tail, fits, same, found, not⟩
      · exact .inl apart
      · refine .inr ⟨front ++ first ++ [.keyword .else], other, tail, fun part member => ?_, same, found, ?_⟩
        · simpa using fits _ (extended one member)
        · simpa using not
  · rw [List.append_nil] at inside
    exact ⟨first, [], rfl, ⟨one, inside.mono fun _ => alone⟩, .inr rfl, .inl (last one inside _),
      fun _ => last one inside _⟩

theorem ifStatement_parses :
    Parses (ifStatement inner)
      (one .leftParen * (strings .expression * (one .rightParen * (strings .statement *
        (one (.keyword .else) * strings .statement + 1)))))
      (Inside (one .leftParen * (strings .expression * (one .rightParen * (strings .statement *
        (one (.keyword .else) * strings .statement + 1)))))) := by
  refine condition_parses phrases fun _ => ?_
  refine .after_silent (emitJump_obeys _) fun toElse => .after_silent (emit_obeys _) fun _ => ?_
  have otherwise (toEnd : Nat) : Parses (accept (.keyword .else) >>= fun found => if found = true
      then inner.statement >>= fun _ => patchJump toEnd else patchJump toEnd)
      (one (.keyword .else) * strings .statement + 1)
      fun string rest => Inside (strings .statement) string.tail rest ∧
        (string = [] → before (· ≠ .keyword .else) string rest) := by
    refine Parses.accept (by decide) ?_ (.silent (patchJump_obeys toEnd)) ?_
    · exact Reads.then_silent (phrases.statement.mono fun _ _ _ fits => fits.1) fun _ => patchJump_obeys toEnd
    · rintro _ rfl rest ⟨-, apart⟩ same
      obtain ⟨kind, tail, rfl, other⟩ := apart rfl
      exact other (Option.some.inj same)
  refine phrases.statement.bind (fun _ => .after_silent (emitJump_obeys _) fun toEnd => .after_silent (patchJump_obeys toElse)
    fun _ => .after_silent (emit_obeys _) fun _ => otherwise toEnd) ?_ ?_
  · rintro string rest ⟨member, inside⟩
    obtain ⟨front, back, same, first, second, follow⟩ := nearest_splits member inside
    exact ⟨front, back, same, first, second, follow⟩
  · intro front back _ _ _ first second
    exact Language.mem_mul.mpr ⟨front, first, back, second, rfl⟩

theorem varDeclaration_parses :
    Parses (varDeclaration inner) (one .identifier * ((one .equal * strings .expression + 1) * one .semicolon)) always := by
  refine (parseVariable_parses _).both fun name => ?_
  rw [add_mul, one_mul, mul_assoc]
  refine Parses.accept (by decide) ?_ ?_ ?_
  · exact phrases.expression.closed rfl (by decide) fun _ => defineVariable_obeys _
  · refine .after_silent (emit_obeys _) fun _ => ?_
    exact Reads.then_silent (Parses.expect (by decide) _) fun _ => defineVariable_obeys _
  · rintro _ rfl rest -
    simp

theorem forInitializer_parses :
    Parses (forInitializer inner) (strings .varDeclaration + (strings .expressionStatement + one .semicolon)) always := by
  have order : strings .varDeclaration + (strings .expressionStatement + one .semicolon) =
      one .semicolon * 1 + (strings .varDeclaration + strings .expressionStatement) := by
    rw [mul_one, ← add_assoc, add_comm]
  have expressions : Starts startsExpression (strings .expressionStatement) := by
    rw [strings_expressionStatement]
    exact expression_starts.mul
  rw [order]
  refine Parses.accept (by decide) (.silent (.pure ())) ?_ ?_
  · rw [strings_varDeclaration]
    refine Parses.accept (by decide) (varDeclaration_parses phrases) (expressionStatement_parses phrases) ?_
    exact fun string member rest _ => expressions.apart rfl member rest
  · rw [strings_varDeclaration]
    rintro string (member | member) rest -
    · obtain ⟨tail, -, rfl⟩ := mem_one_mul.mp member
      simp
    · exact expressions.apart rfl member rest

theorem forCondition_parses :
    Parses (forCondition inner) ((strings .expression + 1) * one .semicolon) always := by
  rw [add_mul, one_mul, add_comm, ← mul_one (one .semicolon)]
  refine Parses.accept (by decide) (.silent (.pure none)) ?_ fun string member rest _ =>
    expression_starts.mul.apart rfl member rest
  rw [mul_one]
  refine phrases.expression.closed rfl (by decide) fun _ => (emitJump_obeys _).bind fun toExit => ?_
  exact (emit_obeys _).bind fun _ => .pure _

theorem forIncrement_parses (start : Nat) :
    Parses (forIncrement inner start) ((strings .expression + 1) * one .rightParen) always := by
  rw [add_mul, one_mul, add_comm, ← mul_one (one .rightParen)]
  refine Parses.accept (by decide) (.silent (.pure start)) ?_ fun string member rest _ =>
    expression_starts.mul.apart rfl member rest
  rw [mul_one]
  refine .after_silent (emitJump_obeys _) fun toBody => .after_silent (.read _) fun increment => ?_
  have closing : Parses (emit .pop >>= fun _ => expect .rightParen .rightParenAfterForClauses >>= fun _ =>
      emitLoop start >>= fun _ => patchJump toBody >>= fun _ => pure increment) (one .rightParen) always := by
    refine .after_silent (emit_obeys _) fun _ => Reads.then_silent (Parses.expect (by decide) _) fun _ => ?_
    exact (emitLoop_obeys start).bind fun _ => (patchJump_obeys toBody).bind fun _ => .pure increment
  exact phrases.expression.seq (fun _ => closing) (.one rfl) fun _ _ _ _ _ => trivial

theorem forClauses_parses : Parses (forClauses inner) forRest (Inside forRest) := by
  rw [forRest, ← mul_assoc _ (one .rightParen), ← mul_assoc _ (one .semicolon)]
  refine Parses.inside_expect (by decide) fun _ => (forInitializer_parses phrases).inside_seq fun _ => ?_
  refine .after_silent (.read _) fun start => (forCondition_parses phrases).inside_seq fun toExit => ?_
  refine (forIncrement_parses phrases start).inside_seq fun start => ?_
  refine phrases.statement.then_silent fun _ => (emitLoop_obeys start).bind fun _ => ?_
  cases toExit with
  | none => exact .pure ()
  | some toExit => exact (patchJump_obeys toExit).bind fun _ => emit_obeys _

end

end Statements

-- Lists of declarations or methods up to a closing brace.
section Blocks

variable {inner : Inner}

def closesBraces (kind : Kind) : Bool := kind == .rightBrace || kind == .eof

theorem blockSuffix_suffix (inner : Inner) : Suffix (blockSuffix inner) (!closesBraces ·) (declaration inner) :=
  .unless fun _ => rfl

theorem methodSuffix_suffix (inner : Inner) : Suffix (methodSuffix inner) (!closesBraces ·) (method inner) :=
  .unless fun _ => rfl

theorem declaration_reads (reads : Reads (declarationOrFail inner) takes gives) : Reads (declaration inner) takes gives := by
  constructor
  case keeps =>
    intro state
    have kept := reads.keeps state
    unfold declaration
    cases done : declarationOrFail inner state with
    | ok _ after =>
      rw [done] at kept
      exact kept
    | error error after =>
      rw [done] at kept
      refine adding.trans kept ?_
      simp [adding, alike, Compilation.recover]
  case sound => exact fun done clean => reads.sound (declaration_unrecovered done clean) clean
  case complete =>
    intro state string rest clean front fits
    have fine := reads.complete clean front fits
    unfold declaration
    cases done : declarationOrFail inner state with
    | ok _ after =>
      rw [done] at fine
      exact fine
    | error error after =>
      rw [done] at fine
      cases fine with
      | failed noted => exact .spoiled (by simpa [Compilation.recover] using noted)

theorem declaration_begins (member : string ∈ strings .declaration) :
    ∃ kind tail, string = kind :: tail ∧ (!closesBraces kind) = true ∧ kind ≠ .keyword .else := by
  obtain ⟨kind, tail, rfl, begins⟩ := declaration_starts string member
  refine ⟨kind, tail, rfl, ?_, ?_⟩
  · rw [closesBraces, Bool.not_eq_true', Bool.or_eq_false_iff, beq_eq_false_iff_ne, beq_eq_false_iff_ne]
    constructor <;> (rintro rfl; cases begins)
  · rintro rfl
    cases begins

abbrev Declares (action : Parse Unit) : Prop :=
  Parses action (strings .declaration) (before (· ≠ .keyword .else))

theorem block_parses (declares : Declares (declarationOrFail inner)) :
    Parses (block inner) (KStar.kstar (strings .declaration) * one .rightBrace) always := by
  have each : Reads (declaration inner) _ fun string (_ : Kind) => string ∈ strings .declaration ∧ True :=
    (declaration_reads declares).mono (fun _ _ => id) fun _ _ member => ⟨member, trivial⟩
  have list := (blockSuffix_suffix inner).many each fun _ => declaration_begins
  refine list.bind (fun _ => (Parses.expect (by decide) _ : Parses _ (one .rightBrace) always)) ?_ ?_
  · rintro string rest ⟨member, -⟩
    obtain ⟨front, first, _, rfl, rfl⟩ := Language.mem_mul.mp member
    exact ⟨front, _, rfl, ⟨first, .rightBrace, rest, rfl, by decide, rfl⟩, rfl, trivial⟩
  · rintro front _ kind middle - ⟨first, -⟩ rfl
    exact Language.mem_mul.mpr ⟨front, first, _, rfl, rfl⟩

end Blocks

-- Functions and classes.
section Functions

variable {inner : Inner}

section

variable (phrases : Phrases inner)
include phrases

theorem funDeclaration_parses : Parses (funDeclaration inner) (strings .function) always := by
  rw [strings_function]
  refine (parseVariable_parses _).both fun name => .after_silent markInitialized_obeys fun _ => ?_
  exact (function_reads phrases.functionBody _).then_silent fun _ => defineVariable_obeys _

theorem method_parses : Parses (method inner) (strings .function) always := by
  rw [strings_function]
  refine (Parses.expectName _).both fun name => .after_silent (makeString_obeys name) fun entry => ?_
  exact (function_reads phrases.functionBody _).then_silent fun _ => emitWith_obeys _ entry

omit phrases in
theorem superclassClause_parses (className : String) : Parses (superclassClause className) (one .identifier) follow := by
  refine Reads.then_silent (Parses.expectName _) fun superclass => (readVariable_obeys _).bind fun _ => ?_
  have rest : Silent (do
      update (·.beginScope)
      addLocal "super"
      update (·.markInitialized)
      readVariable className
      emit .inherit
      update (·.markSuperclass)) := by
    refine beginScope_obeys.bind fun _ => (addLocal_obeys _).bind fun _ => markInitialized_obeys.bind fun _ => ?_
    refine (readVariable_obeys _).bind fun _ => (emit_obeys _).bind fun _ => .update fun _ => ?_
    exact ⟨rfl, rfl⟩
  exact .ite (Obeys.bind (.refuse rfl) fun _ => rest) rest

theorem methods_parses (className : String) :
    Parses (do
      readVariable className
      expect .leftBrace .leftBraceBeforeClassBody
      whileProgress (methodSuffix inner)
      expect .rightBrace .rightBraceAfterClassBody
      emit .pop)
      (one .leftBrace * (KStar.kstar (strings .function) * one .rightBrace)) always := by
  have each : Reads (method inner) (fun string rest => string ∈ strings .function ∧ before (fun _ => True) string rest)
      fun string (_ : Kind) => string ∈ strings .function ∧ True :=
    Reads.mono (method_parses phrases) (fun _ _ fits => ⟨fits.1, trivial⟩) fun _ _ member => ⟨member, trivial⟩
  have list := (methodSuffix_suffix inner).many each fun string member => ?_
  · refine .after_silent (readVariable_obeys _) fun _ => (Parses.expect (by decide) _).both fun _ => ?_
    have closing : Parses (expect .rightBrace .rightBraceAfterClassBody >>= fun _ => emit .pop) (one .rightBrace) always :=
      Reads.then_silent (Parses.expect (by decide) _) fun _ => emit_obeys _
    refine list.bind (fun _ => closing) ?_ ?_
    · rintro string rest ⟨member, -⟩
      obtain ⟨front, first, _, rfl, rfl⟩ := Language.mem_mul.mp member
      exact ⟨front, _, rfl, ⟨first, .rightBrace, rest, rfl, trivial, rfl⟩, rfl, trivial⟩
    · rintro front _ kind middle - ⟨first, -⟩ rfl
      exact Language.mem_mul.mpr ⟨front, first, _, rfl, rfl⟩
  · rw [strings_function] at member
    obtain ⟨tail, -, rfl⟩ := mem_one_mul.mp member
    exact ⟨.identifier, tail, rfl, rfl, trivial⟩

theorem classDeclaration_parses :
    Parses (classDeclaration inner) (one .identifier * ((one .less * one .identifier + 1) * (one .leftBrace *
      (KStar.kstar (strings .function) * one .rightBrace)))) always := by
  have body (className : String) : Parses (classBody inner className)
      ((one .less * one .identifier + 1) * (one .leftBrace * (KStar.kstar (strings .function) * one .rightBrace))) always := by
    have methods := methods_parses phrases className
    rw [add_mul, one_mul, mul_assoc]
    refine Parses.accept (by decide) ((superclassClause_parses className).both fun _ => methods) methods ?_
    rintro string member rest - same
    obtain ⟨tail, -, rfl⟩ := mem_one_mul.mp member
    cases same
  refine (Parses.expectName _).both fun name => .after_silent (makeString_obeys name) fun entry => ?_
  refine .after_silent declareVariable_obeys fun _ => .after_silent (emitWith_obeys _ _) fun _ => ?_
  refine .after_silent (defineVariable_obeys _) fun _ => (inClass_reads (body name)).then_silent fun inherits => ?_
  exact .ite endScope_obeys (.pure ())

theorem declarationOrFail_declares : Declares (declarationOrFail inner) := by
  unfold Declares
  rw [strings_declaration, strings_classDeclaration, strings_funDeclaration, strings_varDeclaration]
  refine Parses.accept (by decide) ((classDeclaration_parses phrases).mono fun _ _ _ _ => trivial) ?_ ?_
  · refine Parses.accept (by decide) ((funDeclaration_parses phrases).mono fun _ _ _ _ => trivial) ?_ ?_
    · refine Parses.accept (by decide) ((varDeclaration_parses phrases).mono fun _ _ _ _ => trivial) ?_ ?_
      · exact phrases.statement.mono fun _ _ _ apart => .inl apart
      · exact fun string member rest _ => statement_starts.apart rfl member rest
    · exact fun string member rest _ => (Starts.phrase statement_starts).apart rfl member rest
  · exact fun string member rest _ => (Starts.phrase (Starts.phrase statement_starts)).apart rfl member rest

theorem wholeStatement_parses :
    Parses (wholeStatement inner) (strings .statement) (Inside (strings .statement)) := by
  have blocks := block_parses (declarationOrFail_declares phrases)
  have last : Starts (startsPhrase []) (strings .expressionStatement) := by
    rw [strings_expressionStatement]
    exact expression_starts.mul
  rw [strings_statement_ordered]
  refine Parses.inside_accept (by decide) (printStatement_parses phrases) ?_
    (.phrase (.phrase (.phrase (.phrase (.phrase last))))) rfl
  refine Parses.inside_accept (by decide) (ifStatement_parses phrases) ?_ (.phrase (.phrase (.phrase (.phrase last)))) rfl
  refine Parses.inside_accept (by decide) (returnStatement_parses phrases).inside ?_ (.phrase (.phrase (.phrase last))) rfl
  refine Parses.inside_accept (by decide) (whileStatement_parses phrases) ?_ (.phrase (.phrase last)) rfl
  refine Parses.inside_accept (by decide) (inScope_reads (forClauses_parses phrases)) ?_ (.phrase last) rfl
  exact Parses.inside_accept (by decide) (Parses.inside (inScope_reads blocks)) (expressionStatement_parses phrases) last rfl

end

def parameterName : Parse Unit := do
  if (← read (·.scope.arity)) = maxArguments then failHere .tooManyParameters
  else
    update fun state => { state with scope := { state.scope with arity := state.scope.arity + 1 } }
    let name ← parseVariable .parameterName
    update (·.defineVariable name)

theorem parameter_separated :
    Separated (fun _ => parameterName) (fun _ => pure ()) (fun bound _ => repeatUpTo parameter bound) := by
  constructor
  case none => exact fun _ => .pure ()
  case more =>
    intro bound _ state
    rw [repeatUpTo, parameter, parameterName, bind_assoc, bind_assoc, read_bind, read_bind]
    by_cases full : state.scope.arity = maxArguments
    · rw [if_pos full, if_pos full]
      rfl
    · rw [if_neg full, if_neg full]
      simp only [bind_assoc]

theorem parameters_parses : Parses (whileProgress parameter) (strings .parameters) (before (· ≠ .comma)) := by
  have item (count : Nat) : Parses parameterName (one .identifier) (before fun _ => True) := by
    refine .after_silent (.read _) fun arity => ?_
    by_cases full : arity = maxArguments
    · rw [if_pos full]
      exact .failHere rfl
    · rw [if_neg full]
      refine .after_silent (.update fun _ => ⟨rfl, rfl⟩) fun _ => ?_
      exact Reads.then_silent (parseVariable_parses _) fun name => defineVariable_obeys _
  rw [strings_parameters]
  refine (parameter_separated.reads item (fun _ => .pure ()) trivial 0).mono ?_
  rintro _ rest - ⟨kind, tail, rfl, other⟩
  exact ⟨kind, tail, rfl, trivial, other⟩

theorem wholeFunctionBody_parses (phrases : Phrases inner) : Parses (wholeFunctionBody inner) functionRest always := by
  have body : Parses (do
      expect .rightParen .rightParenAfterParameters
      expect .leftBrace .leftBraceBeforeFunctionBody
      block inner
      update (·.emitReturn)) (one .rightParen * strings .block) always := by
    rw [strings_block]
    refine (Parses.expect (by decide) _).both fun _ => (Parses.expect (by decide) _).both fun _ => ?_
    exact Reads.then_silent (block_parses (declarationOrFail_declares phrases)) fun _ => emitReturn_obeys
  have some : Parses (whileProgress parameter >>= fun _ => do
      expect .rightParen .rightParenAfterParameters
      expect .leftBrace .leftBraceBeforeFunctionBody
      block inner
      update (·.emitReturn)) (strings .parameters * (one .rightParen * strings .block)) always := by
    refine parameters_parses.seq (fun _ => body) fun _ _ back member rest _ => ⟨?_, trivial⟩
    obtain ⟨tail, -, rfl⟩ := mem_one_mul.mp member
    exact ⟨.rightParen, _, rfl, by decide⟩
  refine .after_silent beginScope_obeys fun _ => (Parses.expect (by decide) _).both fun _ => ?_
  rw [add_mul, one_mul, add_comm]
  refine Parses.check body some ?_ ?_
  · intro string member rest _
    obtain ⟨tail, -, rfl⟩ := mem_one_mul.mp member
    rfl
  · intro string member rest _ same
    rw [strings_parameters, mul_assoc] at member
    obtain ⟨tail, -, rfl⟩ := mem_one_mul.mp member
    cases same

end Functions

theorem within_phrases (budget : Nat) : Phrases (.within budget) := by
  induction budget with
  | zero => exact ⟨(expression_expresses 0).1, .failHere rfl, .failHere rfl⟩
  | succ budget ih =>
    exact ⟨(expression_expresses (budget + 1)).1, nested_reads (wholeStatement_parses ih),
      nested_reads (wholeFunctionBody_parses ih)⟩

theorem programSuffix_suffix : Suffix programSuffix (!· == .eof) (declaration (.within maxNesting)) :=
  .unless fun _ => rfl

theorem program_reads : Reads (whileProgress programSuffix)
    (fun string rest => string ∈ KStar.kstar (strings .declaration) ∧ rest = [.eof])
    (fun string kind => string ∈ KStar.kstar (strings .declaration) ∧ kind = .eof) := by
  have each : Reads (declaration (.within maxNesting)) _ fun string (_ : Kind) => string ∈ strings .declaration ∧ True :=
    (declaration_reads (declarationOrFail_declares (within_phrases maxNesting))).mono (fun _ _ => id)
      fun _ _ member => ⟨member, trivial⟩
  have list := programSuffix_suffix.many each fun string member => ?_
  · refine list.mono ?_ ?_
    · rintro string _ ⟨member, rfl⟩
      exact ⟨member, .eof, [], rfl, by decide, rfl⟩
    · rintro string kind ⟨member, stops, -⟩
      exact ⟨member, by simpa using stops⟩
  · obtain ⟨kind, tail, same, real, other⟩ := declaration_begins member
    refine ⟨kind, tail, same, ?_, other⟩
    rw [closesBraces, Bool.not_eq_true', Bool.or_eq_false_iff] at real
    simpa using real.2

end StackScript.Reading

namespace StackScript

open Compile Reading Grammar

theorem Cursor.ofTokens_kinds {tokens : Array Token} (closed : Closed tokens) :
    (Cursor.ofTokens tokens).kinds = tokens.toList.map Token.kind := by
  simp [ofTokens, closed, kinds]

theorem kinds_of_closed {tokens : Array Token} (closed : Closed tokens)
    (once : (tokens.toList.map Token.kind).count .eof = 1) :
    ∃ front, tokens.toList.map Token.kind = front ++ [.eof] ∧ .eof ∉ front := by
  have last : (tokens.toList.map Token.kind).getLast? = some .eof := by
    rw [List.getLast?_map, Array.getLast?_toList]
    exact closed
  obtain ⟨front, same⟩ := List.getLast?_eq_some_iff.mp last
  refine ⟨front, same, ?_⟩
  rw [same, List.count_append, List.count_singleton_self] at once
  exact List.count_eq_zero.mp (by omega)

theorem front_unique {front string tail : List Kind} (inner : .eof ∉ front) (same : front ++ [.eof] = string ++ .eof :: tail) :
    front = string := by
  rcases List.append_eq_append_iff.mp same with ⟨middle, rfl, ends⟩ | ⟨middle, rfl, ends⟩
  · have length := congrArg List.length ends
    simp only [List.length_append, List.length_cons, List.length_nil] at length
    rw [List.length_eq_zero_iff.mp (show middle.length = 0 by omega), List.append_nil]
  · cases middle with
    | nil => exact List.append_nil _
    | cons first middle =>
      cases ends
      exact absurd (List.mem_append_right _ List.mem_cons_self) inner

/-- The compiler accepts its grammar, whatever the tokens: what compiles can be derived, and what can be derived compiles or
its first complaint is about a context or a limit. -/
theorem compile_accepts_grammar {tokens : Array Token} (closed : Closed tokens)
    (once : (tokens.toList.map Token.kind).count .eof = 1) :
    ((∃ script, compile tokens = .ok script) → Derives (.symbol .program) (tokens.toList.map Token.kind)) ∧
      (Derives (.symbol .program) (tokens.toList.map Token.kind) → (∃ script, compile tokens = .ok script) ∨
        ∃ first further, compile tokens = .error (first :: further) ∧ first.what.isSyntactic = false) := by
  have start : (Compilation.start tokens).cursor.kinds = tokens.toList.map Token.kind := Cursor.ofTokens_kinds closed
  constructor
  · rintro ⟨script, compiled⟩
    obtain ⟨finished, finishes, clean, -⟩ := compile_ok compiled
    obtain ⟨string, passed, member, ended⟩ := program_reads.sound finishes clean
    obtain ⟨tail, rest⟩ := finished.cursor.kinds_eq
    obtain ⟨front, same, inner⟩ := kinds_of_closed closed once
    rw [start, same, rest, ended] at passed
    obtain rfl := front_unique inner passed
    change _ ∈ strings .program
    rw [same, strings_program]
    exact Language.mem_mul.mpr ⟨front, member, _, rfl, rfl⟩
  · intro derives
    change _ ∈ strings .program at derives
    rw [strings_program] at derives
    obtain ⟨string, member, _, rfl, same⟩ := Language.mem_mul.mp derives
    obtain ⟨finished, finishes, final⟩ := finalState_eq tokens
    have fine := program_reads.complete rfl (start.trans same.symm) ⟨member, rfl⟩
    have errors : finished.emitReturn.errors = finished.errors := by rw [emitReturn_eq, emitBytes_errors]
    rw [finishes] at fine
    simp only [compile, final, errors]
    cases fine with
    | done clean => exact .inl ⟨_, if_pos (by rw [clean]; rfl)⟩
    | spoiled noted =>
      right
      obtain ⟨first, found, context⟩ := noted
      obtain ⟨further, listed⟩ := List.head?_eq_some_iff.mp found
      refine ⟨first, further, ?_, context⟩
      rw [if_neg, listed]
      rintro empty
      rw [Array.isEmpty_iff.mp empty] at listed
      cases listed

/-- An `else` behind two conditions, and an assignment to a property. -/
theorem compile_accepts_grammar_else : ∃ tokens, scan "if (a) if (b) c.d = 1; else -e;" = .ok tokens ∧ Closed tokens ∧
    (tokens.toList.map Token.kind).count .eof = 1 ∧ Derives (.symbol .program) (tokens.toList.map Token.kind) := by
  obtain ⟨script, compiled⟩ := @exists_script "if (a) if (b) c.d = 1; else -e;" (by decide +kernel)
  obtain ⟨tokens, scanned, compiles⟩ := compileSource_ok compiled
  have ended : (scan "if (a) if (b) c.d = 1; else -e;").toOption.any (fun tokens =>
      decide (Closed tokens) && (tokens.toList.map Token.kind).count .eof == 1) = true := by decide +kernel
  rw [scanned, Except.toOption, Option.any_some, Bool.and_eq_true, decide_eq_true_eq, beq_iff_eq] at ended
  exact ⟨tokens, scanned, ended.1, ended.2, (compile_accepts_grammar ended.1 ended.2).1 ⟨script, compiles⟩⟩

end StackScript
