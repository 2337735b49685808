import StackScript.Proofs.Composition

/-!
Every phrase of the grammar is built from small actions, given the phrases one level further in. There is one lemma for each
phrase.
-/

namespace StackScript.Compile.Stock.Shifts

open Parse Reading Conduct

variable {stock : Stock} {known : Nat → Prop} {mode : Mode} {β : Type} {after : β → Mode} {before : Compilation}
  {next next' : Nat → Parse β}

section Expressions

variable {expression expression' operand operand' right right' : Parse Unit} {count : Nat}

theorem resolving (name : String) {next next' : Access → Parse β}
    (two : ∀ access, stock.Shifts (fun size => known size ∧ access.operand ≤ maxOperand) mode (next access) (next' access) after) :
    stock.Shifts known mode (resolve name >>= next) (resolve name >>= next') after := by
  refine having (reading (fun sight => ?_) fun found => ?_) (fun yields => ?_) two
  · rw [FunctionScope.slotOf?, sight.locals]
    rfl
  · cases found with
    | error complaint => exact failBehind complaint
    | ok slot =>
      cases slot with
      | some slot => exact .pure _
      | none =>
        refine seq (.small (.resolveCapture name) trivial) fun index => ?_
        cases index with
        | some index => exact .pure _
        | none => exact storing name fun entry => .pure _
  · obtain ⟨before, after, limited, done, -⟩ := yields
    exact resolve_fits limited done

theorem assigning {canAssign : Bool} {yes yes' no no' : Parse Unit} (one : stock.Builds known mode yes yes')
    (two : stock.Builds known mode no no') : stock.Builds known mode (do if ← Pure.pure canAssign <&&> Parse.accept .equal then yes else no)
      (do if ← Pure.pure canAssign <&&> Parse.accept .equal then yes' else no') := by
  cases canAssign with
  | false => exact two
  | true => exact accepting fun given => .ite one two

theorem emitCount (few : ∀ size, known size → count ≤ maxArguments) :
    stock.Builds known mode (emitByte count.toUInt8) (emitByte count.toUInt8) :=
  .small (.emitCount count) few

theorem binarySuffix (operators : Operators) {right right' : Parse Unit} (inner : stock.Builds (fun _ => True) mode right right') :
    stock.Builds known mode (Compile.binarySuffix operators right) (Compile.binarySuffix operators right') := by
  refine looking Sight.peek (fun _ => rfl) (fun _ => rfl) fun token => ?_
  split
  · exact seq (.small .advance trivial) fun _ => seq inner.always fun _ => seq (emitAll _) fun _ => .pure true
  · exact .pure false

theorem binary (operators : Operators) {tighter tighter' : Bool → Parse Unit}
    (inner : ∀ canAssign, stock.Builds (fun _ => True) mode (tighter canAssign) (tighter' canAssign)) (canAssign : Bool) :
    stock.Builds known mode (Compile.binary operators tighter canAssign) (Compile.binary operators tighter' canAssign) :=
  seq (inner canAssign).always fun _ => whileProgress (binarySuffix operators (inner false))

theorem andSuffix (inner : stock.Builds (fun _ => True) mode right right') :
    stock.Builds known mode (Compile.andSuffix right) (Compile.andSuffix right') := by
  refine accepting fun given => .ite (jumping _ fun jump => seq (emit _) fun _ => seq inner.always fun _ => ?_) (.pure false)
  exact seq (patchJump fun _ => And.right) fun _ => .pure true

theorem orSuffix (inner : stock.Builds (fun _ => True) mode right right') :
    stock.Builds known mode (Compile.orSuffix right) (Compile.orSuffix right') := by
  refine accepting fun given => .ite (jumping _ fun jump => jumping _ fun last => ?_) (.pure false)
  refine seq (patchJump fun _ known => known.1.2) fun _ => seq (emit _) fun _ => seq inner.always fun _ => ?_
  exact seq (patchJump fun _ => And.right) fun _ => .pure true

variable (inner : stock.Builds (fun _ => True) mode expression expression')
include inner

theorem namedVariable (name : String) (canAssign : Bool) :
    stock.Builds known mode (Compile.namedVariable expression name canAssign) (Compile.namedVariable expression' name canAssign) := by
  rw [namedVariable_eq, namedVariable_eq]
  refine resolving name fun access => assigning (seq inner.always fun _ => ?_) ?_
  all_goals exact emitWith _ fun _ => And.right

omit inner in
theorem readVariable (name : String) : stock.Builds known mode (Compile.readVariable name) (Compile.readVariable name) :=
  namedVariable (.pure ()) name false

theorem argumentsFrom (bound count : Nat) :
    stock.Builds known mode (Compile.argumentsFrom expression bound count) (Compile.argumentsFrom expression' bound count) := by
  induction bound generalizing count with
  | zero => exact .pure count
  | succ bound ih =>
    exact seq inner.always fun _ => .ite (failBehind _) (accepting fun more => .ite (ih _) (.pure _))

omit inner in
theorem argumentsFrom_fits {bound result : Nat} {after : Compilation} (few : count ≤ maxArguments)
    (done : Compile.argumentsFrom expression bound count before = .ok result after) : result ≤ maxArguments := by
  induction bound generalizing count before with
  | zero =>
    cases done
    exact few
  | succ bound ih =>
    obtain ⟨_, _, -, done⟩ := bind_ok done
    split at done
    · cases done
    · obtain ⟨more, _, -, done⟩ := bind_ok done
      cases more with
      | true => exact ih (by omega) done
      | false =>
        cases done
        omega

theorem arguments :
    stock.Builds known mode (Compile.arguments expression) (Compile.arguments expression') := by
  have close (count : Nat) : stock.Builds known mode (do Parse.expect .rightParen .rightParenAfterArguments; return count : Parse Nat)
      (do Parse.expect .rightParen .rightParenAfterArguments; return count : Parse Nat) := expecting (.pure count)
  refine reading (fun sight => congrArg (·.kind == .rightParen) sight.peek) fun empty => ?_
  cases empty with
  | true => exact close 0
  | false => exact reading (fun sight => congrArg (· + 1) sight.remaining) fun bound => seq (argumentsFrom inner bound 0) close

theorem passing
    (two : ∀ count, stock.Shifts (fun size => known size ∧ count ≤ maxArguments) mode (next count) (next' count) after) :
    stock.Shifts known mode (Compile.arguments expression >>= next) (Compile.arguments expression' >>= next') after := by
  refine having (arguments inner) (fun yields => ?_) two
  obtain ⟨before, after, -, done, -⟩ := yields
  obtain ⟨empty, _, -, done⟩ := bind_ok done
  cases empty with
  | true =>
    obtain ⟨count, _, none, done⟩ := bind_ok done
    obtain ⟨_, _, -, closed⟩ := bind_ok done
    cases closed
    cases none
    exact Nat.zero_le _
  | false =>
    obtain ⟨bound, _, -, done⟩ := bind_ok done
    obtain ⟨count, _, counted, done⟩ := bind_ok done
    obtain ⟨_, _, -, done⟩ := bind_ok done
    cases done
    exact argumentsFrom_fits (Nat.zero_le _) counted

omit inner in
theorem thisExpression : stock.Builds known mode Compile.thisExpression Compile.thisExpression :=
  reading (fun sight => congrArg List.isEmpty sight.classes) fun _ => .ite (failBehind _) (readVariable _)

theorem superExpression :
    stock.Builds known mode (Compile.superExpression expression) (Compile.superExpression expression') := by
  refine reading (fun sight => congrArg List.head? sight.classes) fun innermost => ?_
  rcases innermost with _ | ⟨_ | _⟩
  · exact failBehind _
  · exact failBehind _
  · refine expecting (naming fun text => storing text fun name => seq (readVariable _) fun _ => accepting fun given => .ite ?_ ?_)
    · refine passing inner fun count => seq (readVariable _) fun _ => seq (emitWith _ fun _ known => known.1.2) fun _ => ?_
      exact emitCount fun _ => And.right
    · exact seq (readVariable _) fun _ => emitWith _ fun _ => And.right

theorem primary (canAssign : Bool) :
    stock.Builds known mode (Compile.primary expression canAssign) (Compile.primary expression' canAssign) := by
  have passed {rest rest' : Parse Unit} (builds : stock.Builds known mode rest rest') :
      stock.Builds known mode (do Parse.advance; rest) (do Parse.advance; rest') := seq (.small .advance trivial) fun _ => builds
  refine looking Sight.peek (fun _ => rfl) (fun _ => rfl) fun token => ?_
  split
  · exact passed (emit _)
  · exact passed (emit _)
  · exact passed (emit _)
  · exact passed (constant _)
  · exact passed (storing _ fun _ => emitWith _ fun _ => And.right)
  · exact passed (namedVariable inner _ canAssign)
  · exact passed (seq inner.always fun _ => expect _ _)
  · exact passed thisExpression
  · exact passed (superExpression inner)
  · exact failHere _

theorem property (canAssign : Bool) :
    stock.Builds known mode (Compile.property expression canAssign) (Compile.property expression' canAssign) := by
  refine naming fun text => storing text fun name => ?_
  refine assigning (seq inner.always fun _ => emitWith _ fun _ => And.right) (accepting fun given => .ite ?_ ?_)
  · exact passing inner fun count => seq (emitWith _ fun _ known => known.1.2) fun _ => emitCount fun _ => And.right
  · exact emitWith _ fun _ => And.right

theorem callSuffix (canAssign : Bool) :
    stock.Builds known mode (Compile.callSuffix expression canAssign) (Compile.callSuffix expression' canAssign) := by
  refine accepting fun given => .ite ?_ (accepting fun given => .ite (seq (property inner canAssign) fun _ => .pure true) (.pure false))
  exact passing inner fun count => seq (emit _) fun _ => seq (emitCount fun _ => And.right) fun _ => .pure true

theorem call (canAssign : Bool) :
    stock.Builds known mode (Compile.call expression canAssign) (Compile.call expression' canAssign) :=
  seq (primary inner canAssign) fun _ => whileProgress (callSuffix inner canAssign)

variable (innermost : stock.Builds (fun _ => True) mode operand operand')
include innermost

theorem unary (canAssign : Bool) :
    stock.Builds known mode (Compile.unary expression operand canAssign) (Compile.unary expression' operand' canAssign) := by
  refine looking Sight.peek (fun _ => rfl) (fun _ => rfl) fun token => ?_
  split
  · exact seq (.small .advance trivial) fun _ => seq innermost.always fun _ => emit _
  · exact call inner canAssign

theorem equality (canAssign : Bool) :
    stock.Builds known mode (Compile.equality expression operand canAssign) (Compile.equality expression' operand' canAssign) :=
  binary _ (binary _ (binary _ (binary _ (unary inner innermost)))) canAssign

theorem logicalAnd (canAssign : Bool) :
    stock.Builds known mode (Compile.logicalAnd expression operand canAssign) (Compile.logicalAnd expression' operand' canAssign) :=
  seq (equality inner innermost canAssign) fun _ => whileProgress (andSuffix (equality inner innermost false))

theorem logicalOr (canAssign : Bool) :
    stock.Builds known mode (Compile.logicalOr expression operand canAssign) (Compile.logicalOr expression' operand' canAssign) :=
  seq (logicalAnd inner innermost canAssign) fun _ => whileProgress (orSuffix (logicalAnd inner innermost false))

theorem wholeExpression :
    stock.Builds known mode (Compile.wholeExpression expression operand) (Compile.wholeExpression expression' operand') :=
  seq (logicalOr inner innermost true) fun _ => accepting fun _ => .ite (failBehind _) (.pure ())

end Expressions

section Statements

variable {inner inner' : Inner} (expression : stock.Builds (fun _ => True) mode inner.expression inner'.expression)
include expression

theorem printStatement : stock.Builds known mode (Compile.printStatement inner) (Compile.printStatement inner') :=
  seq expression.always fun _ => expecting (emit _)

theorem expressionStatement : stock.Builds known mode (Compile.expressionStatement inner) (Compile.expressionStatement inner') :=
  seq expression.always fun _ => expecting (emit _)

theorem returnStatement : stock.Builds known mode (Compile.returnStatement inner) (Compile.returnStatement inner') := by
  refine reading Sight.kind fun kind => .ite (failBehind _) (accepting fun given => .ite emitReturn (.ite (failBehind _) ?_))
  exact seq expression.always fun _ => expecting (emit _)

theorem forInitializer (declares : stock.Builds known mode (varDeclaration inner) (varDeclaration inner')) :
    stock.Builds known mode (Compile.forInitializer inner) (Compile.forInitializer inner') :=
  accepting fun _ => .ite (.pure ()) (accepting fun _ => .ite declares (expressionStatement expression))

theorem forCondition : stock.Builds known mode (Compile.forCondition inner) (Compile.forCondition inner') := by
  refine accepting fun _ => .ite (.pure none) (seq expression.always fun _ => expecting (jumping _ fun toExit => ?_))
  exact seq (emit _) fun _ => .pure _

omit expression in
theorem forCondition_exit {toExit : Nat} {after : Compilation} (done : Compile.forCondition inner before = .ok (some toExit) after) :
    toExit + 2 ≤ after.offset := by
  obtain ⟨given, _, -, done⟩ := bind_ok done
  cases given with
  | true => cases done
  | false =>
    obtain ⟨_, _, -, done⟩ := bind_ok done
    obtain ⟨_, last, -, done⟩ := bind_ok done
    obtain ⟨jump, jumped, emitted, done⟩ := bind_ok done
    cases emitted
    cases done
    let jumped := emitBytes last (bytesWith .jumpIfFalse maxOperand)
    have size : jumped.offset = last.offset + 3 := bytesWith_offset last _ _
    have more : (emitBytes jumped [Opcode.pop.toByte]).offset = jumped.offset + 1 := emitBytes_offset jumped _
    change jumped.offset - 2 + 2 ≤ (emitBytes jumped [Opcode.pop.toByte]).offset
    omega

theorem forIncrement_then {start : Nat} (behind : ∀ size, known size → start ≤ size)
    (two : ∀ mark, stock.Shifts (fun size => known size ∧ mark ≤ size) mode (next mark) (next' mark) after) :
    stock.Shifts known mode (Compile.forIncrement inner start >>= next) (Compile.forIncrement inner' start >>= next') after := by
  have same (inner : Inner) (next : Nat → Parse β) : Compile.forIncrement inner start >>= next = Parse.accept .rightParen >>= fun given =>
      if given then next start else (do
        let toBody ← emitJump .jump
        let increment ← Parse.read (·.offset)
        inner.expression
        Parse.emit .pop
        Parse.expect .rightParen .rightParenAfterForClauses
        Parse.emitLoop start
        Parse.patchJump toBody
        next increment) := by
    unfold Compile.forIncrement
    simp only [bind_assoc]
    congr 1
    funext given
    cases given <;> simp
  rw [same, same]
  refine accepting fun given => .ite ((two start).weaken fun size known => ⟨known, behind size known⟩) ?_
  refine jumping _ fun toBody => marking fun increment => seq expression.always fun _ => seq (emit _) fun _ => expecting ?_
  refine seq (emitLoop fun size known => behind size known.1.1) fun _ => seq (patchJump fun _ known => known.1.2) fun _ => ?_
  exact (two increment).weaken fun _ known => ⟨known.1.1, known.2⟩

theorem forIncrement (start : Nat) :
    stock.Builds (start ≤ ·) mode (Compile.forIncrement inner start) (Compile.forIncrement inner' start) := by
  rw [← bind_pure (Compile.forIncrement inner start), ← bind_pure (Compile.forIncrement inner' start)]
  exact forIncrement_then expression (fun _ => id) fun mark => .pure mark

variable (statement : stock.Builds (fun _ => True) mode inner.statement inner'.statement)
include statement

theorem ifStatement : stock.Builds known mode (Compile.ifStatement inner) (Compile.ifStatement inner') := by
  refine expecting (seq expression.always fun _ => expecting (jumping _ fun toElse => seq (emit _) fun _ => ?_))
  refine seq statement.always fun _ => jumping _ fun toEnd => seq (patchJump fun _ known => known.1.2) fun _ => ?_
  refine seq (emit _) fun _ => accepting fun given => .ite (seq statement.always fun _ => ?_) ?_
  all_goals exact patchJump fun _ => And.right

theorem whileStatement : stock.Builds known mode (Compile.whileStatement inner) (Compile.whileStatement inner') := by
  refine marking fun start => expecting (seq expression.always fun _ => expecting (jumping _ fun toExit => ?_))
  refine seq (emit _) fun _ => seq statement.always fun _ => seq (emitLoop fun _ known => known.1.2) fun _ => ?_
  exact seq (patchJump fun _ => And.right) fun _ => emit _

theorem forClauses (declares : stock.Builds (fun _ => True) mode (varDeclaration inner) (varDeclaration inner')) :
    stock.Builds known mode (Compile.forClauses inner) (Compile.forClauses inner') := by
  refine expecting (seq (forInitializer expression declares.always) fun _ => marking fun start => ?_)
  refine .bind (forCondition expression) fun toExit => ?_
  refine forIncrement_then expression (fun _ known => known.1.2) fun mark => seq statement.always fun _ => ?_
  refine seq (emitLoop fun _ => And.right) fun _ => ?_
  cases toExit with
  | none => exact .pure ()
  | some toExit =>
    refine seq (patchJump fun size known => ?_) fun _ => emit _
    obtain ⟨before, after, -, done, within⟩ := known.1.2
    exact Nat.le_trans (forCondition_exit done) within

theorem wholeStatement (loops : stock.Builds (fun _ => True) mode (inScope (Compile.forClauses inner)) (inScope (Compile.forClauses inner')))
    (blocks : stock.Builds (fun _ => True) mode (inScope (block inner)) (inScope (block inner'))) :
    stock.Builds known mode (Compile.wholeStatement inner) (Compile.wholeStatement inner') := by
  refine accepting fun _ => .ite (printStatement expression) (accepting fun _ => .ite (ifStatement expression statement) ?_)
  refine accepting fun _ => .ite (returnStatement expression) (accepting fun _ => .ite (whileStatement expression statement) ?_)
  exact accepting fun _ => .ite loops.always (accepting fun _ => .ite blocks.always (expressionStatement expression))

end Statements

-- Phrases that declare variables.
section Declarations

variable {inner inner' : Inner} {first second : Parse β}

theorem another {phrase phrase' : Parse Unit} (builds : stock.Builds known mode phrase phrase') : stock.Builds known mode
    (do if (← check .rightBrace) || (← isAtEnd) then return false else do phrase; return true)
    (do if (← check .rightBrace) || (← isAtEnd) then return false else do phrase'; return true) := by
  refine reading (fun sight => congrArg (·.kind == .rightBrace) sight.peek) fun brace => ?_
  refine reading (fun sight => congrArg (·.kind == .eof) sight.peek) fun ended => .ite (.pure false) ?_
  exact seq builds fun _ => .pure true

theorem block (declares : stock.Builds (fun _ => True) mode (declaration inner) (declaration inner')) :
    stock.Builds known mode (Compile.block inner) (Compile.block inner') :=
  seq (whileProgress (another declares.always)) fun _ => expect _ _

def declareLocal : Parse Unit := do
  let name := (← previous).lexeme
  if ← Parse.read (declaresName ·.scope name) then Parse.failBehind .redefinition else Parse.addLocal name

theorem declareLocal_depth {after : Compilation} (done : declareLocal before = .ok () after) :
    after.scope.depth = before.scope.depth := by
  change (if declaresName before.scope _ then _ else Parse.addLocal _ : Parse Unit) before = _ at done
  split at done
  · cases done
  · change (if before.scope.locals.size = maxLocals then _ else _ : Parse Unit) before = _ at done
    split at done <;> cases done
    rfl

theorem declareVariable_then {next : Unit → Parse β} (outermost : ∀ state : Compilation, state.scope.depth = 0 →
      next () state = first state)
    (inside : ∀ state : Compilation, state.scope.depth ≠ 0 → next () state = second state) :
    Parse.declareVariable >>= next = Parse.read (·.scope.depth) >>= fun depth =>
      if depth = 0 then first else declareLocal >>= fun _ => second := by
  funext state
  change ((if state.scope.depth = 0 then Pure.pure () else declareLocal : Parse Unit) >>= next) state =
    (if state.scope.depth = 0 then first else declareLocal >>= fun _ => second : Parse β) state
  by_cases isOutermost : state.scope.depth = 0
  · rw [if_pos isOutermost, if_pos isOutermost]
    exact outermost state isOutermost
  · rw [if_neg isOutermost, if_neg isOutermost]
    cases done : declareLocal state with
    | error error after => rw [bind_error done, bind_error done]
    | ok _ after =>
      rw [bind_eq done, bind_eq done]
      exact inside after (declareLocal_depth done ▸ isOutermost)

variable (rescoping : stock.rescoping)
include rescoping

theorem declaring {first' second' : Parse β} (calm : mode ≠ .pending) (outermost : stock.Shifts known .outermost first first' after)
    (inside : stock.Shifts known .pending second second' after) : stock.Shifts known mode
      (Parse.read (·.scope.depth) >>= fun depth => if depth = 0 then first else declareLocal >>= fun _ => second)
      (Parse.read (·.scope.depth) >>= fun depth => if depth = 0 then first' else declareLocal >>= fun _ => second') after := by
  refine seq (.small .depth calm) fun depth => ?_
  by_cases isOutermost : depth = 0
  · simp only [Act.after, if_pos isOutermost]
    exact outermost
  · simp only [Act.after, if_neg isOutermost]
    have declares : stock.Shifts known .inside declareLocal declareLocal fun _ => .pending := by
      refine looking Sight.previous (fun _ => rfl) (fun _ => rfl) fun token => seq (.small (.declares token.lexeme) rfl) fun declared => ?_
      cases declared with
      | true => exact failBehind _
      | false => exact .small (.addLocal token.lexeme) ⟨rescoping, .inl rfl⟩
    exact seq declares fun _ => inside

theorem introducing {what : Expectation} {next next' : Option Nat → Parse β} (calm : mode ≠ .pending)
    (global : ∀ entry, stock.Shifts (fun size => known size ∧ entry ≤ maxOperand) .outermost (next (some entry)) (next' (some entry)) after)
    (inside : stock.Shifts known .pending (next none) (next' none) after) :
    stock.Shifts known mode (Parse.parseVariable what >>= next) (Parse.parseVariable what >>= next') after := by
  have same (next : Option Nat → Parse β) : Parse.parseVariable what >>= next = expectName what >>= fun name =>
      Parse.read (·.scope.depth) >>= fun depth =>
        if depth = 0 then makeString name >>= fun entry => next (some entry) else declareLocal >>= fun _ => next none := by
    unfold Parse.parseVariable
    rw [bind_assoc]
    congr 1
    funext name
    rw [bind_assoc]
    refine declareVariable_then (fun state outermost => ?_) fun state inside => ?_
    · change ((if state.scope.depth > 0 then Pure.pure none else do return some (← makeString name)) >>= next) state = _
      rw [if_neg (by omega), bind_assoc]
      rfl
    · change ((if state.scope.depth > 0 then Pure.pure none else do return some (← makeString name)) >>= next) state = _
      rw [if_pos (by omega)]
      rfl
  rw [same, same]
  exact naming fun name => declaring rescoping calm (storing name global) inside

theorem parseVariable (what : Expectation) : stock.Shifts known .settled (Parse.parseVariable what) (Parse.parseVariable what)
    fun global? => if global?.isSome then .outermost else .pending := by
  rw [← bind_pure (Parse.parseVariable what)]
  exact introducing rescoping Mode.noConfusion (fun entry => .yield (some entry) rfl) (.yield none rfl)

theorem defineLocal (own : mode = .pending ∨ mode = .owning) :
    stock.Shifts known mode (update (·.defineVariable none)) (update (·.defineVariable none)) fun _ => .settled := by
  refine .settle (.small .markInitialized ⟨rescoping, .inr own⟩) fun _ => ?_
  rcases own with rfl | rfl <;> exact Mode.noConfusion

omit rescoping in
theorem defineGlobal {entry : Nat} (fits : ∀ size, known size → entry ≤ maxOperand) :
    stock.Shifts known .outermost (update (·.defineVariable (some entry))) (update (·.defineVariable (some entry))) fun _ => .settled :=
  .settle (emitWith .defineGlobal fits) fun _ => Mode.noConfusion

theorem varDeclaration (expression : ∀ mode, stock.Builds (fun _ => True) mode inner.expression inner'.expression) :
    stock.Builds known .settled (Compile.varDeclaration inner) (Compile.varDeclaration inner') := by
  refine introducing rescoping Mode.noConfusion (fun entry => accepting fun given => ?_) (accepting fun given => ?_)
  · refine .ite (seq (expression _).always fun _ => ?_) (seq (emit _) fun _ => ?_)
    all_goals exact expecting (defineGlobal fun _ => And.right)
  · refine .ite (seq (expression _).always fun _ => ?_) (seq (emit _) fun _ => ?_)
    all_goals exact expecting (defineLocal rescoping (.inl rfl))

theorem superclassClause (className : String) :
    stock.Builds known .settled (Compile.superclassClause className) (Compile.superclassClause className) := by
  have rejects : stock.Builds known .settled (Parse.failBehind .inheritsFromItself : Parse Unit) (Parse.failBehind .inheritsFromItself) :=
    failBehind _
  refine naming fun superclass => seq (readVariable _) fun _ => .ite (seq rejects fun _ => ?_) ?_
  all_goals
    refine seq (.small .beginScope ⟨rescoping, Mode.noConfusion⟩) fun _ => ?_
    refine seq (.small (.addLocal "super") ⟨rescoping, .inr rfl⟩) fun _ => seq (defineLocal rescoping (.inl rfl)) fun _ => ?_
    exact seq (readVariable _) fun _ => seq (emit _) fun _ => .small .markSuperclass rescoping

theorem parameter : stock.Builds known .settled Compile.parameter Compile.parameter := by
  have same : Compile.parameter = countParameter >>= fun _ => (do
      let name ← Parse.parseVariable .parameterName
      update (·.defineVariable name)
      Parse.accept .comma) := by
    unfold Compile.parameter countParameter
    rw [bind_assoc]
    congr 1
    funext arity
    split <;> rfl
  rw [same]
  refine seq (.small .countParameter rescoping) fun _ => introducing rescoping Mode.noConfusion (fun entry => ?_) ?_
  · exact seq (defineGlobal fun _ => And.right) fun _ => accept _
  · exact seq (defineLocal rescoping (.inl rfl)) fun _ => accept _

theorem wholeFunctionBody (blocks : stock.Builds (fun _ => True) .settled (Compile.block inner) (Compile.block inner')) :
    stock.Builds known .settled (Compile.wholeFunctionBody inner) (Compile.wholeFunctionBody inner') := by
  refine seq (.settle (.small .beginScope ⟨rescoping, Mode.noConfusion⟩) fun _ => Mode.noConfusion) fun _ => ?_
  refine expecting (reading (fun sight => ?_) fun empty => .ite (seq (whileProgress (parameter rescoping)) fun _ => ?_) ?_)
  · exact congrArg (·.kind == .rightParen) sight.peek
  all_goals exact expecting (expecting (seq blocks.always fun _ => emitReturn))

variable (function : ∀ kind mode, stock.Builds (fun _ => True) mode (function inner.functionBody kind) (function inner'.functionBody kind))
include function

theorem funDeclaration : stock.Builds known .settled (Compile.funDeclaration inner) (Compile.funDeclaration inner') := by
  refine introducing rescoping Mode.noConfusion (fun entry => ?_) ?_
  · refine seq (.small .markInitialized ⟨rescoping, .inl rfl⟩) fun _ => seq (function _ _).always fun _ => ?_
    exact defineGlobal fun _ => And.right
  · refine seq (.small .markInitialized ⟨rescoping, .inr (.inl rfl)⟩) fun _ => seq (function _ _).always fun _ => ?_
    exact defineLocal rescoping (.inr rfl)

omit rescoping in
theorem method : stock.Builds known mode (Compile.method inner) (Compile.method inner') :=
  naming fun name => storing name fun _ => seq (function _ _).always fun _ => emitWith _ fun _ => And.right

omit rescoping in
theorem methodSuffix : stock.Builds known mode (Compile.methodSuffix inner) (Compile.methodSuffix inner') :=
  another (method function)

theorem classBody (className : String) :
    stock.Builds known .settled (Compile.classBody inner className) (Compile.classBody inner' className) := by
  refine accepting fun given => .ite (seq (superclassClause rescoping _) fun _ => ?_) ?_
  all_goals
    refine seq (readVariable _) fun _ => expecting (seq (whileProgress (methodSuffix function)) fun _ => ?_)
    exact expecting (emit _)

omit function in
theorem classDeclaration (body : ∀ name, stock.Builds (fun _ => True) .settled (inClass (Compile.classBody inner name))
      (inClass (Compile.classBody inner' name))) :
    stock.Builds known .settled (Compile.classDeclaration inner) (Compile.classDeclaration inner') := by
  refine naming fun name => storing name fun entry => ?_
  have bodies {known : Nat → Prop} : stock.Builds known .settled
      (do if ← inClass (Compile.classBody inner name) then update (·.endScope))
      (do if ← inClass (Compile.classBody inner' name) then update (·.endScope)) :=
    seq (body name).always fun inherits => .ite (.small .endScope ⟨rescoping, Mode.noConfusion⟩) (.pure ())
  have same (rest : Parse Unit) : (do
      Parse.declareVariable
      Parse.emitWith .newClass entry
      update fun state => state.defineVariable (state.globalName? entry)
      rest) = (Parse.read (·.scope.depth) >>= fun depth =>
        if depth = 0 then do
          Parse.emitWith .newClass entry
          update (·.defineVariable (some entry))
          rest
        else declareLocal >>= fun _ => do
          Parse.emitWith .newClass entry
          update (·.defineVariable none)
          rest) := by
    refine declareVariable_then (fun state outermost => ?_) fun state inside => ?_
    · change rest ((state.emitWith .newClass entry).defineVariable (if state.scope.depth > 0 then none else some entry)) = _
      rw [if_neg (by omega)]
      rfl
    · change rest ((state.emitWith .newClass entry).defineVariable (if state.scope.depth > 0 then none else some entry)) = _
      rw [if_pos (by omega)]
      rfl
  change stock.Builds _ _ (do Parse.declareVariable; _) (do Parse.declareVariable; _)
  rw [same, same]
  refine declaring rescoping Mode.noConfusion (seq (emitWith _ fun _ => And.right) fun _ => ?_) (seq (emitWith _ fun _ => And.right) fun _ => ?_)
  · exact seq (defineGlobal fun _ => And.right) fun _ => bodies
  · exact seq (defineLocal rescoping (.inl rfl)) fun _ => bodies

omit rescoping in
theorem declarationOrFail (rescoping : stock.rescoping)
    (expression : ∀ mode, stock.Builds (fun _ => True) mode inner.expression inner'.expression)
    (statement : stock.Builds (fun _ => True) .settled inner.statement inner'.statement)
    (body : ∀ name, stock.Builds (fun _ => True) .settled (inClass (Compile.classBody inner name)) (inClass (Compile.classBody inner' name))) :
    stock.Builds known .settled (Compile.declarationOrFail inner) (Compile.declarationOrFail inner') := by
  refine accepting fun _ => .ite (classDeclaration rescoping body) (accepting fun _ => .ite (funDeclaration rescoping function) ?_)
  exact accepting fun _ => .ite (varDeclaration rescoping expression) statement.always

end Declarations

end StackScript.Compile.Stock.Shifts

namespace StackScript.Compile.Stock

open Parse Reading

variable {stock : Stock} {inner inner' : Inner}

abbrev Keeps (stock : Stock) {α : Type} (mode : Mode) (action action' : Parse α) : Prop := stock.pair mode action action' fun _ => mode

class Closed (stock : Stock) : Prop where
  rescoping : stock.rescoping
  built : ∀ {α : Type} {mode : Mode} {action action' : Parse α} {after : α → Mode},
    stock.Shifts (fun _ => True) mode action action' after → stock.pair mode action action' after
  inScope : ∀ {body body' : Parse Unit}, stock.Keeps .settled body body' → stock.Keeps .settled (inScope body) (inScope body')
  inClass : ∀ {body body' : Parse Unit}, stock.Keeps .settled body body' → stock.Keeps .settled (inClass body) (inClass body')

structure Leads (stock : Stock) (inner inner' : Inner) : Prop where
  expression : ∀ mode, stock.Keeps mode inner.expression inner'.expression
  statement : stock.Keeps .settled inner.statement inner'.statement
  function : ∀ kind mode, stock.Keeps mode (function inner.functionBody kind) (function inner'.functionBody kind)
  recovers : stock.Keeps .settled (declarationOrFail inner) (declarationOrFail inner') →
    stock.Keeps .settled (declaration inner) (declaration inner')

variable [closed : stock.Closed]

namespace Leads

variable (leads : stock.Leads inner inner')
include leads

theorem classBody (name : String) : stock.Keeps .settled (inClass (classBody inner name)) (inClass (classBody inner' name)) :=
  closed.inClass (closed.built (.classBody closed.rescoping (fun kind mode => .given (leads.function kind mode)) name))

theorem declarationOrFail : stock.Keeps .settled (declarationOrFail inner) (declarationOrFail inner') :=
  closed.built (.declarationOrFail (fun kind mode => .given (leads.function kind mode)) closed.rescoping
    (fun mode => .given (leads.expression mode)) (.given leads.statement) fun name => .given (leads.classBody name))

theorem declaration : stock.Keeps .settled (declaration inner) (declaration inner') := leads.recovers leads.declarationOrFail

theorem forStatement : stock.Keeps .settled (inScope (forClauses inner)) (inScope (forClauses inner')) :=
  closed.inScope (closed.built (.forClauses (.given (leads.expression _)) (.given leads.statement)
    (.varDeclaration closed.rescoping fun mode => .given (leads.expression mode))))

theorem block : stock.Keeps .settled (block inner) (block inner') := closed.built (.block (.given leads.declaration))

theorem wholeStatement : stock.Keeps .settled (wholeStatement inner) (wholeStatement inner') :=
  closed.built (.wholeStatement (.given (leads.expression _)) (.given leads.statement) (.given leads.forStatement)
    (.given (closed.inScope leads.block)))

theorem wholeFunctionBody : stock.Keeps .settled (wholeFunctionBody inner) (wholeFunctionBody inner') :=
  closed.built (.wholeFunctionBody closed.rescoping (.given leads.block))

end Leads

theorem Leads.programSuffix (leads : stock.Leads (.within maxNesting) (.within maxNesting)) :
    stock.Keeps .settled programSuffix programSuffix := by
  refine closed.built (.reading (fun sight => congrArg (·.kind == .eof) sight.peek) fun ended => .ite (.pure false) ?_)
  exact .seq (.given leads.declaration) fun _ => .pure true

theorem Leads.program (leads : stock.Leads (.within maxNesting) (.within maxNesting)) : stock.Keeps .settled program program :=
  closed.built (.seq (.whileProgress (.given leads.programSuffix)) fun _ => .emitReturn)

/-- Pairs are pairs one level of nesting further in, and in a function. -/
structure Nests (stock : Stock) : Prop where
  nested : ∀ {mode body body'} (phrase : StackScript.Phrase), stock.Keeps mode body body' →
    stock.Keeps mode (nested phrase body) (nested phrase body')
  function : ∀ {body body'} (kind : FunctionKind) (mode : Mode), stock.Keeps .settled body body' →
    stock.Keeps mode (function body kind) (function body' kind)
  recovers : ∀ {budget inner}, stock.Keeps .settled (declarationOrFail (.within budget)) (declarationOrFail inner) →
    stock.Keeps .settled (declaration (.within budget)) (declaration inner)

namespace Nests

variable (nests : stock.Nests)
include nests

theorem expressions (budget : Nat) (mode : Mode) :
    stock.Keeps mode (expression budget) (expression budget) ∧ stock.Keeps mode (operand budget) (operand budget) := by
  induction budget with
  | zero => exact ⟨closed.built (.failHere _), closed.built (.failHere _)⟩
  | succ budget ih =>
    exact ⟨nests.nested _ (closed.built (.wholeExpression (.given ih.1) (.given ih.2))),
      nests.nested _ (closed.built (.unary (.given ih.1) (.given ih.2) false))⟩

theorem outermost : stock.Leads (.within 0) (.within 0) :=
  ⟨fun mode => (nests.expressions 0 mode).1, closed.built (.failHere _), fun kind mode => nests.function kind mode (closed.built (.failHere _)),
    nests.recovers⟩

theorem deeper {budget : Nat} {statement body : Parse Unit} (states : stock.Keeps .settled (wholeStatement (.within budget)) statement)
    (bodies : stock.Keeps .settled (wholeFunctionBody (.within budget)) body) : stock.Leads (.within (budget + 1))
      ⟨expression (budget + 1), Parse.nested .statement statement, Parse.nested .function body⟩ :=
  ⟨fun mode => (nests.expressions (budget + 1) mode).1, nests.nested _ states, fun kind mode => nests.function kind mode (nests.nested _ bodies),
    nests.recovers⟩

theorem within (budget : Nat) : stock.Leads (.within budget) (.within budget) := by
  induction budget with
  | zero => exact nests.outermost
  | succ budget ih => exact nests.deeper ih.wholeStatement ih.wholeFunctionBody

end Nests

end StackScript.Compile.Stock
