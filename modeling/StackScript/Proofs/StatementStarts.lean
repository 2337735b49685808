import StackScript.Proofs.StackHeights

/-!
Where statements begin. The compiler comes to a declaration or a statement in some state; its code will start at the offset
of that state, in the function that is being compiled. A run that gets there finds as many values on the stack as there
are locals in scope.
-/

namespace StackScript

namespace Compile

open Parse

variable {before entered after state opened : Compilation} {inner : Inner} {again : Parse Bool} {bound left toElse : Nat}
  {tokens : Array Token}

/-- The repetition of an action goes on from one state to another, with so many repetitions left. -/
inductive Repeats (again : Parse Bool) : Nat → Compilation → Nat → Compilation → Prop where
  | here (bound : Nat) (state : Compilation) : Repeats again bound state bound state
  | more {bound left : Nat} {before between after : Compilation} (once : again before = .ok true between)
      (rest : Repeats again bound between left after) : Repeats again (bound + 1) before left after

def classHead : Parse Unit := do
  let name ← expectName .className
  let entry ← makeString name
  declareVariable
  emitWith .newClass entry
  update fun state => state.defineVariable (state.globalName? entry)
  update fun state => { state with classes := ⟨false⟩ :: state.classes }
  if ← accept .less then superclassClause name
  readVariable name
  expect .leftBrace .leftBraceBeforeClassBody

/-- A method up to its parameters. Gives what sort of function it is. -/
def methodHead : Parse FunctionKind := do
  let name ← expectName .methodName
  let _entry ← makeString name
  return if name = "init" then .initializer else .method

/-- One more of a list in braces is to come. -/
def Compilation.isOpen (state : Compilation) : Prop :=
  state.cursor.check .rightBrace = false ∧ state.cursor.isAtEnd = false

/-- In a list in braces there is one more in some state. -/
def Lists (again : Parse Bool) (opened state : Compilation) : Prop :=
  (∃ left, Repeats again (opened.cursor.remaining + 1) opened (left + 1) state) ∧ state.isOpen

/-- In the body of a function, whose name is behind the cursor, a declaration begins. -/
inductive InBody (budget : Nat) (kind : FunctionKind) (named : Compilation) : Proto → Compilation → Prop where
  | intro {entered finished state : Compilation}
      (head : functionHead (named.openFunction kind named.cursor.previous.lexeme).deeper = .ok () entered)
      (body : block (.within budget) entered = .ok () finished)
      (lists : Lists (blockSuffix (.within budget)) entered state) :
      InBody budget kind named finished.emitReturn.scope.finish state

inductive Part where
  | declaration | statement

def Part.compile : Part → Nat → Parse Unit
  | .declaration, budget => Compile.declaration (.within budget)
  | .statement, budget => Compile.statement budget

/-- While the tokens are compiled, a part of the function `home` begins in a state. The function is given as it is when it
is finished. -/
inductive Begins (tokens : Array Token) : Proto → Part → Nat → Compilation → Prop where
  | script {script : Proto} {left : Nat} {state : Compilation} (compiled : StackScript.compile tokens = .ok script)
      (on : Repeats programSuffix ((Compilation.start tokens).cursor.remaining + 1) (.start tokens) (left + 1) state)
      (more : state.cursor.isAtEnd = false) : Begins tokens script .declaration maxNesting state
  | statement {home : Proto} {budget : Nat} {state : Compilation} (outer : Begins tokens home .declaration budget state)
      (other : ∀ keyword ∈ [Keyword.class, .fun, .var], state.cursor.check (.keyword keyword) = false) :
      Begins tokens home .statement budget state
  | block {home : Proto} {budget : Nat} {state opened inside : Compilation}
      (outer : Begins tokens home .statement (budget + 1) state) (brace : accept .leftBrace state.deeper = .ok true opened)
      (lists : Lists (blockSuffix (.within budget)) opened.beginScope inside) :
      Begins tokens home .declaration budget inside
  | taken {home : Proto} {budget toElse : Nat} {state opened entered : Compilation}
      (outer : Begins tokens home .statement (budget + 1) state)
      (keyword : accept (.keyword .if) state.deeper = .ok true opened)
      (head : conditionHead .leftParenAfterIf (.within budget) opened = .ok toElse entered) :
      Begins tokens home .statement budget entered
  | skipped {home : Proto} {budget toElse toEnd : Nat} {state opened entered reached other : Compilation}
      (outer : Begins tokens home .statement (budget + 1) state)
      (keyword : accept (.keyword .if) state.deeper = .ok true opened)
      (head : conditionHead .leftParenAfterIf (.within budget) opened = .ok toElse entered)
      (yes : Compile.statement budget entered = .ok () reached)
      (middle : elseHead toElse reached = .ok (toEnd, true) other) : Begins tokens home .statement budget other
  | whileBody {home : Proto} {budget toExit : Nat} {state opened entered : Compilation}
      (outer : Begins tokens home .statement (budget + 1) state)
      (keyword : accept (.keyword .while) state.deeper = .ok true opened)
      (head : conditionHead .leftParenAfterWhile (.within budget) opened = .ok toExit entered) :
      Begins tokens home .statement budget entered
  | forBody {home : Proto} {budget : Nat} {jumps : Option Nat × Nat} {state opened clauses started entered : Compilation}
      (outer : Begins tokens home .statement (budget + 1) state)
      (keyword : accept (.keyword .for) state.deeper = .ok true opened)
      (paren : expect .leftParen .leftParenAfterFor opened.beginScope = .ok () clauses)
      (first : forInitializer (.within budget) clauses = .ok () started)
      (head : forHead (.within budget) started = .ok jumps entered) : Begins tokens home .statement budget entered
  | function {home function : Proto} {budget : Nat} {global? : Option Nat} {state opened named inside : Compilation}
      (outer : Begins tokens home .declaration (budget + 1) state)
      (keyword : accept (.keyword .fun) state = .ok true opened)
      (name : parseVariable .functionName opened = .ok global? named)
      (body : InBody budget .function named.markInitialized function inside) :
      Begins tokens function .declaration budget inside
  | method {home function : Proto} {budget : Nat} {kind : FunctionKind} {state opened entered listed named inside : Compilation}
      (outer : Begins tokens home .declaration (budget + 1) state)
      (keyword : accept (.keyword .class) state = .ok true opened) (head : classHead opened = .ok () entered)
      (lists : Lists (methodSuffix (.within (budget + 1))) entered listed) (name : methodHead listed = .ok kind named)
      (body : InBody budget kind named function inside) : Begins tokens function .declaration budget inside

section Repetition

theorem Repeats.rest (on : Repeats again bound before left state) (done : repeatUpTo again bound before = .ok () after) :
    repeatUpTo again left state = .ok () after := by
  induction on with
  | here _ _ => exact done
  | more once _ ih =>
    rw [repeatUpTo, bind_eq once] at done
    exact ih done

theorem Repeats.ensures {relation : Compilation → Compilation → Prop}
    (step : again.Ensures fun before _ after => relation before after) (refl : ∀ state, relation state state)
    (trans : ∀ {first second third}, relation first second → relation second third → relation first third)
    (on : Repeats again bound before left state) (clean : state.errors = #[]) :
    before.errors = #[] ∧ relation before state := by
  induction on with
  | here _ state => exact ⟨clean, refl state⟩
  | more once _ ih =>
    obtain ⟨clean, rest⟩ := ih clean
    obtain ⟨clean, first⟩ := step _ _ _ once clean
    exact ⟨clean, trans first rest⟩

theorem Repeats.runs (running : Running again) (on : Repeats again bound before left state) (clean : state.errors = #[])
    (ready : Ready before) (level : Level before) : Runs before state := by
  refine (on.ensures running (fun _ ready level => (Turns.refl ready).runs level) (fun one two ready level => ?_) clean).2
    ready level
  have runs := one ready level
  exact runs.trans (two runs.ready runs.level)

end Repetition

/-- The action compiles a phrase of the function `home` in a state, and the code around the phrase is known. -/
structure Standing {α : Type} (home : Proto) (action : Parse α) (state : Compilation) : Prop where
  ready : Ready state
  level : Level state
  hole : ∃ value after manner tags own shape, action state = .ok value after ∧ after.errors = #[] ∧
    own.slots.length = home.arity + 1 ∧ Hole (.within home manner tags) own shape state after

namespace Standing

variable {α β : Type} {home : Proto} {action other : Parse α} {next : α → Parse β} {between : Compilation} {value : α}

theorem of_eq (standing : Standing home action state)
    (same : ∀ value after, action state = .ok value after → other state = .ok value after) : Standing home other state := by
  obtain ⟨ready, level, value, after, manner, tags, own, shape, done, clean, length, hole⟩ := standing
  exact ⟨ready, level, value, after, manner, tags, own, shape, same value after done, clean, length, hole⟩

theorem moved {cursor : Cursor} (standing : Standing home action state)
    (tokens : cursor.tokens = state.cursor.tokens)
    (same : ∀ value after, action state = .ok value after → other { state with cursor } = .ok value after) :
    Standing home other { state with cursor } := by
  obtain ⟨ready, level, value, after, manner, tags, own, shape, done, clean, length, hole⟩ := standing
  have phrase := moved_phrase ready tokens
  exact ⟨phrase.ready, Fact.level.stable phrase level, value, after, manner, tags, own, shape, same value after done, clean,
    length, hole.holds, hole.suits, hole.whole⟩

theorem first (standing : Standing home (action >>= next) state) (one : Running action)
    (two : ∀ value, Running (next value)) : Standing home action state := by
  obtain ⟨ready, level, result, after, manner, tags, own, shape, done, clean, length, hole⟩ := standing
  obtain ⟨value, between, done, done'⟩ := bind_ok done
  obtain ⟨clean, second⟩ := two value _ _ _ done' clean
  have runs := (one _ _ _ done clean).2 ready level
  exact ⟨ready, level, value, between, manner, tags, own, _, done, clean, length, hole.first runs (second runs.ready runs.level)⟩

theorem second (standing : Standing home (action >>= next) state) (one : Running action)
    (two : Running (next value)) (done : action state = .ok value between) : Standing home (next value) between := by
  obtain ⟨ready, level, result, after, manner, tags, own, shape, done', clean, length, hole⟩ := standing
  rw [bind_eq done] at done'
  have runs := (one _ _ _ done (two _ _ _ done' clean).1).2 ready level
  exact ⟨runs.ready, runs.level, result, after, manner, tags, own, shape, done', clean, length,
    hole.second runs ((two _ _ _ done' clean).2 runs.ready runs.level)⟩

theorem inside {body : Parse Unit} (standing : Standing home (inScope body) state) (running : Running body) :
    Standing home body state.beginScope := by
  obtain ⟨ready, level, result, after, manner, tags, own, shape, done, clean, length, hole⟩ := standing
  obtain ⟨inner, ran, rfl⟩ := inScope_ok done
  rw [endScope_errors] at clean
  have runs := (running _ _ _ ran clean).2 ready.beginScope level.beginScope
  obtain ⟨full, hole⟩ := hole.scoped runs.inside ready level
  exact ⟨ready.beginScope, level.beginScope, (), inner, manner, tags, own, full, ran, clean, length, hole⟩

theorem rest (standing : Standing home (repeatUpTo again bound) state) (running : Running again)
    (on : Repeats again bound state left between) : Standing home (repeatUpTo again left) between := by
  obtain ⟨ready, level, result, after, manner, tags, own, shape, done, clean, length, hole⟩ := standing
  have done := on.rest done
  obtain ⟨clean', rest⟩ := repeatUpTo_running running left _ _ _ done clean
  have runs := on.runs running clean' ready level
  exact ⟨runs.ready, runs.level, (), after, manner, tags, own, shape, done, clean, length,
    hole.second runs (rest runs.ready runs.level)⟩

theorem once (standing : Standing home (repeatUpTo again bound) state) (running : Running again)
    (on : Repeats again bound state (left + 1) between) : Standing home again between := by
  refine (standing.rest running on).first running fun more => ?_
  cases more with
  | false => exact (Turning.pure _).running
  | true => exact repeatUpTo_running running left

theorem height (standing : Standing home action state) (running : Running action) :
    ∃ height, home.Heights height ∧ height state.offset = state.scope.locals.size := by
  obtain ⟨ready, level, value, after, manner, tags, own, shape, done, clean, length, hole⟩ := standing
  have runs := (running _ _ _ done clean).2 ready level
  obtain ⟨shapes, covering⟩ := hole.whole.entered (runs.segment _ shape hole.holds hole.suits)
  refine ⟨shapes.height, covering.heights (.inl (.inl ⟨rfl, .refl own⟩)) length, ?_⟩
  rw [(covering.entered state.offset _ (.inl (.inr ⟨rfl, .refl _⟩))).height_eq, Shape.take, List.length_take, hole.suits.exact rfl]
  exact Nat.min_eq_left runs.size

end Standing

section Statements

variable {home : Proto} {budget toEnd : Nat} {inside reached other : Compilation}

theorem blockSuffix_open (isOpen : state.isOpen) :
    blockSuffix inner state = (declaration inner >>= fun _ => pure true : Parse Bool) state := by
  change (if (state.cursor.check .rightBrace || state.cursor.isAtEnd) = true then _ else _ : Parse Bool) state = _
  rw [isOpen.1, isOpen.2]
  rfl

theorem programSuffix_open (more : state.cursor.isAtEnd = false) :
    programSuffix state = (declaration (.within maxNesting) >>= fun _ => pure true : Parse Bool) state := by
  change (if state.cursor.isAtEnd = true then _ else _ : Parse Bool) state = _
  rw [more]
  rfl

theorem Standing.listed (standing : Standing home (whileProgress (blockSuffix (.within budget))) opened)
    (lists : Lists (blockSuffix (.within budget)) opened inside) : Standing home (declaration (.within budget)) inside := by
  obtain ⟨⟨left, on⟩, isOpen⟩ := lists
  have list : Standing home (repeatUpTo (blockSuffix (.within budget)) (opened.cursor.remaining + 1)) opened :=
    standing.of_eq fun _ _ => read_ok
  have suffix := list.once (blockSuffix_running (within_compiles budget)) on
  have both : Standing home (declaration (.within budget) >>= fun _ => pure true : Parse Bool) inside :=
    suffix.of_eq fun _ _ done => by rwa [blockSuffix_open isOpen] at done
  exact both.first (declaration_running (within_compiles budget)) fun _ => (Turning.pure _).running

section

variable (standing : Standing home (Compile.statement (budget + 1)) state)
include standing

theorem Standing.deeper :
    Standing home (wholeStatement (.within budget)) state.deeper := by
  obtain ⟨ready, level, _, after, manner, tags, own, shape, done, clean, length, hole⟩ := standing
  obtain ⟨finished, compiled, rfl⟩ := nested_ok done
  have enters := deeper_phrase ready
  have turns := ((wholeStatement_turning (within_compiles budget)) _ _ _ compiled clean).2 enters.ready
    (Fact.level.stable enters level)
  have leaves := shallower_phrase turns.ready
  exact ⟨enters.ready, Fact.level.stable enters level, (), finished, manner, tags, own, shape, compiled, clean, length,
    hole.holds.earlier leaves.later turns.ready.sound (Nat.le_refl _), hole.suits, hole.whole⟩

theorem Standing.keyword {kind : Kind} {action : Parse Unit}
    (passes : accept kind state.deeper = .ok true opened)
    (leads : state.cursor.peek.kind = kind → wholeStatement (.within budget) state.deeper = action opened) :
    Standing home action opened := by
  obtain ⟨found, rfl⟩ := accept_true passes
  exact standing.deeper.moved (advance_tokens _) fun _ _ done => (leads found).symm.trans done

theorem Standing.block (brace : accept .leftBrace state.deeper = .ok true opened)
    (lists : Lists (blockSuffix (.within budget)) opened.beginScope inside) :
    Standing home (declaration (.within budget)) inside := by
  have body : Standing home (inScope (Compile.block (.within budget))) opened := by
    refine standing.keyword brace fun found => ?_
    rw [wholeStatement_eq, (accept_true brace).1, (accept_true brace).2]
  have list := (body.inside (block_running (within_compiles budget))).first
    (whileProgress_running (blockSuffix_running (within_compiles budget))) fun _ => (expect_turning _ _).running
  exact list.listed lists

end

theorem Conditional.behind {tested : Compilation} {given : Bool} {aimed ended : Compilation}
    {context : Context} {own shape : Shape}
    (conditional : Conditional inner before after toElse tested entered reached toEnd given aimed other ended)
    (hole : Hole context own shape before after) :
    Holds context after tested.offset after.offset ∧ Whole context own tested.offset after.offset (shape.pushes 1) shape := by
  have phrase := conditional.branches.phrase
  have lower := conditional.condition.later.offset
  have upper := phrase.later.offset
  have earlier := (hole.holds.narrow (Nat.le_refl _) upper).earlier phrase.later conditional.condition.ready.sound
    (Nat.le_refl _)
  have segment := conditional.condition.segment context shape earlier
    (hole.suits.earlier phrase.later.locals phrase.size)
  have whole := hole.whole
  rw [Shape.take_all ((hole.suits.exact rfl).trans (phrase.size.trans conditional.condition.size))] at whole
  rw [Shape.pushes_zero] at segment
  exact ⟨hole.holds.narrow lower (Nat.le_refl _), whole.back segment⟩

theorem Standing.taken (standing : Standing home (ifStatement (.within budget)) opened)
    (head : conditionHead .leftParenAfterIf (.within budget) opened = .ok toElse entered) :
    Standing home (Compile.statement budget) entered := by
  obtain ⟨ready, level, _, after, manner, tags, own, shape, done, clean, length, hole⟩ := standing
  have compiles := within_compiles budget
  obtain ⟨_, tested, _, reached, _, _, _, _, _, conditional⟩ :=
    (ifStatement_conditional compiles.expression compiles.statement _ _ _ done clean).2 ready level
  cases conditional.head.symm.trans head
  obtain ⟨holds, whole⟩ := conditional.behind hole
  have jump := emitBytes_phrase conditional.condition.ready (bytesWith .jumpIfFalse maxOperand)
  have entering := (conditional.condition.toPhrase.trans jump).trans conditional.branches.enters.toPhrase
  exact ⟨entering.ready, Fact.level.stable entering level, (), reached, manner, tags, own, shape, conditional.yes,
    conditional.clean.1, length, conditional.branches.takes holds hole.suits whole⟩

theorem Standing.skipped (standing : Standing home (ifStatement (.within budget)) opened)
    (head : conditionHead .leftParenAfterIf (.within budget) opened = .ok toElse entered)
    (yes : Compile.statement budget entered = .ok () reached) (middle : elseHead toElse reached = .ok (toEnd, true) other) :
    Standing home (Compile.statement budget) other := by
  obtain ⟨ready, level, _, after, manner, tags, own, shape, done, clean, length, hole⟩ := standing
  have compiles := within_compiles budget
  obtain ⟨_, tested, _, _, _, _, _, _, ended, conditional⟩ :=
    (ifStatement_conditional compiles.expression compiles.statement _ _ _ done clean).2 ready level
  cases conditional.head.symm.trans head
  cases conditional.yes.symm.trans yes
  cases conditional.middle.symm.trans middle
  obtain ⟨holds, whole⟩ := conditional.behind hole
  have dropping := (conditional.condition.toPhrase.trans conditional.branches.jumps).trans conditional.branches.drops.toPhrase
  exact ⟨dropping.ready, Fact.level.stable dropping level, (), ended, manner, tags, own, shape, conditional.no,
    conditional.clean.2, length, conditional.branches.skips holds hole.suits whole⟩

theorem Standing.whileBody {toExit : Nat} (standing : Standing home (whileStatement (.within budget)) opened)
    (head : conditionHead .leftParenAfterWhile (.within budget) opened = .ok toExit entered) :
    Standing home (Compile.statement budget) entered := by
  obtain ⟨ready, level, _, after, manner, tags, own, shape, done, clean, length, hole⟩ := standing
  have compiles := within_compiles budget
  obtain ⟨_, tested, _, reached, _, _, loop⟩ :=
    (whileStatement_repeated compiles.expression compiles.statement _ _ _ done clean).2 ready level
  cases loop.head.symm.trans head
  have jump := emitBytes_phrase loop.looping.condition.ready (bytesWith .jumpIfFalse maxOperand)
  have entering := (loop.looping.condition.toPhrase.trans jump).trans loop.enters.toPhrase
  exact ⟨entering.ready, Fact.level.stable entering level, (), reached, manner, tags, own, shape, loop.body, loop.clean, length,
    loop.looping.body loop.enters loop.cycle hole⟩

theorem Standing.forBody {jumps : Option Nat × Nat} (standing : Standing home (forLoop (.within budget)) opened)
    (head : forHead (.within budget) opened = .ok jumps entered) : Standing home (Compile.statement budget) entered := by
  obtain ⟨ready, level, _, after, manner, tags, own, shape, done, clean, length, hole⟩ := standing
  have compiles := within_compiles budget
  obtain ⟨_, _, tested, _, reached, looped, loop⟩ :=
    (forLoop_looped compiles.expression compiles.statement _ _ _ done clean).2 ready level
  cases loop.head.symm.trans head
  have entering := loop.entering.trans loop.cycle.detours.toPhrase
  refine ⟨entering.ready, Fact.level.stable entering level, (), reached, manner, tags, own, shape, loop.body, loop.clean, length, ?_⟩
  rcases loop.exits with ⟨silent, rfl⟩ | ⟨_, _, enters, looping⟩
  · have cycle := loop.cycle
    rw [silent] at cycle
    exact cycle.forever hole silent (loop.entering.trans cycle.phrase).size
  · exact looping.body enters loop.cycle hole

theorem Standing.forLoop {clauses started : Compilation} (standing : Standing home (inScope (forClauses (.within budget))) opened)
    (paren : expect .leftParen .leftParenAfterFor opened.beginScope = .ok () clauses)
    (first : forInitializer (.within budget) clauses = .ok () started) :
    Standing home (Compile.forLoop (.within budget)) started := by
  have compiles := within_compiles budget
  have initializer := forInitializer_running compiles.expression
  have loop := (forLoop_turning compiles.expression compiles.statement).running
  have body := standing.inside (forClauses_running compiles.expression compiles.statement)
  have split : Standing home (do
      expect .leftParen .leftParenAfterFor
      forInitializer (.within budget)
      Compile.forLoop (.within budget)) opened.beginScope := by
    refine body.of_eq fun _ _ done => ?_
    obtain ⟨_, _, opens, starts, loops⟩ := forClauses_ok done
    exact bind_intro opens (bind_intro starts loops)
  exact (split.second (expect_turning _ _).running (initializer.bind fun _ => loop) paren).second initializer loop first

end Statements

section Functions

variable {home : Proto} {budget : Nat} {finished named : Compilation}

theorem Headed.hole {headed : Compilation} (header : Headed before headed) (silent : before.offset = 0)
    (runs : Runs headed finished) : ∃ manner tags own shape,
      own.slots.length = finished.emitReturn.scope.finish.arity + 1 ∧
        Hole (.within finished.emitReturn.scope.finish manner tags) own shape headed finished := by
  have phrase : Phrase finished finished.emitReturn := emitReturn_eq finished ▸ emitBytes_phrase runs.ready _
  have suits := ((Fact.level.stable phrase runs.level).suits .nil).earlier phrase.later.locals phrase.size
  obtain ⟨tags, tagged⟩ := exists_tags fun capture member =>
    phrase.ready.sound.2.2.1 capture (Array.mem_toList_iff.mp member)
  have whole : Whole (.within finished.emitReturn.scope.finish finished.emitReturn.scope.kind.manner tags) _ 0 finished.offset
      ((ownShape .nil finished.emitReturn).take headed.scope.locals.size) _ :=
    .of_rest (emitReturn_block runs.level (holds_finish tagged) suits)
  have arity : finished.emitReturn.scope.finish.arity + 1 = headed.scope.locals.size := by
    rw [header.size, ← runs.arity, ← phrase.arity]
    rfl
  refine ⟨_, tags, (ownShape .nil finished.emitReturn).take headed.scope.locals.size, ownShape .nil finished.emitReturn, ?_,
    (holds_finish tagged).earlier phrase.later runs.ready.sound (Nat.le_refl _), suits, ?_⟩
  · rw [arity, Shape.take, List.length_take, suits.exact rfl]
    exact Nat.min_eq_left runs.size
  · rw [header.silent, silent]
    exact whole

theorem Runs.hole (runs : Runs (.start tokens) finished) :
    ∃ manner tags own shape, own.slots.length = finished.emitReturn.scope.finish.arity + 1 ∧
      Hole (.within finished.emitReturn.scope.finish manner tags) own shape (.start tokens) finished := by
  have phrase : Phrase finished finished.emitReturn := emitReturn_eq finished ▸ emitBytes_phrase runs.ready _
  have level := Fact.level.stable phrase runs.level
  have outermost : finished.emitReturn.scope.depth = 0 := phrase.depth.trans runs.depth
  have tagged : List.Forall₂ (Tagged finished.emitReturn.enclosing) finished.emitReturn.scope.captures.toList [] := by
    rw [script_captures phrase.ready (level.outermost outermost).1]
    exact .nil
  have suits := (script_suits level outermost finished.emitReturn.scope.finish).earlier phrase.later.locals phrase.size
  have arity : finished.emitReturn.scope.finish.arity = 0 := phrase.arity.trans runs.arity
  refine ⟨_, [], _, _, by rw [arity]; rfl, (holds_finish tagged).earlier phrase.later runs.ready.sound (Nat.le_refl _), suits,
    Whole.of_rest (emitReturn_block runs.level (holds_finish tagged) suits)⟩

theorem InBody.standing {kind : FunctionKind} {closed inside : Compilation} (body : InBody budget kind named home inside)
    (ready : Ready named) (notScript : kind ≠ .script)
    (done : function (functionBody (budget + 1)) kind named = .ok () closed) (clean : closed.errors = #[]) :
    Standing home (declaration (.within budget)) inside := by
  cases body with
  | @intro entered finished _ head body lists =>
    obtain ⟨_, nested, -, rfl⟩ := function_ok done
    obtain ⟨_, compiled, rfl⟩ := nested_ok nested
    obtain ⟨_, _, head', body', rfl⟩ := wholeFunctionBody_ok compiled
    cases head'.symm.trans head
    cases body'.symm.trans body
    have clean : finished.errors = #[] := by
      rw [emitBytes_errors] at clean
      have clean : finished.emitReturn.shallower.closeFunction.errors = #[] := clean
      rw [closeFunction_errors] at clean
      have clean : finished.emitReturn.errors = #[] := clean
      rwa [emitReturn_eq, emitBytes_errors] at clean
    have running := block_running (within_compiles budget)
    obtain ⟨clean_entered, runs⟩ := running _ _ _ body clean
    have headed := (functionHead_headed _ _ _ head clean_entered).2
      (deeper_phrase (ready.openFunction kind _)).ready ⟨kind, _, notScript, rfl⟩
    obtain ⟨manner, tags, own, shape, length, hole⟩ := headed.hole (enter_offset ⟨kind, _, notScript, rfl⟩)
      (runs headed.ready headed.level)
    have standing : Standing finished.emitReturn.scope.finish (block (.within budget)) entered :=
      ⟨headed.ready, headed.level, (), finished, manner, tags, own, shape, body, clean, length, hole⟩
    exact (standing.first (whileProgress_running (blockSuffix_running (within_compiles budget))) fun _ => (expect_turning _ _).running).listed
      lists

theorem parseVariable_ready {what : Expectation} {global? : Option Nat} (ready : Ready before)
    (done : parseVariable what before = .ok global? named) : Ready named.markInitialized := by
  have moved := moved_phrase ready (advance_tokens before.cursor)
  obtain ⟨token, -, -, -, ⟨entry, outermost, -, made⟩ | ⟨deep, room, -, rfl⟩⟩ := parseVariable_ok done
  · obtain ⟨phrase, -, -⟩ := makeString_phrase moved.ready made
    rw [markInitialized_outermost ((moved.trans phrase).depth.trans outermost)]
    exact phrase.ready
  · have grown := Grown.withLocal moved.ready (Nat.lt_of_le_of_ne moved.ready.sound.1 room) token.lexeme
    exact (grown.markInitialized deep).ready

theorem Standing.function {named inside : Compilation} {global? : Option Nat} {function : Proto}
    (standing : Standing home (declaration (.within (budget + 1))) state)
    (keyword : accept (.keyword .fun) state = .ok true opened) (name : parseVariable .functionName opened = .ok global? named)
    (body : InBody budget .function named.markInitialized function inside) :
    Standing function (declaration (.within budget)) inside := by
  obtain ⟨ready, level, _, after, _, _, _, _, done, clean, -, -⟩ := standing
  obtain ⟨found, rfl⟩ := accept_true keyword
  have done := declaration_unrecovered done clean
  rw [declarationOrFail_eq, found] at done
  obtain ⟨_, _, parsed, done⟩ := bind_ok done
  cases parsed.symm.trans name
  have done := update_bind_ok done
  obtain ⟨_, closed, compiled, done⟩ := bind_ok done
  cases update_ok done
  rw [defineVariable_errors] at clean
  exact body.standing (parseVariable_ready (moved_phrase ready (advance_tokens _)).ready name) (by decide) compiled clean

theorem inClass_ok {body : Parse Unit} {inherits : Bool} (done : inClass body before = .ok inherits after) :
    ∃ finished, body { before with classes := ⟨false⟩ :: before.classes } = .ok () finished ∧
      after = { finished with classes := finished.classes.tail } := by
  unfold inClass at done
  split at done
  · cases done
  · next finished compiled =>
    cases done
    exact ⟨finished, compiled, rfl⟩

theorem classBody_ok {name : String} (done : classBody inner name before = .ok () after) : ∃ entered added cursor,
      (do
        if ← accept .less then superclassClause name
        readVariable name
        expect .leftBrace .leftBraceBeforeClassBody : Parse Unit) before = .ok () entered ∧
      repeatUpTo (methodSuffix inner) (entered.cursor.remaining + 1) entered = .ok () added ∧
      added.cursor.peek.kind = .rightBrace ∧ after = Compilation.emit { added with cursor } .pop := by
  have rest {between : Compilation} (done : (do
      readVariable name
      expect .leftBrace .leftBraceBeforeClassBody
      whileProgress (methodSuffix inner)
      expect .rightBrace .rightBraceAfterClassBody
      emit .pop : Parse Unit) between = .ok () after) : ∃ entered added cursor,
        (do
          readVariable name
          expect .leftBrace .leftBraceBeforeClassBody : Parse Unit) between = .ok () entered ∧
        repeatUpTo (methodSuffix inner) (entered.cursor.remaining + 1) entered = .ok () added ∧
        added.cursor.peek.kind = .rightBrace ∧ after = Compilation.emit { added with cursor } .pop := by
    obtain ⟨_, pushed, reads, done⟩ := bind_ok done
    obtain ⟨_, opened, opens, done⟩ := bind_ok done
    obtain ⟨_, added, adds, done⟩ := bind_ok done
    obtain ⟨_, closed, closes, done⟩ := bind_ok done
    obtain ⟨brace, rfl⟩ := expect_ok closes
    cases done
    exact ⟨opened, added, added.cursor.advance, bind_intro reads opens, adds, brace, rfl⟩
  obtain ⟨given, moved, accepts, done⟩ := bind_ok done
  cases given with
  | false =>
    obtain ⟨entered, added, cursor, head, list, ends⟩ := rest done
    exact ⟨entered, added, cursor, bind_intro accepts head, list, ends⟩
  | true =>
    obtain ⟨_, inherited, clause, done⟩ := bind_ok done
    obtain ⟨entered, added, cursor, head, list, ends⟩ := rest done
    exact ⟨entered, added, cursor, bind_intro accepts (bind_intro clause head), list, ends⟩

theorem classDeclaration_ok (done : classDeclaration inner before = .ok () after) :
    ∃ entered added cursor classes, classHead before = .ok () entered ∧
      repeatUpTo (methodSuffix inner) (entered.cursor.remaining + 1) entered = .ok () added ∧
      added.cursor.peek.kind = .rightBrace ∧
      (after = { Compilation.emit { added with cursor } .pop with classes } ∨
        after = Compilation.endScope { Compilation.emit { added with cursor } .pop with classes }) := by
  obtain ⟨name, moved, expected, done⟩ := bind_ok done
  obtain ⟨entry, named, made, done⟩ := bind_ok done
  obtain ⟨_, declared, declares, done⟩ := bind_ok done
  have done := update_bind_ok done
  have done := update_bind_ok done
  obtain ⟨inherits, finished, compiled, done⟩ := bind_ok done
  obtain ⟨inner, body, rfl⟩ := inClass_ok compiled
  obtain ⟨entered, added, cursor, head, list, brace, rfl⟩ := classBody_ok body
  refine ⟨entered, added, cursor, added.classes.tail, bind_intro expected (bind_intro made (bind_intro declares head)), list, brace, ?_⟩
  cases inherits with
  | false =>
    cases done
    exact .inl rfl
  | true =>
    cases update_ok done
    exact .inr rfl

theorem defineVariable_cursor (state : Compilation) (global? : Option Nat) :
    (state.defineVariable global?).cursor = state.cursor := by
  cases global? with
  | none =>
    change state.markInitialized.cursor = _
    unfold Compilation.markInitialized
    split <;> rfl
  | some entry => rfl

theorem classHead_founds (done : classHead before = .ok () entered) (clean : entered.errors = #[]) (ready : Ready before)
    (level : Level before) : Ready entered ∧
      Gains (·.Founds · (before.cursor.advance.check .less) ·) before.scope.chunk entered.scope.chunk := by
  obtain ⟨name, moved, expected, done⟩ := bind_ok done
  obtain ⟨token, member, isName, rfl, rfl, previous⟩ := expectName_ok expected
  obtain ⟨entry, named, made, done⟩ := bind_ok done
  obtain ⟨_, declared, declares, done⟩ := bind_ok done
  have done := update_bind_ok done
  have done := update_bind_ok done
  have done := update_bind_ok done
  obtain ⟨spelled, ordinary⟩ := ready.names token member isName
  have moved := moved_phrase ready (advance_tokens before.cursor)
  obtain ⟨phrase, silent, names⟩ := makeString_phrase moved.ready made
  have started := moved.trans phrase
  have current : named.cursor = before.cursor.advance := by
    obtain ⟨-, -, -, rfl⟩ := makeString_ok made
    rfl
  obtain rfl : named.cursor.previous = token := current ▸ previous
  have introduces := defineClass_introduces started.ready (Fact.level.stable started level) declares spelled ordinary names
  have makes := Gains.before_silent started.later silent (defineClass_gains entry declares)
  -- Behind the superclass the class is read, and the brace is passed.
  have reads {between : Compilation} (done : (do
      readVariable named.cursor.previous.lexeme
      expect .leftBrace .leftBraceBeforeClassBody : Parse Unit) between = .ok () entered) :
      between.errors = #[] ∧ (Ready between → Ready entered ∧ Gains Chunk.Idles between.scope.chunk entered.scope.chunk) := by
    obtain ⟨_, pushed, reads, opens⟩ := bind_ok done
    obtain ⟨-, rfl⟩ := expect_ok opens
    refine ⟨readVariable_errors reads ▸ clean, fun ready => ⟨?_, ?_⟩⟩
    · exact (moved_phrase (readClass_segment ready spelled reads).1.ready (advance_tokens _)).ready
    · have gains := readVariable_gains ready spelled reads
      exact gains
  let defined := (declared.emitWith .newClass entry).defineVariable (declared.globalName? entry)
  have inside : Ready { defined with classes := ⟨false⟩ :: defined.classes } :=
    ⟨introduces.ready.names, introduces.ready.sound, nofun, introduces.ready.tables⟩
  obtain ⟨given, passed, accepts, done⟩ := bind_ok done
  have check : given = before.cursor.advance.check .less := by
    rw [accept_check accepts, ← current]
    change Cursor.check (Compilation.defineVariable _ _).cursor _ = _
    rw [defineVariable_cursor]
    rcases declareVariable_ok declares with ⟨-, rfl⟩ | ⟨-, -, rfl⟩ <;> rfl
  obtain ⟨cursor, tokens, rfl⟩ := accept_ok accepts
  have passing := moved_phrase inside tokens
  rw [← check]
  cases given with
  | false =>
    obtain ⟨ready, idles⟩ := (reads done).2 passing.ready
    exact ⟨ready, makes.join idles fun _ _ _ _ one two => .alone one.1 (one.2.trans two)⟩
  | true =>
    obtain ⟨_, inherited, clause, done⟩ := bind_ok done
    obtain ⟨clean, rest⟩ := reads done
    obtain ⟨inherits, -, clause⟩ :=
      (superclassClause_inherits _ _ _ _ clause clean).2 passing.ready spelled (Role.ne_super ordinary)
    obtain ⟨ready, idles⟩ := rest inherits.ready
    have inheriting : Gains (fun whole start stop => whole.OpAt start .newClass ∧ whole.Inheriting (start + 3) stop)
        before.scope.chunk inherited.scope.chunk := by
      refine makes.join clause ?_
      rintro whole start middle stop ⟨op_at, binds⟩ ⟨place, idles, ends⟩
      exact ⟨op_at, place, binds.trans idles, ends⟩
    exact ⟨ready, inheriting.join idles fun _ _ _ _ one two => .inheriting one.1 one.2 two⟩

theorem method_ok (done : method inner before = .ok () after) :
    ∃ kind named closed, methodHead before = .ok kind named ∧ kind ≠ .script ∧ (Ready before → Ready named) ∧
      function inner.functionBody kind named = .ok () closed ∧ after.errors = closed.errors := by
  obtain ⟨name, moved, expected, done⟩ := bind_ok done
  obtain ⟨entry, named, made, done⟩ := bind_ok done
  obtain ⟨_, closed, compiled, done⟩ := bind_ok done
  cases update_ok done
  refine ⟨_, named, closed, bind_intro expected (bind_intro made rfl), by split <;> decide, fun ready => ?_, compiled, rfl⟩
  obtain ⟨token, -, -, -, rfl, -⟩ := expectName_ok expected
  exact (makeString_phrase (moved_phrase ready (advance_tokens before.cursor)).ready made).1.ready

theorem methodSuffix_open (isOpen : state.isOpen) :
    methodSuffix inner state = (method inner >>= fun _ => pure true : Parse Bool) state := by
  change (if (state.cursor.check .rightBrace || state.cursor.isAtEnd) = true then _ else _ : Parse Bool) state = _
  rw [isOpen.1, isOpen.2]
  rfl

theorem Standing.method {listed named inside : Compilation} {kind : FunctionKind} {function : Proto}
    (standing : Standing home (declaration (.within (budget + 1))) state)
    (keyword : accept (.keyword .class) state = .ok true opened) (head : classHead opened = .ok () entered)
    (lists : Lists (methodSuffix (.within (budget + 1))) entered listed) (name : methodHead listed = .ok kind named)
    (body : InBody budget kind named function inside) : Standing function (declaration (.within budget)) inside := by
  obtain ⟨ready, level, _, after, _, _, _, _, done, clean, -, -⟩ := standing
  obtain ⟨found, rfl⟩ := accept_true keyword
  have done := declaration_unrecovered done clean
  rw [declarationOrFail_eq, found] at done
  obtain ⟨_, added, _, _, head', list, -, ends⟩ := classDeclaration_ok done
  cases head'.symm.trans head
  have same : after.errors = added.errors := by
    rcases ends with rfl | rfl
    · rfl
    · exact endScope_errors _
  obtain ⟨⟨left, on⟩, isOpen⟩ := lists
  have leads := methodSuffix_leads (within_compiles (budget + 1)).functionBody ""
  have keeps : (methodSuffix (.within (budget + 1))).Ensures fun before _ after => Ready before → Ready after :=
    leads.mono fun _ _ _ leads ready => (leads ready).ready
  -- The list of methods goes on from the one in question.
  have rest := on.rest list
  have clean_listed := (Ensures.repeatUpTo keeps (fun _ => id) (fun one two => two ∘ one) _ _ _ _ rest (same ▸ clean)).1
  obtain ⟨clean_entered, kept⟩ := on.ensures keeps (fun _ => id) (fun one two => two ∘ one) clean_listed
  have moved := moved_phrase ready (advance_tokens state.cursor)
  have ready := kept (classHead_founds head clean_entered moved.ready (Fact.level.stable moved level)).1
  obtain ⟨more, between, once, rest⟩ := bind_ok rest
  rw [methodSuffix_open isOpen] at once
  obtain ⟨_, added', adds, once⟩ := bind_ok once
  cases once
  have clean_added := (Ensures.repeatUpTo keeps (fun _ => id) (fun one two => two ∘ one) _ _ _ _ rest (same ▸ clean)).1
  obtain ⟨_, _, closed, name', notScript, named_ready, compiled, same'⟩ := method_ok adds
  cases name'.symm.trans name
  exact body.standing (named_ready ready) notScript compiled (same' ▸ clean_added)

end Functions

theorem Begins.standing {home : Proto} {part : Part} {budget : Nat} (named : WellNamed tokens)
    (begins : Begins tokens home part budget state) : Standing home (part.compile budget) state := by
  induction begins with
  | @script _ _ state compiled on more =>
    obtain ⟨finished, finishes, clean, rfl⟩ := compile_ok compiled
    have ready := start_ready named
    have level := start_level tokens
    obtain ⟨manner, tags, own, shape, length, hole⟩ := ((declarations_running _ _ _ finishes clean).2 ready level).hole
    have list : Standing finished.emitReturn.scope.finish
        (repeatUpTo programSuffix ((Compilation.start tokens).cursor.remaining + 1)) (.start tokens) :=
      ⟨ready, level, (), finished, manner, tags, own, shape, finishes, clean, length, hole⟩
    have both : Standing finished.emitReturn.scope.finish
        (declaration (.within maxNesting) >>= fun _ => pure true : Parse Bool) state := by
      refine (list.once programSuffix_running on).of_eq fun _ _ done => ?_
      rwa [programSuffix_open more] at done
    exact both.first (declaration_running (within_compiles maxNesting)) fun _ => (Turning.pure _).running
  | @statement _ _ state _ other ih =>
    obtain ⟨ready, level, _, after, manner, tags, own, shape, done, clean, length, hole⟩ := ih
    have done := declaration_unrecovered done clean
    rw [declarationOrFail_eq] at done
    refine ⟨ready, level, (), after, manner, tags, own, shape, ?_, clean, length, hole⟩
    split at done
    · next found => simp [Cursor.check, found] at other
    · next found => simp [Cursor.check, found] at other
    · next found => simp [Cursor.check, found] at other
    · exact done
  | block _ brace lists ih => exact ih.block brace lists
  | taken _ keyword head ih =>
    refine Standing.taken (ih.keyword keyword fun found => ?_) head
    rw [wholeStatement_eq, (accept_true keyword).1, (accept_true keyword).2]
  | skipped _ keyword head yes middle ih =>
    refine Standing.skipped (ih.keyword keyword fun found => ?_) head yes middle
    rw [wholeStatement_eq, (accept_true keyword).1, (accept_true keyword).2]
  | whileBody _ keyword head ih =>
    refine Standing.whileBody (ih.keyword keyword fun found => ?_) head
    rw [wholeStatement_eq, (accept_true keyword).1, (accept_true keyword).2]
  | forBody _ keyword paren first head ih =>
    refine Standing.forBody (Standing.forLoop (ih.keyword keyword fun found => ?_) paren first) head
    rw [wholeStatement_eq, (accept_true keyword).1, (accept_true keyword).2]
  | function _ keyword name body ih => exact ih.function keyword name body
  | method _ keyword head lists name body ih => exact ih.method keyword head lists name body

end Compile

theorem Compile.Part.running (part : Compile.Part) (budget : Nat) : Compile.Running (part.compile budget) := by
  cases part with
  | declaration => exact Compile.declaration_running (Compile.within_compiles budget)
  | statement => exact (Compile.within_compiles budget).statement.running

open Compile in
/-- In compiled code there is one height for every instruction that a run can get to. It is the number of locals in scope
where a declaration or a statement begins. -/
theorem compiled_code_heights {source : String} {script proto : Proto} (compiled : compileSource source = .ok script)
    (inside : script.Contains proto) : ∃ height, proto.Heights height ∧
      ∀ tokens part budget state, scan source = .ok tokens → Begins tokens proto part budget state →
        proto.chunk.Reachable state.offset → height state.offset = state.scope.locals.size := by
  obtain ⟨height, heights⟩ := (compileSource_sealed compiled).heights inside
  refine ⟨height, heights, fun tokens part budget state scanned begins reached => ?_⟩
  obtain ⟨height', heights', starts⟩ := (begins.standing (scan_wellNamed scanned)).height (part.running budget)
  rw [heights.unique heights' reached, starts]

def Compile.Parse.outcome? {α : Type} (action : Compile.Parse α) (state : Compile.Compilation) :
    Option (α × Compile.Compilation) :=
  match action state with
  | .ok value after => some (value, after)
  | .error _ _ => none

theorem Compile.Parse.outcome?_eq_some {α : Type} {action : Compile.Parse α} {state after : Compile.Compilation} {value : α}
    (found : action.outcome? state = some (value, after)) : action state = .ok value after := by
  unfold outcome? at found
  split at found <;> cases found
  assumption

open Compile in
/-- Behind the declaration of a local a statement begins with one more slot. -/
theorem compiled_code_heights_local : ∃ script height, compileSource "{ var a = 1; print a; }" = .ok script ∧
    script.Heights height ∧ height 0 = 1 ∧ height 3 = 2 := by
  obtain ⟨script, compiled⟩ := @exists_script "{ var a = 1; print a; }" (by decide +kernel)
  obtain ⟨tokens, scanned, compiles⟩ := compileSource_ok compiled
  obtain ⟨height, heights, starts⟩ := compiled_code_heights compiled .self
  have front : (compileSource "{ var a = 1; print a; }").toOption.map (fun script =>
      (script.arity, script.chunk.code[0]?, script.chunk.next? 0)) = some (0, some Opcode.constant.toByte, some 3) := by
    decide +kernel
  rw [compiled, Except.toOption, Option.map_some, Option.some.injEq, Prod.mk.injEq, Prod.mk.injEq] at front
  obtain ⟨arity, op_at, whole⟩ := front
  refine ⟨script, height, compiled, heights, by rw [heights.entry, arity], ?_⟩
  -- The compiler passes the brace and the declaration, and stands in front of the statement.
  have passed : (scan "{ var a = 1; print a; }").toOption.any (fun tokens =>
      let opened := { (Compilation.start tokens).deeper with cursor := (Compilation.start tokens).cursor.advance }
      (Compilation.start tokens).cursor.peek.kind == .leftBrace && opened.cursor.remaining == 9 &&
        ((blockSuffix (.within 199)).outcome? opened.beginScope).any fun outcome =>
          outcome.1 && outcome.2.offset == 3 && outcome.2.scope.locals.size == 2 &&
            !outcome.2.cursor.check .rightBrace && !outcome.2.cursor.isAtEnd) = true := by decide +kernel
  rw [scanned, Except.toOption, Option.any_some, Bool.and_eq_true, Bool.and_eq_true, beq_iff_eq, beq_iff_eq,
    Option.any_eq_true] at passed
  obtain ⟨⟨brace, remaining⟩, ⟨more, state⟩, declared, passed⟩ := passed
  simp only [Bool.and_eq_true, beq_iff_eq, Bool.not_eq_true'] at passed
  obtain ⟨⟨⟨⟨rfl, offset⟩, size⟩, unclosed⟩, more⟩ := passed
  have outer : Begins tokens script .statement maxNesting (.start tokens) := by
    refine .statement (.script compiles (.here _ _) (by simp [Cursor.isAtEnd, brace])) fun keyword _ => ?_
    simp [Cursor.check, brace]
  have passes : Parse.accept .leftBrace (Compilation.start tokens).deeper =
      .ok true { (Compilation.start tokens).deeper with cursor := (Compilation.start tokens).cursor.advance } :=
    if_pos (show ((Compilation.start tokens).cursor.peek.kind == .leftBrace) = true by rw [brace]; rfl)
  have begins : Begins tokens script .declaration 199 state := by
    refine .block outer passes ⟨⟨8, ?_⟩, unclosed, more⟩
    change Repeats _ ((Compilation.start tokens).cursor.advance.remaining + 1) _ _ _
    rw [show (Compilation.start tokens).cursor.advance.remaining = 9 from remaining]
    exact .more (Parse.outcome?_eq_some declared) (.here _ _)
  have reached : script.chunk.Reachable 3 := .step .entry (.on op_at (.inl rfl) whole)
  have height_at := starts tokens _ _ state scanned begins (offset.symm ▸ reached)
  rwa [offset, size] at height_at

end StackScript
