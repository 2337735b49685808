import Mathlib.Data.List.MinMax
import Mathlib.Order.Nat
import StackScript.Proofs.Lockstep
import StackScript.Proofs.SourceCode

/-!
Compilation always goes on. No phrase moves the cursor backwards or past the end of the text, and each leaves the level of
nesting as it found it. Every declaration passes a token, whether it succeeds or fails, so no loop of the grammar runs into
its bound; and the level of nesting stops the recursion before its budget does. Functions therefore nest only so deep.
-/

namespace StackScript

/-- The cursor has moved forward, and has not passed an end of the text on the way. -/
structure Cursor.Ahead (before after : Cursor) : Prop where
  tokens : after.tokens = before.tokens
  forward : before.position ≤ after.position
  inText : ∀ i token, before.position ≤ i → i < after.position → before.tokens[i]? = some token → token.kind ≠ .eof

namespace Cursor.Ahead

variable {first second third : Cursor}

theorem refl (cursor : Cursor) : cursor.Ahead cursor :=
  ⟨rfl, Nat.le_refl _, fun _ _ low high => absurd high (Nat.not_lt_of_le low)⟩

theorem trans (one : first.Ahead second) (two : second.Ahead third) : first.Ahead third := by
  refine ⟨two.tokens.trans one.tokens, Nat.le_trans one.forward two.forward, fun i token low high found => ?_⟩
  rcases Nat.lt_or_ge i second.position with before | behind
  · exact one.inText i token low before found
  · exact two.inText i token behind high (one.tokens ▸ found)

theorem advance (cursor : Cursor) : cursor.Ahead cursor.advance := by
  unfold Cursor.advance
  split
  · next more =>
    refine ⟨rfl, Nat.le_succ _, fun i token low high found => ?_⟩
    obtain rfl : i = cursor.position := Nat.le_antisymm (Nat.le_of_lt_succ high) low
    have current : cursor.peek = token := Option.some.inj ((Array.getElem?_eq_getElem cursor.inside).symm.trans found)
    rw [← current]
    simpa [Cursor.isAtEnd] using more
  · exact .refl cursor

theorem toBoundary (cursor : Cursor) : cursor.Ahead cursor.toBoundary := by
  fun_induction Cursor.toBoundary cursor with
  | case1 cursor => exact .refl cursor
  | case2 cursor _ _ ih => exact (advance cursor).trans ih
  | case3 cursor => exact .refl cursor

theorem synchronize (cursor : Cursor) : cursor.Ahead cursor.synchronize :=
  (advance cursor).trans (toBoundary cursor.advance)

theorem eq_of_position (ahead : first.Ahead second) (same : first.position = second.position) : second = first := by
  obtain ⟨tokens, position, inside, closed⟩ := first
  obtain ⟨tokens', position', inside', closed'⟩ := second
  obtain rfl : tokens' = tokens := ahead.tokens
  obtain rfl : position = position' := same
  rfl

theorem remaining (ahead : first.Ahead second) : second.remaining ≤ first.remaining := by
  have forward := ahead.forward
  rw [Cursor.remaining, Cursor.remaining, ahead.tokens]
  omega

theorem remaining_lt (ahead : first.Ahead second) (moved : first.position < second.position) :
    second.remaining < first.remaining := by
  have inside := second.inside
  rw [ahead.tokens] at inside
  rw [Cursor.remaining, Cursor.remaining, ahead.tokens]
  omega

end Cursor.Ahead

/-- How deep functions nest in a function, which counts itself. -/
def Proto.depth (proto : Proto) : Nat :=
  (proto.chunk.functions.attach.map fun ⟨function, _⟩ => function.depth).toList.foldr max 0 + 1
termination_by sizeOf proto
decreasing_by exact Proto.sizeOf_lt_of_mem ‹_›

theorem Proto.depth_le {proto : Proto} {limit : Nat} (shallow : ∀ function ∈ proto.chunk.functions, function.depth ≤ limit) :
    proto.depth ≤ limit + 1 := by
  rw [Proto.depth]
  refine Nat.succ_le_succ (List.max_le_of_forall_le _ limit fun depth member => ?_)
  obtain ⟨⟨function, inside⟩, -, rfl⟩ := Array.mem_map.mp (Array.mem_toList_iff.mp member)
  exact shallow function inside

theorem Proto.depth_of_mem {proto function : Proto} (member : function ∈ proto.chunk.functions) :
    function.depth < proto.depth := by
  rw [Proto.depth.eq_def proto]
  refine Nat.lt_succ_of_le (List.le_max_of_le (Array.mem_toList_iff.mpr (Array.mem_map.mpr ?_)) (Nat.le_refl _))
  exact ⟨⟨function, member⟩, Array.mem_attach _ _, rfl⟩

theorem Conduct.Obeys.resultState {α : Type} {conduct : Conduct CompileError Compile.Compilation} {action : Compile.Parse α}
    (obeys : conduct.Obeys action) (alike : ∀ {before error after}, conduct.fails before error after → conduct.goes before after)
    (state : Compile.Compilation) : conduct.goes state (Reading.resultState (action state)) := by
  have allowed := obeys state
  cases done : action state with
  | ok value after => rwa [done] at allowed
  | error error after =>
    rw [done] at allowed
    exact alike allowed

namespace Compile

open Parse Reading Conduct Lockstep

variable {α : Type} {state after : Compilation} {action : Parse α} {budget budget' : Nat} {again : Parse Bool} {body : Parse Unit}

theorem alone_closed {holding : Compilation → Prop} [rescopes : (staying holding).Rescopes]
    (moves : ∀ {state cursor} (errors : Array CompileError), holding state → state.cursor.Ahead cursor →
      holding { state with cursor, errors }) : (alone holding).Closed := by
  have closed : (staying holding).Closed := ⟨fun _ _ => id, fun _ _ => id, fun _ holds => moves _ holds (.advance _)⟩
  refine ⟨fun action proper => alone_follows (small_obeys_rescoping action proper), ?_, ?_, ?_, ?_, ?_⟩
  · rintro state _ ⟨rfl, -⟩
    exact ⟨rfl, rfl, rfl, rfl, rfl, rfl, rfl, rfl, rfl, rfl⟩
  · rintro state _ classes ⟨rfl, holds⟩
    exact ⟨rfl, rescopes.reclass state classes holds⟩
  · rintro error _ state _ ⟨rfl, rfl, holds⟩
    have ended : (staying holding).goes state state.endScope := endScope_obeys state
    exact ⟨rfl, rfl, ended holds⟩
  · rintro error _ state _ ⟨rfl, rfl, holds⟩
    exact ⟨rfl, rfl, rescopes.reclass state _ holds⟩
  · rintro error _ state _ depth locals ⟨rfl, rfl, holds⟩
    have rescoped := rescopes.rescope state (state.scope.locals.shrink locals) depth state.scope.arity holds
    exact ⟨rfl, moves _ rescoped (.synchronize _)⟩

/-- What is known of a compilation where a phrase begins: where the cursor stands, how deep the functions nest that are
listed, and which functions those around the innermost one have. -/
structure Ground where
  cursor : Cursor
  limit : Nat
  outers : List (Array Proto)

/-- The compilation is ahead of where a phrase began, at the same level of nesting. -/
structure Grounded (nesting : Nat) (ground : Ground) (state : Compilation) : Prop where
  ahead : ground.cursor.Ahead state.cursor
  nests : state.nesting = nesting
  room : maxNesting ≤ ground.limit + nesting
  shallow : ∀ function ∈ state.scope.chunk.functions, function.depth ≤ ground.limit
  outers : state.enclosing.map (·.chunk.functions) = ground.outers

abbrev level (nesting : Nat) (ground : Ground) : Lockstep := alone (Grounded nesting ground)

variable {ground : Ground} {nesting : Nat}

structure Unmoved (before after : Compilation) : Prop where
  cursor : after.cursor = before.cursor
  nesting : after.nesting = before.nesting
  functions : after.scope.chunk.functions = before.scope.chunk.functions
  outers : after.enclosing.map (·.chunk.functions) = before.enclosing.map (·.chunk.functions)

theorem Grounded.unmoved (grounded : Grounded nesting ground state) (unmoved : Unmoved state after) :
    Grounded nesting ground after :=
  ⟨unmoved.cursor ▸ grounded.ahead, unmoved.nesting.trans grounded.nests, grounded.room,
    unmoved.functions ▸ grounded.shallow, unmoved.outers.trans grounded.outers⟩

def stillness : Conduct CompileError Compilation :=
  .alike Unmoved (fun _ => ⟨rfl, rfl, rfl, rfl⟩) fun one two =>
    ⟨two.cursor.trans one.cursor, two.nesting.trans one.nesting, two.functions.trans one.functions, two.outers.trans one.outers⟩

theorem thread_chunks (name : String) (inner : FunctionScope) (outers : List FunctionScope) :
    (thread name inner outers).inner.chunk = inner.chunk ∧
      (thread name inner outers).outers.map (·.chunk) = outers.map (·.chunk) := by
  have chunks {outers wider : List FunctionScope} (widened : List.Forall₂ FunctionScope.Widened outers wider) :
      wider.map (·.chunk) = outers.map (·.chunk) := by
    induction widened with
    | nil => rfl
    | cons widened _ ih => rw [List.map_cons, List.map_cons, widened.chunk, ih]
  obtain ⟨widened, wider⟩ := thread_widened name inner outers
  exact ⟨widened.chunk, chunks wider⟩

instance : stillness.Rescopes where
  toWrites := by
    have threads (name : String) (state : Compilation) : stillness.goes state (state.threaded name) := by
      obtain ⟨chunk, chunks⟩ := thread_chunks name state.scope state.enclosing
      refine ⟨rfl, rfl, congrArg _ chunk, ?_⟩
      simpa only [List.map_map, Function.comp_def] using congrArg (List.map (·.functions)) chunks
    exact .of_recode (fun state _ => stillness.refl state) (fun _ _ functions => ⟨rfl, rfl, functions, rfl⟩)
      fun name => resolveCapture_obeys (threads name) fun state _ => threads name state
  rescope _ _ _ _ := ⟨rfl, rfl, rfl, rfl⟩
  reclass _ _ := ⟨rfl, rfl, rfl, rfl⟩

instance : (staying (Grounded nesting ground)).Rescopes :=
  Rescopes.within (inferInstance : stillness.Rescopes)
    ⟨fun goes grounded => grounded.unmoved goes, fun fails grounded => grounded.unmoved fails⟩

instance : (level nesting ground).Closed :=
  alone_closed fun _ grounded ahead => ⟨grounded.ahead.trans ahead, grounded.nests, grounded.room, grounded.shallow, grounded.outers⟩

section Levels

variable {body' : Parse Unit}

theorem Grounded.deeper (grounded : Grounded nesting ground state) :
    Grounded (nesting + 1) { ground with cursor := state.cursor } state.deeper :=
  ⟨.refl _, congrArg (· + 1) grounded.nests, Nat.le_succ_of_le grounded.room, grounded.shallow, grounded.outers⟩

theorem Grounded.shallower (grounded : Grounded nesting ground state)
    (inside : Grounded (nesting + 1) { ground with cursor := state.cursor } after) : Grounded nesting ground after.shallower :=
  ⟨grounded.ahead.trans inside.ahead, congrArg (· - 1) inside.nests, grounded.room, inside.shallow, inside.outers⟩

theorem nested_level (inner : ∀ ground, (level (nesting + 1) ground).Follows body body') (phrase : StackScript.Phrase) (ground : Ground) :
    (level nesting ground).Follows (nested phrase body) (nested phrase body') := by
  refine nested_follows phrase fun {state other} paired _ => ?_
  obtain ⟨rfl, grounded⟩ := paired
  exact ⟨level (nesting + 1) { ground with cursor := state.cursor }, inner _, ⟨rfl, grounded.deeper⟩,
    fun inside => ⟨congrArg _ inside.1, grounded.shallower inside.2⟩,
    fun broken => ⟨broken.1, congrArg _ broken.2.1, grounded.shallower broken.2.2⟩⟩

def Ground.inside (ground : Ground) (nesting : Nat) (state : Compilation) : Ground :=
  ⟨state.cursor, maxNesting - (nesting + 1), state.scope.chunk.functions :: ground.outers⟩

theorem Grounded.opened (grounded : Grounded nesting ground state) (room : nesting < maxNesting) (kind : FunctionKind)
    (name : String) : Grounded (nesting + 1) (ground.inside nesting state) (state.openFunction kind name).deeper := by
  refine ⟨.refl _, congrArg (· + 1) grounded.nests, ?_, nofun, congrArg _ grounded.outers⟩
  simp only [Ground.inside]
  omega

theorem Grounded.closed (grounded : Grounded nesting ground state)
    (inside : Grounded (nesting + 1) (ground.inside nesting state) after) :
    Grounded nesting ground after.shallower.closeFunction := by
  obtain ⟨outer, further, around, functions, rest⟩ := List.map_eq_cons_iff.mp inside.outers
  have closed : after.shallower.closeFunction = { after.shallower with scope := outer, enclosing := further } := by
    unfold Compilation.closeFunction
    rw [show after.shallower.enclosing = outer :: further from around]
  rw [closed]
  exact ⟨grounded.ahead.trans inside.ahead, congrArg (· - 1) inside.nests, grounded.room, functions ▸ grounded.shallow, rest⟩

theorem Grounded.listed (grounded : Grounded nesting ground state) (room : nesting < maxNesting)
    (inside : Grounded (nesting + 1) (ground.inside nesting state) after) :
    Grounded nesting ground (resultState (leaveFunction after.shallower)) := by
  have closed := grounded.closed inside
  have depth : after.scope.finish.depth ≤ ground.limit := by
    have shallow : after.scope.finish.depth ≤ maxNesting - (nesting + 1) + 1 := Proto.depth_le inside.shallow
    have room := grounded.room
    omega
  let outer := after.shallower.closeFunction
  have listed : Grounded nesting ground
      { outer with scope := { outer.scope with chunk := outer.scope.chunk.addFunction after.scope.finish } } := by
    refine ⟨closed.ahead, closed.nests, closed.room, fun function member => ?_, closed.outers⟩
    rcases Array.mem_push.mp member with old | rfl
    · exact closed.shallow function old
    · exact depth
  unfold leaveFunction
  dsimp only
  split
  · exact listed
  · have emitted (bytes : List UInt8) (state : Compilation) : stillness.goes state (emitBytes state bytes) := emitBytes_goes bytes state
    exact listed.unmoved (emitted _ _)

theorem function_nested (phrase : StackScript.Phrase) (body : Parse Unit) (kind : FunctionKind) (state : Compilation) :
    function (nested phrase body) kind state =
      if state.nesting ≥ maxNesting then failHere (.nestedTooDeeply phrase) state
      else wrapped (fun state => (state.openFunction kind state.cursor.previous.lexeme).deeper)
        (fun state => state.shallower.closeFunction) body (fun _ state => leaveFunction state.shallower) state := by
  rw [function_eq]
  unfold Reading.wrapped
  rw [nested_eq]
  by_cases room : state.nesting ≥ maxNesting
  · rw [if_pos room, if_pos (show (state.openFunction kind state.cursor.previous.lexeme).nesting ≥ maxNesting from room)]
    rfl
  · rw [if_neg room, if_neg (show ¬ (state.openFunction kind state.cursor.previous.lexeme).nesting ≥ maxNesting from room)]
    unfold Reading.wrapped
    dsimp only
    cases body (state.openFunction kind state.cursor.previous.lexeme).deeper <;> rfl

theorem function_level (inner : ∀ ground, (level (nesting + 1) ground).Follows body body') (phrase : StackScript.Phrase)
    (kind : FunctionKind) (ground : Ground) :
    (level nesting ground).Follows (function (nested phrase body) kind) (function (nested phrase body') kind) := by
  rintro state _ ⟨rfl, grounded⟩
  rw [function_nested, function_nested]
  split
  · exact .failed ⟨rfl, rfl, grounded⟩
  · next room =>
    have room := Nat.lt_of_not_ge (grounded.nests ▸ room)
    refine .wrapped (inner (ground.inside nesting state)) ⟨rfl, grounded.opened room kind _⟩ (fun _ after _ paired => ?_)
      fun {_ _ after _} broken => ?_
    · obtain ⟨rfl, inside⟩ := paired
      have listed := grounded.listed room inside
      cases done : leaveFunction after.shallower <;> rw [done] at listed
      · exact .done ⟨rfl, listed⟩
      · exact .failed ⟨rfl, rfl, listed⟩
    · obtain ⟨rfl, rfl, inside⟩ := broken
      exact ⟨rfl, rfl, grounded.closed inside⟩

/-- Two budgets come to the same at a level of nesting: they are the same, or the first one reaches to the deepest level and
the second one further. -/
def Ample (nesting budget budget' : Nat) : Prop :=
  budget = budget' ∨ maxNesting ≤ nesting + budget ∧ budget ≤ budget'

theorem Ample.zero (ample : Ample nesting 0 budget') : maxNesting ≤ nesting ∨ budget' = 0 := by
  unfold Ample at ample
  omega

theorem Ample.succ (ample : Ample nesting (budget + 1) budget') : ∃ more, budget' = more + 1 ∧ Ample (nesting + 1) budget more := by
  unfold Ample at ample ⊢
  exact ⟨budget' - 1, by omega⟩

theorem refused_level (full : maxNesting ≤ nesting) (phrase : StackScript.Phrase) {action action' : Parse Unit}
    (refuses : ∀ state : Compilation, maxNesting ≤ state.nesting → action state = failHere (.nestedTooDeeply phrase) state)
    (refuses' : ∀ state : Compilation, maxNesting ≤ state.nesting → action' state = failHere (.nestedTooDeeply phrase) state) :
    (level nesting ground).Follows action action' := by
  rintro state _ ⟨rfl, grounded⟩
  have full : maxNesting ≤ state.nesting := grounded.nests ▸ full
  rw [refuses state full, refuses' state full]
  exact .failed ⟨rfl, rfl, grounded⟩

theorem nested_refuses {phrase : StackScript.Phrase} (full : maxNesting ≤ state.nesting) :
    nested phrase body state = failHere (.nestedTooDeeply phrase) state := by
  rw [nested_eq, if_pos full]

theorem expression_refuses (budget : Nat) (state : Compilation) (full : maxNesting ≤ state.nesting) :
    expression budget state = failHere (.nestedTooDeeply .expression) state := by
  cases budget with
  | zero => rfl
  | succ budget => exact nested_refuses full

theorem operand_refuses (budget : Nat) (state : Compilation) (full : maxNesting ≤ state.nesting) :
    operand budget state = failHere (.nestedTooDeeply .expression) state := by
  cases budget with
  | zero => rfl
  | succ budget => exact nested_refuses full

theorem expression_level (ample : Ample nesting budget budget') (ground : Ground) :
    (level nesting ground).Follows (expression budget) (expression budget') ∧
      (level nesting ground).Follows (operand budget) (operand budget') := by
  induction budget generalizing nesting budget' ground with
  | zero =>
    rcases ample.zero with full | rfl
    · exact ⟨refused_level full .expression (expression_refuses 0) (expression_refuses budget'),
        refused_level full .expression (operand_refuses 0) (operand_refuses budget')⟩
    · exact ⟨failHere_follows _, failHere_follows _⟩
  | succ budget ih =>
    obtain ⟨more, rfl, further⟩ := ample.succ
    have inner := ih further
    exact ⟨nested_level (fun ground => built_follows (.wholeExpression (.given (inner ground).1) (.given (inner ground).2))) _ _,
      nested_level (fun ground => built_follows (.unary (.given (inner ground).1) (.given (inner ground).2) false)) _ _⟩

theorem statement_refuses (budget : Nat) (state : Compilation) (full : maxNesting ≤ state.nesting) :
    statement budget state = failHere (.nestedTooDeeply .statement) state := by
  cases budget with
  | zero => rfl
  | succ budget => exact nested_refuses full

theorem function_refuses (budget : Nat) (kind : FunctionKind) (state : Compilation) (full : maxNesting ≤ state.nesting) :
    function (functionBody budget) kind state = failHere (.nestedTooDeeply .function) state := by
  cases budget with
  | zero => rfl
  | succ budget =>
    have refused := function_nested .function (wholeFunctionBody (.within budget)) kind state
    rw [if_pos full] at refused
    exact refused

theorem within_level (ample : Ample nesting budget budget') (ground : Ground) :
    (level nesting ground).stock.Leads (.within budget) (.within budget') := by
  induction budget generalizing nesting budget' ground with
  | zero =>
    have inner := (expression_level ample ground).1
    rcases ample.zero with full | rfl
    · exact ⟨fun _ => inner, refused_level full .statement (statement_refuses 0) (statement_refuses budget'),
        fun kind _ => refused_level full .function (function_refuses 0 kind) (function_refuses budget' kind), declaration_follows⟩
    · exact ⟨fun _ => inner, failHere_follows _, fun _ _ => failHere_follows (.nestedTooDeeply .function), declaration_follows⟩
  | succ budget ih =>
    have inner := (expression_level ample ground).1
    obtain ⟨more, rfl, further⟩ := ample.succ
    have leads := ih further
    exact ⟨fun _ => inner, nested_level (fun ground => (leads ground).wholeStatement) _ _,
      fun kind _ => function_level (fun ground => (leads ground).wholeFunctionBody) _ kind _, declaration_follows⟩

end Levels

theorem functionBody_level (budget nesting : Nat) (ground : Ground) :
    (level nesting ground).Follows (functionBody budget) (functionBody budget) := by
  cases budget with
  | zero => exact failHere_follows _
  | succ budget => exact nested_level (fun ground => (within_level (.inl rfl) ground).wholeFunctionBody) _ _

def Ground.here (state : Compilation) : Ground :=
  ⟨state.cursor, maxNesting + state.scope.finish.depth, state.enclosing.map (·.chunk.functions)⟩

theorem Grounded.here (state : Compilation) : Grounded state.nesting (.here state) state := by
  refine ⟨.refl _, rfl, ?_, fun function member => ?_, rfl⟩
  · simp only [Ground.here]
    omega
  · have inside : function ∈ state.scope.finish.chunk.functions := member
    exact Nat.le_add_left_of_le (Nat.le_of_lt (Proto.depth_of_mem inside))

/-- What actions do that move the cursor forward only, and leave the level of nesting as it was. -/
def forwards : Conduct CompileError Compilation :=
  .alike (fun before after => before.cursor.Ahead after.cursor ∧ after.nesting = before.nesting) (fun _ => ⟨.refl _, rfl⟩)
    fun one two => ⟨one.1.trans two.1, two.2.trans one.2⟩

abbrev Forward {α : Type} (action : Parse α) : Prop := forwards.Obeys action

instance : forwards.Rescopes :=
  Rescopes.within (inferInstance : stillness.Rescopes)
    ⟨fun goes => ⟨goes.cursor ▸ .refl _, goes.nesting⟩, fun fails => ⟨fails.cursor ▸ .refl _, fails.nesting⟩⟩

theorem forward_of_level (follows : ∀ nesting ground, (level nesting ground).Follows action action) : Forward action := by
  intro state
  have outcome := follows _ _ state state ⟨rfl, .here state⟩
  cases done : action state <;> rw [done] at outcome <;> cases outcome
  case ok.done paired => exact ⟨paired.2.ahead, paired.2.nests⟩
  case error.failed broken => exact ⟨broken.2.2.ahead, broken.2.2.nests⟩

/-- The phrases of the grammar, with a budget for what is further in. -/
inductive Parser (budget : Nat) : {α : Type} → Parse α → Prop where
  | expression : Parser budget (expression budget)
  | operand : Parser budget (operand budget)
  | wholeExpression : Parser budget (wholeExpression (Compile.expression budget) (Compile.operand budget))
  | logicalOr (canAssign : Bool) : Parser budget (logicalOr (Compile.expression budget) (Compile.operand budget) canAssign)
  | logicalAnd (canAssign : Bool) : Parser budget (logicalAnd (Compile.expression budget) (Compile.operand budget) canAssign)
  | unary (canAssign : Bool) : Parser budget (unary (Compile.expression budget) (Compile.operand budget) canAssign)
  | binary {tighter : Bool → Parse Unit} (inner : ∀ canAssign, Parser budget (tighter canAssign)) (operators : Operators)
      (isLevel : operators ∈ [equalityOperators, comparisonOperators, termOperators, factorOperators]) (canAssign : Bool) :
      Parser budget (binary operators tighter canAssign)
  | call (canAssign : Bool) : Parser budget (call (Compile.expression budget) canAssign)
  | primary (canAssign : Bool) : Parser budget (primary (Compile.expression budget) canAssign)
  | property (canAssign : Bool) : Parser budget (property (Compile.expression budget) canAssign)
  | arguments : Parser budget (arguments (Compile.expression budget))
  | namedVariable (name : String) (canAssign : Bool) : Parser budget (namedVariable (Compile.expression budget) name canAssign)
  | readVariable (name : String) : Parser budget (readVariable name)
  | thisExpression : Parser budget thisExpression
  | superExpression : Parser budget (superExpression (Compile.expression budget))
  | statement : Parser budget (statement budget)
  | wholeStatement : Parser budget (wholeStatement (.within budget))
  | printStatement : Parser budget (printStatement (.within budget))
  | expressionStatement : Parser budget (expressionStatement (.within budget))
  | returnStatement : Parser budget (returnStatement (.within budget))
  | ifStatement : Parser budget (ifStatement (.within budget))
  | whileStatement : Parser budget (whileStatement (.within budget))
  | forStatement : Parser budget (inScope (forClauses (.within budget)))
  | forInitializer : Parser budget (forInitializer (.within budget))
  | forCondition : Parser budget (forCondition (.within budget))
  | forIncrement (start : Nat) : Parser budget (forIncrement (.within budget) start)
  | block : Parser budget (block (.within budget))
  | blockStatement : Parser budget (inScope (Compile.block (.within budget)))
  | declaration : Parser budget (declaration (.within budget))
  | declarationOrFail : Parser budget (declarationOrFail (.within budget))
  | varDeclaration : Parser budget (varDeclaration (.within budget))
  | funDeclaration : Parser budget (funDeclaration (.within budget))
  | function (kind : FunctionKind) : Parser budget (function (Compile.functionBody budget) kind)
  | functionBody : Parser budget (functionBody budget)
  | wholeFunctionBody : Parser budget (wholeFunctionBody (.within budget))
  | parameter : Parser budget parameter
  | classDeclaration : Parser budget (classDeclaration (.within budget))
  | superclassClause (className : String) : Parser budget (superclassClause className)
  | classBody (className : String) : Parser budget (classBody (.within budget) className)
  | method : Parser budget (method (.within budget))
  | parseVariable (what : Expectation) : Parser budget (parseVariable what)
  | program : Parser budget program

theorem Parser.level (parser : Parser budget action) (nesting : Nat) (ground : Ground) :
    (level nesting ground).Follows action action := by
  obtain ⟨inner, innermost⟩ := @expression_level budget budget nesting (.inl rfl) ground
  have leads := @within_level budget budget nesting (.inl rfl) ground
  have function (kind : FunctionKind) (mode : Mode) : (Compile.level nesting ground).stock.Builds (fun _ => True) mode _ _ :=
    .given (leads.function kind mode)
  have given : (Compile.level nesting ground).stock.Builds (fun _ => True) .settled _ _ := .given inner
  have given' : (Compile.level nesting ground).stock.Builds (fun _ => True) .settled _ _ := .given innermost
  induction parser with
  | expression => exact inner
  | operand => exact innermost
  | wholeExpression => exact built_follows (.wholeExpression given given')
  | logicalOr canAssign => exact built_follows (.logicalOr given given' canAssign)
  | logicalAnd canAssign => exact built_follows (.logicalAnd given given' canAssign)
  | unary canAssign => exact built_follows (.unary given given' canAssign)
  | binary _ operators _ canAssign ih => exact built_follows (.binary operators (fun canAssign => .given (ih canAssign)) canAssign)
  | call canAssign => exact built_follows (.call given canAssign)
  | primary canAssign => exact built_follows (.primary given canAssign)
  | property canAssign => exact built_follows (.property given canAssign)
  | arguments => exact built_follows (.arguments given)
  | namedVariable name canAssign => exact built_follows (.namedVariable given name canAssign)
  | readVariable name => exact built_follows (.readVariable name)
  | thisExpression => exact built_follows .thisExpression
  | superExpression => exact built_follows (.superExpression given)
  | statement => exact leads.statement
  | wholeStatement => exact leads.wholeStatement
  | printStatement => exact built_follows (.printStatement given)
  | expressionStatement => exact built_follows (.expressionStatement given)
  | returnStatement => exact built_follows (.returnStatement given)
  | ifStatement => exact built_follows (.ifStatement given (.given leads.statement))
  | whileStatement => exact built_follows (.whileStatement given (.given leads.statement))
  | forStatement => exact leads.forStatement
  | forInitializer => exact built_follows (.forInitializer given (.varDeclaration trivial fun _ => .given inner))
  | forCondition => exact built_follows (.forCondition given)
  | forIncrement start => exact @follows_of_shifts _ _ _ _ _ _ .settled _ (.forIncrement given start)
  | block => exact leads.block
  | blockStatement => exact inScope_follows leads.block
  | declaration => exact leads.declaration
  | declarationOrFail => exact leads.declarationOrFail
  | varDeclaration => exact built_follows (.varDeclaration trivial fun _ => .given inner)
  | funDeclaration => exact built_follows (.funDeclaration trivial function)
  | function kind => exact leads.function kind .settled
  | functionBody => exact functionBody_level budget nesting ground
  | wholeFunctionBody => exact leads.wholeFunctionBody
  | parameter => exact built_follows (.parameter trivial)
  | classDeclaration => exact built_follows (.classDeclaration trivial fun name => .given (leads.classBody name))
  | superclassClause className => exact built_follows (.superclassClause trivial className)
  | classBody className => exact built_follows (.classBody trivial function className)
  | method => exact built_follows (.method function)
  | parseVariable what => exact built_follows (.parseVariable trivial what)
  | program => exact (within_level (.inl rfl) ground).program

theorem Parser.forward (parser : Parser budget action) : Forward action :=
  forward_of_level parser.level

/-- Where the action succeeds with such a value, it has passed a token. -/
def Consumes {α : Type} (action : Parse α) (answers : α → Prop) : Prop :=
  ∀ state value after, action state = .ok value after → answers value → state.cursor.position < after.cursor.position

section Consumes

variable {β : Type} {next : α → Parse β} {answers : β → Prop}

theorem Forward.position (forward : Forward action) {value : α} (done : action state = .ok value after) :
    state.cursor.position ≤ after.cursor.position := by
  have ahead := (forward.resultState id state).1
  rw [done] at ahead
  exact ahead.forward

theorem Consumes.before (one : Consumes action fun _ => True) (two : ∀ value, Forward (next value)) : Consumes (action >>= next) answers := by
  intro state result after done _
  obtain ⟨value, between, first, rest⟩ := bind_ok done
  exact Nat.lt_of_lt_of_le (one _ _ _ first trivial) ((two value).position rest)

theorem Consumes.behind (one : Forward action) (two : ∀ value, Consumes (next value) answers) : Consumes (action >>= next) answers := by
  intro state result after done said
  obtain ⟨value, between, first, rest⟩ := bind_ok done
  exact Nat.lt_of_le_of_lt (one.position first) (two value _ _ _ rest said)

theorem advance_position {cursor : Cursor} (real : cursor.peek.kind ≠ .eof) : cursor.position < cursor.advance.position := by
  unfold Cursor.advance
  rw [dif_pos (by simpa [Cursor.isAtEnd] using real)]
  exact Nat.lt_succ_self _

theorem Consumes.accepting {kind : Kind} (real : kind ≠ .eof) {next : Bool → Parse β} (yes : Forward (next true))
    (no : Consumes (next false) answers) : Consumes (accept kind >>= next) answers := by
  intro state result after done said
  obtain ⟨given, between, accepted, rest⟩ := bind_ok done
  cases given with
  | true =>
    obtain ⟨found, rfl⟩ := accept_true accepted
    exact Nat.lt_of_lt_of_le (advance_position (found ▸ real)) (yes.position rest)
  | false =>
    have unmoved : between = state := by
      unfold accept at accepted
      split at accepted <;> cases accepted
      rfl
    exact unmoved ▸ no _ _ _ rest said

theorem expect_consumes {kind : Kind} (real : kind ≠ .eof) (what : Expectation) : Consumes (expect kind what) fun _ => True := by
  intro state _ after done _
  obtain ⟨found, rfl⟩ := expect_ok done
  exact advance_position (found ▸ real)

theorem Consumes.pure {value : α} {answers : α → Prop} (silent : ¬ answers value) : Consumes (Pure.pure value) answers := by
  intro state _ after done said
  cases done
  exact absurd said silent

theorem Consumes.failHere {answers : α → Prop} (complaint : Complaint) : Consumes (Parse.failHere complaint) answers := by
  intro state value after done
  cases done

theorem Consumes.ite {condition : Prop} [Decidable condition] {answers : α → Prop} {other : Parse α} (yes : Consumes action answers)
    (no : Consumes other answers) : Consumes (if condition then action else other) answers := by
  split
  · exact yes
  · exact no

theorem expectName_consumes (what : Expectation) : Consumes (expectName what) fun _ => True :=
  (expect_consumes (by decide) what).before fun _ => (Obeys.read _).bind fun _ => .pure _

theorem Consumes.nested {phrase : StackScript.Phrase} (inner : Consumes body fun _ => True) :
    Consumes (nested phrase body) fun _ => True := by
  intro state _ after done _
  rw [nested_eq] at done
  split at done
  · cases done
  · unfold Reading.wrapped at done
    cases within : body state.deeper with
    | ok value between =>
      rw [within] at done
      cases done
      exact inner state.deeper _ between within trivial
    | error error between =>
      rw [within] at done
      cases done

end Consumes

section Progress

theorem expressionStatement_consumes : Consumes (expressionStatement (.within budget)) fun _ => True :=
  .behind (@Parser.expression budget).forward fun _ =>
    (expect_consumes (by decide) _).before fun _ => emit_obeys _

theorem statement_consumes : Consumes (statement budget) fun _ => True := by
  cases budget with
  | zero => exact .failHere _
  | succ budget =>
    refine .nested ?_
    refine .accepting (by decide) (@Parser.printStatement budget).forward ?_
    refine .accepting (by decide) (@Parser.ifStatement budget).forward ?_
    refine .accepting (by decide) (@Parser.returnStatement budget).forward ?_
    refine .accepting (by decide) (@Parser.whileStatement budget).forward ?_
    refine .accepting (by decide) (@Parser.forStatement budget).forward ?_
    refine .accepting (by decide) (@Parser.blockStatement budget).forward ?_
    exact expressionStatement_consumes

theorem declarationOrFail_consumes : Consumes (declarationOrFail (.within budget)) fun _ => True := by
  refine .accepting (by decide) (@Parser.classDeclaration budget).forward ?_
  refine .accepting (by decide) (@Parser.funDeclaration budget).forward ?_
  exact .accepting (by decide) (@Parser.varDeclaration budget).forward statement_consumes

theorem declaration_progress (more : state.cursor.isAtEnd = false) :
    state.cursor.position < (resultState (declaration (.within budget) state)).cursor.position := by
  have forward := (@Parser.declarationOrFail budget).forward state
  unfold declaration
  cases done : declarationOrFail (.within budget) state with
  | ok _ after => exact declarationOrFail_consumes _ _ _ done trivial
  | error error after =>
    rw [done] at forward
    have ahead := forward.1
    show state.cursor.position < after.cursor.synchronize.position
    rcases Nat.eq_or_lt_of_le ahead.forward with same | further
    · have unmoved : after.cursor = state.cursor := ahead.eq_of_position same
      rw [unmoved, Cursor.synchronize]
      have real : state.cursor.peek.kind ≠ .eof := by simpa [Cursor.isAtEnd] using more
      exact Nat.lt_of_lt_of_le (advance_position real) (Cursor.Ahead.toBoundary _).forward
    · exact Nat.lt_of_lt_of_le further (Cursor.Ahead.synchronize _).forward

theorem equality_parses (budget : Nat) (canAssign : Bool) :
    Parser budget (equality (expression budget) (operand budget) canAssign) := by
  refine .binary (fun _ => .binary (fun _ => .binary (fun _ => .binary .unary _ ?_ _) _ ?_ _) _ ?_ _) _ ?_ _
  all_goals simp

/-- The loops of the grammar: what is repeated as long as it wants to be. -/
inductive Loop (budget : Nat) : Parse Bool → Prop where
  | orSuffix : Loop budget (orSuffix (logicalAnd (expression budget) (operand budget) false))
  | andSuffix : Loop budget (andSuffix (equality (expression budget) (operand budget) false))
  | binarySuffix {tighter : Bool → Parse Unit} (inner : ∀ canAssign, Parser budget (tighter canAssign)) (operators : Operators)
      (isLevel : operators ∈ [equalityOperators, comparisonOperators, termOperators, factorOperators]) :
      Loop budget (binarySuffix operators (tighter false))
  | callSuffix (canAssign : Bool) : Loop budget (callSuffix (expression budget) canAssign)
  | methodSuffix : Loop budget (methodSuffix (.within budget))
  | parameter : Loop budget parameter
  | blockSuffix : Loop budget (blockSuffix (.within budget))
  | programSuffix : Loop budget programSuffix

theorem Loop.level (loop : Loop budget again) (nesting : Nat) (ground : Ground) :
    (Compile.level nesting ground).Follows again again := by
  obtain ⟨inner, innermost⟩ := @expression_level budget budget nesting (.inl rfl) ground
  have leads := @within_level budget budget nesting (.inl rfl) ground
  cases loop with
  | orSuffix => exact built_follows (.orSuffix (.logicalAnd (.given inner) (.given innermost) false))
  | andSuffix => exact built_follows (.andSuffix (.equality (.given inner) (.given innermost) false))
  | binarySuffix tighter operators => exact built_follows (.binarySuffix operators (.given ((tighter false).level nesting ground)))
  | callSuffix canAssign => exact built_follows (.callSuffix (.given inner) canAssign)
  | methodSuffix => exact built_follows (.methodSuffix fun kind mode => .given (leads.function kind mode))
  | parameter => exact built_follows (.parameter trivial)
  | blockSuffix => exact built_follows (.another (.given leads.declaration))
  | programSuffix => exact (within_level (.inl rfl) ground).programSuffix

theorem Loop.forward (loop : Loop budget again) : Forward again :=
  forward_of_level loop.level

theorem accept_forward (kind : Kind) : Forward (accept kind) := by
  intro state
  unfold accept
  split
  · exact ⟨.advance _, rfl⟩
  · exact forwards.refl state

theorem declarations_consume {stop : Compilation → Bool} (more : ∀ state, stop state = false → state.cursor.isAtEnd = false) :
    Consumes (do if ← read stop then return false else declaration (.within budget); return true) (· = true) := by
  intro state goesOn after done said
  have done := read_ok done
  cases stops : stop state with
  | true =>
    rw [stops] at done
    cases done
    cases said
  | false =>
    rw [stops] at done
    have progress := @declaration_progress state budget (more state stops)
    obtain ⟨_, between, declared, done⟩ := bind_ok done
    cases done
    rw [declared] at progress
    exact progress

theorem Loop.consumes (loop : Loop budget again) : Consumes again (· = true) := by
  have stops : Consumes (Pure.pure false : Parse Bool) (· = true) := .pure (by decide)
  have again : Forward (Pure.pure true : Parse Bool) := .pure true
  cases loop with
  | orSuffix =>
    refine .accepting (by decide) ?_ stops
    refine (emitJump_obeys _).bind fun _ => (emitJump_obeys _).bind fun _ => ?_
    refine (patchJump_obeys _).bind fun _ => (emit_obeys _).bind fun _ => ?_
    exact (@Parser.logicalAnd budget false).forward.bind fun _ => (patchJump_obeys _).bind fun _ => again
  | andSuffix =>
    refine .accepting (by decide) ?_ stops
    refine (emitJump_obeys _).bind fun _ => (emit_obeys _).bind fun _ => ?_
    exact (equality_parses budget false).forward.bind fun _ => (patchJump_obeys _).bind fun _ => again
  | @binarySuffix tighter inner operators isLevel =>
    intro state more after done goesOn
    have noEnd : operators .eof = none := by
      simp only [List.mem_cons, List.not_mem_nil, or_false] at isLevel
      rcases isLevel with rfl | rfl | rfl | rfl <;> rfl
    rw [Compile.binarySuffix, Reading.peek_bind] at done
    cases found : operators state.cursor.peek.kind with
    | none =>
      rw [found] at done
      cases done
      cases goesOn
    | some ops =>
      rw [found] at done
      have real : state.cursor.peek.kind ≠ .eof := by
        intro ended
        rw [ended, noEnd] at found
        cases found
      have rest : Forward (do tighter false; emitAll ops; return true) :=
        (inner false).forward.bind fun _ => (emitAll_obeys ops).bind fun _ => again
      exact Nat.lt_of_lt_of_le (advance_position real) (rest.position (update_bind_ok done))
  | callSuffix canAssign =>
    refine .accepting (by decide) ?_ (.accepting (by decide) ?_ stops)
    · refine (@Parser.arguments budget).forward.bind fun _ => (emit_obeys _).bind fun _ => ?_
      exact (emitByte_obeys _).bind fun _ => again
    · exact (@Parser.property budget canAssign).forward.bind fun _ => again
  | methodSuffix =>
    refine .behind (.read _) fun _ => .behind (.read _) fun _ => .ite stops ?_
    refine .before ((expectName_consumes _).before fun name => ?_) fun _ => again
    refine (makeString_obeys name).bind fun entry => (@Parser.function budget _).forward.bind fun _ => ?_
    exact emitWith_obeys .method entry
  | parameter =>
    refine .behind (.read _) fun _ => .ite (.failHere _) (.behind ?_ fun _ => ?_)
    · exact .update fun _ => ⟨.refl _, rfl⟩
    · refine .before ((expectName_consumes _).before fun name => declareVariable_obeys.bind fun _ => ?_) fun global? => ?_
      · refine (Obeys.read _).bind fun _ => .ite (.pure _) ?_
        exact (makeString_obeys name).bind fun _ => .pure _
      · exact (defineVariable_obeys fun _ => global?).bind fun _ => accept_forward _
  | blockSuffix =>
    have stop (state : Compilation) (goes : (state.cursor.check .rightBrace || state.cursor.isAtEnd) = false) :
        state.cursor.isAtEnd = false := (Bool.or_eq_false_iff.mp goes).2
    exact declarations_consume stop
  | programSuffix => exact declarations_consume fun _ => id

theorem repeatUpTo_eq (forward : Forward again) (consumes : Consumes again (· = true)) {bound bound' : Nat}
    (enough : state.cursor.remaining < bound) (enough' : state.cursor.remaining < bound') :
    repeatUpTo again bound state = repeatUpTo again bound' state := by
  induction bound generalizing bound' state with
  | zero => exact absurd enough (Nat.not_lt_zero _)
  | succ bound ih =>
    cases bound' with
    | zero => exact absurd enough' (Nat.not_lt_zero _)
    | succ bound' =>
      rw [repeatUpTo, repeatUpTo]
      cases once : again state with
      | error error after => rw [bind_error once, bind_error once]
      | ok more after =>
        rw [bind_eq once, bind_eq once]
        cases more with
        | false => rfl
        | true =>
          have ahead := (forward.resultState id state).1
          rw [once] at ahead
          have less : after.cursor.remaining < state.cursor.remaining := ahead.remaining_lt (consumes _ _ _ once rfl)
          exact ih (by omega) (by omega)

theorem argumentsFrom_eq {bound bound' count : Nat} (enough : state.cursor.remaining < bound)
    (enough' : state.cursor.remaining < bound') :
    argumentsFrom (expression budget) bound count state = argumentsFrom (expression budget) bound' count state := by
  induction bound generalizing bound' count state with
  | zero => exact absurd enough (Nat.not_lt_zero _)
  | succ bound ih =>
    cases bound' with
    | zero => exact absurd enough' (Nat.not_lt_zero _)
    | succ bound' =>
      rw [argumentsFrom, argumentsFrom]
      cases value : expression budget state with
      | error error after => rw [bind_error value, bind_error value]
      | ok _ between =>
        rw [bind_eq value, bind_eq value]
        by_cases full : count = maxArguments
        · rw [if_pos full, if_pos full]
        · rw [if_neg full, if_neg full]
          have passed := (@Parser.expression budget).forward state
          rw [value] at passed
          cases comma : accept .comma between with
          | error error after => rw [bind_error comma, bind_error comma]
          | ok given after =>
            rw [bind_eq comma, bind_eq comma]
            cases given with
            | false => rfl
            | true =>
              obtain ⟨found, rfl⟩ := accept_true comma
              have real : between.cursor.peek.kind ≠ .eof := by rw [found]; decide
              have less := (Cursor.Ahead.advance between.cursor).remaining_lt (advance_position real)
              have kept : between.cursor.remaining ≤ state.cursor.remaining := passed.1.remaining
              have still : between.cursor.advance.remaining < bound := by omega
              have still' : between.cursor.advance.remaining < bound' := by omega
              exact ih still still'

end Progress

theorem eq_of_level {action action' : Parse Unit} (follows : ∀ ground, (level state.nesting ground).Follows action action') :
    action state = action' state := by
  have outcome := follows _ state state ⟨rfl, .here state⟩
  cases done : action state <;> cases done' : action' state <;> rw [done, done'] at outcome <;> cases outcome
  case ok.ok.done paired => rw [paired.1]
  case error.error.failed broken => rw [broken.1, broken.2.1]

theorem finalState_shallow (tokens : Array Token) :
    ∀ function ∈ (finalState tokens).scope.chunk.functions, function.depth ≤ maxNesting := by
  have started : Grounded 0 ⟨(Compilation.start tokens).cursor, maxNesting, []⟩ (.start tokens) :=
    ⟨.refl _, rfl, Nat.le_refl _, nofun, rfl⟩
  have outcome := (within_level (.inl rfl) _).program _ _ ⟨rfl, started⟩
  unfold finalState
  cases done : program (.start tokens) <;> rw [done] at outcome <;> cases outcome
  case ok.done paired => exact paired.2.shallow
  case error.failed broken => exact broken.2.2.shallow

theorem nested_within (phrase : StackScript.Phrase) (body beyond : Parse Unit) (state : Compilation) :
    nested phrase body state =
      nested phrase (fun inside => if inside.nesting ≤ maxNesting then body inside else beyond inside) state := by
  unfold nested
  split
  · rfl
  · next room =>
    have inside : state.deeper.nesting ≤ maxNesting := Nat.lt_of_not_ge room
    dsimp only
    rw [if_pos inside]

end Compile

open Compile Reading in
/-- Compilation ends, and goes on with every step. A declaration passes a token, whether it succeeds or fails. No phrase moves
the cursor backwards or past an end of the text, and each leaves the level of nesting as it was, which stays within its
limit. So neither the bounds of the loops nor the budget of the recursion are ever what ends them: larger ones give the same.
The result is a script in which functions nest only so deep, or a list of complaints that is not empty. -/
theorem compilation_progresses :
    (∀ (budget : Nat) (state : Compilation), state.cursor.isAtEnd = false →
      state.cursor.position < (resultState (declaration (.within budget) state)).cursor.position) ∧
    (∀ (budget : Nat) {α : Type} (action : Parse α), Parser budget action → ∀ state : Compilation,
      state.cursor.Ahead (resultState (action state)).cursor ∧ (resultState (action state)).nesting = state.nesting) ∧
    (∀ (phrase : StackScript.Phrase) (body beyond : Parse Unit) (state : Compilation), Parse.nested phrase body state =
      Parse.nested phrase (fun inside => if inside.nesting ≤ maxNesting then body inside else beyond inside) state) ∧
    (∀ (budget : Nat) (again : Parse Bool), Loop budget again → ∀ (state : Compilation) (bound : Nat),
      state.cursor.remaining < bound → Parse.repeatUpTo again bound state = Parse.whileProgress again state) ∧
    (∀ (budget count : Nat) (state : Compilation) (bound : Nat), state.cursor.remaining < bound →
      argumentsFrom (expression budget) bound count state =
        argumentsFrom (expression budget) (state.cursor.remaining + 1) count state) ∧
    (∀ (budget larger : Nat) (state : Compilation), maxNesting ≤ state.nesting + budget → budget ≤ larger →
      declaration (.within budget) state = declaration (.within larger) state) ∧
    ∀ tokens : Array Token, (∃ script, compile tokens = .ok script ∧ script.depth ≤ maxNesting + 1) ∨
      ∃ errors, compile tokens = .error errors ∧ errors ≠ [] := by
  refine ⟨fun budget state => declaration_progress, fun budget α action parser => parser.forward.resultState id, nested_within,
    fun budget again loop state bound enough => ?_, fun budget count state bound enough => ?_,
    fun budget larger state ample more => ?_, fun tokens => ?_⟩
  · exact repeatUpTo_eq loop.forward loop.consumes enough (Nat.lt_succ_self _)
  · exact argumentsFrom_eq enough (Nat.lt_succ_self _)
  · exact eq_of_level fun ground => (within_level (.inr ⟨ample, more⟩) ground).declaration
  · unfold compile
    dsimp only
    split
    · exact .inl ⟨_, rfl, Proto.depth_le (finalState_shallow tokens)⟩
    · next noted =>
      refine .inr ⟨_, rfl, fun empty => noted ?_⟩
      simpa using empty

open Compile Reading in
/-- A parenthesis that begins nothing: it is passed, and there is a complaint. -/
theorem compilation_progresses_stray : ∃ tokens : Array Token, tokens.map Token.kind = #[.rightParen] ∧
    0 < (resultState (declaration (.within maxNesting) (.start tokens))).cursor.position ∧
    ∃ errors, compile tokens = .error errors ∧ errors ≠ [] := by
  let tokens : Array Token := #[⟨.rightParen, ")", none, ⟨0, 1, 1, 1⟩⟩]
  obtain ⟨progress, -, -, -, -, -, ends⟩ := compilation_progresses
  refine ⟨tokens, by simp [tokens], progress maxNesting (.start tokens) (by decide +kernel), ?_⟩
  rcases ends tokens with ⟨script, compiled, -⟩ | failed
  · have fails : (compile tokens).toBool = false := by decide +kernel
    rw [compiled] at fails
    cases fails
  · exact failed

end StackScript
