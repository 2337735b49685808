import StackScript.Proofs.Lockstep
import StackScript.Proofs.SourceCode

/-!
Layout does not change the program. Two texts whose tokens agree, whatever stands between them, compile to functions that
differ in their line tables only, or they give the same complaints about the same words. The compilations run in lockstep:
no place of a token decides what is parsed or emitted.
-/

namespace StackScript

variable {tokens tokens' : Array Token}

/-- The tokens differ in their places only. -/
structure Token.Alike (left right : Token) : Prop where
  kind : left.kind = right.kind
  lexeme : left.lexeme = right.lexeme
  literal : left.literal = right.literal

theorem Token.Alike.bare {left right : Token} (alike : left.Alike right) : left.bare = right.bare := by
  rw [Token.bare, Token.bare, alike.kind, alike.lexeme, alike.literal]

instance (left right : Token) : Decidable (left.Alike right) :=
  decidable_of_iff (left.kind = right.kind ∧ left.lexeme = right.lexeme ∧ left.literal = right.literal)
    ⟨fun ⟨kind, lexeme, literal⟩ => ⟨kind, lexeme, literal⟩, fun alike => ⟨alike.kind, alike.lexeme, alike.literal⟩⟩

theorem forall₂_map_eq {α β : Type} {related : α → α → Prop} {view : α → β} (same : ∀ left right, related left right → view left = view right)
    {left right : List α} (all : List.Forall₂ related left right) : left.map view = right.map view := by
  have mapped : List.Forall₂ Eq (left.map view) (right.map view) :=
    List.forall₂_map_left_iff.mpr (List.forall₂_map_right_iff.mpr (all.imp same))
  rwa [List.forall₂_eq_eq_eq] at mapped

/-- The functions differ in their line tables only, and so do those nested in them. -/
inductive Proto.Alike : Proto → Proto → Prop where
  | intro {left right : Proto} (name : left.name = right.name) (arity : left.arity = right.arity)
      (captures : left.captures = right.captures) (code : left.chunk.code = right.chunk.code)
      (constants : left.chunk.constants = right.chunk.constants) (strings : left.chunk.strings = right.chunk.strings)
      (functions : List.Forall₂ Proto.Alike left.chunk.functions.toList right.chunk.functions.toList) : Proto.Alike left right

structure Chunk.Alike (left right : Chunk Proto) : Prop where
  code : left.code = right.code
  constants : left.constants = right.constants
  strings : left.strings = right.strings
  functions : List.Forall₂ Proto.Alike left.functions.toList right.functions.toList

structure Cursor.Alike (left right : Cursor) : Prop where
  tokens : List.Forall₂ Token.Alike left.tokens.toList right.tokens.toList
  position : left.position = right.position

namespace Cursor.Alike

variable {left right : Cursor}

section

variable (alike : left.Alike right)
include alike

theorem token {i j : Nat} (same : i = j) (inside : i < left.tokens.size) (inside' : j < right.tokens.size) :
    left.tokens[i].Alike right.tokens[j] := by
  subst same
  exact alike.tokens.get inside inside'

theorem peek : left.peek.Alike right.peek :=
  alike.token alike.position left.inside right.inside

theorem previous : left.previous.Alike right.previous :=
  alike.token (congrArg (· - 1) alike.position) _ _

theorem remaining : left.remaining = right.remaining := by
  have size : left.tokens.size = right.tokens.size := by simpa using alike.tokens.length_eq
  rw [Cursor.remaining, Cursor.remaining, size, alike.position]

theorem isAtEnd : left.isAtEnd = right.isAtEnd := by
  rw [Cursor.isAtEnd, Cursor.isAtEnd, alike.peek.kind]

theorem advance : left.advance.Alike right.advance := by
  unfold Cursor.advance
  simp only [alike.isAtEnd]
  split
  · exact ⟨alike.tokens, congrArg (· + 1) alike.position⟩
  · exact alike

theorem toBoundary : left.toBoundary.Alike right.toBoundary := by
  have boundary {left right : Cursor} (alike : left.Alike right) : left.atBoundary = right.atBoundary := by
    rw [Cursor.atBoundary, Cursor.atBoundary, alike.previous.kind, alike.peek.kind]
  fun_induction Cursor.toBoundary left generalizing right with
  | case1 left more ends =>
    rw [Cursor.toBoundary.eq_def right, dif_pos (alike.isAtEnd ▸ more), if_pos (boundary alike ▸ ends)]
    exact alike
  | case2 left more goes ih =>
    rw [Cursor.toBoundary.eq_def right, dif_pos (alike.isAtEnd ▸ more), if_neg (boundary alike ▸ goes)]
    exact ih alike.advance
  | case3 left ended =>
    rw [Cursor.toBoundary.eq_def right, dif_neg (alike.isAtEnd ▸ ended)]
    exact alike

theorem synchronize : left.synchronize.Alike right.synchronize :=
  alike.advance.toBoundary

end

end Cursor.Alike

namespace Compile

open Parse Reading

variable {chunk chunk' : Chunk Proto} {outers outers' : List FunctionScope}

structure FunctionScope.Alike (left right : FunctionScope) : Prop where
  kind : left.kind = right.kind
  name : left.name = right.name
  arity : left.arity = right.arity
  chunk : left.chunk.Alike right.chunk
  locals : left.locals = right.locals
  captures : left.captures = right.captures
  depth : left.depth = right.depth

namespace FunctionScope.Alike

variable {left right : FunctionScope}

theorem finish (alike : left.Alike right) : left.finish.Alike right.finish :=
  .intro alike.name alike.arity alike.captures alike.chunk.code alike.chunk.constants alike.chunk.strings alike.chunk.functions

theorem enter (kind : FunctionKind) (name : String) : (FunctionScope.enter kind name).Alike (.enter kind name) :=
  ⟨rfl, rfl, rfl, ⟨rfl, rfl, rfl, .nil⟩, rfl, rfl, rfl⟩

theorem rescoped (alike : left.Alike right) (locals : Array Local) (depth arity : Nat) :
    FunctionScope.Alike { left with locals, depth, arity } { right with locals, depth, arity } :=
  ⟨alike.kind, alike.name, rfl, alike.chunk, rfl, alike.captures, rfl⟩

theorem rechunked (alike : left.Alike right) (alike' : chunk.Alike chunk') :
    FunctionScope.Alike { left with chunk } { right with chunk := chunk' } :=
  ⟨alike.kind, alike.name, alike.arity, alike', alike.locals, alike.captures, alike.depth⟩

theorem markCaptured (alike : left.Alike right) (slot : Nat) : (left.markCaptured slot).Alike (right.markCaptured slot) := by
  refine ⟨alike.kind, alike.name, alike.arity, alike.chunk, ?_, alike.captures, alike.depth⟩
  rw [FunctionScope.markCaptured, FunctionScope.markCaptured, alike.locals]

theorem slotOf? (alike : left.Alike right) (name : String) : left.slotOf? name = right.slotOf? name := by
  rw [FunctionScope.slotOf?, FunctionScope.slotOf?, alike.locals]

end FunctionScope.Alike

structure Threading.Alike (left right : Threading) : Prop where
  index : left.index = right.index
  inner : left.inner.Alike right.inner
  outers : List.Forall₂ FunctionScope.Alike left.outers right.outers

theorem Threading.Alike.capture {left right : FunctionScope} (alike : left.Alike right)
    (around : List.Forall₂ FunctionScope.Alike outers outers') (capture : Capture) :
    (Threading.capture left outers capture).Alike (.capture right outers' capture) := by
  unfold Threading.capture FunctionScope.addCapture
  rw [← alike.captures]
  cases left.captures.idxOf? capture with
  | some index => exact ⟨rfl, alike, around⟩
  | none =>
    by_cases full : left.captures.size = maxCaptures
    · simp only [if_pos full]
      exact ⟨rfl, alike, around⟩
    · simp only [if_neg full]
      exact ⟨rfl, ⟨alike.kind, alike.name, alike.arity, alike.chunk, alike.locals, rfl, alike.depth⟩, around⟩

theorem thread_alike {left right : FunctionScope} (alike : left.Alike right)
    (around : List.Forall₂ FunctionScope.Alike outers outers') (name : String) :
    (thread name left outers).Alike (thread name right outers') := by
  induction around generalizing left right with
  | nil => exact ⟨rfl, alike, .nil⟩
  | @cons outer outer' further further' first rest ih =>
    have around := ih first
    unfold thread
    rw [← first.slotOf? name]
    cases outer.slotOf? name with
    | error complaint => exact ⟨rfl, alike, .cons first rest⟩
    | ok slot =>
      cases slot with
      | some slot => exact .capture alike (.cons (first.markCaptured slot) rest) _
      | none =>
        dsimp only
        rw [← around.index]
        cases (thread name outer further).index with
        | error complaint => exact ⟨rfl, alike, .cons around.inner around.outers⟩
        | ok index =>
          cases index with
          | some index => exact .capture alike (.cons around.inner around.outers) _
          | none => exact ⟨rfl, alike, .cons around.inner around.outers⟩

/-- The complaints are the same, about the same words. -/
def Echoes (left right : CompileError) : Prop :=
  left.what = right.what ∧ left.lexeme = right.lexeme

/-- The compilations differ in the places of their tokens only. -/
structure Relaid (left right : Compilation) : Prop where
  cursor : left.cursor.Alike right.cursor
  scope : left.scope.Alike right.scope
  enclosing : List.Forall₂ FunctionScope.Alike left.enclosing right.enclosing
  classes : left.classes = right.classes
  errors : List.Forall₂ Echoes left.errors.toList right.errors.toList
  nesting : left.nesting = right.nesting

def relayout : Lockstep := ⟨Relaid, fun error error' left right => Echoes error error' ∧ Relaid left right⟩

namespace Relaid

variable {left right : Compilation}

section

variable (relaid : Relaid left right)
include relaid

theorem sight : Sight left right :=
  ⟨relaid.cursor.peek.bare, relaid.cursor.previous.bare, relaid.cursor.remaining, relaid.scope.kind, relaid.scope.arity,
    relaid.scope.locals, relaid.scope.depth, relaid.classes, relaid.nesting, congrArg Array.size relaid.scope.chunk.code⟩

theorem rescoped {scope scope' : FunctionScope} (alike : scope.Alike scope') :
    Relaid { left with scope } { right with scope := scope' } :=
  ⟨relaid.cursor, alike, relaid.enclosing, relaid.classes, relaid.errors, relaid.nesting⟩

theorem scopes {locals locals' : Array Local} {depth depth' arity arity' : Nat}
    (sameLocals : locals = locals') (sameDepth : depth = depth') (sameArity : arity = arity') :
    Relaid (left.rescoped locals depth arity) (right.rescoped locals' depth' arity') := by
  subst sameLocals sameDepth sameArity
  exact relaid.rescoped (relaid.scope.rescoped locals depth arity)

theorem reclassed (classes : List ClassScope) : Relaid { left with classes } { right with classes } :=
  ⟨relaid.cursor, relaid.scope, relaid.enclosing, rfl, relaid.errors, relaid.nesting⟩

theorem deeper : Relaid left.deeper right.deeper :=
  ⟨relaid.cursor, relaid.scope, relaid.enclosing, relaid.classes, relaid.errors, congrArg (· + 1) relaid.nesting⟩

theorem shallower : Relaid left.shallower right.shallower :=
  ⟨relaid.cursor, relaid.scope, relaid.enclosing, relaid.classes, relaid.errors, congrArg (· - 1) relaid.nesting⟩

theorem rechunked (alike : chunk.Alike chunk') :
    Relaid { left with scope := { left.scope with chunk } } { right with scope := { right.scope with chunk := chunk' } } :=
  relaid.rescoped (relaid.scope.rechunked alike)

theorem emits (bytes : List UInt8) : Relaid (emitBytes left bytes) (emitBytes right bytes) := by
  induction bytes generalizing left right with
  | nil => exact relaid
  | cons byte bytes ih =>
    have chunk := relaid.scope.chunk
    exact ih (relaid.rechunked ⟨congrArg (Array.push · byte) chunk.code, chunk.constants, chunk.strings, chunk.functions⟩)

theorem remarkHere (complaint : Complaint) :
    Echoes (left.cursor.remarkHere complaint) (right.cursor.remarkHere complaint) := by
  have alike := relaid.cursor.peek
  refine ⟨rfl, ?_⟩
  show left.cursor.peek.quoted = right.cursor.peek.quoted
  rw [Token.quoted, Token.quoted, alike.kind, alike.lexeme]

theorem remarkBehind (complaint : Complaint) :
    Echoes (left.cursor.remarkBehind complaint) (right.cursor.remarkBehind complaint) := by
  have alike := relaid.cursor.previous
  refine ⟨rfl, ?_⟩
  show left.cursor.previous.quoted = right.cursor.previous.quoted
  rw [Token.quoted, Token.quoted, alike.kind, alike.lexeme]

end

end Relaid

section Actions

variable {α : Type} {known : Nat → Prop}

theorem read_relaid {view : Compilation → α} (same : ∀ {left right}, Relaid left right → view left = view right) :
    relayout.Follows (read view) (read view) := by
  intro left right relaid
  change relayout.Outcome (.ok (view left) left) (.ok (view right) right)
  rw [same relaid]
  exact .done relaid

theorem update_relaid {change : Compilation → Compilation}
    (kept : ∀ {left right}, Relaid left right → Relaid (change left) (change right)) :
    relayout.Follows (update change) (update change) :=
  fun _ _ relaid => .done (kept relaid)

theorem failBehind_relaid (complaint : Complaint) : relayout.Follows (failBehind complaint : Parse α) (failBehind complaint) :=
  fun _ _ relaid => .failed ⟨relaid.remarkBehind complaint, relaid⟩

theorem emitBytes_relaid (bytes : List UInt8) : relayout.Follows (update (emitBytes · bytes)) (update (emitBytes · bytes)) :=
  update_relaid fun relaid => relaid.emits bytes

theorem patchJump_relaid (jump : Nat) : relayout.Follows (patchJump jump) (patchJump jump) := by
  refine (read_relaid fun relaid => ?_).bind fun distance => ?_
  · exact congrArg (Array.size · - jump - 2) relaid.scope.chunk.code
  · split
    · exact failBehind_relaid _
    · refine update_relaid fun relaid => relaid.rechunked ?_
      have chunk := relaid.scope.chunk
      refine ⟨?_, chunk.constants, chunk.strings, chunk.functions⟩
      rw [Chunk.writeAt, Chunk.writeAt, Chunk.writeAt, Chunk.writeAt, chunk.code]

theorem emitLoop_relaid (mark : Nat) : relayout.Follows (emitLoop mark) (emitLoop mark) := by
  refine (emitBytes_relaid [_]).bind fun _ => (read_relaid fun relaid => ?_).bind fun distance => ?_
  · exact congrArg (Array.size · - mark + 2) relaid.scope.chunk.code
  · split
    · exact failBehind_relaid _
    · exact emitBytes_relaid [_, _]

theorem makeConstant_relaid (value : Value) : relayout.Follows (makeConstant value) (makeConstant value) := by
  refine (read_relaid fun relaid => congrArg Array.size relaid.scope.chunk.constants).bind fun index => .bind ?_ fun _ => ?_
  · refine update_relaid fun relaid => relaid.rechunked ?_
    have chunk := relaid.scope.chunk
    exact ⟨chunk.code, congrArg (Array.push · _) chunk.constants, chunk.strings, chunk.functions⟩
  · split
    · exact failBehind_relaid _
    · exact fun _ _ => .done

theorem makeString_relaid (text : String) : relayout.Follows (makeString text) (makeString text) := by
  rw [makeString_eq]
  split
  · refine (read_relaid fun relaid => congrArg ByteArray.size relaid.scope.chunk.strings).bind fun entry => .bind ?_ fun _ => ?_
    · refine update_relaid fun relaid => relaid.rechunked ?_
      have chunk := relaid.scope.chunk
      refine ⟨chunk.code, chunk.constants, ?_, chunk.functions⟩
      rw [Chunk.addString, Chunk.addString, chunk.strings]
    · split
      · exact failBehind_relaid _
      · exact fun _ _ => .done
  · exact failBehind_relaid _

theorem resolveCapture_relaid (name : String) : relayout.Follows (resolveCapture name) (resolveCapture name) := by
  intro left right relaid
  have alike := thread_alike relaid.scope relaid.enclosing name
  have threaded : Relaid (left.threaded name) (right.threaded name) :=
    ⟨relaid.cursor, alike.inner, alike.outers, relaid.classes, relaid.errors, relaid.nesting⟩
  unfold resolveCapture
  dsimp only
  rw [← alike.index]
  cases (thread name left.scope left.enclosing).index with
  | ok index => exact .done threaded
  | error complaint => exact .failed ⟨threaded.remarkBehind complaint, threaded⟩

theorem endScope_rescoped (state : Compilation) :
    let leaving := state.scope.locals.toList.reverse.takeWhile (·.isDeeperThan (state.scope.depth - 1))
    let staying := state.scope.locals.shrink (state.scope.locals.size - leaving.length)
    state.endScope = (emitBytes state (closing leaving)).rescoped staying (state.scope.depth - 1)
      (emitBytes state (closing leaving)).scope.arity := by
  intro leaving staying
  unfold emitBytes closing
  rw [List.foldl_map]
  rfl

theorem Relaid.endScope {left right : Compilation} (relaid : Relaid left right) : Relaid left.endScope right.endScope := by
  rw [endScope_rescoped, endScope_rescoped, ← relaid.scope.locals, ← relaid.scope.depth]
  have closes := relaid.emits (closing (left.scope.locals.toList.reverse.takeWhile (·.isDeeperThan (left.scope.depth - 1))))
  exact closes.scopes rfl rfl closes.scope.arity

theorem markInitialized_relaid {left right : Compilation} (relaid : Relaid left right) :
    Relaid left.markInitialized right.markInitialized := by
  unfold Compilation.markInitialized
  rw [← relaid.scope.depth, ← relaid.scope.locals]
  split
  · exact relaid
  · exact relaid.scopes rfl relaid.scope.depth relaid.scope.arity

theorem small_relaid {mode : Mode} (action : Act α) (proper : action.Proper True mode known) : relayout.Follows action.run action.run := by
  have sizes {left right : Compilation} (relaid : Relaid left right) : left.scope.locals.size = right.scope.locals.size :=
    congrArg Array.size relaid.scope.locals
  cases action with
  | read view => exact read_relaid fun relaid => proper _ _ relaid.sight
  | depth => exact read_relaid fun relaid => relaid.scope.depth
  | declares name => exact read_relaid fun relaid => by rw [declaresName, declaresName, relaid.scope.locals, relaid.scope.depth]
  | failHere complaint => exact fun _ _ relaid => .failed ⟨relaid.remarkHere complaint, relaid⟩
  | failBehind complaint => exact failBehind_relaid complaint
  | advance =>
    exact update_relaid fun relaid =>
      ⟨relaid.cursor.advance, relaid.scope, relaid.enclosing, relaid.classes, relaid.errors, relaid.nesting⟩
  | emit op => exact emitBytes_relaid [op.toByte]
  | emitWith op operand => exact emitBytes_relaid (bytesWith op operand)
  | emitCount count => exact emitBytes_relaid [count.toUInt8]
  | patchJump jump => exact patchJump_relaid jump
  | emitLoop start => exact emitLoop_relaid start
  | makeConstant value => exact makeConstant_relaid value
  | makeString text => exact makeString_relaid text
  | resolveCapture name => exact resolveCapture_relaid name
  | beginScope =>
    exact update_relaid fun relaid => relaid.scopes relaid.scope.locals (congrArg (· + 1) relaid.scope.depth) relaid.scope.arity
  | endScope => exact update_relaid Relaid.endScope
  | addLocal name =>
    refine (read_relaid sizes).bind fun size => ?_
    split
    · exact failBehind_relaid _
    · exact update_relaid fun relaid =>
        relaid.scopes (congrArg (Array.push · _) relaid.scope.locals) relaid.scope.depth relaid.scope.arity
  | markInitialized => exact update_relaid markInitialized_relaid
  | countParameter =>
    refine (read_relaid fun relaid => relaid.scope.arity).bind fun arity => ?_
    split
    · exact fun _ _ relaid => .failed ⟨relaid.remarkHere _, relaid⟩
    · exact update_relaid fun relaid =>
        relaid.scopes relaid.scope.locals relaid.scope.depth (congrArg (· + 1) relaid.scope.arity)
  | markSuperclass =>
    refine update_relaid fun {left right} relaid => ?_
    rw [Compilation.markSuperclass, Compilation.markSuperclass, ← relaid.classes]
    exact relaid.reclassed _
  | leaveLevel | leaveClass | leaveFunction => exact proper.elim

theorem closeFunction_relaid {left right : Compilation} (relaid : Relaid left right) :
    Relaid left.closeFunction right.closeFunction := by
  have around := relaid.enclosing
  unfold Compilation.closeFunction
  cases outer : left.enclosing with
  | nil =>
    rw [outer] at around
    rw [List.forall₂_nil_left_iff.mp around]
    exact relaid
  | cons scope further =>
    rw [outer] at around
    obtain ⟨scope', further', alike, rest, outer'⟩ := List.forall₂_cons_left_iff.mp around
    rw [outer']
    exact ⟨relaid.cursor, alike, rest, relaid.classes, relaid.errors, relaid.nesting⟩

theorem leaveFunction_relaid {left right : Compilation} (relaid : Relaid left right) :
    relayout.Outcome (leaveFunction left) (leaveFunction right) := by
  have outer := closeFunction_relaid relaid
  have chunk := outer.scope.chunk
  have count : left.closeFunction.scope.chunk.functions.size = right.closeFunction.scope.chunk.functions.size := by
    simpa using chunk.functions.length_eq
  have added : (left.closeFunction.scope.chunk.addFunction left.scope.finish).Alike
      (right.closeFunction.scope.chunk.addFunction right.scope.finish) := by
    refine ⟨chunk.code, chunk.constants, chunk.strings, ?_⟩
    simpa [Chunk.addFunction] using List.rel_append chunk.functions (.cons relaid.scope.finish .nil)
  have listed := outer.rechunked added
  unfold leaveFunction
  dsimp only
  rw [closureBytes, closureBytes, show right.scope.finish.captures = left.scope.finish.captures from relaid.scope.captures.symm, ← count]
  split
  · exact .failed ⟨listed.remarkBehind _, listed⟩
  · exact .done (listed.emits _)

theorem recover_relaid {left right : Compilation} (relaid : Relaid left right) {error error' : CompileError}
    (echoes : Echoes error error') (depth locals : Nat) :
    Relaid (left.recover error depth locals) (right.recover error' depth locals) := by
  have scope := relaid.scope
  refine ⟨relaid.cursor.synchronize, ?_, relaid.enclosing, relaid.classes, ?_, relaid.nesting⟩
  · exact ⟨scope.kind, scope.name, scope.arity, scope.chunk, congrArg (Array.shrink · locals) scope.locals, scope.captures, rfl⟩
  · simpa [Compilation.recover] using List.rel_append relaid.errors (.cons echoes .nil)

end Actions

instance : relayout.Closed where
  small := small_relaid
  sight := Relaid.sight
  reclass classes relaid := relaid.reclassed classes
  endScope broken := ⟨broken.1, broken.2.endScope⟩
  leaveClass broken := by
    refine ⟨broken.1, ?_⟩
    rw [← broken.2.classes]
    exact broken.2.reclassed _
  recover depth locals broken := recover_relaid broken.2 broken.1 depth locals

theorem relayout_nests : relayout.stock.Nests where
  nested phrase follows := Lockstep.nested_follows phrase fun relaid _ =>
    ⟨relayout, follows, relaid.deeper, Relaid.shallower, fun broken => ⟨broken.1, broken.2.shallower⟩⟩
  function kind _ follows := by
    rw [function_eq, function_eq]
    refine fun left right relaid => .wrapped follows ?_ (fun _ _ _ => leaveFunction_relaid) fun broken =>
      ⟨broken.1, closeFunction_relaid broken.2⟩
    rw [relaid.cursor.previous.lexeme]
    exact ⟨relaid.cursor, .enter kind _, .cons relaid.scope relaid.enclosing, relaid.classes, relaid.errors, relaid.nesting⟩
  recovers := Lockstep.declaration_follows

theorem start_relaid (alike : List.Forall₂ Token.Alike tokens.toList tokens'.toList) :
    Relaid (.start tokens) (.start tokens') := by
  have last : Closed tokens = Closed tokens' := by
    have kinds := forall₂_map_eq (fun _ _ same => Token.Alike.kind same) alike
    rw [Closed, Closed, ← Array.getLast?_toList, ← Array.getLast?_toList, ← List.getLast?_map, ← List.getLast?_map, kinds]
  have cursor : (Cursor.ofTokens tokens).Alike (.ofTokens tokens') := by
    unfold Cursor.ofTokens
    by_cases closed : Closed tokens
    · rw [dif_pos closed, dif_pos (last ▸ closed)]
      exact ⟨alike, rfl⟩
    · rw [dif_neg closed, dif_neg (last ▸ closed)]
      refine ⟨?_, rfl⟩
      have closing : (Cursor.closing tokens).Alike (Cursor.closing tokens') := by
        unfold Cursor.closing
        cases tokens.back? <;> cases tokens'.back? <;> exact ⟨rfl, rfl, rfl⟩
      simpa using List.rel_append alike (.cons closing .nil)
  exact ⟨cursor, .enter .script "", .nil, rfl, .nil, rfl⟩

theorem finalState_relaid (alike : List.Forall₂ Token.Alike tokens.toList tokens'.toList) :
    Relaid (finalState tokens) (finalState tokens') := by
  have outcome := (relayout_nests.within _).program _ _ (start_relaid alike)
  unfold finalState
  cases done : program (.start tokens) <;> cases done' : program (.start tokens') <;> rw [done, done'] at outcome <;>
    cases outcome
  case ok.ok.done relaid => exact relaid
  case error.error.failed broken => exact broken.2

end Compile

theorem compile_alike (alike : List.Forall₂ Token.Alike tokens.toList tokens'.toList) :
    (∃ script script', compile tokens = .ok script ∧ compile tokens' = .ok script' ∧ script.Alike script') ∨
      ∃ errors errors', compile tokens = .error errors ∧ compile tokens' = .error errors' ∧
        List.Forall₂ Compile.Echoes errors errors' := by
  have relaid := Compile.finalState_relaid alike
  have size : (Compile.finalState tokens).errors.size = (Compile.finalState tokens').errors.size := relaid.errors.length_eq
  unfold compile
  dsimp only
  rw [Array.isEmpty, Array.isEmpty, ← size]
  split
  · exact .inl ⟨_, _, rfl, rfl, relaid.scope.finish⟩
  · exact .inr ⟨_, _, rfl, rfl, relaid.errors⟩

/-- Texts with the same tokens compile to the same functions, apart from their line tables, or give the same messages about
the same words. -/
theorem layout_irrelevant {source source' : String} {tokens tokens' : Array Token} (scanned : scan source = .ok tokens)
    (scanned' : scan source' = .ok tokens') (alike : List.Forall₂ Token.Alike tokens.toList tokens'.toList) :
    (∃ script script', compileSource source = .ok script ∧ compileSource source' = .ok script' ∧ script.Alike script') ∨
      ∃ errors errors', compileSource source = .error (.compile errors) ∧ compileSource source' = .error (.compile errors') ∧
        errors.map (fun error => (error.what.text, error.lexeme)) = errors'.map (fun error => (error.what.text, error.lexeme)) := by
  unfold compileSource
  rw [scanned, scanned']
  dsimp only
  rcases compile_alike alike with ⟨script, script', compiled, compiled', same⟩ | ⟨errors, errors', failed, failed', same⟩
  · rw [compiled, compiled']
    exact .inl ⟨script, script', rfl, rfl, same⟩
  · rw [failed, failed']
    refine .inr ⟨errors, errors', rfl, rfl, ?_⟩
    exact forall₂_map_eq (fun _ _ echoes => by rw [echoes.1, echoes.2]) same

/-- A function on one line, and on several with a comment between them. -/
theorem layout_irrelevant_comment : ∃ tokens tokens' script script',
    scan "fun f(a) { return a; }" = .ok tokens ∧ scan "fun f ( a ) // the rest\n\n { return a ; }" = .ok tokens' ∧
      List.Forall₂ Token.Alike tokens.toList tokens'.toList ∧ compileSource "fun f(a) { return a; }" = .ok script ∧
      compileSource "fun f ( a ) // the rest\n\n { return a ; }" = .ok script' ∧ script.Alike script' := by
  have same : ((scan "fun f(a) { return a; }").toOption.any fun tokens =>
      (scan "fun f ( a ) // the rest\n\n { return a ; }").toOption.any fun tokens' =>
        decide (List.Forall₂ Token.Alike tokens.toList tokens'.toList)) = true := by decide +kernel
  obtain ⟨script, compiled⟩ := @exists_script "fun f(a) { return a; }" (by decide +kernel)
  cases scanned : scan "fun f(a) { return a; }" with
  | error error =>
    rw [scanned] at same
    cases same
  | ok tokens =>
    cases scanned' : scan "fun f ( a ) // the rest\n\n { return a ; }" with
    | error error =>
      rw [scanned, scanned'] at same
      cases same
    | ok tokens' =>
      rw [scanned, scanned'] at same
      have alike := of_decide_eq_true same
      rcases layout_irrelevant scanned scanned' alike with ⟨script, script', compiled, compiled', both⟩ | ⟨_, _, failed, -⟩
      · exact ⟨tokens, tokens', script, script', rfl, rfl, alike, compiled, compiled', both⟩
      · cases compiled.symm.trans failed

end StackScript
