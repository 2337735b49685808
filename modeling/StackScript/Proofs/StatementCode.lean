import StackScript.Proofs.Classes
import StackScript.Proofs.ControlFlow

/-!
Every statement leaves the stack as it found it, and every declaration adds the slots of the locals that it declares.
A function body starts from the callee and the arguments and never runs off its end.
-/

namespace StackScript.Compile

open Parse

variable {before after state : Compilation} {loose : Bool} {fact : Fact}

section Statements

variable {inner : Inner}

theorem print_turning : Turning loose fact (emit .print) 1 0 := by
  refine emit_turning fun context shape place op_at grounded _ => ?_
  rw [Shape.pushes_zero]
  exact .print op_at grounded ⟨rfl, .refl _⟩

theorem FunctionKind.returns_value {kind : FunctionKind} (other : kind ≠ .initializer) (slots : List Slot) :
    kind.manner.Returns slots .value := by
  cases kind with
  | initializer => exact absurd rfl other
  | _ => rfl

theorem return_turning {left : Nat} (other : ∀ state, fact.holds state → state.scope.kind ≠ .initializer) :
    Turning loose fact (emit .return) 1 left := by
  refine emitBytes_turning [Opcode.return.toByte] (fun _ => ⟨_, rfl⟩) ?_
  intro state context shape place _ known covers suits bytes
  exact .return (bytes 0 _ rfl) suits.fits.grounded (covers.manner ▸ FunctionKind.returns_value (other state known) _)

def Fact.kind (kind : FunctionKind) : Fact :=
  ⟨fun state => state.scope.kind = kind, fun phrase same => phrase.kind.trans same⟩

theorem kind_bind {α : Type} {a b : Nat} {next : FunctionKind → Parse α}
    (turning : ∀ kind, Turning loose (fact.and (.kind kind)) (next kind) a b) :
    Turning loose fact (read (·.scope.kind) >>= next) a b := by
  intro before value after done clean
  obtain ⟨clean, turns⟩ := turning _ before value after (read_ok done) clean
  exact ⟨clean, fun ready known => turns ready ⟨known, rfl⟩⟩

theorem printStatement_turning (expression : Turning true .none inner.expression 0 1) :
    Turning false .level (printStatement inner) 0 0 :=
  (expression.loosen.known fun _ _ => trivial).bind fun _ => (expect_turning _ _).bind fun _ => print_turning

theorem expressionStatement_turning (expression : Turning true .none inner.expression 0 1) :
    Turning false .level (expressionStatement inner) 0 0 :=
  (expression.loosen.known fun _ _ => trivial).bind fun _ => (expect_turning _ _).bind fun _ => pop_turning

/-- The condition of an `if` or a `while`, up to what is run if it is true. Gives the jump that is taken otherwise. -/
def conditionHead (what : Expectation) (inner : Inner) : Parse Nat := do
  expect .leftParen what
  inner.expression
  expect .rightParen .rightParenAfterCondition
  let toElse ← emitJump .jumpIfFalse
  emit .pop
  return toElse

/-- What stands between the branches. Gives the jump to the end, and whether there is another branch. -/
def elseHead (toElse : Nat) : Parse (Nat × Bool) := do
  let toEnd ← emitJump .jump
  patchJump toElse
  emit .pop
  let given ← accept (.keyword .«else»)
  return (toEnd, given)

/-- The condition and the increment of a `for`, up to the body. Gives the jump out of the loop, and where the body goes
back to. -/
def forHead (inner : Inner) : Parse (Option Nat × Nat) := do
  let start ← read (·.offset)
  let toExit ← forCondition inner
  let back ← forIncrement inner start
  return (toExit, back)

/-- A condition is tested. Behind the test its value is dropped; where it is false, a jump is still to be aimed. -/
structure Tests (toExit : Nat) (before tested after : Compilation) : Prop where
  jump : toExit = tested.offset + 1
  condition : Turns false before tested 0 1
  enters : Turns false (emitBytes tested (bytesWith .jumpIfFalse maxOperand)) after 1 0

theorem Tests.phrase {toExit : Nat} {tested : Compilation} (tests : Tests toExit before tested after) : Phrase before after :=
  (tests.condition.toPhrase.trans (emitBytes_phrase tests.condition.ready _)).trans tests.enters.toPhrase

theorem testing_ensures {condition : Parse Unit} (turning : Turning false fact condition 0 1) : Parse.Ensures (do
      condition
      let toExit ← emitJump .jumpIfFalse
      emit .pop
      return toExit) fun before toExit after => Ready before → fact.holds before →
        ∃ tested, Tests toExit before tested after := by
  intro before toExit after done clean
  obtain ⟨_, tested, tests, done⟩ := bind_ok done
  obtain ⟨_, jumped, emitted, done⟩ := bind_ok done
  obtain ⟨rfl, rfl⟩ := emitJump_ok emitted
  obtain ⟨_, popped, pop_done, done⟩ := bind_ok done
  cases done
  obtain ⟨clean, pops⟩ := @pop_turning false .none _ _ _ pop_done clean
  rw [emitBytes_errors] at clean
  obtain ⟨clean, conditions⟩ := turning _ _ _ tests clean
  refine ⟨clean, fun ready known => ⟨tested, rfl, conditions ready known, ?_⟩⟩
  exact pops (emitBytes_phrase (conditions ready known).ready _).ready trivial

theorem conditionHead_tests (expression : Turning true .none inner.expression 0 1) (what : Expectation) :
    (conditionHead what inner).Ensures fun before toElse after => Ready before → Level before →
      ∃ tested, Tests toElse before tested after := by
  have condition : Turning false .level (do
      expect .leftParen what
      inner.expression
      expect .rightParen .rightParenAfterCondition) 0 1 :=
    (expect_turning _ _).bind fun _ => (expression.loosen.known fun _ _ => trivial).bind fun _ => expect_turning _ _
  have testing := testing_ensures condition
  simp only [bind_assoc] at testing
  exact testing

theorem ifStatement_ok (done : ifStatement inner before = .ok () after) : ∃ toElse entered reached toEnd given other ended,
      conditionHead .leftParenAfterIf inner before = .ok toElse entered ∧ inner.statement entered = .ok () reached ∧ elseHead toElse reached = .ok (toEnd, given) other ∧
      (if given = true then inner.statement else pure ()) other = .ok () ended ∧ patchJump toEnd ended = .ok () after := by
  obtain ⟨_, opened, opens, done⟩ := bind_ok done
  obtain ⟨_, tested, tests, done⟩ := bind_ok done
  obtain ⟨_, closed, closes, done⟩ := bind_ok done
  obtain ⟨toElse, jumped, emitted, done⟩ := bind_ok done
  obtain ⟨_, popped, pop_done, done⟩ := bind_ok done
  obtain ⟨_, reached, taken, done⟩ := bind_ok done
  obtain ⟨toEnd, jumped', emitted', done⟩ := bind_ok done
  obtain ⟨_, aimed, aim_done, done⟩ := bind_ok done
  obtain ⟨_, popped', pop_done', done⟩ := bind_ok done
  obtain ⟨given, other, accepts, done⟩ := bind_ok done
  have branch : ∃ ended, (if given = true then inner.statement else pure ()) other = .ok () ended ∧
      patchJump toEnd ended = .ok () after := by
    cases given with
    | false => exact ⟨other, rfl, done⟩
    | true =>
      obtain ⟨_, ended, skipped, done⟩ := bind_ok done
      exact ⟨ended, skipped, done⟩
  obtain ⟨ended, skipped, patched⟩ := branch
  exact ⟨toElse, popped, reached, toEnd, given, other, ended,
    bind_intro opens (bind_intro tests (bind_intro closes (bind_intro emitted (bind_intro pop_done rfl)))), taken,
    bind_intro emitted' (bind_intro aim_done (bind_intro pop_done' (bind_intro accepts rfl))), skipped, patched⟩

theorem elseHead_ok {toElse toEnd : Nat} {given : Bool} {reached other : Compilation}
    (done : elseHead toElse reached = .ok (toEnd, given) other) (clean : other.errors = #[]) :
    reached.errors = #[] ∧ toEnd = reached.offset + 1 ∧ ∃ aimed,
      patchJump toElse (emitBytes reached (bytesWith .jump maxOperand)) = .ok () aimed ∧
        (Ready aimed → Turns false aimed other 1 0) := by
  obtain ⟨_, jumped, emitted, done⟩ := bind_ok done
  obtain ⟨rfl, rfl⟩ := emitJump_ok emitted
  obtain ⟨_, aimed, aim_done, done⟩ := bind_ok done
  obtain ⟨_, popped, pop_done, done⟩ := bind_ok done
  obtain ⟨_, accepted, accepts, done⟩ := bind_ok done
  cases done
  have drops : Turning false .none (do
      emit .pop
      accept (.keyword .«else»)) 1 0 := pop_turning.bind fun _ => accept_turning _
  obtain ⟨clean, drops⟩ := drops _ _ _ (bind_intro pop_done accepts) clean
  rw [patchJump_errors aim_done, emitBytes_errors] at clean
  exact ⟨clean, rfl, aimed, aim_done, fun ready => drops ready trivial⟩

structure Conditional (inner : Inner) (before after : Compilation) (toElse : Nat) (tested entered reached : Compilation)
    (toEnd : Nat) (given : Bool) (aimed other ended : Compilation) : Prop where
  head : conditionHead .leftParenAfterIf inner before = .ok toElse entered
  yes : inner.statement entered = .ok () reached
  middle : elseHead toElse reached = .ok (toEnd, given) other
  no : (if given = true then inner.statement else pure ()) other = .ok () ended
  condition : Turns false before tested 0 1
  branches : Branches tested entered reached aimed other ended after
  clean : reached.errors = #[] ∧ ended.errors = #[]

theorem ifStatement_conditional (expression : Turning true .none inner.expression 0 1)
    (statement : Turning false .level inner.statement 0 0) :
    (ifStatement inner).Ensures fun before _ after => Ready before → Level before →
      ∃ toElse tested entered reached toEnd given aimed other ended,
        Conditional inner before after toElse tested entered reached toEnd given aimed other ended := by
  intro before _ after done clean
  obtain ⟨toElse, entered, reached, toEnd, given, other, ended, head, yes, middle, no, patch⟩ := ifStatement_ok done
  have otherwise : Turning false .level (if given = true then inner.statement else pure ()) 0 0 :=
    .ite (fun _ => statement) fun _ => .pure _
  -- no error at the end means none before: cleanness is carried backwards, the phrases forwards
  have clean_ended : ended.errors = #[] := patchJump_errors patch ▸ clean
  obtain ⟨clean, skipped⟩ := otherwise _ _ _ no clean_ended
  obtain ⟨clean_reached, rfl, aimed, aims, drops⟩ := elseHead_ok middle clean
  obtain ⟨clean, taken⟩ := statement _ _ _ yes clean_reached
  obtain ⟨clean, tests⟩ := conditionHead_tests expression _ _ _ _ head clean
  refine ⟨clean, fun ready level => ?_⟩
  obtain ⟨tested, tests⟩ := tests ready level
  have taken := taken tests.enters.ready (Fact.level.stable tests.phrase level)
  have two := emitBytes_phrase taken.ready (bytesWith .jump maxOperand)
  have size := bytesWith_offset tested .jumpIfFalse maxOperand
  have size' := bytesWith_offset reached .jump maxOperand
  have start := tests.condition.later.offset
  have enter := tests.enters.later.offset
  have lower := taken.later.offset
  have jump := tests.jump
  rw [size] at enter
  have aims := patchJump_ok aims (by omega)
  have jumps := ((tests.phrase.trans taken.toPhrase).trans two).patched (by omega) aims
  have drops := drops jumps.ready
  have skipped := skipped drops.ready (Fact.level.stable (jumps.trans drops.toPhrase) level)
  have upper := skipped.later.offset
  have drop := drops.later.offset
  rw [aims.offset] at drop
  rw [jump, size'] at aims
  exact ⟨toElse, tested, entered, reached, _, given, aimed, other, ended, head, yes, middle, no, tests.condition,
    ⟨tests.condition.ready, tests.enters, taken, aims, drops, skipped, patchJump_ok patch (by omega)⟩, clean_reached,
    clean_ended⟩

theorem ifStatement_turning (expression : Turning true .none inner.expression 0 1)
    (statement : Turning false .level inner.statement 0 0) : Turning false .level (ifStatement inner) 0 0 := by
  refine (ifStatement_conditional expression statement).mono fun before _ after parts ready level => ?_
  obtain ⟨_, _, _, _, _, _, _, _, _, conditional⟩ := parts ready level
  exact conditional.condition.trans conditional.branches.turns

structure Repeated (inner : Inner) (before after : Compilation) (toExit : Nat)
    (tested entered reached looped aimed : Compilation) : Prop where
  head : conditionHead .leftParenAfterWhile inner before = .ok toExit entered
  body : inner.statement entered = .ok () reached
  enters : Turns false (emitBytes tested (bytesWith .jumpIfFalse maxOperand)) entered 1 0
  cycle : Cycle before.offset before.offset entered entered reached looped
  looping : Looping before tested looped aimed after
  clean : reached.errors = #[]

theorem whileStatement_ok (done : whileStatement inner before = .ok () after) : ∃ toExit entered reached looped aimed,
      conditionHead .leftParenAfterWhile inner before = .ok toExit entered ∧ inner.statement entered = .ok () reached ∧ emitLoop before.offset reached = .ok () looped ∧
      patchJump toExit looped = .ok () aimed ∧ emit .pop aimed = .ok () after := by
  have done := read_ok done
  obtain ⟨_, opened, opens, done⟩ := bind_ok done
  obtain ⟨_, tested, tests, done⟩ := bind_ok done
  obtain ⟨_, closed, closes, done⟩ := bind_ok done
  obtain ⟨toExit, jumped, emitted, done⟩ := bind_ok done
  obtain ⟨_, popped, pop_done, done⟩ := bind_ok done
  obtain ⟨_, reached, body_done, done⟩ := bind_ok done
  obtain ⟨_, looped, loop_done, done⟩ := bind_ok done
  obtain ⟨_, patched, patch_done, done⟩ := bind_ok done
  exact ⟨toExit, popped, reached, looped, patched,
    bind_intro opens (bind_intro tests (bind_intro closes (bind_intro emitted (bind_intro pop_done rfl)))), body_done, loop_done, patch_done, done⟩

section

variable (expression : Turning true .none inner.expression 0 1)
include expression

theorem whileStatement_repeated (statement : Turning false .level inner.statement 0 0) :
    (whileStatement inner).Ensures fun before _ after => Ready before → Level before →
      ∃ toExit tested entered reached looped aimed,
        Repeated inner before after toExit tested entered reached looped aimed := by
  intro before _ after done clean
  obtain ⟨toExit, entered, reached, looped, aimed, head, body, loop, patch, pop⟩ := whileStatement_ok done
  obtain ⟨clean, pops⟩ := @pop_turning false .level _ _ _ pop clean
  rw [patchJump_errors patch, (emitLoop_ok loop).1, emitBytes_errors] at clean
  have clean_reached := clean
  obtain ⟨clean, bodies⟩ := statement _ _ _ body clean
  obtain ⟨clean, tests⟩ := conditionHead_tests expression _ _ _ _ head clean
  refine ⟨clean, fun ready level => ?_⟩
  obtain ⟨tested, jump, condition, enters⟩ := tests ready level
  have entering : Phrase before entered := Tests.phrase ⟨jump, condition, enters⟩
  have body' := bodies enters.ready (Fact.level.stable entering level)
  have start := entering.later.offset
  have lower := body'.later.offset
  have loops := emitLoop_rounds body'.ready (by omega) loop
  have cycle : Cycle before.offset before.offset entered entered reached looped := ⟨.none enters.ready, body', loops⟩
  have size := bytesWith_offset tested .jumpIfFalse maxOperand
  have enter := enters.later.offset
  have upper := loops.later.offset
  rw [size] at enter
  have patched := patchJump_ok patch (by rw [jump]; omega)
  have rounds := enters.toPhrase.trans cycle.phrase
  have looped_ready := (entering.trans cycle.phrase).patched (by rw [jump]; exact Nat.le_succ_of_le condition.later.offset)
    patched
  have leaves := pops looped_ready.ready (Fact.level.stable looped_ready level)
  exact ⟨toExit, tested, entered, reached, looped, aimed, head, body, enters, cycle, ⟨condition, rounds, jump ▸ patched,
    leaves⟩, clean_reached⟩

theorem whileStatement_turning
    (statement : Turning false .level inner.statement 0 0) : Turning false .level (whileStatement inner) 0 0 := by
  refine (whileStatement_repeated expression statement).mono fun before _ after parts ready level => ?_
  obtain ⟨_, _, _, _, _, _, repeated⟩ := parts ready level
  exact repeated.looping.turns (.after_turns repeated.enters repeated.cycle.rounds)

theorem forCondition_ensures :
    (forCondition inner).Ensures fun before toExit after => Ready before →
      (toExit = none ∧ Phrase before after ∧ before.offset = after.offset) ∨
        ∃ jump tested, toExit = some jump ∧ Tests jump before tested after := by
  intro before toExit after done clean
  obtain ⟨given, moved, accepts, done⟩ := bind_ok done
  cases given with
  | true =>
    cases done
    obtain ⟨cursor, tokens, rfl⟩ := accept_ok accepts
    exact ⟨clean, fun ready => .inl ⟨rfl, moved_phrase ready tokens, rfl⟩⟩
  | false =>
    cases accept_false accepts
    have condition : Turning false .none (do
        inner.expression
        expect .semicolon .semicolonAfterLoopCondition) 0 1 :=
      expression.loosen.bind fun _ => expect_turning _ _
    obtain ⟨_, tested, tests, done⟩ := bind_ok done
    obtain ⟨_, closed, closes, done⟩ := bind_ok done
    obtain ⟨jump, jumped, emitted, done⟩ := bind_ok done
    obtain ⟨_, popped, pop_done, done⟩ := bind_ok done
    cases done
    obtain ⟨clean, tests⟩ := testing_ensures condition _ _ _
      (bind_intro (bind_intro tests closes) (bind_intro emitted (bind_intro pop_done rfl))) clean
    refine ⟨clean, fun ready => .inr ?_⟩
    obtain ⟨tested, tests⟩ := tests ready trivial
    exact ⟨jump, tested, rfl, tests⟩

theorem forIncrement_detours (start : Nat) :
    (forIncrement inner start).Ensures fun before back after => Ready before → start ≤ before.offset →
      Detours start back before after ∧ back ≤ after.offset := by
  intro before back after done clean
  obtain ⟨given, moved, accepts, done⟩ := bind_ok done
  cases given with
  | true =>
    cases done
    obtain ⟨cursor, tokens, rfl⟩ := accept_ok accepts
    exact ⟨clean, fun ready behind => ⟨⟨moved_phrase ready tokens, fun _ _ _ _ => .inl ⟨rfl, rfl⟩⟩, behind⟩⟩
  | false =>
    cases accept_false accepts
    obtain ⟨_, jumped, emitted, done⟩ := bind_ok done
    obtain ⟨rfl, rfl⟩ := emitJump_ok emitted
    have done := read_ok done
    obtain ⟨_, stepped, steps, done⟩ := bind_ok done
    obtain ⟨_, popped, pop_done, done⟩ := bind_ok done
    obtain ⟨_, closed, closes, done⟩ := bind_ok done
    obtain ⟨_, looped, loop_done, done⟩ := bind_ok done
    obtain ⟨_, patched, patch_done, done⟩ := bind_ok done
    cases done
    -- the increment stands in front of the body: jumped over at first, entered from the end of each round
    have increment : Turning false .none (do
        inner.expression
        emit .pop
        expect .rightParen .rightParenAfterForClauses) 0 0 :=
      expression.loosen.bind fun _ => pop_turning.bind fun _ => expect_turning _ _
    rw [patchJump_errors patch_done, (emitLoop_ok loop_done).1, emitBytes_errors] at clean
    obtain ⟨clean, increments⟩ := increment _ _ _ (bind_intro steps (bind_intro pop_done closes)) clean
    refine ⟨emitBytes_errors _ _ ▸ clean, fun ready behind => ?_⟩
    have jump := emitBytes_phrase ready (bytesWith .jump maxOperand)
    have increments := increments jump.ready trivial
    have size := bytesWith_offset before .jump maxOperand
    have lower := increments.later.offset
    have rounds := Rounds.after_turns increments (emitLoop_rounds increments.ready (by omega) loop_done)
    have upper := rounds.later.offset
    have patched := patchJump_ok patch_done (by omega)
    rw [size]
    exact ⟨rounds.detours ready patched, by rw [patched.offset]; omega⟩

end

def forLoop (inner : Inner) : Parse Unit := do
  let (toExit, back) ← forHead inner
  inner.statement
  emitLoop back
  match toExit with
  | some toExit =>
    patchJump toExit
    emit .pop
  | none => return

structure Looped (inner : Inner) (before after : Compilation) (toExit : Option Nat) (back : Nat)
    (entered stepped reached looped : Compilation) : Prop where
  head : forHead inner before = .ok (toExit, back) stepped
  body : inner.statement stepped = .ok () reached
  entering : Phrase before entered
  cycle : Cycle before.offset back entered stepped reached looped
  exits : (before.offset = entered.offset ∧ looped = after) ∨ ∃ tested aimed,
    Turns false (emitBytes tested (bytesWith .jumpIfFalse maxOperand)) entered 1 0 ∧
      Looping before tested looped aimed after
  clean : reached.errors = #[]

section

variable (expression : Turning true .none inner.expression 0 1)
include expression

theorem forLoop_looped (statement : Turning false .level inner.statement 0 0) :
    (forLoop inner).Ensures fun before _ after => Ready before → Level before →
      ∃ toExit back entered stepped reached looped,
        Looped inner before after toExit back entered stepped reached looped := by
  intro before _ after done clean
  obtain ⟨⟨toExit, back⟩, stepped, head, done⟩ := bind_ok done
  have head_done := read_ok head
  obtain ⟨_, entered, test_done, head_done⟩ := bind_ok head_done
  obtain ⟨_, _, step_done, head_done⟩ := bind_ok head_done
  cases head_done
  obtain ⟨_, reached, body_done, done⟩ := bind_ok done
  obtain ⟨_, looped, loop_done, done⟩ := bind_ok done
  -- From the end to the front: a state without complaints has none behind it either.
  have cycles (clean : looped.errors = #[]) : entered.errors = #[] ∧ reached.errors = #[] ∧ (Ready entered → Level entered →
      before.offset ≤ entered.offset → Cycle before.offset back entered stepped reached looped) := by
    rw [(emitLoop_ok loop_done).1, emitBytes_errors] at clean
    have clean_reached := clean
    obtain ⟨clean, bodies⟩ := statement _ _ _ body_done clean
    obtain ⟨clean, steps⟩ := forIncrement_detours expression before.offset _ _ _ step_done clean
    refine ⟨clean, clean_reached, fun ready level behind => ?_⟩
    obtain ⟨detours, behind⟩ := steps ready behind
    have body := bodies detours.ready (Fact.level.stable detours.toPhrase level)
    have upper := body.later.offset
    exact ⟨detours, body, emitLoop_rounds body.ready (by omega) loop_done⟩
  cases toExit with
  | none =>
    cases done
    obtain ⟨clean, clean_reached, cycle⟩ := cycles clean
    obtain ⟨clean, tests⟩ := forCondition_ensures expression _ _ _ test_done clean
    refine ⟨clean, fun ready level => ?_⟩
    rcases tests ready with ⟨-, phrase, same⟩ | ⟨_, _, impossible, -⟩
    · exact ⟨none, back, entered, stepped, reached, after, head, body_done, phrase,
        cycle phrase.ready (Fact.level.stable phrase level) (Nat.le_of_eq same), .inl ⟨same, rfl⟩,
        clean_reached⟩
    · cases impossible
  | some toExit =>
    obtain ⟨_, patched, patch_done, done⟩ := bind_ok done
    obtain ⟨clean, pops⟩ := @pop_turning false .level _ _ _ done clean
    obtain ⟨clean, clean_reached, cycle⟩ := cycles (patchJump_errors patch_done ▸ clean)
    obtain ⟨clean, tests⟩ := forCondition_ensures expression _ _ _ test_done clean
    refine ⟨clean, fun ready level => ?_⟩
    rcases tests ready with ⟨impossible, -⟩ | ⟨jump, tested, same, tests⟩
    · cases impossible
    · cases same
      have entering := tests.phrase
      have cycle := cycle entering.ready (Fact.level.stable entering level) entering.later.offset
      have start := tests.condition.later.offset
      have enter := tests.enters.later.offset
      have upper := cycle.phrase.later.offset
      have size := bytesWith_offset tested .jumpIfFalse maxOperand
      rw [size] at enter
      have aims := patchJump_ok patch_done (by rw [tests.jump]; omega)
      have aimed := (entering.trans cycle.phrase).patched (by rw [tests.jump]; omega) aims
      have leaves := pops aimed.ready (Fact.level.stable aimed level)
      exact ⟨some toExit, back, entered, stepped, reached, looped, head, body_done, entering, cycle, .inr ⟨tested, patched,
        tests.enters, tests.condition, tests.enters.toPhrase.trans cycle.phrase, tests.jump ▸ aims, leaves⟩, clean_reached⟩

omit expression in
theorem Looped.turns {toExit : Option Nat} {back : Nat} {entered stepped reached looped : Compilation}
    (loop : Looped inner before after toExit back entered stepped reached looped) : Turns false before after 0 0 := by
  rcases loop.exits with ⟨silent, rfl⟩ | ⟨tested, aimed, enters, looping⟩
  · have entering : Turns false before entered 0 0 := by
      refine ⟨loop.entering, fun _ _ _ _ => ?_⟩
      rw [silent]
      exact .refl _ _ _
    exact (Rounds.after_turns entering loop.cycle.rounds).forever
  · exact looping.turns (.after_turns enters loop.cycle.rounds)

theorem forLoop_turning (statement : Turning false .level inner.statement 0 0) : Turning false .level (forLoop inner) 0 0 := by
  refine (forLoop_looped expression statement).mono fun before _ after parts ready level => ?_
  obtain ⟨_, _, _, _, _, _, loop⟩ := parts ready level
  exact loop.turns

omit expression in
theorem forClauses_ok (done : forClauses inner before = .ok () after) :
    ∃ opened started, expect .leftParen .leftParenAfterFor before = .ok () opened ∧
      forInitializer inner opened = .ok () started ∧ forLoop inner started = .ok () after := by
  obtain ⟨_, opened, opens, done⟩ := bind_ok done
  obtain ⟨_, started, starts, done⟩ := bind_ok done
  have done := read_ok done
  obtain ⟨toExit, entered, test_done, done⟩ := bind_ok done
  obtain ⟨back, stepped, step_done, done⟩ := bind_ok done
  exact ⟨opened, started, opens, starts, bind_intro (bind_intro rfl (bind_intro test_done (bind_intro step_done rfl))) done⟩

omit expression in
theorem Running.ite {α : Type} {condition : Prop} [Decidable condition] {action other : Parse α}
    (yes : condition → Running action) (no : ¬ condition → Running other) :
    Running (if condition then action else other) := by
  split
  · next holds => exact yes holds
  · next fails => exact no fails

theorem forInitializer_running : Running (forInitializer inner) := by
  refine (accept_turning _).running.bind fun _ => .ite (fun _ => (Turning.pure _).running) fun _ => ?_
  refine (accept_turning _).running.bind fun _ => .ite (fun _ => varDeclaration_running expression) fun _ => ?_
  exact (expressionStatement_turning expression).running

theorem forClauses_running (statement : Turning false .level inner.statement 0 0) : Running (forClauses inner) := by
  have clauses : Running (do
      expect .leftParen .leftParenAfterFor
      forInitializer inner
      forLoop inner) :=
    (expect_turning _ _).running.bind fun _ => (forInitializer_running expression).bind fun _ =>
      (forLoop_turning expression statement).running
  intro before _ after done clean
  obtain ⟨opened, started, opens, starts, loops⟩ := forClauses_ok done
  exact clauses _ _ _ (bind_intro opens (bind_intro starts loops)) clean

end

def returnBytes : FunctionKind → List UInt8
  | .initializer => bytesWith .getLocal 0 ++ [Opcode.return.toByte]
  | _ => [Opcode.pushNil.toByte, Opcode.return.toByte]

theorem emitReturn_eq (state : Compilation) : state.emitReturn = emitBytes state (returnBytes state.scope.kind) := by
  unfold Compilation.emitReturn
  split
  · next isInitializer =>
    rw [isInitializer]
    rfl
  · next other =>
    cases kind : state.scope.kind <;> first | rfl | exact absurd kind other

theorem emitReturn_block (level : Level state) {context : Context} {shape : Shape}
    (holds : Holds context state.emitReturn state.offset state.emitReturn.offset) (suits : Suits loose state.scope.locals shape) :
    Block context state.offset state.emitReturn.offset (.at state.offset shape) .none := by
  rw [emitReturn_eq, emitBytes_offset] at holds ⊢
  have byte {i : Nat} {byte : UInt8} := @Holds.emitted state context _ _ _ holds (Nat.le_refl _) (Nat.le_refl _) i byte
  have manner : context.manner = state.scope.kind.manner := holds.manner.trans (by rw [emitBytes_kind])
  have returns {place : Nat} {content : Content} (op_at : context.chunk.OpAt place .return)
      (given : state.scope.kind.manner.Returns shape.slots content) :
      Block context place (place + 1) (.at place (shape.push ⟨content, false⟩)) .none :=
    .single (.return op_at suits.fits.grounded (manner ▸ given))
  by_cases isInitializer : state.scope.kind = .initializer
  · simp only [isInitializer] at byte returns ⊢
    obtain ⟨binding, found, named⟩ := level.receiver isInitializer
    obtain ⟨depth, readable, -⟩ := level.readable 0 binding found
    obtain ⟨⟨content, isCaptured⟩, slot_at, role, -⟩ :=
      suits.fits.named 0 binding found (by rw [readable]; rfl) (by rw [named]; decide)
    obtain ⟨receiver, rfl⟩ : ∃ receiver, content = .receiver receiver :=
      Content.exists_receiver (by rw [named] at role; exact role)
    have first : Block context state.offset (state.offset + 3) (.at state.offset shape)
        (.at (state.offset + 3) (shape.push ⟨.self receiver, false⟩)) :=
      .single (.getLocal (byte (i := 0) rfl)
        (operand?_of_bytes (by decide) (byte (i := 1) rfl) (byte (i := 2) rfl)) slot_at rfl ⟨rfl, .refl _⟩)
    exact first.seq (returns (byte (i := 3) rfl) ⟨receiver, isCaptured, slot_at, rfl⟩)
  · have bytes : returnBytes state.scope.kind = [Opcode.pushNil.toByte, Opcode.return.toByte] := by
      cases kind : state.scope.kind <;> first | rfl | exact absurd kind isInitializer
    simp only [bytes] at byte ⊢
    have first : Block context state.offset (state.offset + 1) (.at state.offset shape)
        (.at (state.offset + 1) (shape.push .plain)) :=
      .single (.literal rfl (byte (i := 0) rfl) ⟨rfl, .refl _⟩)
    exact first.seq (returns (byte (i := 1) rfl) (FunctionKind.returns_value isInitializer _))

theorem emitReturn_ends {context : Context} (holds : Holds context state.emitReturn state.offset state.emitReturn.offset)
    (size : context.chunk.code.size = state.emitReturn.offset) (decodes : context.chunk.Decodes 0 state.offset) :
    context.chunk.EndsInReturn := by
  rw [emitReturn_eq, emitBytes_offset] at holds size
  have byte {i : Nat} {byte : UInt8} := @Holds.emitted state context _ _ _ holds (Nat.le_refl _) (Nat.le_refl _) i byte
  by_cases isInitializer : state.scope.kind = .initializer
  · simp only [isInitializer] at byte size
    have last := byte (i := 3) rfl
    have op_at : context.chunk.OpAt state.offset .getLocal := byte (i := 0) rfl
    have receiver := Chunk.next?_of_opAt op_at rfl (Nat.le_of_lt (Chunk.lt_of_getElem? last))
    exact ⟨state.offset + 3, decodes.trans (.single receiver), last, size.symm⟩
  · have bytes : returnBytes state.scope.kind = [Opcode.pushNil.toByte, Opcode.return.toByte] := by
      cases kind : state.scope.kind <;> first | rfl | exact absurd kind isInitializer
    simp only [bytes] at byte size
    have last := byte (i := 1) rfl
    have op_at : context.chunk.OpAt state.offset .pushNil := byte (i := 0) rfl
    have nothing := Chunk.next?_of_opAt op_at rfl (Nat.le_of_lt (Chunk.lt_of_getElem? last))
    exact ⟨state.offset + 1, decodes.trans (.single nothing), last, size.symm⟩

theorem emitReturn_turning : Turning false .level (update (·.emitReturn)) 0 0 := by
  intro before _ after done clean
  cases update_ok done
  refine ⟨by rwa [emitReturn_eq, emitBytes_errors] at clean, fun ready level => ?_⟩
  have phrase : Phrase before before.emitReturn := emitReturn_eq before ▸ emitBytes_phrase ready _
  refine ⟨phrase, fun context shape holds suits => .inr ?_⟩
  rw [Shape.pushes_zero]
  exact (emitReturn_block level holds (suits.earlier phrase.later.locals phrase.size)).mono (fun _ _ => id) nofun

theorem returnStatement_turning (expression : Turning true .none inner.expression 0 1) :
    Turning false .level (returnStatement inner) 0 0 := by
  refine kind_bind fun kind => .ite (fun _ => failBehind_turning _) fun _ => ?_
  refine (accept_turning _).bind fun _ => .ite (fun _ => emitReturn_turning.known fun _ => And.left) fun _ => ?_
  refine .ite (fun _ => failBehind_turning _) fun other => ?_
  refine (expression.loosen.known fun _ _ => trivial).bind fun _ => (expect_turning _ _).bind fun _ => return_turning ?_
  exact fun state known => known.2 ▸ other

theorem wholeStatement_eq (inner : Inner) (state : Compilation) : wholeStatement inner state =
    match state.cursor.peek.kind with
    | .keyword .print => printStatement inner { state with cursor := state.cursor.advance }
    | .keyword .if => ifStatement inner { state with cursor := state.cursor.advance }
    | .keyword .return => returnStatement inner { state with cursor := state.cursor.advance }
    | .keyword .while => whileStatement inner { state with cursor := state.cursor.advance }
    | .keyword .for => inScope (forClauses inner) { state with cursor := state.cursor.advance }
    | .leftBrace => inScope (block inner) { state with cursor := state.cursor.advance }
    | _ => expressionStatement inner state := by
  simp only [wholeStatement, accept_bind, if_true, Bool.false_eq_true, if_false]
  generalize state.cursor.peek.kind = kind
  cases kind with
  | keyword word => cases word <;> rfl
  | _ => rfl

theorem declarationOrFail_eq (inner : Inner) (state : Compilation) : declarationOrFail inner state =
    match state.cursor.peek.kind with
    | .keyword .class => classDeclaration inner { state with cursor := state.cursor.advance }
    | .keyword .fun => funDeclaration inner { state with cursor := state.cursor.advance }
    | .keyword .var => varDeclaration inner { state with cursor := state.cursor.advance }
    | _ => inner.statement state := by
  simp only [declarationOrFail, accept_bind, if_true, Bool.false_eq_true, if_false]
  generalize state.cursor.peek.kind = kind
  cases kind with
  | keyword word => cases word <;> rfl
  | _ => rfl

structure Inner.Compiles (inner : Inner) : Prop where
  expression : Turning true .none inner.expression 0 1
  statement : Turning false .level inner.statement 0 0
  functionBody : Bodied inner.functionBody

theorem declaration_unrecovered (done : declaration inner before = .ok () after) (clean : after.errors = #[]) :
    declarationOrFail inner before = .ok () after := by
  unfold declaration at done
  cases declared : declarationOrFail inner before with
  | ok value between =>
    rw [declared] at done
    cases done
    rfl
  | error error between =>
    rw [declared] at done
    cases done
    simp [Compilation.recover] at clean

theorem declaration_running (compiles : inner.Compiles) : Running (declaration inner) := by
  have unrecovered : Running (declarationOrFail inner) := by
    refine (accept_turning _).running.bind fun _ => .ite (fun _ => classDeclaration_running compiles.functionBody) fun _ => ?_
    refine (accept_turning _).running.bind fun _ => .ite (fun _ => funDeclaration_running compiles.functionBody) fun _ => ?_
    refine (accept_turning _).running.bind fun _ => .ite (fun _ => varDeclaration_running compiles.expression) fun _ => ?_
    exact compiles.statement.running
  intro before _ after done clean
  exact unrecovered _ _ _ (declaration_unrecovered done clean) clean

theorem blockSuffix_running (compiles : inner.Compiles) : Running (blockSuffix inner) := by
  refine (read_turning _).running.bind fun _ => (read_turning _).running.bind fun _ => ?_
  refine .ite (fun _ => (Turning.pure _).running) fun _ => ?_
  exact (declaration_running compiles).bind fun _ => (Turning.pure _).running

theorem block_running (compiles : inner.Compiles) : Running (block inner) :=
  (whileProgress_running (blockSuffix_running compiles)).bind fun _ => (expect_turning _ _).running

theorem wholeStatement_turning (compiles : inner.Compiles) : Turning false .level (wholeStatement inner) 0 0 := by
  obtain ⟨expression, statement, functionBody⟩ := compiles
  refine (accept_turning _).bind fun _ => .ite (fun _ => printStatement_turning expression) fun _ => ?_
  refine (accept_turning _).bind fun _ => .ite (fun _ => ifStatement_turning expression statement) fun _ => ?_
  refine (accept_turning _).bind fun _ => .ite (fun _ => returnStatement_turning expression) fun _ => ?_
  refine (accept_turning _).bind fun _ => .ite (fun _ => whileStatement_turning expression statement) fun _ => ?_
  refine (accept_turning _).bind fun _ =>
    .ite (fun _ => inScope_turning (forClauses_running expression statement)) fun _ => ?_
  refine (accept_turning _).bind fun _ =>
    .ite (fun _ => inScope_turning (block_running ⟨expression, statement, functionBody⟩)) fun _ => ?_
  exact expressionStatement_turning expression

end Statements

/-- In front of the body of a function: its parameters are its only locals, and there is no code yet. -/
structure Headed (before after : Compilation) : Prop where
  later : Later before after
  ready : Ready after
  level : Level after
  classes : after.classes = before.classes
  deep : 0 < after.scope.depth
  size : after.scope.locals.size = after.scope.arity + 1
  silent : after.offset = before.offset
  kind : after.scope.kind = before.scope.kind
  lowest : ∃ binding, after.scope.locals[0]? = some binding ∧
    ∀ callee, (Role.ofName binding.name).content callee = before.scope.kind.manner.lowest callee
  ordinary : ∀ (i : Nat) (binding : Local), 0 < i → after.scope.locals[i]? = some binding →
    Role.ofName binding.name = .ordinary

theorem Headed.moved (headed : Headed before state) {cursor : Cursor} (tokens : cursor.tokens = state.cursor.tokens) :
    Headed before { state with cursor } := by
  have phrase := moved_phrase headed.ready tokens
  exact ⟨headed.later.trans phrase.later, phrase.ready, Fact.level.stable phrase headed.level, headed.classes,
    headed.deep, headed.size, headed.silent, headed.kind, headed.lowest, headed.ordinary⟩

theorem Headed.parameter {name : String} (headed : Headed before state) (ordinary : Role.ofName name = .ordinary)
    (grown : Grown { state with scope := { state.scope with arity := state.scope.arity + 1 } } after name
      (some state.scope.depth)) (silent : after.offset = state.offset) : Headed before after := by
  have level : Level { state with scope := { state.scope with arity := state.scope.arity + 1 } } :=
    ⟨headed.level.readable, headed.level.nonempty, headed.level.outermost, headed.level.receiver⟩
  have counted : Later before { state with scope := { state.scope with arity := state.scope.arity + 1 } } :=
    ⟨headed.later.tokens, headed.later.enclosing, headed.later.locals, headed.later.captures, headed.later.tables,
      headed.later.offset, headed.later.code, headed.later.kind⟩
  refine ⟨counted.trans grown.later, grown.ready, grown.level level headed.deep, grown.classes.trans headed.classes,
    ?_, ?_, silent.trans headed.silent, grown.kind.trans headed.kind, ?_, fun i binding above found => ?_⟩
  · rw [grown.depth]
    exact headed.deep
  · rw [grown.size, grown.arity]
    exact congrArg (· + 1) headed.size
  · obtain ⟨binding, found, lowest⟩ := headed.lowest
    obtain ⟨later, found, widened⟩ := grown.later.locals 0 binding found
    exact ⟨later, found, fun callee => widened.name ▸ lowest callee⟩
  · have inside := (Array.getElem?_eq_some_iff.mp found).1
    by_cases old : i < state.scope.locals.size
    · obtain ⟨earlier, found, widened⟩ := earlier_local grown.later.locals old found
      rw [widened.name]
      exact headed.ordinary i earlier above found
    · have last : i = state.scope.locals.size := by
        have : after.scope.locals.size = state.scope.locals.size + 1 := grown.size
        omega
      obtain ⟨newest, found', same, -⟩ := grown.newest
      rw [last] at found
      cases found.symm.trans found'
      rw [same]
      exact ordinary

theorem parameter_ensures (before : Compilation) :
    parameter.Ensures fun state _ after => Headed before state → Headed before after := by
  intro state more after done clean
  have done := read_ok done
  split at done
  · cases done
  · have done := update_bind_ok done
    obtain ⟨global?, parsed, parse_done, done⟩ := bind_ok done
    have done := update_bind_ok done
    obtain ⟨cursor, tokens, rfl⟩ := accept_ok done
    rw [defineVariable_errors] at clean
    obtain ⟨token, member, isName, -, cases_⟩ := parseVariable_ok parse_done
    rcases cases_ with ⟨entry, outermost, rfl, made⟩ | ⟨deep, room, rfl, rfl⟩
    · refine ⟨makeString_errors made ▸ clean, fun headed => ?_⟩
      have deep := headed.deep
      rw [show state.scope.depth = 0 from outermost] at deep
      cases deep
    · refine ⟨clean, fun headed => .moved ?_ tokens⟩
      obtain ⟨-, ordinary⟩ := headed.ready.names token member isName
      let counted := { state with scope := { state.scope with arity := state.scope.arity + 1 } }
      have ready : Ready counted := ⟨headed.ready.names, headed.ready.sound, headed.ready.supers, headed.ready.tables⟩
      have moved := moved_phrase ready (advance_tokens state.cursor)
      have grown := Grown.withLocal moved.ready (Nat.lt_of_le_of_ne moved.ready.sound.1 room) token.lexeme
      have grown := grown.markInitialized deep
      refine headed.parameter ordinary ⟨moved.later.trans grown.later, grown.ready, grown.classes, grown.kind, grown.depth,
        grown.arity, grown.size, grown.newest⟩ ?_
      exact Grown.markInitialized_offset _

end StackScript.Compile
