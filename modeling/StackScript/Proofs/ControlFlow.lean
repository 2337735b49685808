import StackScript.Proofs.Declarations
import StackScript.Proofs.EntryPoints

/-!
Branches and loops. A branch of an `if` ends where the other one does, with the same shape. The code of a loop is a round
that starts and ends with the same shape; of a `for` loop, the increment is a detour on the way from the condition to the
body.

The code of a branch or of a round is also looked at from inside: around each statement in it stands code that is known.
-/

namespace StackScript

variable {start back : Nat} {context : Context} {shape : Shape}

theorem Block.closed {stop : Nat} {entry exit exit' : Points} (block : Block context start stop entry exit)
    (back : ∀ place found, exit place found → entry place found ∨ exit' place found) : Block context start stop entry exit' := by
  obtain ⟨shapes, covering⟩ := block
  refine ⟨shapes, covering.decodes, covering.inside, covering.first, covering.entered, fun place shape given => ?_⟩
  obtain ⟨next, accepts, follows⟩ := covering.accepted place shape given
  refine ⟨next, accepts.mono fun place found goes => ?_, follows⟩
  rcases goes with inner | out
  · exact .inl inner
  · exact (back place found out).imp (covering.entered place found) id

theorem Shape.take_all {count : Nat} (length : shape.slots.length = count) : shape.take count = shape := by
  rw [take, List.take_of_length_le (Nat.le_of_eq length)]

theorem Segment.pops {stop : Nat} (segment : Segment context start stop (shape.pushes 1) (shape.pushes 0)) :
    Block context start stop (.at start (shape.pushes 1)) (.at stop shape) := by
  rw [Shape.pushes_zero] at segment
  rcases segment with ⟨-, same⟩ | block
  · have length := congrArg (·.slots.length) same
    simp [Shape.pushes] at length
  · exact block

namespace Compile

open Parse

variable {before after entered stepped reached : Compilation}

/-- A phrase that stands in a function, whose code is known but for that of the phrase. -/
structure Hole (context : Context) (own shape : Shape) (before after : Compilation) : Prop where
  holds : Holds context after before.offset after.offset
  suits : Suits false after.scope.locals shape
  whole : Whole context own before.offset after.offset (shape.take before.scope.locals.size) shape

section Declarations

variable {own : Shape} {between : Compilation}

theorem Hole.first (hole : Hole context own shape before after) (one : Runs before between) (two : Runs between after) :
    Hole context own (shape.take between.scope.locals.size) before between := by
  have upper := two.later.offset
  have lower := one.later.offset
  have rest := two.segment context shape (hole.holds.narrow lower (Nat.le_refl _)) hole.suits
  refine ⟨(hole.holds.narrow (Nat.le_refl _) upper).earlier two.later one.ready.sound (Nat.le_refl _),
    hole.suits.take two.later.locals one.level.nonempty, ?_⟩
  have whole := hole.whole.front rest
  rw [Shape.take, Shape.take, List.take_take, Nat.min_eq_left one.size]
  exact whole

theorem Hole.second (hole : Hole context own shape before after) (one : Runs before between) (two : Runs between after) :
    Hole context own shape between after := by
  have lower := one.later.offset
  have upper := two.later.offset
  have earlier := (hole.holds.narrow (Nat.le_refl _) upper).earlier two.later one.ready.sound (Nat.le_refl _)
  have segment := one.segment context _ earlier (hole.suits.take two.later.locals one.level.nonempty)
  rw [Shape.take, Shape.take, List.take_take, Nat.min_eq_left one.size] at segment
  exact ⟨hole.holds.narrow lower (Nat.le_refl _), hole.suits, hole.whole.back segment⟩

theorem Hole.scoped {inner : Compilation} (hole : Hole context own shape before inner.endScope)
    (inside : Inside before inner) (ready : Ready before) (level : Level before) :
    ∃ full, Hole context own full before.beginScope inner := by
  obtain ⟨full, taken, suits, holds, closes⟩ := inside.endScope_segment ready level hole.holds hole.suits
  refine ⟨full, holds, suits, ?_⟩
  have size := (inside.endScope_phrase ready level).size
  have whole := hole.whole
  rw [Shape.take_all ((hole.suits.exact rfl).trans size)] at whole
  rw [show full.take before.beginScope.scope.locals.size = shape from taken]
  exact whole.front closes

end Declarations

/-- An `if` statement behind its condition: the branch that is taken, a jump over the other branch, and that branch. In
front of both the value of the condition is dropped. -/
structure Branches (tested entered reached aimed other ended after : Compilation) : Prop where
  ready : Ready tested
  enters : Turns false (emitBytes tested (bytesWith .jumpIfFalse maxOperand)) entered 1 0
  taken : Turns false entered reached 0 0
  aims : Patched (tested.offset + 1) (reached.offset + 3 - (tested.offset + 1) - 2)
    (emitBytes reached (bytesWith .jump maxOperand)) aimed
  drops : Turns false aimed other 1 0
  skipped : Turns false other ended 0 0
  patched : Patched (reached.offset + 1) (ended.offset - (reached.offset + 1) - 2) ended after

namespace Branches

variable {tested aimed other ended : Compilation} {own : Shape}

section

variable (branches : Branches tested entered reached aimed other ended after)
include branches

theorem offsets :
    tested.offset + 3 ≤ entered.offset ∧ entered.offset ≤ reached.offset ∧ aimed.offset = reached.offset + 3 ∧
      aimed.offset ≤ other.offset ∧ other.offset ≤ ended.offset ∧ after.offset = ended.offset := by
  have size := bytesWith_offset tested .jumpIfFalse maxOperand
  have size' : aimed.offset = reached.offset + 3 := branches.aims.offset.trans (emitBytes_offset _ _)
  exact ⟨size ▸ branches.enters.later.offset, branches.taken.later.offset, size', branches.drops.later.offset,
    branches.skipped.later.offset, branches.patched.offset⟩

theorem jumps : Phrase tested aimed := by
  have one := emitBytes_phrase branches.ready (bytesWith .jumpIfFalse maxOperand)
  have two := emitBytes_phrase branches.taken.ready (bytesWith .jump maxOperand)
  exact (((one.trans branches.enters.toPhrase).trans branches.taken.toPhrase).trans two).patched (Nat.le_succ _)
    branches.aims

theorem phrase : Phrase tested after := by
  obtain ⟨test, enter, -⟩ := branches.offsets
  exact ((branches.jumps.trans branches.drops.toPhrase).trans branches.skipped.toPhrase).patched (by omega)
    branches.patched

end

structure Pieces (context : Context) (shape : Shape) (tested entered reached aimed other ended : Compilation) : Prop where
  test : Block context tested.offset (tested.offset + 3) (.at tested.offset (shape.pushes 1))
    ((Points.at (tested.offset + 3) (shape.pushes 1)).or (.at aimed.offset (shape.pushes 1)))
  enters : Segment context (tested.offset + 3) entered.offset (shape.pushes 1) shape
  taken : Holds context reached entered.offset reached.offset
  suits : Suits false reached.scope.locals shape
  jump : Block context reached.offset aimed.offset (.at reached.offset shape) (.at ended.offset shape)
  drops : Block context aimed.offset other.offset (.at aimed.offset (shape.pushes 1)) (.at other.offset shape)
  skipped : Holds context ended other.offset ended.offset
  suits' : Suits false ended.scope.locals shape

section

variable (branches : Branches tested entered reached aimed other ended after)
include branches

theorem pieces (holds : Holds context after tested.offset after.offset) (suits : Suits false after.scope.locals shape) :
    Pieces context shape tested entered reached aimed other ended := by
  obtain ⟨test, enter, jump, skip, upper, ends⟩ := branches.offsets
  have one := emitBytes_phrase branches.ready (bytesWith .jumpIfFalse maxOperand)
  have two := emitBytes_phrase branches.taken.ready (bytesWith .jump maxOperand)
  have size := bytesWith_offset tested .jumpIfFalse maxOperand
  rw [ends] at holds
  have suits₅ : Suits false ended.scope.locals shape := branches.patched.locals ▸ suits
  have suits₄ := suits₅.earlier branches.skipped.later.locals branches.skipped.size
  have suits₂ : Suits false (emitBytes reached (bytesWith .jump maxOperand)).scope.locals shape :=
    branches.aims.locals ▸ suits₄.earlier branches.drops.later.locals branches.drops.size
  have suits₁ := suits₂.earlier two.later.locals two.size
  -- From the end to the front: what was patched last is undone first.
  have jump_operand := holds.operand branches.patched (by omega) (by omega)
  have behind : Holds context ended aimed.offset ended.offset :=
    (holds.narrow (by omega) (Nat.le_refl _)).unpatched branches.patched (.inr (by omega))
  have dropped := (behind.narrow (Nat.le_refl _) upper).earlier branches.skipped.later branches.drops.ready.sound
    (Nat.le_refl _)
  have front : Holds context aimed tested.offset (reached.offset + 1) :=
    ((holds.narrow (Nat.le_refl _) (by omega)).unpatched branches.patched (.inl (Nat.le_refl _))).earlier
      (branches.drops.later.trans branches.skipped.later) branches.jumps.ready.sound (by omega)
  have test_operand := front.operand branches.aims (Nat.le_succ _) (by omega)
  have branch : Holds context (emitBytes reached (bytesWith .jump maxOperand)) (tested.offset + 3) (reached.offset + 1) :=
    (front.narrow (by omega) (Nat.le_refl _)).unpatched branches.aims (.inr (Nat.le_refl _))
  have taken := (branch.narrow (Nat.le_refl _) (Nat.le_succ _)).earlier two.later branches.taken.ready.sound
    (Nat.le_refl _)
  have entering := (taken.narrow (Nat.le_refl _) enter).earlier branches.taken.later branches.enters.ready.sound
    (Nat.le_refl _)
  have testing : Holds context (emitBytes tested (bytesWith .jumpIfFalse maxOperand)) tested.offset (tested.offset + 1) :=
    ((front.narrow (Nat.le_refl _) (by omega)).unpatched branches.aims (.inl (Nat.le_refl _))).earlier
      ((branches.enters.later.trans branches.taken.later).trans two.later) one.ready.sound (by omega)
  have drops := branches.drops.segment context shape dropped suits₄
  have enters := branches.enters.segment context shape (size.symm ▸ entering)
    (suits₁.earlier branches.taken.later.locals branches.taken.size)
  rw [size, Shape.pushes_zero] at enters
  have test_at := testing.opcode (Nat.le_refl _) (Nat.lt_succ_self _)
  have jump_at := branch.opcode (by omega) (Nat.lt_succ_self _)
  refine ⟨?_, enters, taken.narrow test (Nat.le_refl _), suits₁, ?_, drops.pops, behind.narrow skip (Nat.le_refl _), suits₅⟩
  · exact jumpIfFalse_block shape test_at test_operand (by omega)
  · rw [jump]
    exact jump_block shape jump_at jump_operand (by omega)

theorem turns : Turns false tested after 1 0 := by
  refine ⟨branches.phrase, fun context shape holds suits => .inr ?_⟩
  obtain ⟨-, -, -, -, -, ends⟩ := branches.offsets
  have pieces := branches.pieces holds suits
  have taken := branches.taken.segment context shape pieces.taken pieces.suits
  have skipped := branches.skipped.segment context shape pieces.skipped pieces.suits'
  rw [Shape.pushes_zero] at taken skipped
  rw [ends, Shape.pushes_zero]
  have branch := pieces.enters.before_block (taken.before_block pieces.jump)
  refine ((Segment.of_block pieces.drops).trans skipped).after_branch (pieces.test.join branch (fun _ _ => .inl) ?_) fun _ _ => id
  rintro place found ((on | other) | out)
  · exact .inr (.inl on)
  · exact .inr (.inr (.inl other))
  · exact .inr (.inr (.inr out))

theorem takes (holds : Holds context after tested.offset after.offset) (suits : Suits false after.scope.locals shape)
    (whole : Whole context own tested.offset after.offset (shape.pushes 1) shape) :
    Hole context own shape entered reached := by
  have pieces := branches.pieces holds suits
  have skipped := branches.skipped.segment context shape pieces.skipped pieces.suits'
  obtain ⟨-, -, -, -, -, ends⟩ := branches.offsets
  rw [Shape.pushes_zero] at skipped
  rw [ends] at whole
  refine ⟨pieces.taken, pieces.suits, ?_⟩
  rw [Shape.take_all ((pieces.suits.exact rfl).trans branches.taken.size)]
  exact whole.taken pieces.test pieces.enters pieces.jump ((Segment.of_block pieces.drops).trans skipped)

theorem skips (holds : Holds context after tested.offset after.offset) (suits : Suits false after.scope.locals shape)
    (whole : Whole context own tested.offset after.offset (shape.pushes 1) shape) :
    Hole context own shape other ended := by
  have pieces := branches.pieces holds suits
  have taken := branches.taken.segment context shape pieces.taken pieces.suits
  obtain ⟨-, -, -, -, -, ends⟩ := branches.offsets
  rw [Shape.pushes_zero] at taken
  rw [ends] at whole
  refine ⟨pieces.skipped, pieces.suits', ?_⟩
  rw [Shape.take_all ((pieces.suits'.exact rfl).trans branches.skipped.size)]
  exact whole.skipped pieces.test (pieces.enters.before_block (taken.before_block pieces.jump)) pieces.drops

end

end Branches

/-- The code goes back to `start`, where the intermediate values that it takes are gone. -/
structure Rounds (start : Nat) (before after : Compilation) (taken : Nat) : Prop extends Phrase before after where
  block : ∀ context shape, Holds context after before.offset after.offset → Suits false after.scope.locals shape →
    Block context before.offset after.offset (.at before.offset (shape.pushes taken)) (.at start shape)

theorem emitLoop_rounds (ready : Ready before) (behind : start ≤ before.offset) (done : emitLoop start before = .ok () after) :
    Rounds start before after 0 := by
  obtain ⟨rfl, near⟩ := emitLoop_ok done
  refine ⟨emitBytes_phrase ready _, fun context shape holds suits => ?_⟩
  rw [emitBytes_offset, Shape.pushes_zero] at *
  have byte {i : Nat} {byte : UInt8} := @Holds.emitted before context _ _ _ holds (Nat.le_refl _) (Nat.le_refl _) i byte
  refine .single (.loop (byte (i := 0) rfl)
    (operand?_of_bytes near (byte (i := 1) rfl) (byte (i := 2) rfl)) (by omega) ⟨by omega, .refl _⟩)

theorem Rounds.after_turns {a b : Nat} {first second third : Compilation} (turns : Turns false first second a b)
    (rounds : Rounds start second third b) : Rounds start first third a := by
  refine ⟨turns.toPhrase.trans rounds.toPhrase, fun context shape holds suits => ?_⟩
  have lower := turns.later.offset
  have upper := rounds.later.offset
  have earlier := (holds.narrow (Nat.le_refl _) upper).earlier rounds.later turns.ready.sound (Nat.le_refl _)
  exact (turns.segment context shape earlier (suits.earlier rounds.later.locals rounds.size)).before_block
    (rounds.block context shape (holds.narrow lower (Nat.le_refl _)) suits)

/-- The increment of a loop, which is passed on the way from the body to the condition: there is none and the body goes
to `start`, or it goes to `back`. -/
structure Detours (start back : Nat) (before after : Compilation) : Prop extends Phrase before after where
  block : ∀ context shape, Holds context after before.offset after.offset → Suits false after.scope.locals shape →
    back = start ∧ before.offset = after.offset ∨
      Block context before.offset after.offset ((Points.at before.offset shape).or (.at back shape))
        ((Points.at after.offset shape).or (.at start shape))

theorem Detours.none (ready : Ready before) : Detours start start before before :=
  ⟨.refl ready, fun _ _ _ _ => .inl ⟨rfl, rfl⟩⟩

theorem Rounds.detours {first second third : Compilation} (ready : Ready first)
    (body : Rounds start (emitBytes first (bytesWith .jump maxOperand)) second 0)
    (patched : Patched (first.offset + 1) (second.offset - (first.offset + 1) - 2) second third) :
    Detours start (first.offset + 3) first third := by
  have jump := emitBytes_phrase ready (bytesWith .jump maxOperand)
  have size := bytesWith_offset first .jump maxOperand
  have lower := body.later.offset
  rw [size] at lower
  refine ⟨(jump.trans body.toPhrase).patched (Nat.le_succ _) patched, fun context shape holds suits => .inr ?_⟩
  rw [patched.offset] at holds ⊢
  have operand := holds.operand patched (Nat.le_succ _) (by omega)
  have op_at := (((holds.narrow (Nat.le_refl _) (by omega)).unpatched patched (.inl (Nat.le_refl _))).earlier body.later
    jump.ready.sound (by omega)).opcode (Nat.le_refl _) (Nat.lt_succ_self _)
  have block := body.block context shape ((holds.narrow (by omega) (Nat.le_refl _)).unpatched patched
    (.inr (by omega))) (patched.locals ▸ suits)
  rw [size, Shape.pushes_zero] at block
  refine (jump_block shape op_at operand (by omega : _ = second.offset)).join block (fun _ _ => id) ?_
  rintro place found (past | back)
  · exact .inr (.inr (.inl past))
  · exact .inr (.inr (.inr back))

/-- A round of a loop, from behind its condition: the increment, the body, and the way back. -/
structure Cycle (start back : Nat) (entered stepped reached looped : Compilation) : Prop where
  detours : Detours start back entered stepped
  body : Turns false stepped reached 0 0
  loops : Rounds back reached looped 0

namespace Cycle

variable {looped : Compilation} {own : Shape}

section

variable (cycle : Cycle start back entered stepped reached looped)
include cycle

theorem phrase : Phrase entered looped :=
  (cycle.detours.toPhrase.trans cycle.body.toPhrase).trans cycle.loops.toPhrase

theorem held (holds : Holds context looped entered.offset looped.offset) (suits : Suits false looped.scope.locals shape) :
    Holds context reached stepped.offset reached.offset ∧ Suits false reached.scope.locals shape := by
  have first := cycle.detours.later.offset
  have upper := cycle.loops.later.offset
  exact ⟨(holds.narrow first upper).earlier cycle.loops.later cycle.body.ready.sound (Nat.le_refl _),
    suits.earlier cycle.loops.later.locals cycle.loops.size⟩

theorem around (holds : Holds context looped entered.offset looped.offset) (suits : Suits false looped.scope.locals shape)
    {extra : Points} (passage : Passage context stepped.offset reached.offset extra shape shape) :
    Block context entered.offset looped.offset
      ((Points.at entered.offset shape).or (extra.or (.at reached.offset shape))) (.at start shape) := by
  have first := cycle.detours.later.offset
  have second := cycle.body.later.offset
  have third := cycle.loops.later.offset
  have loop := cycle.loops.block context shape (holds.narrow (by omega) (Nat.le_refl _)) suits
  rw [Shape.pushes_zero] at loop
  have suits' := (cycle.held holds suits).2.earlier cycle.body.later.locals cycle.body.size
  have earlier := (holds.narrow (Nat.le_refl _) (by omega)).earlier (cycle.body.later.trans cycle.loops.later)
    cycle.detours.ready.sound (Nat.le_refl _)
  have body := passage.before_block loop
  rcases cycle.detours.block context shape earlier suits' with ⟨rfl, same⟩ | detour
  · rw [same]
    exact body
  · exact detour.detour body

theorem rounds : Rounds start entered looped 0 := by
  refine ⟨cycle.phrase, fun context shape holds suits => ?_⟩
  obtain ⟨held, suits'⟩ := cycle.held holds suits
  have body := cycle.body.segment context shape held suits'
  rw [Shape.pushes_zero] at body ⊢
  have passage : Passage context stepped.offset reached.offset .none shape shape := by
    rcases body with ⟨same, -⟩ | block
    · exact .inl ⟨same, rfl, fun _ _ => id⟩
    · exact .inr (block.mono (fun _ _ enter => enter.elim id nofun) fun _ _ => id)
  exact (cycle.around holds suits passage).mono (fun _ _ => .inl) fun _ _ => id

end

end Cycle

theorem Rounds.forever (rounds : Rounds before.offset before after 0) : Turns false before after 0 0 := by
  refine ⟨rounds.toPhrase, fun context shape holds suits => .inr ?_⟩
  have block := rounds.block context shape holds suits
  rw [Shape.pushes_zero] at block ⊢
  exact block.closed fun _ _ => .inl

theorem Cycle.forever {own : Shape} (cycle : Cycle entered.offset back entered stepped reached after)
    (hole : Hole context own shape before after) (silent : before.offset = entered.offset)
    (size : after.scope.locals.size = before.scope.locals.size) : Hole context own shape stepped reached := by
  have holds := hole.holds
  have whole := hole.whole
  rw [silent] at holds whole
  obtain ⟨held, suits⟩ := cycle.held holds hole.suits
  refine ⟨held, suits, ?_⟩
  rw [Shape.take_all ((hole.suits.exact rfl).trans size)] at whole
  rw [Shape.take_all ((suits.exact rfl).trans cycle.body.size)]
  refine whole.inwards fun extra passage => ?_
  exact (cycle.around holds hole.suits passage).closed fun _ _ back => .inl (.inl back)

/-- A loop that is left where its condition is false. What stands between the test and the end leads back. -/
structure Looping (before tested looped aimed after : Compilation) : Prop where
  condition : Turns false before tested 0 1
  round : Phrase (emitBytes tested (bytesWith .jumpIfFalse maxOperand)) looped
  patched : Patched (tested.offset + 1) (looped.offset - (tested.offset + 1) - 2) looped aimed
  leaves : Turns false aimed after 1 0

namespace Looping

variable {tested looped aimed : Compilation} {own : Shape}

section

variable (looping : Looping before tested looped aimed after)
include looping

theorem phrase : Phrase before after := by
  have jump := emitBytes_phrase looping.condition.ready (bytesWith .jumpIfFalse maxOperand)
  have start := looping.condition.later.offset
  exact (((looping.condition.toPhrase.trans jump).trans looping.round).patched (Nat.le_succ_of_le start)
    looping.patched).trans looping.leaves.toPhrase

theorem held (holds : Holds context after before.offset after.offset) (suits : Suits false after.scope.locals shape) :
    Holds context looped (tested.offset + 3) looped.offset ∧ Suits false looped.scope.locals shape := by
  have start := looping.condition.later.offset
  have upper := looping.leaves.later.offset
  have jump := emitBytes_phrase looping.condition.ready (bytesWith .jumpIfFalse maxOperand)
  have aimed := ((looping.condition.toPhrase.trans jump).trans looping.round).patched (Nat.le_succ_of_le start)
    looping.patched
  have suits' := suits.earlier looping.leaves.later.locals looping.leaves.size
  have earlier := (holds.narrow (Nat.le_refl _) upper).earlier looping.leaves.later aimed.ready.sound (Nat.le_refl _)
  rw [looping.patched.offset] at earlier
  exact ⟨(earlier.narrow (by omega) (Nat.le_refl _)).unpatched looping.patched (.inr (by omega)),
    looping.patched.locals ▸ suits'⟩

theorem around (holds : Holds context after before.offset after.offset) (suits : Suits false after.scope.locals shape)
    {extra : Points} (rounds : Block context (tested.offset + 3) looped.offset
      ((Points.at (tested.offset + 3) (shape.pushes 1)).or extra) (.at before.offset shape)) :
    Block context before.offset after.offset ((Points.at before.offset shape).or extra) (.at after.offset shape) := by
  have start := looping.condition.later.offset
  have upper := looping.leaves.later.offset
  have size := bytesWith_offset tested .jumpIfFalse maxOperand
  have lower := looping.round.later.offset
  rw [size] at lower
  have jump := emitBytes_phrase looping.condition.ready (bytesWith .jumpIfFalse maxOperand)
  have aims := ((looping.condition.toPhrase.trans jump).trans looping.round).patched (Nat.le_succ_of_le start)
    looping.patched
  have suits₃ := (looping.held holds suits).2
  have suits₂ := suits₃.earlier looping.round.later.locals looping.round.size
  have same := looping.patched.offset
  have out := looping.leaves.segment context shape (holds.narrow (by omega) (Nat.le_refl _)) suits
  have front : Holds context aimed before.offset looped.offset :=
    same ▸ (holds.narrow (Nat.le_refl _) upper).earlier looping.leaves.later aims.ready.sound (Nat.le_refl _)
  have operand := front.operand looping.patched (by omega) (by omega)
  have below : Holds context (emitBytes tested (bytesWith .jumpIfFalse maxOperand)) before.offset (tested.offset + 1) :=
    ((front.narrow (Nat.le_refl _) (by omega)).unpatched looping.patched (.inl (Nat.le_refl _))).earlier
      looping.round.later jump.ready.sound (by omega)
  have op_at := below.opcode start (Nat.lt_succ_self _)
  have condition := looping.condition.segment context shape ((below.narrow (Nat.le_refl _) (Nat.le_succ _)).earlier
    jump.later looping.condition.ready.sound (Nat.le_refl _)) (suits₂.earlier jump.later.locals jump.size)
  rw [Shape.pushes_zero] at condition out
  rw [same] at out
  exact Block.while condition (jumpIfFalse_block shape op_at operand (by omega)) rounds out

theorem turns (rounds : Rounds before.offset (emitBytes tested (bytesWith .jumpIfFalse maxOperand)) looped 1) :
    Turns false before after 0 0 := by
  refine ⟨looping.phrase, fun context shape holds suits => .inr ?_⟩
  have size := bytesWith_offset tested .jumpIfFalse maxOperand
  obtain ⟨held, suits'⟩ := looping.held holds suits
  have block := rounds.block context shape (size.symm ▸ held) suits'
  rw [size] at block
  rw [Shape.pushes_zero]
  have closed := looping.around holds suits (block.mono (fun _ _ enter => enter.elim id nofun) fun _ _ => id :
    Block context _ _ ((Points.at (tested.offset + 3) (shape.pushes 1)).or .none) (.at before.offset shape))
  exact closed.mono (fun _ _ => .inl) fun _ _ => id

theorem body (enters : Turns false (emitBytes tested (bytesWith .jumpIfFalse maxOperand)) entered 1 0)
    (cycle : Cycle before.offset back entered stepped reached looped) (hole : Hole context own shape before after) :
    Hole context own shape stepped reached := by
  have size := bytesWith_offset tested .jumpIfFalse maxOperand
  have lower := enters.later.offset
  rw [size] at lower
  obtain ⟨round, suits⟩ := looping.held hole.holds hole.suits
  have entered_round := round.narrow lower (Nat.le_refl _)
  obtain ⟨held, suits'⟩ := cycle.held entered_round suits
  refine ⟨held, suits', ?_⟩
  have whole := hole.whole
  rw [Shape.take_all ((hole.suits.exact rfl).trans looping.phrase.size)] at whole
  rw [Shape.take_all ((suits'.exact rfl).trans cycle.body.size)]
  have dropping := enters.segment context shape
    (size.symm ▸ (round.narrow (Nat.le_refl _) cycle.phrase.later.offset).earlier cycle.phrase.later enters.ready.sound
      (Nat.le_refl _)) (suits.earlier cycle.phrase.later.locals cycle.phrase.size)
  rw [size, Shape.pushes_zero] at dropping
  refine whole.inwards fun extra passage => ?_
  exact looping.around hole.holds hole.suits (dropping.before_open (cycle.around entered_round suits passage))

end

end Looping

end Compile

end StackScript
