import StackScript.Proofs.Jumps
import StackScript.Proofs.Variables

/-!
Every expression leaves one value. The levels of precedence pass this on to each other; jumps of `and` and `or` meet
the code behind the right operand with the same shape as it.
-/

namespace StackScript.Compile

open Parse

variable {name : String} {op : Opcode} {entry count a b : Nat}

section Words

variable {α : Type} {loose : Bool} {fact : Fact} {what : Expectation}

/-- If the token is a name, it is one that a variable may have. -/
def Fact.mayName (kind : Kind) (name : String) : Fact :=
  ⟨fun _ => kind = .identifier → name ≠ "" ∧ Role.ofName name = .ordinary, fun _ => id⟩

theorem peek_mem (cursor : Cursor) : cursor.peek ∈ cursor.tokens :=
  Array.getElem_mem _

theorem peek_bind {next : Token → Parse α}
    (turning : ∀ token, Turning loose (fact.and (.mayName token.kind token.lexeme)) (next token) a b) :
    Turning loose fact (peek >>= next) a b := by
  intro before value after done clean
  obtain ⟨clean, turns⟩ := turning before.cursor.peek before value after (read_ok done) clean
  exact ⟨clean, fun ready known => turns ready ⟨known, ready.names _ (peek_mem _)⟩⟩

theorem advance_previous {cursor : Cursor} (more : cursor.isAtEnd = false) : cursor.advance.previous = cursor.peek := by
  simp only [Cursor.advance, more, dite_true, Cursor.previous, Cursor.peek, Nat.add_sub_cancel]

theorem expectName_ok {before after : Compilation} (done : expectName what before = .ok name after) :
    ∃ token ∈ before.cursor.tokens, token.kind = .identifier ∧ token.lexeme = name ∧
      after = { before with cursor := before.cursor.advance } ∧ after.cursor.previous = token := by
  obtain ⟨_, between, expected, done⟩ := bind_ok done
  cases done
  obtain ⟨found, rfl⟩ := expect_ok expected
  have more : before.cursor.isAtEnd = false := by simp [Cursor.isAtEnd, found]
  exact ⟨before.cursor.peek, peek_mem _, found, by rw [← advance_previous more], rfl, advance_previous more⟩

theorem expectName_bind {next : String → Parse α}
    (turning : ∀ name, Turning loose (fact.and (.mayName .identifier name)) (next name) a b) :
    Turning loose fact (expectName what >>= next) a b := by
  intro before value after done clean
  obtain ⟨name, between, named, done⟩ := bind_ok done
  obtain ⟨clean, turns⟩ := turning name between value after done clean
  obtain ⟨token, member, isName, rfl, rfl, -⟩ := expectName_ok named
  refine ⟨clean, fun ready known => ?_⟩
  have phrase := moved_phrase ready (advance_tokens before.cursor)
  exact .after_silent phrase rfl (turns phrase.ready ⟨fact.stable phrase known, fun _ => ready.names _ member isName⟩)

end Words

section Operations

variable {α : Type} {loose : Bool} {fact : Fact} {action : Parse α}

theorem literal_turning (isLiteral : op.isLiteral = true) : Turning loose fact (emit op) 0 1 := by
  refine emit_turning fun context shape place op_at _ _ => ?_
  rw [Shape.pushes_zero]
  exact .literal isLiteral op_at ⟨rfl, .refl _⟩

theorem unary_op_turning (isUnary : op.isUnary = true) : Turning loose fact (emit op) 1 1 :=
  emit_turning fun _ _ _ op_at grounded _ => .unary isUnary op_at grounded ⟨rfl, .refl _⟩

theorem binary_op_turning (isBinary : op.isBinary = true) : Turning loose fact (emit op) 2 1 :=
  emit_turning fun _ _ _ op_at grounded _ => .binary isBinary op_at grounded ⟨rfl, .refl _⟩

theorem pop_turning : Turning loose fact (emit .pop) 1 0 := by
  refine emit_turning fun context shape place op_at grounded _ => ?_
  rw [Shape.pushes_zero]
  exact .pop op_at rfl grounded ⟨rfl, .refl _⟩

def Fact.number (index : Nat) (x : Float) : Fact :=
  ⟨fun state => state.scope.chunk.constants[index]? = some (Value.toWord (.number x)) ∧ index ≤ maxConstantIndex,
    fun phrase => And.imp_left (phrase.later.tables.constants index _)⟩

theorem constant_turning (x : Float) :
    Turning loose fact (makeConstant (.number x) >>= fun index => emitWith .constant index) 0 1 := by
  intro before value after done clean
  obtain ⟨index, between, made, done⟩ := bind_ok done
  obtain ⟨index_eq, small, rfl⟩ := makeConstant_ok made
  have turning : Turning loose (fact.and (.number index x)) (emitWith .constant index) 0 1 := by
    refine emitWith_turning (fun _ _ known => Nat.le_trans known.2.2 (by decide)) ?_
    intro state context shape place known covers suits op_at operand
    have found : context.chunk.constant? index = some (.number (Float.ofBits (Value.toWord (.number x)))) := by
      rw [Chunk.constant?, covers.tables.constants _ _ known.2.1, Option.map_some, Value.ofWord_number]
    rw [Shape.pushes_zero]
    exact .constant op_at operand found ⟨rfl, .refl _⟩
  obtain ⟨clean, turns⟩ := turning _ value after done clean
  refine ⟨clean, fun ready known => ?_⟩
  have phrase := addConstant_phrase ready (.number x)
  refine .after_silent phrase rfl (turns phrase.ready ⟨fact.stable phrase known, ?_, small⟩)
  simp [index_eq, Chunk.addConstant]

theorem string_turning (text : String) :
    Turning loose fact (makeString text >>= fun entry => emitWith .string entry) 0 1 := by
  refine makeString_bind fun entry => emitWith_turning (fun _ _ known => known.2.2) ?_
  intro state context shape place known covers suits op_at operand
  rw [Shape.pushes_zero]
  exact .string op_at operand (covers.tables.strings _ _ known.2.1) ⟨rfl, .refl _⟩

theorem getProperty_turning (named : fact.Implies (.names entry name)) :
    Turning loose fact (emitWith .getProperty entry) 1 1 := by
  refine emitWith_turning (fun _ _ known => (named _ known).2) ?_
  intro state context shape place known covers suits op_at operand
  exact .getProperty op_at operand (covers.tables.strings _ _ (named _ known).1) suits.fits.grounded ⟨rfl, .refl _⟩

theorem setProperty_turning (named : fact.Implies (.names entry name)) :
    Turning loose fact (emitWith .setProperty entry) 2 1 := by
  refine emitWith_turning (fun _ _ known => (named _ known).2) ?_
  intro state context shape place known covers suits op_at operand
  exact .setProperty op_at operand (covers.tables.strings _ _ (named _ known).1) suits.fits.grounded ⟨rfl, .refl _⟩

def Fact.few (count : Nat) : Fact :=
  ⟨fun _ => count ≤ maxArguments, fun _ => id⟩

theorem toNat_count (few : count ≤ maxArguments) : count.toUInt8.toNat = count := by
  simp only [maxArguments] at few
  simp only [Nat.toUInt8, UInt8.toNat_ofNat']
  omega

theorem call_turning (few : fact.Implies (.few count))
    (emits : ∀ state, ∃ value, action state = .ok value (emitBytes state [Opcode.call.toByte, count.toUInt8])) :
    Turning loose fact action (1 + count) 1 := by
  refine emitBytes_turning _ emits ?_
  intro state context shape place _ known _ suits bytes
  rcases shape with ⟨slots, none'⟩
  cases suits.settled.known
  have accepts := @Accepts.call context (.at (place + 2) (Shape.pushes ⟨slots, none⟩ 1)) place slots count.toUInt8
    (bytes 0 _ rfl) (bytes 1 _ rfl) suits.settled suits.fits.grounded ⟨rfl, .refl _⟩
  rwa [toNat_count (few _ known), Nat.add_comm count 1] at accepts

theorem invoke_turning (few : fact.Implies (.few count)) (named : fact.Implies (.names entry name))
    (emits : ∀ state, ∃ value,
      action state = .ok value (emitBytes state (bytesWith .invoke entry ++ [count.toUInt8]))) :
    Turning loose fact action (1 + count) 1 := by
  refine emitBytes_turning _ emits ?_
  intro state context shape place _ known covers suits bytes
  have operand := operand?_of_bytes (named _ known).2 (bytes 1 _ rfl) (bytes 2 _ rfl)
  rcases shape with ⟨slots, none'⟩
  cases suits.settled.known
  have accepts := @Accepts.invoke context (.at (place + 4) (Shape.pushes ⟨slots, none⟩ 1)) place slots entry name
    count.toUInt8 (bytes 0 _ rfl) operand (covers.tables.strings _ _ (named _ known).1) (bytes 3 _ rfl) suits.settled
    suits.fits.grounded ⟨rfl, .refl _⟩
  rwa [toNat_count (few _ known), Nat.add_comm count 1] at accepts

theorem super_turning {action : Parse Unit} (bytes : List UInt8) (declared : fact.Implies .hasSuper)
    (emits : ∀ state, action state = .ok () (emitBytes state bytes))
    (accepts : ∀ state context shape place, fact.holds state → Covers context state →
      Suits true state.scope.locals shape →
      (∀ i byte, bytes[i]? = some byte → context.chunk.code[place + i]? = some byte) →
      Accepts context (.at (place + bytes.length) (shape.pushes b)) place (place + bytes.length)
        ((shape.pushes a).push ⟨.parent, false⟩)) : Turning true fact (readVariable "super" >>= fun _ => action) a b := by
  intro before value after done clean
  obtain ⟨_, between, read, done⟩ := bind_ok done
  cases (emits between).symm.trans done
  rw [emitBytes_errors] at clean
  refine ⟨?_, fun ready known => ?_⟩
  · exact readVariable_errors read ▸ clean
  obtain ⟨access, phrase, reached, reads⟩ := readVariable_reads ready (by decide) read
  have emitted := emitBytes_phrase phrase.ready bytes
  refine ⟨phrase.trans emitted, fun context shape holds suits => ?_⟩
  have suits' := suits.earlier emitted.later.locals emitted.size
  have gives : Gives "super" (shape.pushes a) .parent access := by
    cases access with
    | «local» slot =>
      obtain ⟨binding, found, same, readable⟩ := reached.found
      obtain ⟨held, slot_at, role, -⟩ :=
        (suits'.pushes a).fits.named slot binding found readable (by rw [same]; decide)
      rw [same] at role
      exact ⟨held, slot_at, by rw [Content.eq_superclass role]; rfl⟩
    | upvalue index => rfl
    | global entry =>
      -- where a superclass was declared, some scope knows `super`
      obtain ⟨-, -, own, around⟩ := reached
      rcases Fact.hasSuper.stable phrase (declared _ known) with here | there
      · exact absurd here own
      · exact absurd there around
  have upper := emitted.later.offset
  have lower := phrase.later.offset
  have segment := reads context _ _ _ ((holds.narrow (Nat.le_refl _) upper).earlier emitted.later phrase.ready.sound
    (Nat.le_refl _)) gives (.refl _)
  refine segment.trans (.inr ?_)
  rw [emitBytes_offset] at holds ⊢
  refine Block.single (accepts _ context shape _ (fact.stable (phrase.trans emitted) known) holds.toCovers suits ?_)
  intro i byte found
  exact holds.emitted lower (Nat.le_refl _) found

theorem getSuper_turning (named : fact.Implies (.names entry name)) (declared : fact.Implies .hasSuper) :
    Turning true fact (readVariable "super" >>= fun _ => emitWith .getSuper entry) 1 1 := by
  refine super_turning (bytesWith .getSuper entry) declared (fun _ => rfl) ?_
  intro state context shape place known covers suits bytes
  have accepts := @Accepts.getSuper context (.at (place + 3) (shape.pushes 1)) place shape.slots shape.known entry name
    (bytes 0 _ rfl) (operand?_of_bytes (named _ known).2 (bytes 1 _ rfl) (bytes 2 _ rfl))
    (covers.tables.strings _ _ (named _ known).1) suits.fits.grounded ⟨rfl, .refl _⟩
  have same : (shape.pushes 1).push ⟨.parent, false⟩ = ⟨shape.slots ++ [.plain, ⟨.parent, false⟩], shape.known⟩ := by
    simp [Shape.push, Shape.pushes]
  rw [same]
  exact accepts

theorem superInvoke_turning (few : fact.Implies (.few count)) (named : fact.Implies (.names entry name))
    (declared : fact.Implies .hasSuper) : Turning true fact (do
      readVariable "super"
      emitWith .superInvoke entry
      emitByte count.toUInt8) (1 + count) 1 := by
  refine super_turning (bytesWith .superInvoke entry ++ [count.toUInt8]) declared (fun _ => rfl) ?_
  intro state context shape place known covers suits bytes
  have operand := operand?_of_bytes (named _ known).2 (bytes 1 _ rfl) (bytes 2 _ rfl)
  rcases shape with ⟨slots, none'⟩
  cases suits.settled.known
  have accepts := @Accepts.superInvoke context (.at (place + 4) (Shape.pushes ⟨slots, none⟩ 1)) place slots entry name
    count.toUInt8 (bytes 0 _ rfl) operand (covers.tables.strings _ _ (named _ known).1) (bytes 3 _ rfl) suits.settled
    suits.fits.grounded ⟨rfl, .refl _⟩
  rwa [toNat_count (few _ known), Nat.add_comm count 1] at accepts

end Operations

section Grammar

variable {α : Type} {fact : Fact} {expression operand right : Parse Unit} {canAssign : Bool} {first second third : Compilation}

section

variable (inner : Turning true .none expression 0 1)
include inner

theorem argumentsFrom_turning (bound count : Nat) :
    (argumentsFrom expression bound count).Ensures fun before total after => count ≤ maxArguments → Ready before →
      total ≤ maxArguments ∧ Turns true before after count total := by
  induction bound generalizing count with
  | zero =>
    intro before total after done clean
    cases done
    exact ⟨clean, fun few ready => ⟨few, .refl ready⟩⟩
  | succ bound ih =>
    intro before total after done clean
    obtain ⟨_, second, first_done, done⟩ := bind_ok done
    by_cases full : count = maxArguments
    · simp only [full, if_true] at done
      cases done
    · simp only [full, if_false] at done
      obtain ⟨comma, third, accepted, done⟩ := bind_ok done
      have moved := @accept_turning true .none (count + 1) .comma second comma third accepted
      cases comma with
      | true =>
        obtain ⟨clean, rest⟩ := ih (count + 1) third total after done clean
        obtain ⟨clean, moves⟩ := moved clean
        obtain ⟨clean, one⟩ := inner before () second first_done clean
        refine ⟨clean, fun few ready => ?_⟩
        have one := (one ready trivial).raise count
        have moves := moves one.ready trivial
        obtain ⟨few, turns⟩ := rest (by omega) moves.ready
        exact ⟨few, one.trans (moves.trans turns)⟩
      | false =>
        cases done
        obtain ⟨clean, moves⟩ := moved clean
        obtain ⟨clean, one⟩ := inner before () second first_done clean
        refine ⟨clean, fun few ready => ?_⟩
        have one := (one ready trivial).raise count
        exact ⟨by omega, one.trans (moves one.ready trivial)⟩

theorem arguments_turning :
    (arguments expression).Ensures fun before count after => Ready before →
      count ≤ maxArguments ∧ Turns true before after 0 count := by
  intro before count after done clean
  have done := read_ok done
  have closed (count : Nat) := @expect_turning true .none count .rightParen .rightParenAfterArguments
  split at done
  · obtain ⟨_, between, none, done⟩ := bind_ok done
    cases none
    obtain ⟨_, between, closing, done⟩ := bind_ok done
    cases done
    obtain ⟨clean, turns⟩ := closed 0 _ _ _ closing clean
    exact ⟨clean, fun ready => ⟨Nat.zero_le _, turns ready trivial⟩⟩
  · have done := read_ok done
    obtain ⟨total, between, supplied, done⟩ := bind_ok done
    obtain ⟨_, between', closing, done⟩ := bind_ok done
    cases done
    obtain ⟨clean, closes⟩ := closed count _ _ _ closing clean
    obtain ⟨clean, supplies⟩ := argumentsFrom_turning inner _ 0 _ _ _ supplied clean
    refine ⟨clean, fun ready => ?_⟩
    obtain ⟨few, turns⟩ := supplies (Nat.zero_le _) ready
    exact ⟨few, turns.trans (closes turns.ready trivial)⟩

theorem arguments_bind {next : Nat → Parse α}
    (turning : ∀ count, Turning true (fact.and (.few count)) (next count) (a + count) b) :
    Turning true fact (arguments expression >>= next) a b := by
  intro before value after done clean
  obtain ⟨count, between, supplied, done⟩ := bind_ok done
  obtain ⟨clean, turns⟩ := turning count between value after done clean
  obtain ⟨clean, supplies⟩ := arguments_turning inner before count between supplied clean
  refine ⟨clean, fun ready known => ?_⟩
  obtain ⟨few, first⟩ := supplies ready
  have first := first.raise a
  exact first.trans (turns first.ready ⟨fact.stable first.toPhrase known, few⟩)

theorem property_turning :
    Turning true fact (property expression canAssign) 1 1 := by
  refine expectName_bind fun name => makeString_bind fun entry => acceptIf_bind (fun _ => ?_) ?_
  · exact ((inner.known fun _ _ => trivial).raise 1).bind fun _ => setProperty_turning fun _ known => known.2
  · refine (accept_turning _).bind fun called => .ite (fun _ => ?_) fun _ => getProperty_turning fun _ known => known.2
    refine arguments_bind inner fun count => ?_
    exact invoke_turning (fun _ known => known.2) (fun _ known => known.1.2) fun _ => ⟨_, rfl⟩

theorem callSuffix_turning :
    Turning true fact (callSuffix expression canAssign) 1 1 := by
  refine (accept_turning _).bind fun called => .ite (fun _ => ?_) fun _ => ?_
  · refine arguments_bind inner fun count => ?_
    exact call_turning (fun _ known => known.2) fun _ => ⟨_, rfl⟩
  · refine (accept_turning _).bind fun dotted => .ite (fun _ => ?_) fun _ => .pure _
    exact (property_turning inner).bind fun _ => .pure _

omit inner in
theorem thisExpression_turning : Turning true fact thisExpression 0 1 :=
  (read_turning _).bind fun _ => .ite (fun _ => failBehind_turning _) fun _ => readVariable_turning (by simp)

theorem superExpression_turning :
    Turning true fact (superExpression expression) 0 1 := by
  have turning : Turning true (fact.and .hasSuper) (do
      expect .dot .dotAfterSuper
      let name ← makeString (← expectName .superclassMethodName)
      readVariable "this"
      if ← accept .leftParen then
        let count ← arguments expression
        readVariable "super"
        emitWith .superInvoke name
        emitByte count.toUInt8
      else
        readVariable "super"
        emitWith .getSuper name) 0 1 := by
    refine (expect_turning _ _).bind fun _ => expectName_bind fun name => makeString_bind fun entry => ?_
    refine (readVariable_turning (by simp)).bind fun _ => (accept_turning _).bind fun called => .ite (fun _ => ?_) fun _ => ?_
    · refine arguments_bind inner fun count => ?_
      exact superInvoke_turning (fun _ known => known.2) (fun _ known => known.1.2) fun _ known => known.1.1.1.2
    · exact getSuper_turning (fun _ known => known.2) fun _ known => known.1.1.2
  intro before value after done clean
  have done := read_ok done
  rcases head : before.classes.head? with _ | ⟨_ | _⟩
  · simp only [head] at done
    cases done
  · simp only [head] at done
    cases done
  · simp only [head] at done
    obtain ⟨clean, turns⟩ := turning before value after done clean
    exact ⟨clean, fun ready known => turns ready ⟨known, ready.supers head⟩⟩

theorem primary_turning :
    Turning true fact (primary expression canAssign) 0 1 := by
  refine peek_bind fun token => ?_
  split
  · exact advance_turning.bind fun _ => literal_turning rfl
  · exact advance_turning.bind fun _ => literal_turning rfl
  · exact advance_turning.bind fun _ => literal_turning rfl
  · exact advance_turning.bind fun _ => constant_turning _
  · exact advance_turning.bind fun _ => string_turning _
  · next isName =>
    refine advance_turning.bind fun _ => namedVariable_turning ?_ fun _ => ⟨inner, ?_⟩
    · exact fun _ known => (known.2 isName).1
    · exact fun _ known => (known.2 isName).2
  · exact advance_turning.bind fun _ => (inner.known fun _ _ => trivial).bind fun _ => expect_turning _ _
  · exact advance_turning.bind fun _ => thisExpression_turning
  · exact advance_turning.bind fun _ => superExpression_turning inner
  · exact failHere_turning _

theorem call_level_turning :
    Turning true fact (call expression canAssign) 0 1 :=
  (primary_turning inner).bind fun _ => whileProgress_turning (callSuffix_turning inner)

theorem unary_turning (deeper : Turning true .none operand 0 1) :
    Turning true .none (unary expression operand canAssign) 0 1 := by
  refine (read_turning _).bind fun token => ?_
  split
  · next op isUnary =>
    refine advance_turning.bind fun _ => deeper.bind fun _ => unary_op_turning ?_
    unfold unaryOperator? at isUnary
    split at isUnary <;> cases isUnary <;> rfl
  · exact call_level_turning inner

end

def Operators.Binary (operators : Operators) : Prop :=
  ∀ kind ops, operators kind = some ops → ∀ fact, Turning true fact (emitAll ops) 2 1

theorem emitAll_one (isBinary : op.isBinary = true) : Turning true fact (emitAll [op]) 2 1 :=
  (binary_op_turning isBinary).bind fun _ => .pure ()

theorem emitAll_not (isBinary : op.isBinary = true) : Turning true fact (emitAll [op, .not]) 2 1 :=
  (binary_op_turning isBinary).bind fun _ => (unary_op_turning rfl).bind fun _ => .pure ()

theorem equalityOperators_binary : equalityOperators.Binary := by
  intro kind ops found fact
  cases kind <;> cases found
  · exact emitAll_not rfl
  · exact emitAll_one rfl

theorem comparisonOperators_binary : comparisonOperators.Binary := by
  intro kind ops found fact
  cases kind <;> cases found
  · exact emitAll_one rfl
  · exact emitAll_not rfl
  · exact emitAll_one rfl
  · exact emitAll_not rfl

theorem termOperators_binary : termOperators.Binary := by
  intro kind ops found fact
  cases kind <;> cases found <;> exact emitAll_one rfl

theorem factorOperators_binary : factorOperators.Binary := by
  intro kind ops found fact
  cases kind <;> cases found <;> exact emitAll_one rfl

theorem binary_level_turning {operators : Operators} {tighter : Bool → Parse Unit} (isBinary : operators.Binary)
    (inner : ∀ canAssign, Turning true .none (tighter canAssign) 0 1) :
    Turning true .none (binary operators tighter canAssign) 0 1 := by
  refine (inner canAssign).bind fun _ => whileProgress_turning ((read_turning _).bind fun token => ?_)
  split
  · next ops found =>
    exact advance_turning.bind fun _ => ((inner false).raise 1).bind fun _ =>
      (isBinary _ ops found _).bind fun _ => .pure _
  · exact .pure _

theorem equality_turning (inner : Turning true .none expression 0 1) (deeper : Turning true .none operand 0 1) :
    Turning true .none (equality expression operand canAssign) 0 1 :=
  binary_level_turning equalityOperators_binary fun _ => binary_level_turning comparisonOperators_binary fun _ =>
    binary_level_turning termOperators_binary fun _ => binary_level_turning factorOperators_binary fun _ =>
      unary_turning inner deeper

theorem Turns.skipped (ready : Ready first)
    (body : Turns true (emitBytes first (bytesWith .jumpIfFalse maxOperand)) second 1 1)
    (patched : Patched (first.offset + 1) (second.offset - (first.offset + 1) - 2) second third) :
    Turns true first third 1 1 := by
  have jump := emitBytes_phrase ready (bytesWith .jumpIfFalse maxOperand)
  have size := bytesWith_offset first .jumpIfFalse maxOperand
  have lower := body.later.offset
  refine ⟨(jump.trans body.toPhrase).patched (Nat.le_succ _) patched, fun context shape holds suits => .inr ?_⟩
  rw [patched.offset] at holds ⊢
  have operand := holds.operand patched (Nat.le_succ _) (by omega)
  have op_at := (((holds.narrow (Nat.le_refl _) (by omega)).unpatched patched (.inl (Nat.le_refl _))).earlier body.later
    jump.ready.sound (by omega)).opcode (Nat.le_refl _) (Nat.lt_succ_self _)
  have segment := body.segment context shape ((holds.narrow (by omega) (Nat.le_refl _)).unpatched patched
    (.inr (by omega))) (patched.locals ▸ suits)
  rw [size] at segment
  exact segment.after_branch (jumpIfFalse_block shape op_at operand (by omega)) fun _ _ => id

theorem andSuffix_turning (inner : Turning true .none right 0 1) : Turning true .none (andSuffix right) 1 1 := by
  refine (accept_turning _).bind fun found => .ite (fun _ => ?_) fun _ => .pure _
  intro before value after done clean
  obtain ⟨toEnd, jumped, emitted, done⟩ := bind_ok done
  obtain ⟨rfl, rfl⟩ := emitJump_ok emitted
  obtain ⟨_, popped, pop_done, done⟩ := bind_ok done
  obtain ⟨_, reached, right_done, done⟩ := bind_ok done
  obtain ⟨_, patched, patch_done, done⟩ := bind_ok done
  cases done
  obtain ⟨clean, rights⟩ := inner _ _ _ right_done (patchJump_errors patch_done ▸ clean)
  obtain ⟨clean, pops⟩ := @pop_turning true .none _ _ _ pop_done clean
  refine ⟨emitBytes_errors _ _ ▸ clean, fun ready known => ?_⟩
  have pops := pops (emitBytes_phrase ready _).ready trivial
  have body := pops.trans (rights pops.ready trivial)
  have lower := body.later.offset
  rw [emitBytes_offset] at lower
  exact .skipped ready body (patchJump_ok patch_done (by simpa [bytesWith] using lower))

theorem Turns.alternative {fourth : Compilation} (ready : Ready first)
    (aimed : Patched (first.offset + 1) 3
      (emitBytes (emitBytes first (bytesWith .jumpIfFalse maxOperand)) (bytesWith .jump maxOperand)) second)
    (body : Turns true second third 1 1)
    (patched : Patched (first.offset + 4) (third.offset - (first.offset + 4) - 2) third fourth) :
    Turns true first fourth 1 1 := by
  have one := emitBytes_phrase ready (bytesWith .jumpIfFalse maxOperand)
  have two := emitBytes_phrase one.ready (bytesWith .jump maxOperand)
  have size := bytesWith_offset first .jumpIfFalse maxOperand
  have size' : second.offset = first.offset + 6 := by
    rw [aimed.offset, emitBytes_offset, size]
    rfl
  have jumps := (one.trans two).patched (Nat.le_succ _) aimed
  have lower := body.later.offset
  refine ⟨(jumps.trans body.toPhrase).patched (by omega) patched, fun context shape holds suits => .inr ?_⟩
  rw [patched.offset] at holds ⊢
  have operand := holds.operand patched (by omega) (by omega)
  have holds' := ((holds.narrow (Nat.le_refl _) (by omega)).unpatched patched (.inl (Nat.le_refl _))).earlier body.later
    jumps.ready.sound (by omega)
  have operand' := holds'.operand aimed (by omega) (by omega)
  have op_at := ((holds'.narrow (Nat.le_add_right first.offset 3) (Nat.le_refl _)).unpatched aimed
    (.inr (Nat.le_refl _))).opcode (by omega) (by omega)
  have op_at' := (((holds'.narrow (Nat.le_refl _) (by omega)).unpatched aimed (.inl (Nat.le_refl _))).earlier two.later
    one.ready.sound (by omega)).opcode (Nat.le_refl _) (Nat.lt_succ_self _)
  rw [size] at op_at
  have segment := body.segment context shape ((holds.narrow (by omega) (Nat.le_refl _)).unpatched patched
    (.inr (by omega))) (patched.locals ▸ suits)
  rw [size'] at segment
  refine segment.after_branch ?_ fun _ _ => id
  refine (jumpIfFalse_block shape op_at' operand' (rfl : first.offset + 3 + 3 = first.offset + 6)).join
    (jump_block (shape.pushes 1) op_at operand (by omega : _ = third.offset)) (fun _ _ => .inl) ?_
  rintro place found ((on | right) | out)
  · exact .inr (.inl on)
  · exact .inr (.inr (.inl right))
  · exact .inr (.inr (.inr out))

theorem orSuffix_turning (inner : Turning true .none right 0 1) : Turning true .none (orSuffix right) 1 1 := by
  refine (accept_turning _).bind fun found => .ite (fun _ => ?_) fun _ => .pure _
  intro before value after done clean
  obtain ⟨toRight, jumped, emitted, done⟩ := bind_ok done
  obtain ⟨rfl, rfl⟩ := emitJump_ok emitted
  obtain ⟨toEnd, jumped, emitted, done⟩ := bind_ok done
  obtain ⟨rfl, rfl⟩ := emitJump_ok emitted
  obtain ⟨_, aimed, aim_done, done⟩ := bind_ok done
  obtain ⟨_, popped, pop_done, done⟩ := bind_ok done
  obtain ⟨_, reached, right_done, done⟩ := bind_ok done
  obtain ⟨_, patched, patch_done, done⟩ := bind_ok done
  cases done
  obtain ⟨clean, rights⟩ := inner _ _ _ right_done (patchJump_errors patch_done ▸ clean)
  obtain ⟨clean, pops⟩ := @pop_turning true .none _ _ _ pop_done clean
  rw [patchJump_errors aim_done, emitBytes_errors, emitBytes_errors] at clean
  refine ⟨clean, fun ready known => ?_⟩
  have one := emitBytes_phrase ready (bytesWith .jumpIfFalse maxOperand)
  have two := emitBytes_phrase one.ready (bytesWith .jump maxOperand)
  have size := bytesWith_offset before .jumpIfFalse maxOperand
  have size' : (emitBytes (emitBytes before (bytesWith .jumpIfFalse maxOperand)) (bytesWith .jump maxOperand)).offset =
      before.offset + 6 := by
    rw [emitBytes_offset, size]
    rfl
  have aims := patchJump_ok aim_done (by omega)
  have pops := pops ((one.trans two).patched (Nat.le_succ _) aims).ready trivial
  have body := pops.trans (rights pops.ready trivial)
  have lower := body.later.offset
  rw [aims.offset, size'] at lower
  rw [size'] at aims
  rw [size] at patch_done
  have distance : before.offset + 6 - (before.offset + 1) - 2 = 3 := by omega
  exact .alternative ready (distance ▸ aims) body (patchJump_ok patch_done (by omega))

theorem wholeExpression_turning (inner : Turning true .none expression 0 1) (deeper : Turning true .none operand 0 1) :
    Turning true .none (wholeExpression expression operand) 0 1 := by
  have tighter (canAssign : Bool) : Turning true .none (logicalAnd expression operand canAssign) 0 1 :=
    (equality_turning inner deeper).bind fun _ =>
      whileProgress_turning (andSuffix_turning (equality_turning inner deeper))
  have whole : Turning true .none (logicalOr expression operand true) 0 1 :=
    (tighter true).bind fun _ => whileProgress_turning (orSuffix_turning (tighter false))
  exact whole.bind fun _ => (accept_turning _).bind fun _ => .ite (fun _ => failBehind_turning _) fun _ => .pure ()

end Grammar

theorem expression_turning (budget : Nat) :
    Turning true .none (Compile.expression budget) 0 1 ∧ Turning true .none (Compile.operand budget) 0 1 := by
  induction budget with
  | zero => exact ⟨failHere_turning _, failHere_turning _⟩
  | succ budget ih =>
    exact ⟨nested_turning (wholeExpression_turning ih.1 ih.2), nested_turning (unary_turning ih.1 ih.2)⟩

end StackScript.Compile
