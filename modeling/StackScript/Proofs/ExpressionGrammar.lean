import StackScript.Compile.Expression
import StackScript.Proofs.Parsing

/-!
What the actions for expressions read. Each level of precedence reads its strings in front of a token that does not go on
with them. A level that may assign also reads a whole assignment; such a string ends where an expression ends, so no
operator of the levels above it can follow. An equals sign that is left over is met by `expression` alone.
-/

namespace StackScript.Reading

open Compile Compile.Parse Conduct Grammar

variable {string rest : List Kind} {kind : Kind} {complaint : Complaint} {heads : Kind → Bool}

def extendsExpression : Kind → Bool
  | .leftParen | .dot | .equal | .minus | .plus | .slash | .star => true
  | .bangEqual | .equalEqual | .greater | .greaterEqual | .less | .lessEqual => true
  | .keyword word => word == .and || word == .or
  | _ => false

/-- An expression ends in front of such a token. -/
def Ends (kind : Kind) : Prop := extendsExpression kind = false

abbrev Expresses (action : Parse Unit) : Prop :=
  Reads action (fun string rest => string ∈ strings .expression ∧ before Ends string rest)
    fun string kind => string ∈ strings .expression ∧ Ends kind

/-- The actions of a level of precedence, without assignment and with it. Such tokens go on with its strings. -/
structure Level (action : Bool → Parse Unit) (strings : Language Kind) (goesOn : Kind → Bool) : Prop where
  below : ∀ kind, goesOn kind = true → extendsExpression kind = true
  reads : ∀ canAssign, Reads (action canAssign)
    (fun string rest =>
      string ∈ strings ∧ before (fun kind => goesOn kind = false ∧ (canAssign = true → kind ≠ .equal)) string rest ∨
        canAssign = true ∧ string ∈ assigning ∧ before Ends string rest)
    (fun string kind => string ∈ strings ∧ goesOn kind = false ∨ canAssign = true ∧ string ∈ assigning ∧ Ends kind)

def anyOf (heads : Kind → Bool) : Language Kind := {string | ∃ kind, heads kind = true ∧ string = [kind]}

theorem anyOf_starts (heads : Kind → Bool) : Starts heads (anyOf heads) := by
  rintro string ⟨kind, begins, rfl⟩
  exact ⟨kind, [], rfl, begins⟩

theorem mem_anyOf_mul {strings : Language Kind} :
    string ∈ anyOf heads * strings ↔ ∃ kind tail, string = kind :: tail ∧ heads kind = true ∧ tail ∈ strings := by
  rw [Language.mem_mul]
  constructor
  · rintro ⟨_, ⟨kind, begins, rfl⟩, tail, member, rfl⟩
    exact ⟨kind, tail, rfl, begins, member⟩
  · rintro ⟨kind, tail, rfl, begins, member⟩
    exact ⟨[kind], ⟨kind, begins, rfl⟩, tail, member, rfl⟩

theorem mem_sum_one {kinds : List Kind} : string ∈ (kinds.map one).sum ↔ ∃ kind ∈ kinds, string = [kind] := by
  induction kinds with
  | nil => simp
  | cons kind kinds ih =>
    rw [List.map_cons, List.sum_cons, Language.mem_add, ih, List.exists_mem_cons_iff]
    rfl

theorem eq_anyOf {strings : Language Kind} (kinds : List Kind) (sum : strings = (kinds.map one).sum)
    (same : ∀ kind, heads kind = true ↔ kind ∈ kinds) : strings = anyOf heads := by
  ext string
  rw [sum, mem_sum_one]
  exact exists_congr fun kind => and_congr_left fun _ => (same kind).symm

section Levels

variable {action : Bool → Parse Unit} {strings : Language Kind} {goesOn : Kind → Bool}

theorem Level.right (level : Level action strings goesOn) :
    Reads (action false) (fun string rest => string ∈ strings ∧ before (goesOn · = false) string rest)
      (fun string kind => string ∈ strings ∧ goesOn kind = false) := by
  refine (level.reads false).mono ?_ ?_
  · rintro string rest ⟨member, kind, tail, rfl, stops⟩
    exact .inl ⟨member, kind, tail, rfl, stops, nofun⟩
  · rintro string kind (given | ⟨absurd, -⟩)
    · exact given
    · cases absurd

theorem Level.loop {again : Parse Bool} {yes : Token → Parse Unit} (level : Level action strings goesOn)
    (suffix : Suffix again heads (onHead heads yes))
    (right : ∀ token, Reads (yes token) (fun string rest => string ∈ strings ∧ before (goesOn · = false) string rest)
      (fun string kind => string ∈ strings ∧ goesOn kind = false))
    (apart : ∀ kind, heads kind = true → goesOn kind = false ∧ kind ≠ .equal ∧ extendsExpression kind = true) :
    Level (fun canAssign => action canAssign >>= fun _ => whileProgress again)
      (strings * KStar.kstar (anyOf heads * strings)) (fun kind => goesOn kind || heads kind) := by
  have noEnd : heads .eof = false := by
    cases begins : heads .eof with
    | false => rfl
    | true => cases (apart _ begins).2.2
  have starts : Starts heads (anyOf heads * strings) := (anyOf_starts heads).mul
  have once : Reads (onHead heads yes)
      (fun string rest => string ∈ anyOf heads * strings ∧ before (goesOn · = false) string rest)
      (fun string kind => string ∈ anyOf heads * strings ∧ goesOn kind = false) := by
    refine (Reads.onHead noEnd fun token _ _ _ => right token).mono ?_ ?_
    · rintro string rest ⟨member, follow⟩
      obtain ⟨kind, tail, rfl, begins, member⟩ := mem_anyOf_mul.mp member
      exact ⟨kind, tail, rfl, begins, member, follow⟩
    · rintro string next ⟨kind, tail, rfl, begins, member, stops⟩
      exact ⟨mem_anyOf_mul.mpr ⟨kind, tail, rfl, begins, member⟩, stops⟩
  refine ⟨fun kind more => ?_, fun canAssign => ?_⟩
  · rcases Bool.or_eq_true_iff.mp more with more | more
    · exact level.below kind more
    · exact (apart kind more).2.2
  refine (level.reads canAssign).bind (fun _ => suffix.many once fun string member => ?_) ?_ ?_
  · obtain ⟨kind, tail, same, begins⟩ := starts string member
    exact ⟨kind, tail, same, begins, (apart kind begins).1⟩
  · rintro string rest (⟨member, kind, tail, rfl, stops, unequal⟩ | ⟨can, member, kind, tail, rfl, ends⟩)
    · obtain ⟨front, first, back, further, rfl⟩ := Language.mem_mul.mp member
      obtain ⟨stops, stops'⟩ := Bool.or_eq_false_iff.mp stops
      refine ⟨front, back, rfl, .inl ⟨first, ?_⟩, further, kind, tail, rfl, stops, stops'⟩
      -- An operator follows the first operand, or what follows the whole string.
      rcases starts.kstar further with rfl | ⟨next, back, rfl, begins⟩
      · exact ⟨kind, tail, rfl, stops, unequal⟩
      · exact ⟨next, _, rfl, (apart next begins).1, fun _ => (apart next begins).2.1⟩
    · have quiet : goesOn kind = false ∧ heads kind = false := by
        rw [← Bool.not_eq_true, ← Bool.not_eq_true]
        constructor
        · exact fun more => Bool.false_ne_true (ends.symm.trans (level.below kind more))
        · exact fun more => Bool.false_ne_true (ends.symm.trans (apart kind more).2.2)
      exact ⟨string, [], (List.append_nil _).symm, .inr ⟨can, member, kind, tail, rfl, ends⟩,
        Language.nil_mem_kstar _, kind, tail, rfl, quiet⟩
  · rintro front back kind middle follows (⟨first, stops⟩ | ⟨can, first, ends⟩) ⟨further, stops', ended⟩
    · refine .inl ⟨Language.mem_mul.mpr ⟨front, first, back, further, rfl⟩, Bool.or_eq_false_iff.mpr ⟨?_, stops'⟩⟩
      rcases ended with rfl | ended
      · cases follows
        exact stops
      · exact ended
    · -- After an assignment there is no operator.
      rcases starts.kstar further with rfl | ⟨next, back, rfl, begins⟩
      · cases follows
        exact .inr ⟨can, (List.append_nil front).symm ▸ first, ends⟩
      · cases follows
        cases ends.symm.trans (apart _ begins).2.2

end Levels

-- Phrases that hold whole expressions.
section Phrases

variable {expression : Parse Unit}

theorem separated_expression : separated (strings .expression) = strings .arguments :=
  strings_arguments.symm

theorem argumentsFrom_separated (expression : Parse Unit) :
    Separated (fun count => expression >>= fun _ => if count = maxArguments then failBehind .tooManyArguments else pure ())
      (fun count => pure (count + 1)) (argumentsFrom expression) := by
  constructor
  case none => exact fun count => .pure count
  case more =>
    intro bound count state
    rw [argumentsFrom, bind_assoc]
    by_cases full : count = maxArguments
    · simp only [full, if_true]
      rfl
    · simp only [full, if_false]
      rfl

section

variable (expresses : Expresses expression)
include expresses

theorem arguments_parses :
    Parses (arguments expression) ((strings .arguments + 1) * one .rightParen) always := by
  have item (count : Nat) : Parses (expression >>= fun _ =>
      if count = maxArguments then failBehind .tooManyArguments else pure ()) (strings .expression) (before Ends) := by
    refine (expresses.mono (fun _ _ => id) fun _ _ => And.left).then_silent fun _ => ?_
    exact .ite (.refuse rfl) (.pure ())
  have list := (argumentsFrom_separated expression).reads item (fun _ => .pure _) rfl 0
  have closing (count : Nat) : Parses (expect .rightParen .rightParenAfterArguments >>= fun _ => pure count)
      (one .rightParen) always :=
    Reads.then_silent (Parses.expect (by decide) _) fun _ => .pure _
  have filled : Parses ((tokenBound >>= fun bound => argumentsFrom expression bound 0) >>= fun count =>
      expect .rightParen .rightParenAfterArguments >>= fun _ => pure count)
      (strings .arguments * one .rightParen) always := by
    rw [← separated_expression]
    refine list.seq closing ?_
    rintro front - _ rfl rest -
    exact ⟨⟨.rightParen, rest, rfl, rfl, by decide⟩, trivial⟩
  rw [bind_assoc] at filled
  rw [add_mul, one_mul, add_comm]
  refine Parses.check (closing 0) filled ?_ ?_
  · rintro _ rfl rest -
    rfl
  · intro string member rest _
    exact arguments_starts.mul.apart rfl member rest

theorem Expresses.seq {β : Type} {next : Unit → Parse β} {strings : Language Kind}
    {follow follow' : List Kind → List Kind → Prop} (two : ∀ value, Parses (next value) strings follow')
    (starts : Starts (!extendsExpression ·) strings)
    (less : ∀ front ∈ Grammar.strings .expression, ∀ back rest, follow (front ++ back) rest → follow' back rest) :
    Parses (expression >>= next) (Grammar.strings .expression * strings) follow := by
  have first : Parses expression (Grammar.strings .expression) (before Ends) :=
    expresses.mono (fun _ _ => id) fun _ _ => And.left
  refine first.seq two fun front member back further rest fits => ⟨?_, less front member back rest fits⟩
  obtain ⟨kind, tail, rfl, begins⟩ := starts back further
  exact ⟨kind, _, rfl, by simpa [Ends] using begins⟩

theorem Expresses.closed {β : Type} {what : Expectation}
    (closes : (!extendsExpression kind) = true) (real : kind ≠ .eof) {next : Unit → Parse β}
    (silent : ∀ value, Silent (next value)) {follow : List Kind → List Kind → Prop} :
    Parses (expression >>= fun _ => expect kind what >>= next) (strings .expression * one kind) follow := by
  have closing : Parses (expect kind what >>= next) (one kind) always := Reads.then_silent (Parses.expect real what) silent
  exact expresses.seq (fun _ => closing) (.one closes) fun _ _ _ _ _ => trivial

theorem assignable_reads (canAssign : Bool) {set other : Parse Unit} (silent : Silent set)
    {takes : List Kind → List Kind → Prop} {gives : List Kind → Kind → Prop} (reads : Reads other takes gives)
    (apart : canAssign = true → ∀ string rest, takes string rest → (string ++ rest).head? ≠ some .equal) :
    Reads ((pure canAssign <&&> accept .equal) >>= fun found => if found = true then expression >>= fun _ => set else other)
      (fun string rest => takes string rest ∨
        canAssign = true ∧ string ∈ one .equal * strings .assignment ∧ before Ends string rest)
      (fun string kind => gives string kind ∨ canAssign = true ∧ string ∈ one .equal * strings .assignment ∧ Ends kind) := by
  cases canAssign with
  | false =>
    change Reads other _ _
    refine reads.mono ?_ fun _ _ => .inl
    rintro string rest (fits | ⟨absurd, -⟩)
    · exact fits
    · cases absurd
  | true =>
    have value : Reads (expression >>= fun _ => set) _ _ := expresses.then_silent fun _ => silent
    refine Reads.passing (· == .equal) rfl (fun _ _ _ _ => value) reads (fun state => ?_) ?_ ?_ ?_
    · change (accept .equal >>= _) state = _
      rw [accept_bind]
      simp
    · rintro string rest kind tail (fits | ⟨-, member, follow⟩) front
      · have other : kind ≠ .equal := by
          rintro rfl
          exact apart rfl string rest fits (by rw [front, List.head?_cons])
        rw [if_neg (by simpa using other)]
        exact fits
      · obtain ⟨further, inner, rfl⟩ := mem_one_mul.mp member
        obtain ⟨rfl, -⟩ := List.cons.inj front
        exact ⟨further, rfl, strings_expression ▸ inner, follow⟩
    · rintro first string kind chosen ⟨member, ends⟩
      rw [beq_iff_eq] at chosen
      subst chosen
      exact .inr ⟨rfl, mem_one_mul.mpr ⟨string, strings_expression ▸ member, rfl⟩, ends⟩
    · intro string kind first _ _ given
      exact .inl given

theorem namedVariable_reads (name : String) (canAssign : Bool) :
    Reads (namedVariable expression name canAssign)
      (fun string rest => string = [] ∧ before (fun kind => canAssign = true → kind ≠ .equal) string rest ∨
        canAssign = true ∧ string ∈ one .equal * strings .assignment ∧ before Ends string rest)
      (fun string kind => string = [] ∨ canAssign = true ∧ string ∈ one .equal * strings .assignment ∧ Ends kind) := by
  have plain (op : Opcode) (operand : Nat) :
      Parses (emitWith op operand) 1 (before fun kind => canAssign = true → kind ≠ .equal) :=
    .silent (emitWith_obeys op operand)
  have both (get set : Opcode) (operand : Nat) :=
    assignable_reads expresses canAssign (emitWith_obeys set operand) (plain get operand) ?_
  · refine .after_silent (resolve_obeys name) fun access => ?_
    cases access with
    | «local» slot => exact both .getLocal .setLocal slot
    | upvalue index => exact both .getUpvalue .setUpvalue index
    | global entry => exact both .getGlobal .setGlobal entry
  · rintro can _ rest ⟨rfl, kind, tail, rfl, unequal⟩ same
    exact unequal can (Option.some.inj same)

end

def afterName (canAssign : Bool) (string rest : List Kind) : Prop :=
  string ∈ callArguments ∨ before (fun kind => kind ≠ .leftParen ∧ (canAssign = true → kind ≠ .equal)) string rest

theorem callArguments_starts : Starts (· == .leftParen) callArguments := .mul (.one rfl)

theorem called_parses (expresses : Expresses expression) (canAssign : Bool) {call : Nat → Parse Unit} {get : Parse Unit}
    (calls : ∀ count, Silent (call count)) (gets : Silent get) :
    Parses (accept .leftParen >>= fun found => if found = true then arguments expression >>= call else get)
      (callArguments + 1) (afterName canAssign) := by
  have inside : Parses (arguments expression >>= call) ((strings .arguments + 1) * one .rightParen)
      fun string rest => afterName canAssign (.leftParen :: string) rest :=
    Reads.then_silent ((arguments_parses expresses).mono fun _ _ _ _ => trivial) calls
  refine Parses.accept (by decide) inside (.silent gets) ?_
  rintro _ rfl rest (absurd | ⟨kind, tail, rfl, other, -⟩) same
  · obtain ⟨_, _, absurd, -⟩ := callArguments_starts _ absurd
    cases absurd
  · exact other (Option.some.inj same)

theorem property_reads (expresses : Expresses expression) (canAssign : Bool) :
    Reads (property expression canAssign)
      (fun string rest => string ∈ one .identifier * (callArguments + 1) ∧ afterName canAssign string.tail rest ∨
        canAssign = true ∧ string ∈ one .identifier * (one .equal * strings .assignment) ∧ before Ends string rest)
      (fun string kind => string ∈ one .identifier * (callArguments + 1) ∨
        canAssign = true ∧ string ∈ one .identifier * (one .equal * strings .assignment) ∧ Ends kind) := by
  have called (name : Nat) := called_parses expresses canAssign
    (fun count => (emitWith_obeys .invoke name).bind fun _ => emitByte_obeys count.toUInt8)
    (emitWith_obeys .getProperty name)
  have assigned (name : Nat) :=
    assignable_reads expresses canAssign (emitWith_obeys .setProperty name) (called name) ?_
  · have named : Parses (expectName .propertyName) (one .identifier) always := .expectName _
    refine named.bind (fun text => .after_silent (makeString_obeys text) assigned) ?_ ?_
    · rintro string rest (⟨member, follow⟩ | ⟨can, member, follow⟩)
      · obtain ⟨back, inner, rfl⟩ := mem_one_mul.mp member
        exact ⟨[.identifier], back, rfl, ⟨rfl, trivial⟩, .inl ⟨inner, follow⟩⟩
      · obtain ⟨back, inner, rfl⟩ := mem_one_mul.mp member
        exact ⟨[.identifier], back, rfl, ⟨rfl, trivial⟩, .inr ⟨can, inner, follow⟩⟩
    · rintro _ back kind middle - rfl (member | ⟨can, member, ends⟩)
      · exact .inl (mem_one_mul.mpr ⟨back, member, rfl⟩)
      · exact .inr ⟨can, mem_one_mul.mpr ⟨back, member, rfl⟩, ends⟩
  · rintro can string rest ⟨member | rfl, follow⟩ same
    · exact callArguments_starts.apart rfl member rest same
    · rcases follow with absurd | ⟨kind, tail, rfl, -, unequal⟩
      · obtain ⟨_, _, absurd, -⟩ := callArguments_starts _ absurd
        cases absurd
      · exact unequal can (Option.some.inj same)

theorem superExpression_parses (expresses : Expresses expression) :
    Parses (superExpression expression) (one .dot * (one .identifier * (callArguments + 1)))
      fun string rest => afterName false string.tail.tail rest := by
  refine .after_silent (.read _) fun scope => ?_
  match scope with
  | none => exact .failBehind rfl
  | some ⟨false⟩ => exact .failBehind rfl
  | some ⟨true⟩ =>
    refine Parses.expecting (by decide) fun _ => Parses.naming fun text => ?_
    refine .after_silent (makeString_obeys text) fun name => .after_silent (readVariable_obeys _) fun _ => ?_
    refine called_parses expresses false (fun count => ?_) ?_
    · exact (readVariable_obeys _).bind fun _ => (emitWith_obeys _ name).bind fun _ => emitByte_obeys _
    · exact (readVariable_obeys _).bind fun _ => emitWith_obeys _ name

def primaryTail (expression : Parse Unit) (canAssign : Bool) (token : Token) : Parse Unit :=
  match token.kind with
  | .keyword .«false» => emit .pushFalse
  | .keyword .«true» => emit .pushTrue
  | .keyword .nil => emit .pushNil
  | .number => do emitWith .constant (← makeConstant (.number (numberOf token)))
  | .string => do emitWith .string (← makeString (textOf token))
  | .identifier => namedVariable expression token.lexeme canAssign
  | .leftParen => do
    expression
    expect .rightParen .rightParenAfterExpression
  | .keyword .«this» => thisExpression
  | .keyword .super => superExpression expression
  | _ => failHere (.expect .expression)

theorem primary_eq (expression : Parse Unit) (canAssign : Bool) :
    primary expression canAssign = onHead startsPrimary (primaryTail expression canAssign) := by
  funext state
  rw [primary, peek_bind]
  unfold onHead primaryTail
  cases state.cursor.peek.kind with
  | keyword word => cases word <;> rfl
  | _ => rfl

/-- What a primary expression that begins with this token can pass behind it. -/
def primaryTakes (canAssign : Bool) : Kind → List Kind → List Kind → Prop
  | .identifier, string, rest => string = [] ∧ before (fun kind => canAssign = true → kind ≠ .equal) string rest ∨
      canAssign = true ∧ string ∈ one .equal * strings .assignment ∧ before Ends string rest
  | .leftParen, string, _ => string ∈ strings .expression * one .rightParen
  | .keyword .super, string, rest =>
    string ∈ one .dot * (one .identifier * (callArguments + 1)) ∧ afterName false string.tail.tail rest
  | _, string, _ => string = []

/-- What a primary expression that begins with this token has passed behind it. -/
def primaryGives (canAssign : Bool) : Kind → List Kind → Kind → Prop
  | .identifier, string, kind => string = [] ∨ canAssign = true ∧ string ∈ one .equal * strings .assignment ∧ Ends kind
  | .leftParen, string, _ => string ∈ strings .expression * one .rightParen
  | .keyword .super, string, _ => string ∈ one .dot * (one .identifier * (callArguments + 1))
  | _, string, _ => string = []

theorem primaryTail_reads (expresses : Expresses expression) (canAssign : Bool) {token : Token}
    (begins : startsPrimary token.kind = true) :
    Reads (primaryTail expression canAssign token) (primaryTakes canAssign token.kind) (primaryGives canAssign token.kind) := by
  have nothing {action : Parse Unit} (silent : Silent action) :
      Reads action (fun string _ => string = []) (fun string _ => string = []) :=
    Reads.mono (Parses.silent silent : Parses _ _ always) (fun _ _ same => ⟨same, trivial⟩) fun _ _ => id
  unfold primaryTail
  cases kind : token.kind with
  | number => exact nothing ((makeConstant_obeys _).bind fun _ => emitWith_obeys _ _)
  | string => exact nothing ((makeString_obeys _).bind fun _ => emitWith_obeys _ _)
  | identifier => exact namedVariable_reads expresses token.lexeme canAssign
  | leftParen =>
    have closing : Parses (expect .rightParen .rightParenAfterExpression) (one .rightParen) always := .expect (by decide) _
    have whole : Parses _ _ always := expresses.seq (fun _ => closing) (.one rfl) fun _ _ _ _ _ => trivial
    exact Reads.mono whole (fun _ _ member => ⟨member, trivial⟩) fun _ _ => id
  | keyword word =>
    cases word with
    | «false» | «true» | nil => exact nothing (emit_obeys _)
    | «this» => exact nothing thisExpression_obeys
    | super => exact superExpression_parses expresses
    | _ => rw [kind] at begins; cases begins
  | _ => rw [kind] at begins; cases begins

end Phrases

-- Calls and accesses to properties. A property that is called at once is read together with its arguments, and so is a
-- method of the superclass; in the grammar they are two suffixes.
section Calls

variable {expression : Parse Unit} {canAssign : Bool}

def callHead (kind : Kind) : Bool := kind == .leftParen || kind == .dot

theorem callHead_extends (head : callHead kind = true) : extendsExpression kind = true := by
  rw [callHead, Bool.or_eq_true, beq_iff_eq, beq_iff_eq] at head
  rcases head with rfl | rfl <;> rfl

def suffixTail (expression : Parse Unit) (canAssign : Bool) (token : Token) : Parse Unit :=
  if token.kind = .leftParen then do
    let count ← arguments expression
    emit .call
    emitByte count.toUInt8
  else property expression canAssign

theorem callSuffix_suffix (expression : Parse Unit) (canAssign : Bool) :
    Suffix (callSuffix expression canAssign) callHead (onHead callHead (suffixTail expression canAssign)) := by
  constructor
  case stops =>
    intro state stops
    obtain ⟨noCall, noAccess⟩ := Bool.or_eq_false_iff.mp stops
    rw [callSuffix, accept_bind, if_neg (by simpa using noCall)]
    change (accept .dot >>= _) state = _
    rw [accept_bind, if_neg (by simpa using noAccess)]
    rfl
  case goes =>
    intro state goes
    rw [onHead_bind goes, suffixTail, callSuffix, accept_bind]
    by_cases parens : state.cursor.peek.kind = .leftParen
    · rw [if_pos parens, if_pos parens, bind_assoc]
      simp only [bind_assoc]
      rfl
    · have dot : state.cursor.peek.kind = .dot := by simpa [callHead, parens] using goes
      rw [if_neg parens, if_neg parens]
      change (accept .dot >>= _) state = _
      rw [accept_bind, if_pos dot]
      rfl

def suffixTakes (canAssign : Bool) (string rest : List Kind) : Prop :=
  string ∈ callArguments ∨
    string ∈ one .dot * (one .identifier * (callArguments + 1)) ∧ afterName canAssign string.tail.tail rest ∨
    canAssign = true ∧ string ∈ one .dot * (one .identifier * (one .equal * strings .assignment)) ∧ before Ends string rest

def suffixGives (canAssign : Bool) (string : List Kind) (kind : Kind) : Prop :=
  string ∈ callArguments ∨ string ∈ one .dot * (one .identifier * (callArguments + 1)) ∨
    canAssign = true ∧ string ∈ one .dot * (one .identifier * (one .equal * strings .assignment)) ∧ Ends kind

theorem suffixTakes_starts (fits : suffixTakes canAssign string rest) :
    ∃ kind tail, string = kind :: tail ∧ callHead kind = true := by
  have dots {strings : Language Kind} : Starts callHead (one .dot * strings) := .mul (.one rfl)
  rcases fits with member | ⟨member, -⟩ | ⟨-, member, -⟩
  · exact Starts.mul (.one rfl) string member
  · exact dots string member
  · exact dots string member

theorem suffixGives_starts (given : suffixGives canAssign string kind) :
    ∃ first tail, string = first :: tail ∧ callHead first = true := by
  have dots {strings : Language Kind} : Starts callHead (one .dot * strings) := .mul (.one rfl)
  rcases given with member | member | ⟨-, member, -⟩
  · exact Starts.mul (.one rfl) string member
  · exact dots string member
  · exact dots string member

theorem suffix_reads (expresses : Expresses expression) (canAssign : Bool) :
    Reads (onHead callHead (suffixTail expression canAssign)) (suffixTakes canAssign) (suffixGives canAssign) := by
  have tail (token : Token) (kind : Kind) (same : token.kind = kind) (head : callHead kind = true) :
      Reads (suffixTail expression canAssign token) (fun string rest => suffixTakes canAssign (kind :: string) rest)
        (fun string next => suffixGives canAssign (kind :: string) next) := by
    unfold suffixTail
    subst same
    by_cases parens : token.kind = .leftParen
    · rw [if_pos parens, parens]
      refine Reads.mono (Reads.then_silent (arguments_parses expresses) fun count => ?_) ?_ ?_
      · exact (emit_obeys _).bind fun _ => emitByte_obeys _
      · rintro string rest (member | ⟨member, -⟩ | ⟨-, member, -⟩)
        · obtain ⟨_, inner, same⟩ := mem_one_mul.mp member
          cases same
          exact ⟨inner, trivial⟩
        all_goals
          obtain ⟨_, -, same⟩ := mem_one_mul.mp member
          cases same
      · exact fun string _ member => .inl (mem_one_mul.mpr ⟨string, member, rfl⟩)
    · have dot : token.kind = .dot := by simpa [callHead, parens] using head
      rw [if_neg parens, dot]
      refine (property_reads expresses canAssign).mono ?_ ?_
      · rintro string rest (member | ⟨member, follow⟩ | ⟨can, member, follow⟩)
        · obtain ⟨_, -, same⟩ := mem_one_mul.mp member
          cases same
        · obtain ⟨_, inner, same⟩ := mem_one_mul.mp member
          cases same
          exact .inl ⟨inner, follow⟩
        · obtain ⟨_, inner, same⟩ := mem_one_mul.mp member
          cases same
          exact .inr ⟨can, inner, follow⟩
      · rintro string kind (member | ⟨can, member, ends⟩)
        · exact .inr (.inl (mem_one_mul.mpr ⟨string, member, rfl⟩))
        · exact .inr (.inr ⟨can, mem_one_mul.mpr ⟨string, member, rfl⟩, ends⟩)
  refine (Reads.onHead rfl tail).mono ?_ ?_
  · intro string rest fits
    obtain ⟨kind, tail, rfl, head⟩ := suffixTakes_starts fits
    exact ⟨kind, tail, rfl, head, fits⟩
  · rintro string next ⟨kind, tail, rfl, -, given⟩
    exact given

theorem mem_access (member : string ∈ callArguments + 1) :
    .dot :: .identifier :: string ∈ one Kind.dot * (one .identifier * (callArguments + 1)) :=
  mem_one_mul.mpr ⟨_, mem_one_mul.mpr ⟨string, member, rfl⟩, rfl⟩

theorem suffixTakes_dot
    (fits : string ∈ one .dot * (one .identifier * (callArguments + 1)) ∧ afterName canAssign string.tail.tail rest ∨
      canAssign = true ∧ string ∈ one .dot * (one .identifier * (one .equal * strings .assignment)) ∧
        before Ends string rest) : ∃ tail, string = .dot :: tail := by
  rcases fits with ⟨member, -⟩ | ⟨-, member, -⟩
  all_goals
    obtain ⟨tail, -, rfl⟩ := mem_one_mul.mp member
    exact ⟨tail, rfl⟩

theorem Chain.prepend {part : List Kind} (member : part ∈ suffix) (chain : Chain callHead (suffixTakes canAssign) rest string)
    (unequal : canAssign = true → (string ++ rest).head? ≠ some .equal) :
    Chain callHead (suffixTakes canAssign) rest (part ++ string) := by
  rcases member with member | member
  · exact .more (.inl member) chain
  · obtain ⟨tail, inner, rfl⟩ := mem_one_mul.mp member
    obtain rfl : tail = [.identifier] := inner
    cases chain with
    | @done kind tail ends stops =>
      refine .more (.inr (.inl ⟨mem_access (.inr rfl), .inr ⟨kind, tail, ends, ?_, fun can same => ?_⟩⟩)) (.done ends stops)
      · rintro rfl
        cases stops
      · exact unequal can (by rw [ends, same]; rfl)
    | @more front back fits further =>
      rcases fits with arguments | fits
      · -- The arguments of a call belong to the name in front of them.
        rw [← List.append_assoc]
        exact .more (.inr (.inl ⟨mem_access (.inl arguments), .inl arguments⟩)) further
      · refine .more (.inr (.inl ⟨mem_access (.inr rfl), .inr ?_⟩)) (.more (.inr fits) further)
        obtain ⟨tail, rfl⟩ := suffixTakes_dot fits
        exact ⟨.dot, _, rfl, by decide, fun _ => by decide⟩

theorem Chain.prepend_many {front : List Kind} (member : front ∈ KStar.kstar suffix)
    (chain : Chain callHead (suffixTakes canAssign) rest string)
    (unequal : canAssign = true → (string ++ rest).head? ≠ some .equal) :
    Chain callHead (suffixTakes canAssign) rest (front ++ string) ∧
      (canAssign = true → ((front ++ string) ++ rest).head? ≠ some .equal) := by
  obtain ⟨parts, rfl, members⟩ := Language.mem_kstar.mp member
  clear member
  induction parts with
  | nil => exact ⟨chain, unequal⟩
  | cons part parts ih =>
    rw [List.forall_mem_cons] at members
    obtain ⟨chain, unequal⟩ := ih members.2
    have longer := chain.prepend members.1 unequal
    rw [List.flatten_cons, List.append_assoc]
    refine ⟨longer, fun _ => ?_⟩
    have starts : Starts callHead suffix := .add (.mul (.one rfl)) (.mul (.one rfl))
    rw [List.append_assoc]
    exact starts.apart rfl members.1 _

theorem mem_suffixes (member : string ∈ one .dot * (one .identifier * (callArguments + 1))) : string ∈ KStar.kstar suffix := by
  have access : one .dot * one .identifier ≤ KStar.kstar suffix := le_sup_right.trans le_kstar
  have arguments : callArguments + 1 ≤ KStar.kstar suffix :=
    add_le (le_sup_left.trans le_kstar) one_le_kstar
  have both : one .dot * (one .identifier * (callArguments + 1)) ≤ KStar.kstar suffix := by
    calc one .dot * (one .identifier * (callArguments + 1))
        = one .dot * one .identifier * (callArguments + 1) := (mul_assoc _ _ _).symm
      _ ≤ KStar.kstar suffix * KStar.kstar suffix := mul_le_mul' access arguments
      _ = KStar.kstar suffix := kstar_mul_kstar _
  exact both member

theorem Chained.call (chained : Chained callHead (suffixGives canAssign) kind string) :
    string ∈ KStar.kstar suffix ∧ callHead kind = false ∨
      canAssign = true ∧ string ∈ KStar.kstar suffix * (one .dot * (one .identifier * (one .equal * strings .assignment))) ∧
        Ends kind := by
  induction chained with
  | done stops => exact .inl ⟨Language.nil_mem_kstar _, stops⟩
  | @more front back middle given follows further ih =>
    have plain (member : front ∈ KStar.kstar suffix) : front ++ back ∈ KStar.kstar suffix ∧ callHead kind = false ∨
        canAssign = true ∧ front ++ back ∈ KStar.kstar suffix *
          (one .dot * (one .identifier * (one .equal * strings .assignment))) ∧ Ends kind := by
      rcases ih with ⟨members, stops⟩ | ⟨can, members, ends⟩
      · rw [← kstar_mul_kstar]
        exact .inl ⟨Language.mem_mul.mpr ⟨front, member, back, members, rfl⟩, stops⟩
      · rw [← kstar_mul_kstar, mul_assoc]
        exact .inr ⟨can, Language.mem_mul.mpr ⟨front, member, back, members, rfl⟩, ends⟩
    rcases given with member | member | ⟨can, member, ends⟩
    · exact plain ((le_kstar : suffix ≤ _) (.inl member))
    · exact plain (mem_suffixes member)
    · -- After an assignment there is no further suffix.
      cases further with
      | done =>
        cases follows
        rw [List.append_nil]
        exact .inr ⟨can, Language.mem_mul.mpr ⟨[], Language.nil_mem_kstar _, front, member, rfl⟩, ends⟩
      | more given =>
        obtain ⟨first, tail, rfl, head⟩ := suffixGives_starts given
        cases follows
        cases ends.symm.trans (callHead_extends head)

theorem primaryTakes_alone (alone : standsAlone kind = true) (other : kind ≠ .identifier) :
    primaryTakes canAssign kind [] rest := by
  cases kind with
  | identifier => exact absurd rfl other
  | keyword word =>
    cases word with
    | super => cases alone
    | _ => rfl
  | leftParen => cases alone
  | _ => rfl

theorem primaryGives_alone {next : Kind} (alone : standsAlone kind = true) (other : kind ≠ .identifier) {tail : List Kind}
    (given : primaryGives canAssign kind tail next) : tail = [] := by
  cases kind with
  | identifier => exact absurd rfl other
  | keyword word =>
    cases word with
    | super => cases alone
    | _ => exact given
  | leftParen => cases alone
  | _ => exact given

theorem Chain.primary {front : List Kind} (member : front ∈ strings .primary)
    (chain : Chain callHead (suffixTakes canAssign) rest string)
    (unequal : canAssign = true → (string ++ rest).head? ≠ some .equal) (more : rest ≠ []) :
    ∃ first second, front ++ string = first ++ second ∧
      (∃ kind tail, first = kind :: tail ∧ startsPrimary kind = true ∧ primaryTakes canAssign kind tail (second ++ rest)) ∧
      Chain callHead (suffixTakes canAssign) rest second := by
  have begins {kind : Kind} {tail : List Kind} (head : startsPrimary kind = true)
      (fits : primaryTakes canAssign kind tail (string ++ rest)) :
      ∃ first second, kind :: tail ++ string = first ++ second ∧
        (∃ kind tail, first = kind :: tail ∧ startsPrimary kind = true ∧
          primaryTakes canAssign kind tail (second ++ rest)) ∧ Chain callHead (suffixTakes canAssign) rest second :=
    ⟨_, _, rfl, ⟨kind, tail, rfl, head, fits⟩, chain⟩
  rcases mem_primary.mp member with ⟨kind, alone, rfl⟩ | member | member
  · refine begins (by simp [startsPrimary, alone]) ?_
    by_cases name : kind = .identifier
    · subst name
      refine .inl ⟨rfl, ?_⟩
      cases same : string ++ rest with
      | nil => exact absurd (List.append_eq_nil_iff.mp same).2 more
      | cons kind tail =>
        refine ⟨kind, tail, rfl, fun can equal => unequal can ?_⟩
        rw [same, equal, List.head?_cons]
    · exact primaryTakes_alone alone name
  · obtain ⟨tail, inner, rfl⟩ := mem_one_mul.mp member
    exact begins rfl inner
  · obtain ⟨tail, inner, rfl⟩ := mem_one_mul.mp member
    obtain ⟨tail, innermost, rfl⟩ := mem_one_mul.mp inner
    obtain rfl : tail = [.identifier] := innermost
    cases chain with
    | @done kind tail ends stops =>
      refine begins rfl ⟨mem_access (.inr rfl), .inr ⟨kind, tail, ends, ?_, nofun⟩⟩
      rintro rfl
      cases stops
    | @more front back fits further =>
      rcases fits with arguments | fits
      · exact ⟨.keyword .super :: .dot :: .identifier :: front, back, rfl,
          ⟨_, _, rfl, rfl, mem_access (.inl arguments), .inl arguments⟩, further⟩
      · obtain ⟨tail, rfl⟩ := suffixTakes_dot fits
        exact begins rfl ⟨mem_access (.inr rfl), .inr ⟨.dot, _, rfl, by decide, nofun⟩⟩

theorem primaryGives_cases {next : Kind} {tail : List Kind} (begins : startsPrimary kind = true)
    (given : primaryGives canAssign kind tail next) : kind :: tail ∈ strings .primary * KStar.kstar suffix ∨
      canAssign = true ∧ kind :: tail ∈ one .identifier * (one .equal * strings .assignment) ∧ Ends next := by
  have plain {string : List Kind} (member : string ∈ strings .primary) : string ∈ strings .primary * KStar.kstar suffix :=
    Language.mem_mul.mpr ⟨string, member, [], Language.nil_mem_kstar _, List.append_nil _⟩
  rw [startsPrimary, Bool.or_eq_true, Bool.or_eq_true, beq_iff_eq, beq_iff_eq] at begins
  rcases begins with (alone | rfl) | rfl
  · by_cases name : kind = .identifier
    · subst name
      rcases given with rfl | ⟨can, member, ends⟩
      · exact .inl (plain (mem_primary.mpr (.inl ⟨_, rfl, rfl⟩)))
      · exact .inr ⟨can, mem_one_mul.mpr ⟨tail, member, rfl⟩, ends⟩
    · obtain rfl := primaryGives_alone alone name given
      exact .inl (plain (mem_primary.mpr (.inl ⟨kind, alone, rfl⟩)))
  · exact .inl (plain (mem_primary.mpr (.inr (.inl (mem_one_mul.mpr ⟨tail, given, rfl⟩)))))
  · obtain ⟨_, inner, rfl⟩ := mem_one_mul.mp given
    obtain ⟨arguments, innermost, rfl⟩ := mem_one_mul.mp inner
    have suffixes : callArguments + 1 ≤ KStar.kstar suffix := add_le (le_sup_left.trans le_kstar) one_le_kstar
    refine .inl (Language.mem_mul.mpr ⟨[.keyword .super, .dot, .identifier], ?_, arguments, suffixes innermost, rfl⟩)
    exact mem_primary.mpr (.inr (.inr (mem_one_mul.mpr ⟨_, mem_one_mul.mpr ⟨_, rfl, rfl⟩, rfl⟩)))

theorem primary_reads (expresses : Expresses expression) (canAssign : Bool) :
    Reads (primary expression canAssign)
      (fun string rest => ∃ kind tail, string = kind :: tail ∧ startsPrimary kind = true ∧
        primaryTakes canAssign kind tail rest)
      (fun string next => ∃ kind tail, string = kind :: tail ∧ startsPrimary kind = true ∧
        primaryGives canAssign kind tail next) := by
  rw [primary_eq]
  refine Reads.onHead rfl fun token kind same begins => ?_
  subst same
  exact primaryTail_reads expresses canAssign begins

theorem assigning_splits (can : canAssign = true) (member : string ∈ assigning) (follow : before Ends string rest) :
    ∃ first second, string = first ++ second ∧
      (∃ kind tail, first = kind :: tail ∧ startsPrimary kind = true ∧ primaryTakes canAssign kind tail (second ++ rest)) ∧
      Chain callHead (suffixTakes canAssign) rest second := by
  obtain ⟨kind, tail, rfl, ends⟩ := follow
  have stops : callHead kind = false := by
    rw [← Bool.not_eq_true]
    exact fun head => Bool.false_ne_true (ends.symm.trans (callHead_extends head))
  rw [assigning, add_mul, one_mul] at member
  rcases member with member | member
  · rw [strings_call, mul_assoc, mul_assoc] at member
    obtain ⟨front, first, _, further, rfl⟩ := Language.mem_mul.mp member
    obtain ⟨back, suffixes, target, assigned, rfl⟩ := Language.mem_mul.mp further
    have last : Chain callHead (suffixTakes canAssign) (kind :: tail) (target ++ []) :=
      .more (.inr (.inr ⟨can, assigned, kind, tail, rfl, ends⟩)) (.done rfl stops)
    rw [List.append_nil] at last
    obtain ⟨inner, -, rfl⟩ := mem_one_mul.mp assigned
    obtain ⟨chain, other⟩ := last.prepend_many suffixes fun _ => by simp
    exact chain.primary first other (List.cons_ne_nil _ _)
  · obtain ⟨inner, assigned, rfl⟩ := mem_one_mul.mp member
    exact ⟨.identifier :: inner, [], (List.append_nil _).symm,
      ⟨_, _, rfl, rfl, .inr ⟨can, assigned, kind, tail, rfl, ends⟩⟩, .done rfl stops⟩

theorem call_level (expresses : Expresses expression) : Level (call expression) (strings .call) callHead := by
  refine ⟨fun _ => callHead_extends, fun canAssign => ?_⟩
  refine (primary_reads expresses canAssign).bind (fun _ => (callSuffix_suffix expression canAssign).reads
    (suffix_reads expresses canAssign) ?_ fun _ _ => suffixTakes_starts) ?_ ?_
  · intro kind given
    obtain ⟨_, _, absurd, -⟩ := suffixGives_starts given
    cases absurd
  · rintro string rest (⟨member, kind, tail, rfl, stops, unequal⟩ | ⟨can, member, follow⟩)
    · rw [strings_call] at member
      obtain ⟨front, first, back, suffixes, rfl⟩ := Language.mem_mul.mp member
      have last : Chain callHead (suffixTakes canAssign) (kind :: tail) [] := .done rfl stops
      obtain ⟨chain, other⟩ := last.prepend_many suffixes fun can same => unequal can (Option.some.inj same)
      rw [List.append_nil] at chain other
      exact chain.primary first other (List.cons_ne_nil _ _)
    · exact assigning_splits can member follow
  · rintro _ back next middle follows ⟨kind, tail, rfl, begins, given⟩ chained
    rcases primaryGives_cases begins given with member | ⟨can, member, ends⟩
    · rcases chained.call with ⟨suffixes, stops⟩ | ⟨can, assigned, ends⟩
      · rw [strings_call, ← kstar_mul_kstar, ← mul_assoc]
        exact .inl ⟨Language.mem_mul.mpr ⟨_, member, back, suffixes, rfl⟩, stops⟩
      · refine .inr ⟨can, ?_, ends⟩
        rw [assigning, add_mul, strings_call, ← kstar_mul_kstar, Language.mem_add]
        left
        have both := Language.mem_mul.mpr ⟨_, member, back, assigned, rfl⟩
        simpa only [mul_assoc] using both
    · cases chained with
      | done =>
        cases follows
        refine .inr ⟨can, ?_, ends⟩
        rw [assigning, add_mul, one_mul, List.append_nil]
        exact .inr member
      | more given =>
        obtain ⟨first, _, rfl, head⟩ := suffixGives_starts given
        cases follows
        cases ends.symm.trans (callHead_extends head)

end Calls

section Operators

variable {expression operand : Parse Unit} {action : Bool → Parse Unit} {strings : Language Kind} {goesOn : Kind → Bool}

abbrev Operates (operand : Parse Unit) : Prop :=
  Reads operand (fun string rest => string ∈ Grammar.strings .unary ∧ before (callHead · = false) string rest)
    fun string kind => string ∈ Grammar.strings .unary ∧ callHead kind = false

theorem anyOf_unary : one .bang + one .minus = anyOf fun kind => (unaryOperator? kind).isSome :=
  eq_anyOf [.bang, .minus] (by simp) fun kind => by cases kind <;> simp [unaryOperator?]

theorem unary_level (expresses : Expresses expression) (operates : Operates operand) :
    Level (unary expression operand) (Grammar.strings .unary) callHead := by
  have tighter := call_level expresses
  refine ⟨tighter.below, fun canAssign => ?_⟩
  have apart {kind : Kind} (begins : startsPrimary kind = true) : (unaryOperator? kind).isSome = false := by
    cases kind with
    | bang | minus => cases begins
    | _ => rfl
  refine Reads.passing (fun kind => (unaryOperator? kind).isSome) rfl (fun token kind _ _ => operates.then_silent fun _ =>
    emit_obeys ((unaryOperator? token.kind).getD .not)) (tighter.reads canAssign) (fun state => ?_) ?_ ?_ ?_
  · rw [unary, peek_bind]
    cases found : unaryOperator? state.cursor.peek.kind with
    | none | some op => rfl
  · rintro string rest kind tail (⟨member, follow⟩ | ⟨can, member, follow⟩) front
    · rw [strings_unary, anyOf_unary] at member
      rcases member with member | member
      · obtain ⟨first, further, rfl, chosen, inner⟩ := mem_anyOf_mul.mp member
        obtain ⟨rfl, -⟩ := List.cons.inj front
        obtain ⟨next, tail, rfl, stops, -⟩ := follow
        rw [if_pos chosen]
        exact ⟨further, rfl, inner, next, tail, rfl, stops⟩
      · obtain ⟨first, further, rfl, begins⟩ := call_starts string member
        obtain ⟨rfl, -⟩ := List.cons.inj front
        rw [if_neg (by simp [apart begins])]
        exact .inl ⟨member, follow⟩
    · obtain ⟨first, further, rfl, begins⟩ := assigning_starts string member
      obtain ⟨rfl, -⟩ := List.cons.inj front
      rw [if_neg (by simp [apart begins])]
      exact .inr ⟨can, member, follow⟩
  · rintro first string kind chosen ⟨member, stops⟩
    refine .inl ⟨?_, stops⟩
    rw [strings_unary, anyOf_unary]
    exact .inl (mem_anyOf_mul.mpr ⟨first, string, rfl, chosen, member⟩)
  · rintro string kind first - - (⟨member, stops⟩ | assigned)
    · refine .inl ⟨?_, stops⟩
      rw [strings_unary]
      exact .inr member
    · exact .inr assigned

theorem binarySuffix_suffix (operators : Operators) (right : Parse Unit) :
    Suffix (binarySuffix operators right) (fun kind => (operators kind).isSome)
      (onHead (fun kind => (operators kind).isSome) fun token =>
        right >>= fun _ => emitAll ((operators token.kind).getD [])) := by
  constructor
  case stops =>
    intro state stops
    rw [binarySuffix, peek_bind]
    cases found : operators state.cursor.peek.kind with
    | none => rfl
    | some ops =>
      rw [found] at stops
      cases stops
  case goes =>
    intro state goes
    rw [onHead_bind goes, binarySuffix, peek_bind]
    obtain ⟨ops, found⟩ := Option.isSome_iff_exists.mp goes
    simp only [found, bind_assoc]
    rfl

theorem Level.binary (tighter : Level action strings goesOn) (operators : Operators)
    (apart : ∀ kind, (operators kind).isSome = true →
      goesOn kind = false ∧ kind ≠ .equal ∧ extendsExpression kind = true) :
    Level (binary operators action) (strings * KStar.kstar (anyOf (fun kind => (operators kind).isSome) * strings))
      (fun kind => goesOn kind || (operators kind).isSome) :=
  tighter.loop (binarySuffix_suffix operators (action false)) (fun _ => tighter.right.then_silent fun _ => emitAll_obeys _)
    apart

-- The levels from factors up to equality.
section Binary

theorem anyOf_factor : one .slash + one .star = anyOf fun kind => (factorOperators kind).isSome :=
  eq_anyOf [.slash, .star] (by simp) fun kind => by cases kind <;> simp [factorOperators]

theorem anyOf_term : one .minus + one .plus = anyOf fun kind => (termOperators kind).isSome :=
  eq_anyOf [.minus, .plus] (by simp) fun kind => by cases kind <;> simp [termOperators]

theorem anyOf_comparison : one .greater + one .greaterEqual + one .less + one .lessEqual =
    anyOf fun kind => (comparisonOperators kind).isSome :=
  eq_anyOf [.greater, .greaterEqual, .less, .lessEqual] (by simp [add_assoc]) fun kind => by
    cases kind <;> simp [comparisonOperators]

theorem anyOf_equality : one .bangEqual + one .equalEqual = anyOf fun kind => (equalityOperators kind).isSome :=
  eq_anyOf [.bangEqual, .equalEqual] (by simp) fun kind => by cases kind <;> simp [equalityOperators]

def equalityGoesOn (kind : Kind) : Bool :=
  callHead kind || (factorOperators kind).isSome || (termOperators kind).isSome || (comparisonOperators kind).isSome ||
    (equalityOperators kind).isSome

theorem equality_level (expresses : Expresses expression) (operates : Operates operand) :
    Level (equality expression operand) (Grammar.strings .equality) equalityGoesOn := by
  rw [strings_equality, strings_comparison, strings_term, strings_factor, anyOf_factor, anyOf_term, anyOf_comparison,
    anyOf_equality]
  refine ((((unary_level expresses operates).binary factorOperators ?_).binary termOperators ?_).binary
    comparisonOperators ?_).binary equalityOperators ?_
  all_goals
    intro kind chosen
    cases kind <;> cases chosen <;> exact ⟨rfl, by decide, rfl⟩

end Binary

theorem word_suffix {word : Keyword} {again : Parse Bool} {body : Parse Unit}
    (same : ∀ state, again state = (accept (.keyword word) >>= fun found =>
      if found = true then body >>= fun _ => pure true else pure false : Parse Bool) state) :
    Suffix again (· == .keyword word) (onHead (· == .keyword word) fun _ => body) := by
  constructor
  case stops =>
    intro state stops
    rw [same, accept_bind, if_neg (by simpa using stops)]
    rfl
  case goes =>
    intro state goes
    rw [onHead_bind goes, same, accept_bind, if_pos (by simpa using goes)]
    rfl

theorem anyOf_word (word : Keyword) : one (.keyword word) = anyOf (· == .keyword word) :=
  eq_anyOf [.keyword word] (by simp) fun kind => by simp

theorem andSuffix_eq (right : Parse Unit) (state : Compilation) :
    andSuffix right state = (accept (.keyword .and) >>= fun found => if found = true then
      (do let toEnd ← emitJump .jumpIfFalse; emit .pop; right; patchJump toEnd) >>= fun _ => pure true
      else pure false : Parse Bool) state := by
  simp only [andSuffix, bind_assoc]

theorem orSuffix_eq (right : Parse Unit) (state : Compilation) :
    orSuffix right state = (accept (.keyword .or) >>= fun found => if found = true then
      (do
        let toRight ← emitJump .jumpIfFalse
        let toEnd ← emitJump .jump
        patchJump toRight
        emit .pop
        right
        patchJump toEnd) >>= fun _ => pure true
      else pure false : Parse Bool) state := by
  simp only [orSuffix, bind_assoc]

theorem or_level (expresses : Expresses expression) (operates : Operates operand) :
    Level (logicalOr expression operand) (Grammar.strings .or)
      (fun kind => (equalityGoesOn kind || kind == .keyword .and) || kind == .keyword .or) := by
  have tightest := equality_level expresses operates
  have tighter : Level (logicalAnd expression operand) (Grammar.strings .and)
      (fun kind => equalityGoesOn kind || kind == .keyword .and) := by
    rw [strings_and, anyOf_word]
    refine tightest.loop (word_suffix (andSuffix_eq _)) (fun _ => ?_) ?_
    · refine .after_silent (emitJump_obeys _) fun toEnd => .after_silent (emit_obeys _) fun _ => ?_
      exact tightest.right.then_silent fun _ => patchJump_obeys toEnd
    · intro kind chosen
      rw [beq_iff_eq] at chosen
      subst chosen
      exact ⟨rfl, by decide, rfl⟩
  rw [strings_or, anyOf_word]
  refine tighter.loop (word_suffix (orSuffix_eq _)) (fun _ => ?_) ?_
  · refine .after_silent (emitJump_obeys _) fun toRight => .after_silent (emitJump_obeys _) fun toEnd => ?_
    refine .after_silent (patchJump_obeys toRight) fun _ => .after_silent (emit_obeys _) fun _ => ?_
    exact tighter.right.then_silent fun _ => patchJump_obeys toEnd
  · intro kind chosen
    rw [beq_iff_eq] at chosen
    subst chosen
    exact ⟨rfl, by decide, rfl⟩

theorem ends_of_stops (stops : ((equalityGoesOn kind || kind == .keyword .and) || kind == .keyword .or) = false)
    (unequal : kind ≠ .equal) : Ends kind := by
  cases kind with
  | equal => exact absurd rfl unequal
  | keyword word =>
    cases word with
    | and | or => cases stops
    | _ => rfl
  | _ => exact stops

theorem noAssignment_reads :
    Reads (accept .equal >>= fun found => if found = true then failBehind .invalidAssignmentTarget else pure () : Parse Unit)
      (fun string rest => string = [] ∧ before (· ≠ .equal) string rest) (fun string kind => string = [] ∧ kind ≠ .equal) := by
  constructor
  case keeps => exact (accept_keeps _).bind fun _ => .ite (fun _ => List.prefix_refl _) (.pure ())
  case sound =>
    intro state _ after done clean
    rw [accept_bind] at done
    split at done
    · cases done
    · next other =>
      cases done
      exact ⟨[], rfl, rfl, other⟩
  case complete =>
    rintro state _ rest clean front ⟨rfl, kind, tail, rfl, other⟩
    rw [accept_bind, if_neg (Cursor.peek_of_kinds front ▸ other)]
    exact .done clean front

theorem wholeExpression_expresses (expresses : Expresses expression) (operates : Operates operand) :
    Expresses (wholeExpression expression operand) := by
  have level := or_level expresses operates
  refine (level.reads true).bind (fun _ => noAssignment_reads) ?_ ?_
  · rintro string rest ⟨member, kind, tail, rfl, ends⟩
    have unequal : kind ≠ .equal := by
      rintro rfl
      cases ends
    refine ⟨string, [], (List.append_nil _).symm, ?_, rfl, kind, tail, rfl, unequal⟩
    rw [strings_expression, strings_assignment] at member
    rcases member with assigned | member
    · exact .inr ⟨rfl, assigned, kind, tail, rfl, ends⟩
    · refine .inl ⟨member, kind, tail, rfl, ?_, fun _ => unequal⟩
      rw [← Bool.not_eq_true]
      exact fun more => Bool.false_ne_true (ends.symm.trans (level.below kind more))
  · rintro front _ kind middle follows given ⟨rfl, unequal⟩
    cases follows
    rw [List.append_nil, strings_expression, strings_assignment]
    rcases given with ⟨member, stops⟩ | ⟨-, assigned, ends⟩
    · exact ⟨.inr member, ends_of_stops stops unequal⟩
    · exact ⟨.inl assigned, ends⟩

end Operators

theorem expression_expresses (budget : Nat) : Expresses (expression budget) ∧ Operates (operand budget) := by
  induction budget with
  | zero => exact ⟨.failHere rfl, .failHere rfl⟩
  | succ budget ih =>
    exact ⟨nested_reads (wholeExpression_expresses ih.1 ih.2), nested_reads (unary_level ih.1 ih.2).right⟩

end StackScript.Reading
