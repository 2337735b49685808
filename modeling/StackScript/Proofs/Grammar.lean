import Mathlib.Computability.Language
import StackScript.Token

/-!
The grammar of the language, as data: each symbol has a rule, and a rule is a pattern over the kinds of tokens. The strings
of a pattern are those that can be derived from it. The algebra of languages then gives an equation for each symbol.
-/

namespace StackScript.Grammar

inductive Symbol where
  | program | declaration | classDeclaration | funDeclaration | varDeclaration | function | parameters
  | statement | expressionStatement | printStatement | ifStatement | returnStatement | whileStatement | forStatement | block
  | expression | assignment | or | and | equality | comparison | term | factor | unary | call | arguments | primary

inductive Pattern where
  | empty
  | token (kind : Kind)
  | symbol (name : Symbol)
  | seq (first second : Pattern)
  | either (one other : Pattern)
  | many (part : Pattern)

instance : Append Pattern := ⟨.seq⟩

instance : OrOp Pattern := ⟨.either⟩

open Pattern in
def word (keyword : Keyword) : Pattern := token (.keyword keyword)

open Pattern in
def optional (part : Pattern) : Pattern := part ||| empty

open Pattern in
/-- The rules. An assignment has a name or a property on its left, and `super` stands in front of a name only. -/
def rule : Symbol → Pattern
  | .program => many (symbol .declaration) ++ token .eof
  | .declaration =>
    symbol .classDeclaration ||| symbol .funDeclaration ||| symbol .varDeclaration ||| symbol .statement
  | .classDeclaration =>
    word .class ++ token .identifier ++ optional (token .less ++ token .identifier) ++ token .leftBrace ++
      many (symbol .function) ++ token .rightBrace
  | .funDeclaration => word .fun ++ symbol .function
  | .varDeclaration => word .var ++ token .identifier ++ optional (token .equal ++ symbol .expression) ++ token .semicolon
  | .function =>
    token .identifier ++ token .leftParen ++ optional (symbol .parameters) ++ token .rightParen ++ symbol .block
  | .parameters => token .identifier ++ many (token .comma ++ token .identifier)
  | .statement =>
    symbol .expressionStatement ||| symbol .printStatement ||| symbol .ifStatement ||| symbol .returnStatement |||
      symbol .whileStatement ||| symbol .forStatement ||| symbol .block
  | .expressionStatement => symbol .expression ++ token .semicolon
  | .printStatement => word .print ++ symbol .expression ++ token .semicolon
  | .ifStatement =>
    word .if ++ token .leftParen ++ symbol .expression ++ token .rightParen ++ symbol .statement ++
      optional (word .else ++ symbol .statement)
  | .returnStatement => word .return ++ optional (symbol .expression) ++ token .semicolon
  | .whileStatement => word .while ++ token .leftParen ++ symbol .expression ++ token .rightParen ++ symbol .statement
  | .forStatement =>
    word .for ++ token .leftParen ++
      (symbol .varDeclaration ||| symbol .expressionStatement ||| token .semicolon) ++
      optional (symbol .expression) ++ token .semicolon ++ optional (symbol .expression) ++ token .rightParen ++
      symbol .statement
  | .block => token .leftBrace ++ many (symbol .declaration) ++ token .rightBrace
  | .expression => symbol .assignment
  | .assignment =>
    optional (symbol .call ++ token .dot) ++ token .identifier ++ token .equal ++ symbol .assignment ||| symbol .or
  | .or => symbol .and ++ many (word .or ++ symbol .and)
  | .and => symbol .equality ++ many (word .and ++ symbol .equality)
  | .equality => symbol .comparison ++ many ((token .bangEqual ||| token .equalEqual) ++ symbol .comparison)
  | .comparison =>
    symbol .term ++ many ((token .greater ||| token .greaterEqual ||| token .less ||| token .lessEqual) ++ symbol .term)
  | .term => symbol .factor ++ many ((token .minus ||| token .plus) ++ symbol .factor)
  | .factor => symbol .unary ++ many ((token .slash ||| token .star) ++ symbol .unary)
  | .unary => (token .bang ||| token .minus) ++ symbol .unary ||| symbol .call
  | .call =>
    symbol .primary ++ many (token .leftParen ++ optional (symbol .arguments) ++ token .rightParen |||
      token .dot ++ token .identifier)
  | .arguments => symbol .expression ++ many (token .comma ++ symbol .expression)
  | .primary =>
    word .true ||| word .false ||| word .nil ||| word .this ||| token .number ||| token .string ||| token .identifier |||
      token .leftParen ++ symbol .expression ++ token .rightParen ||| word .super ++ token .dot ++ token .identifier

inductive Derives : Pattern → List Kind → Prop where
  | empty : Derives .empty []
  | token (kind : Kind) : Derives (.token kind) [kind]
  | symbol {name : Symbol} {kinds : List Kind} (body : Derives (rule name) kinds) : Derives (.symbol name) kinds
  | seq {first second : Pattern} {front back : List Kind} (one : Derives first front) (two : Derives second back) :
      Derives (.seq first second) (front ++ back)
  | left {one other : Pattern} {kinds : List Kind} (body : Derives one kinds) : Derives (.either one other) kinds
  | right {one other : Pattern} {kinds : List Kind} (body : Derives other kinds) : Derives (.either one other) kinds
  | done {part : Pattern} : Derives (.many part) []
  | more {part : Pattern} {front back : List Kind} (once : Derives part front) (rest : Derives (.many part) back) :
      Derives (.many part) (front ++ back)

def language (pattern : Pattern) : Language Kind := {kinds | Derives pattern kinds}

-- The algebra of patterns is that of their languages.
section Algebra

variable {first second part : Pattern} {kinds : List Kind}

@[simp] theorem language_empty : language .empty = 1 := by
  ext kinds
  constructor
  · rintro ⟨⟩
    rfl
  · rintro rfl
    exact .empty

@[simp] theorem language_token (kind : Kind) : language (.token kind) = {[kind]} := by
  ext kinds
  constructor
  · rintro ⟨⟩
    rfl
  · rintro rfl
    exact .token kind

theorem language_symbol (name : Symbol) : language (.symbol name) = language (rule name) := by
  ext kinds
  constructor
  · intro derives
    cases derives with
    | symbol body => exact body
  · exact .symbol

@[simp] theorem language_seq (first second : Pattern) : language (first ++ second) = language first * language second := by
  ext kinds
  rw [Language.mem_mul]
  constructor
  · intro derives
    cases derives with
    | seq one two => exact ⟨_, one, _, two, rfl⟩
  · rintro ⟨front, one, back, two, rfl⟩
    exact .seq one two

@[simp] theorem language_either (one other : Pattern) : language (one ||| other) = language one + language other := by
  ext kinds
  rw [Language.add_def]
  constructor
  · intro derives
    cases derives with
    | left body => exact .inl body
    | right body => exact .inr body
  · rintro (body | body)
    · exact .left body
    · exact .right body

@[simp] theorem language_many (part : Pattern) : language (.many part) = KStar.kstar (language part) := by
  ext kinds
  rw [Language.mem_kstar]
  constructor
  · intro derives
    change Derives (.many part) kinds at derives
    generalize same : Pattern.many part = pattern at derives
    induction derives with
    | done => exact ⟨[], rfl, nofun⟩
    | more once _ _ ih =>
      cases same
      obtain ⟨parts, rfl, members⟩ := ih rfl
      refine ⟨_ :: parts, rfl, ?_⟩
      simpa using ⟨once, members⟩
    | _ => cases same
  · rintro ⟨parts, rfl, members⟩
    induction parts with
    | nil => exact .done
    | cons front parts ih =>
      rw [List.forall_mem_cons] at members
      exact .more members.1 (ih members.2)

@[simp] theorem language_optional (part : Pattern) : language (optional part) = language part + 1 := by
  rw [optional, language_either, language_empty]

@[simp] theorem language_word (keyword : Keyword) : language (word keyword) = {[.keyword keyword]} :=
  language_token _

end Algebra

def strings (name : Symbol) : Language Kind := language (.symbol name)

abbrev one (kind : Kind) : Language Kind := {[kind]}

theorem mem_one_mul {kind : Kind} {language : Language Kind} {kinds : List Kind} :
    kinds ∈ one kind * language ↔ ∃ tail ∈ language, kinds = kind :: tail := by
  rw [Language.mem_mul]
  constructor
  · rintro ⟨_, rfl, tail, member, rfl⟩
    exact ⟨tail, member, rfl⟩
  · rintro ⟨tail, member, rfl⟩
    exact ⟨[kind], rfl, tail, member, rfl⟩

-- One equation for each rule. The parts of a sequence are nested to the right, as they are read.
section Rules

variable (name : Symbol)

theorem strings_eq : strings name = language (rule name) := language_symbol name

theorem strings_program : strings .program = KStar.kstar (strings .declaration) * one .eof := by
  rw [strings_eq]
  simp [rule, strings, one]

theorem strings_declaration : strings .declaration =
    strings .classDeclaration + (strings .funDeclaration + (strings .varDeclaration + strings .statement)) := by
  rw [strings_eq]
  simp [rule, strings, add_assoc]

theorem strings_classDeclaration : strings .classDeclaration =
    one (.keyword .class) * (one .identifier * ((one .less * one .identifier + 1) * (one .leftBrace *
      (KStar.kstar (strings .function) * one .rightBrace)))) := by
  rw [strings_eq]
  simp [rule, strings, one, mul_assoc]

theorem strings_funDeclaration : strings .funDeclaration = one (.keyword .fun) * strings .function := by
  rw [strings_eq]
  simp [rule, strings, one]

theorem strings_varDeclaration : strings .varDeclaration =
    one (.keyword .var) * (one .identifier * ((one .equal * strings .expression + 1) * one .semicolon)) := by
  rw [strings_eq]
  simp [rule, strings, one, mul_assoc]

def functionRest : Language Kind :=
  one .leftParen * ((strings .parameters + 1) * (one .rightParen * strings .block))

theorem strings_function : strings .function = one .identifier * functionRest := by
  rw [strings_eq]
  simp [rule, strings, one, functionRest, mul_assoc]

theorem strings_parameters : strings .parameters =
    one .identifier * KStar.kstar (one .comma * one .identifier) := by
  rw [strings_eq]
  simp [rule, one]

theorem strings_statement : strings .statement =
    strings .expressionStatement + (strings .printStatement + (strings .ifStatement + (strings .returnStatement +
      (strings .whileStatement + (strings .forStatement + strings .block))))) := by
  rw [strings_eq]
  simp [rule, strings, add_assoc]

theorem strings_expressionStatement : strings .expressionStatement = strings .expression * one .semicolon := by
  rw [strings_eq]
  simp [rule, strings, one]

theorem strings_printStatement : strings .printStatement =
    one (.keyword .print) * (strings .expression * one .semicolon) := by
  rw [strings_eq]
  simp [rule, strings, one, mul_assoc]

theorem strings_ifStatement : strings .ifStatement =
    one (.keyword .if) * (one .leftParen * (strings .expression * (one .rightParen * (strings .statement *
      (one (.keyword .else) * strings .statement + 1))))) := by
  rw [strings_eq]
  simp [rule, strings, one, mul_assoc]

theorem strings_returnStatement : strings .returnStatement =
    one (.keyword .return) * ((strings .expression + 1) * one .semicolon) := by
  rw [strings_eq]
  simp [rule, strings, one, mul_assoc]

theorem strings_whileStatement : strings .whileStatement =
    one (.keyword .while) * (one .leftParen * (strings .expression * (one .rightParen * strings .statement))) := by
  rw [strings_eq]
  simp [rule, strings, one, mul_assoc]

def forRest : Language Kind :=
  one .leftParen * ((strings .varDeclaration + (strings .expressionStatement + one .semicolon)) *
    ((strings .expression + 1) * (one .semicolon * ((strings .expression + 1) * (one .rightParen * strings .statement)))))

theorem strings_forStatement : strings .forStatement = one (.keyword .for) * forRest := by
  rw [strings_eq]
  simp [rule, strings, one, forRest, mul_assoc, add_assoc]

theorem strings_block : strings .block =
    one .leftBrace * (KStar.kstar (strings .declaration) * one .rightBrace) := by
  rw [strings_eq]
  simp [rule, strings, one, mul_assoc]

theorem strings_expression : strings .expression = strings .assignment := by
  rw [strings_eq]
  rfl

def assigning : Language Kind :=
  (strings .call * one .dot + 1) * (one .identifier * (one .equal * strings .assignment))

theorem strings_assignment : strings .assignment = assigning + strings .or := by
  rw [strings_eq]
  simp [rule, strings, one, assigning, mul_assoc]

theorem strings_or : strings .or = strings .and * KStar.kstar (one (.keyword .or) * strings .and) := by
  rw [strings_eq]
  simp [rule, strings, one]

theorem strings_and : strings .and = strings .equality * KStar.kstar (one (.keyword .and) * strings .equality) := by
  rw [strings_eq]
  simp [rule, strings, one]

theorem strings_equality : strings .equality =
    strings .comparison * KStar.kstar ((one .bangEqual + one .equalEqual) * strings .comparison) := by
  rw [strings_eq]
  simp [rule, strings, one]

theorem strings_comparison : strings .comparison =
    strings .term * KStar.kstar ((one .greater + one .greaterEqual + one .less + one .lessEqual) * strings .term) := by
  rw [strings_eq]
  simp [rule, strings, one]

theorem strings_term : strings .term =
    strings .factor * KStar.kstar ((one .minus + one .plus) * strings .factor) := by
  rw [strings_eq]
  simp [rule, strings, one]

theorem strings_factor : strings .factor =
    strings .unary * KStar.kstar ((one .slash + one .star) * strings .unary) := by
  rw [strings_eq]
  simp [rule, strings, one]

theorem strings_unary : strings .unary = (one .bang + one .minus) * strings .unary + strings .call := by
  conv_lhs => rw [strings_eq]
  simp [rule, strings, one]

def callArguments : Language Kind :=
  one .leftParen * ((strings .arguments + 1) * one .rightParen)

def suffix : Language Kind :=
  callArguments + one .dot * one .identifier

theorem strings_call : strings .call = strings .primary * KStar.kstar suffix := by
  rw [strings_eq]
  simp [rule, strings, one, suffix, callArguments, mul_assoc]

theorem strings_arguments : strings .arguments =
    strings .expression * KStar.kstar (one .comma * strings .expression) := by
  rw [strings_eq]
  simp [rule, strings, one]

theorem strings_primary : strings .primary =
    one (.keyword .true) + (one (.keyword .false) + (one (.keyword .nil) + (one (.keyword .this) + (one .number +
      (one .string + (one .identifier + (one .leftParen * (strings .expression * one .rightParen) +
        one (.keyword .super) * (one .dot * one .identifier)))))))) := by
  rw [strings_eq]
  simp [rule, strings, one, mul_assoc, add_assoc]

def standsAlone : Kind → Bool
  | .number | .string | .identifier => true
  | .keyword word => [.true, .false, .nil, .this].contains word
  | _ => false

theorem mem_primary {kinds : List Kind} : kinds ∈ strings .primary ↔
    (∃ kind, standsAlone kind = true ∧ kinds = [kind]) ∨
      kinds ∈ one .leftParen * (strings .expression * one .rightParen) ∨
      kinds ∈ one (.keyword .super) * (one .dot * one .identifier) := by
  rw [strings_primary]
  constructor
  · rintro (rfl | rfl | rfl | rfl | rfl | rfl | rfl | parens | super)
    iterate 7 exact .inl ⟨_, rfl, rfl⟩
    · exact .inr (.inl parens)
    · exact .inr (.inr super)
  · rintro (⟨kind, alone, rfl⟩ | parens | super)
    · cases kind with
      | number => exact .inr (.inr (.inr (.inr (.inl rfl))))
      | string => exact .inr (.inr (.inr (.inr (.inr (.inl rfl)))))
      | identifier => exact .inr (.inr (.inr (.inr (.inr (.inr (.inl rfl))))))
      | keyword word =>
        cases word with
        | true => exact .inl rfl
        | false => exact .inr (.inl rfl)
        | nil => exact .inr (.inr (.inl rfl))
        | this => exact .inr (.inr (.inr (.inl rfl)))
        | _ => cases alone
      | _ => cases alone
    · exact .inr (.inr (.inr (.inr (.inr (.inr (.inr (.inl parens)))))))
    · exact .inr (.inr (.inr (.inr (.inr (.inr (.inr (.inr super)))))))

end Rules

-- What the strings of a symbol begin with. None of them is empty.
section First

/-- Every string begins with a token of these kinds. -/
def Starts (heads : Kind → Bool) (strings : Language Kind) : Prop :=
  ∀ string ∈ strings, ∃ kind tail, string = kind :: tail ∧ heads kind = true

variable {heads more : Kind → Bool} {strings₁ strings₂ : Language Kind}

theorem Starts.mono (starts : Starts heads strings₁) (less : ∀ kind, heads kind = true → more kind = true) :
    Starts more strings₁ := by
  intro string member
  obtain ⟨kind, tail, same, begins⟩ := starts string member
  exact ⟨kind, tail, same, less kind begins⟩

theorem Starts.one {kind : Kind} (begins : heads kind = true) : Starts heads (Grammar.one kind) := by
  rintro _ rfl
  exact ⟨kind, [], rfl, begins⟩

theorem Starts.add (first : Starts heads strings₁) (second : Starts heads strings₂) :
    Starts heads (strings₁ + strings₂) := by
  rintro string (member | member)
  · exact first string member
  · exact second string member

theorem Starts.mul (first : Starts heads strings₁) : Starts heads (strings₁ * strings₂) := by
  intro string member
  obtain ⟨front, left, back, -, rfl⟩ := Language.mem_mul.mp member
  obtain ⟨kind, tail, rfl, begins⟩ := first front left
  exact ⟨kind, tail ++ back, rfl, begins⟩

theorem Starts.apart (starts : Starts heads strings₁) {kind : Kind} (other : heads kind = false) {string : List Kind}
    (member : string ∈ strings₁) (rest : List Kind) : (string ++ rest).head? ≠ some kind := by
  obtain ⟨first, tail, rfl, begins⟩ := starts string member
  rintro same
  cases same
  rw [other] at begins
  cases begins

theorem Starts.kstar (starts : Starts heads strings₁) {string : List Kind} (member : string ∈ KStar.kstar strings₁) :
    string = [] ∨ ∃ kind tail, string = kind :: tail ∧ heads kind = true := by
  rw [← one_add_mul_kstar] at member
  rcases member with rfl | member
  · exact .inl rfl
  · exact .inr (Starts.mul starts string member)

def startsPrimary (kind : Kind) : Bool :=
  standsAlone kind || kind == .leftParen || kind == .keyword .super

def startsExpression (kind : Kind) : Bool := kind == .bang || kind == .minus || startsPrimary kind

/-- A token that begins a phrase of its own, or an expression. -/
def startsPhrase (kinds : List Kind) (kind : Kind) : Bool := kinds.contains kind || startsExpression kind

theorem Starts.phrase {kinds : List Kind} {kind : Kind} (starts : Starts (startsPhrase kinds) strings₂) :
    Starts (startsPhrase (kind :: kinds)) (Grammar.one kind * strings₁ + strings₂) := by
  refine .add (.mul (.one ?_)) (starts.mono fun other begins => ?_)
  · simp [startsPhrase]
  · rw [startsPhrase, Bool.or_eq_true] at begins ⊢
    rw [List.contains_cons, Bool.or_eq_true]
    exact begins.imp_left .inr

theorem primary_starts : Starts startsPrimary (strings .primary) := by
  rw [strings_primary]
  exact .add (.one rfl) (.add (.one rfl) (.add (.one rfl) (.add (.one rfl) (.add (.one rfl) (.add (.one rfl)
    (.add (.one rfl) (.add (.mul (.one rfl)) (.mul (.one rfl)))))))))

theorem call_starts : Starts startsPrimary (strings .call) := by
  rw [strings_call]
  exact primary_starts.mul

theorem unary_starts : Starts startsExpression (strings .unary) := by
  rw [strings_unary]
  refine .add (.mul (.add (.one rfl) (.one rfl))) (call_starts.mono fun kind begins => ?_)
  rw [startsExpression, begins, Bool.or_true]

theorem or_starts : Starts startsExpression (strings .or) := by
  rw [strings_or, strings_and, strings_equality, strings_comparison, strings_term, strings_factor]
  exact unary_starts.mul.mul.mul.mul.mul.mul

theorem assigning_starts : Starts startsPrimary assigning := by
  rw [assigning, add_mul, one_mul, mul_assoc]
  exact .add call_starts.mul (.mul (.one rfl))

theorem expression_starts : Starts startsExpression (strings .expression) := by
  rw [strings_expression, strings_assignment]
  refine .add (assigning_starts.mono fun kind begins => ?_) or_starts
  rw [startsExpression, begins, Bool.or_true]

theorem arguments_starts : Starts startsExpression (strings .arguments) := by
  rw [strings_arguments]
  exact expression_starts.mul

theorem strings_statement_ordered : strings .statement =
    one (.keyword .print) * (strings .expression * one .semicolon) +
      (one (.keyword .if) * (one .leftParen * (strings .expression * (one .rightParen * (strings .statement *
        (one (.keyword .else) * strings .statement + 1))))) +
      (one (.keyword .return) * ((strings .expression + 1) * one .semicolon) +
      (one (.keyword .while) * (one .leftParen * (strings .expression * (one .rightParen * strings .statement))) +
      (one (.keyword .for) * forRest +
      (one .leftBrace * (KStar.kstar (strings .declaration) * one .rightBrace) + strings .expressionStatement))))) := by
  conv_lhs =>
    rw [strings_statement, add_comm, strings_printStatement, strings_ifStatement, strings_returnStatement,
      strings_whileStatement, strings_forStatement, strings_block]
  simp only [add_assoc]

theorem statement_starts : Starts (startsPhrase [.keyword .print, .keyword .if, .keyword .return, .keyword .while,
    .keyword .for, .leftBrace]) (strings .statement) := by
  rw [strings_statement_ordered, strings_expressionStatement]
  refine .phrase (.phrase (.phrase (.phrase (.phrase (.phrase ?_)))))
  exact expression_starts.mul

theorem declaration_starts : Starts (startsPhrase [.keyword .class, .keyword .fun, .keyword .var, .keyword .print,
    .keyword .if, .keyword .return, .keyword .while, .keyword .for, .leftBrace]) (strings .declaration) := by
  rw [strings_declaration, strings_classDeclaration, strings_funDeclaration, strings_varDeclaration]
  exact .phrase (.phrase (.phrase statement_starts))

end First

end StackScript.Grammar
