import StackScript.Token
import StackScript.Text.Numeric
import StackScript.Decimal.Read

/-!
Reading source text as tokens. Between tokens `skip` passes over blanks and comments; `munch` then takes one
token, as long as possible, from the front of what is left. Both hand back a tail of the text they were given,
so the scan ends by the length of the text. Places are carried along character by character.
-/

namespace StackScript

inductive ScanFault where
  | unexpectedChar (c : Char)
  | unterminatedString
  | invalidNumber (text : String)
deriving DecidableEq, Repr

structure ScanError where
  fault : ScanFault
  span : Span
deriving DecidableEq, Repr

def ScanError.text (error : ScanError) : String :=
  match error.fault with
  | .unexpectedChar c => s!"Unexpected character '{c}' at {error.span.text}"
  | .unterminatedString => s!"Unterminated string at {error.span.text}"
  | .invalidNumber text => s!"Invalid number '{text}' at {error.span.text}"

namespace Scan

/-- Blanks between tokens. Other white space is no part of the language. -/
def isGap (c : Char) : Bool :=
  c == ' ' || c == '\t' || c == '\r' || c == '\n'

/-- Passes over blanks and over comments, which run from two slashes to the end of the line. -/
def skip : (inComment : Bool) → Position → List Char → Position × List Char
  | _, here, [] => (here, [])
  | true, here, c :: rest => skip (c != '\n') (here.after c) rest
  | false, here, c :: rest =>
    if isGap c then skip false (here.after c) rest
    else if c == '/' && rest.head? == some '/' then skip true (here.after c) rest
    else (here, c :: rest)

/-- One token taken from the front of a text whose first character is known: the characters after the first
that belong to it, and those that do not. -/
structure Munch where
  kind : Kind
  literal : Option Literal
  more : List Char
  rest : List Char

/-- Tokens that are one character and never the start of a longer one. -/
def punctuation? : Char → Option Kind
  | '(' => some .leftParen
  | ')' => some .rightParen
  | '\x7b' => some .leftBrace
  | '\x7d' => some .rightBrace
  | ',' => some .comma
  | '.' => some .dot
  | '-' => some .minus
  | '+' => some .plus
  | ';' => some .semicolon
  | '/' => some .slash
  | '*' => some .star
  | _ => none

/-- Operators that an equals sign may follow: their kinds without it and with it. -/
def operator? : Char → Option (Kind × Kind)
  | '!' => some (.bang, .bangEqual)
  | '=' => some (.equal, .equalEqual)
  | '<' => some (.less, .lessEqual)
  | '>' => some (.greater, .greaterEqual)
  | _ => none

def startsWord (c : Char) : Bool :=
  Text.isAlphabetic c || c == '_'

def continuesWord (c : Char) : Bool :=
  Text.isAlphanumeric c || c == '_'

def munchOperator (alone withEqual : Kind) : List Char → Munch
  | '=' :: rest => ⟨withEqual, none, ['='], rest⟩
  | rest => ⟨alone, none, [], rest⟩

/-- The rest of a string after its opening quote. It may span lines and has no escapes. -/
def munchString (rest : List Char) : Except ScanFault Munch :=
  let body := rest.takeWhile (· != '"')
  match rest.dropWhile (· != '"') with
  | [] => .error .unterminatedString
  | quote :: rest => .ok ⟨.string, some (.text (String.ofList body)), body ++ [quote], rest⟩

/-- The digits after the first one, and a fraction if a point is directly followed by a digit. -/
def munchDigits (rest : List Char) : List Char × List Char :=
  let whole := rest.takeWhile Char.isDigit
  match rest.dropWhile Char.isDigit with
  | '.' :: digit :: rest =>
    if digit.isDigit then
      (whole ++ '.' :: digit :: rest.takeWhile Char.isDigit, rest.dropWhile Char.isDigit)
    else (whole, '.' :: digit :: rest)
  | rest => (whole, rest)

def munchNumber (first : Char) (rest : List Char) : Except ScanFault Munch :=
  let (more, rest) := munchDigits rest
  match Decimal.read? (first :: more) with
  | some value => .ok ⟨.number, some (.number value), more, rest⟩
  | none => .error (.invalidNumber (String.ofList (first :: more)))

def munchWord (first : Char) (rest : List Char) : Munch :=
  let more := rest.takeWhile continuesWord
  let kind :=
    match Keyword.ofText? (String.ofList (first :: more)) with
    | some word => .keyword word
    | none => .identifier
  ⟨kind, none, more, rest.dropWhile continuesWord⟩

def munch (first : Char) (rest : List Char) : Except ScanFault Munch :=
  match punctuation? first with
  | some kind => .ok ⟨kind, none, [], rest⟩
  | none =>
    match operator? first with
    | some (alone, withEqual) => .ok (munchOperator alone withEqual rest)
    | none =>
      if first == '"' then munchString rest
      else if first.isDigit then munchNumber first rest
      else if startsWord first then .ok (munchWord first rest)
      else .error (.unexpectedChar first)

/-- The characters a fault concerns. An open string reaches to the end of the text. -/
def faultText (fault : ScanFault) (first : Char) (rest : List Char) : List Char :=
  match fault with
  | .unexpectedChar _ => [first]
  | .unterminatedString => first :: rest
  | .invalidNumber text => text.toList

theorem skip_length_le (inComment : Bool) (here : Position) (text : List Char) :
    (skip inComment here text).2.length ≤ text.length := by
  fun_induction skip inComment here text with
  | case1 => simp
  | case2 here c rest ih => simp only [List.length_cons]; omega
  | case3 here c rest gap ih => simp only [List.length_cons]; omega
  | case4 here c rest notGap comment ih => simp only [List.length_cons]; omega
  | case5 => simp

theorem munchDigits_append (rest : List Char) :
    (munchDigits rest).1 ++ (munchDigits rest).2 = rest := by
  have parts : rest.takeWhile Char.isDigit ++ rest.dropWhile Char.isDigit = rest :=
    List.takeWhile_append_dropWhile
  unfold munchDigits
  split
  · next digit after found =>
    rw [found] at parts
    split
    · simpa [List.takeWhile_append_dropWhile] using parts
    · exact parts
  · exact parts

/-- What a token takes and what it leaves are together the text it was taken from. -/
theorem munch_append {first : Char} {rest : List Char} {taken : Munch} (ok : munch first rest = .ok taken) :
    taken.more ++ taken.rest = rest := by
  unfold munch at ok
  split at ok
  · cases ok; rfl
  split at ok
  · next alone withEqual _ =>
    cases ok
    unfold munchOperator
    split <;> rfl
  split at ok
  · unfold munchString at ok
    have parts : rest.takeWhile (· != '"') ++ rest.dropWhile (· != '"') = rest :=
      List.takeWhile_append_dropWhile
    split at ok
    · cases ok
    · next quote after split =>
      cases ok
      rw [split] at parts
      simpa using parts
  split at ok
  · unfold munchNumber at ok
    have parts := munchDigits_append rest
    split at ok
    next more after split =>
    rw [split] at parts
    split at ok
    · cases ok; exact parts
    · cases ok
  split at ok
  · cases ok
    simp [munchWord, List.takeWhile_append_dropWhile]
  · cases ok

theorem munch_rest_length {first : Char} {rest : List Char} {taken : Munch}
    (ok : munch first rest = .ok taken) : taken.rest.length ≤ rest.length := by
  have parts := congrArg List.length (munch_append ok)
  simp only [List.length_append] at parts
  omega

/-- The tokens of `text`, which starts at `here`, after those already read. -/
def scanFrom (here : Position) (text : List Char) (scanned : Array Token) : Except ScanError (Array Token) :=
  match _ : skip false here text with
  | (place, []) => .ok (scanned.push (Token.endOfText place.offset place.line place.column))
  | (place, first :: rest) =>
    match _ : munch first rest with
    | .error fault => .error ⟨fault, place.spanOf (faultText fault first rest)⟩
    | .ok token =>
      let lexeme := first :: token.more
      scanFrom (place.afterAll lexeme) token.rest
        (scanned.push ⟨token.kind, String.ofList lexeme, token.literal, place.spanOf lexeme⟩)
termination_by text.length
decreasing_by
  have shorter := munch_rest_length ‹munch first rest = .ok token›
  have skippedLength := skip_length_le false here text
  rw [‹skip false here text = (place, first :: rest)›] at skippedLength
  simp only [List.length_cons] at skippedLength
  omega

end Scan

/-- The tokens of a source text. The last one, and only the last one, is the end of the text. -/
def scan (source : String) : Except ScanError (Array Token) :=
  Scan.scanFrom .start source.toList #[]

end StackScript
