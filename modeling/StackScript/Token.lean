import StackScript.Span

/-!
Tokens: the kind, the text they were read from, the value of a literal, and the place. Keywords are the words
that look like names and are not; the sixteen of them are listed once, in `Keyword.all`, and both directions
between a keyword and its text go through `Keyword.text`.
-/

namespace StackScript

inductive Keyword where
  | and | «class» | «else» | «false» | «for» | «fun» | «if» | nil
  | or | print | «return» | super | «this» | «true» | var | «while»
deriving DecidableEq, Repr

namespace Keyword

def text : Keyword → String
  | and => "and"
  | «class» => "class"
  | «else» => "else"
  | «false» => "false"
  | «for» => "for"
  | «fun» => "fun"
  | «if» => "if"
  | nil => "nil"
  | or => "or"
  | print => "print"
  | «return» => "return"
  | super => "super"
  | «this» => "this"
  | «true» => "true"
  | var => "var"
  | «while» => "while"

def all : List Keyword :=
  [and, «class», «else», «false», «for», «fun», «if», nil, or, print, «return», super, «this», «true», var, «while»]

def ofText? (word : String) : Option Keyword :=
  all.find? fun keyword => keyword.text == word

def startsStatement (keyword : Keyword) : Bool :=
  [«class», «fun», var, «for», «if», «while», print, «return»].contains keyword

end Keyword

inductive Kind where
  | leftParen | rightParen | leftBrace | rightBrace
  | comma | dot | minus | plus | semicolon | slash | star
  | bang | bangEqual | equal | equalEqual | greater | greaterEqual | less | lessEqual
  | identifier | string | number
  | keyword (word : Keyword)
  | eof
deriving DecidableEq, Repr

namespace Kind

def text : Kind → String
  | leftParen => "("
  | rightParen => ")"
  | leftBrace => "\x7b"
  | rightBrace => "\x7d"
  | comma => ","
  | dot => "."
  | minus => "-"
  | plus => "+"
  | semicolon => ";"
  | slash => "/"
  | star => "*"
  | bang => "!"
  | bangEqual => "!="
  | equal => "="
  | equalEqual => "=="
  | greater => ">"
  | greaterEqual => ">="
  | less => "<"
  | lessEqual => "<="
  | identifier => "identifier"
  | string => "string"
  | number => "number"
  | keyword word => word.text
  | eof => "EOF"

def startsStatement : Kind → Bool
  | keyword word => word.startsStatement
  | _ => false

end Kind

inductive Literal where
  | number (value : Float)
  | text (value : String)
deriving DecidableEq

/-- One unit of the grammar, with the text it was read from and its place. -/
structure Token where
  kind : Kind
  lexeme : String
  literal : Option Literal
  span : Span
deriving DecidableEq

namespace Token

/-- The token that closes every text. It covers nothing. -/
def endOfText (offset line column : Nat) : Token :=
  ⟨.eof, "", none, ⟨offset, offset, line, column⟩⟩

instance : Inhabited Token := ⟨endOfText 0 1 0⟩

/-- The token as a complaint quotes it: its text, or `end` where the text is over. -/
def quoted (token : Token) : String :=
  if token.kind = .eof then "end" else token.lexeme

end Token

end StackScript
