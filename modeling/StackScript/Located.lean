import StackScript.Token

/-!
A remark about a token: what is said, the token as it is quoted, and its place. The remark itself is a
parameter, so that the cursor over tokens can serve any reader of them.
-/

namespace StackScript

/-- A remark tied to the token that caused it. -/
structure Located (α : Type) where
  what : α
  lexeme : String
  span : Span
deriving DecidableEq, Repr

namespace Located

variable {α : Type}

def about (token : Token) (what : α) : Located α :=
  ⟨what, token.quoted, token.span⟩

def text (wording : α → String) (remark : Located α) : String :=
  s!"{wording remark.what} (at '{remark.lexeme}', {remark.span.text})"

def lines (wording : α → String) (remarks : List (Located α)) : String :=
  "\n".intercalate (remarks.map (text wording))

def occurs (sought : List Char) : List Char → Bool
  | [] => sought.isEmpty
  | c :: further => sought.isPrefixOf (c :: further) || occurs sought further

def anyMentions (wording : α → String) (remarks : List (Located α)) (sought : String) : Bool :=
  remarks.any fun remark => occurs sought.toList (wording remark.what).toList

end Located

end StackScript
