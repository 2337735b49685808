import StackScript.Text.Blank

/-!
Entries of a conversation. An entry goes on over further lines as long as it has opened more braces than it has
closed. Braces are counted line by line: those between double quotes on one line do not count.
-/

namespace StackScript.CommandLine

/-- Opening braces less closing braces, starting inside a quoted text or outside. -/
def balanceFrom (isQuoted : Bool) : List Char → Int
  | [] => 0
  | '"' :: further => balanceFrom (!isQuoted) further
  | '{' :: further => (if isQuoted then 0 else 1) + balanceFrom isQuoted further
  | '}' :: further => (if isQuoted then 0 else -1) + balanceFrom isQuoted further
  | _ :: further => balanceFrom isQuoted further

def balance (line : String) : Int :=
  balanceFrom false line.toList

/-- The lines of an entry so far, and how many more braces they open than they close. -/
structure Draft where
  text : String := ""
  balance : Int := 0
deriving DecidableEq, Repr

inductive Turn where
  | leave
  | more (draft : Draft)
  | skip
  | submit (entry : String)
deriving DecidableEq, Repr

def isBlankText (text : String) : Bool :=
  text.toList.all Text.isBlank

namespace Draft

def prompt (draft : Draft) : String :=
  if draft.text.isEmpty then ">> " else ".. "

/-- Takes one more line. Only at the start of an entry can a line ask to leave. -/
def add (draft : Draft) (line : String) : Turn :=
  if draft.text.isEmpty ∧ Text.trim line.toList = ".exit".toList then .leave
  else
    let balance := draft.balance + CommandLine.balance line
    let text := draft.text ++ line
    if balance > 0 then .more ⟨text, balance⟩
    else if isBlankText text then .skip
    else .submit text

end Draft

end StackScript.CommandLine
