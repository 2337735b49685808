import StackScript.Located

/-!
A cursor over the tokens of one text. It only moves forward, and it stops at the first end of the text it
meets. The tokens always close with one, which is part of the type: so there is always a current token, and a
cursor that is not at the end can move.
-/

namespace StackScript

/-- The tokens end with the end of the text. -/
def Closed (tokens : Array Token) : Prop :=
  tokens.back?.map Token.kind = some .eof

instance (tokens : Array Token) : Decidable (Closed tokens) :=
  inferInstanceAs (Decidable (_ = _))

structure Cursor where
  tokens : Array Token
  position : Nat
  inside : position < tokens.size
  closed : Closed tokens

namespace Cursor

theorem size_pos_of_closed {tokens : Array Token} (closed : Closed tokens) : 0 < tokens.size := by
  unfold Closed at closed
  rcases Nat.eq_zero_or_pos tokens.size with empty | some
  · simp [Array.back?, empty] at closed
  · exact some

theorem closed_push (tokens : Array Token) {last : Token} (atEnd : last.kind = .eof) :
    Closed (tokens.push last) := by
  simp [Closed, atEnd]

/-- The token that closes an open list of tokens: it stands on the line of the last token, right behind it. -/
def closing (tokens : Array Token) : Token :=
  match tokens.back? with
  | some last => Token.endOfText last.span.stop last.span.line 0
  | none => Token.endOfText 0 1 0

theorem closing_kind (tokens : Array Token) : (closing tokens).kind = .eof := by
  unfold closing
  split <;> rfl

/-- A cursor in front of the first token; the end of the text is added where it is missing. -/
def ofTokens (tokens : Array Token) : Cursor :=
  if closed : Closed tokens then ⟨tokens, 0, size_pos_of_closed closed, closed⟩
  else
    have closed := closed_push tokens (closing_kind tokens)
    ⟨tokens.push (closing tokens), 0, size_pos_of_closed closed, closed⟩

def peek (cursor : Cursor) : Token :=
  have inside := cursor.inside
  cursor.tokens[cursor.position]

/-- The token behind the cursor; in front of the first token, that token itself. -/
def previous (cursor : Cursor) : Token :=
  have inside : cursor.position - 1 < cursor.tokens.size := Nat.lt_of_le_of_lt (Nat.sub_le _ _) cursor.inside
  cursor.tokens[cursor.position - 1]

def isAtEnd (cursor : Cursor) : Bool :=
  cursor.peek.kind == .eof

def remaining (cursor : Cursor) : Nat :=
  cursor.tokens.size - 1 - cursor.position

def check (cursor : Cursor) (kind : Kind) : Bool :=
  cursor.peek.kind == kind

theorem position_succ_lt {cursor : Cursor} (more : cursor.isAtEnd = false) :
    cursor.position + 1 < cursor.tokens.size := by
  have inside := cursor.inside
  have closed := cursor.closed
  rcases Nat.lt_or_ge (cursor.position + 1) cursor.tokens.size with room | full
  · exact room
  · have last : cursor.tokens.size - 1 = cursor.position := by omega
    have isEnd : cursor.peek.kind = .eof := by
      simpa [Closed, Array.back?, last, inside, peek] using closed
    simp [isAtEnd, isEnd] at more

def advance (cursor : Cursor) : Cursor :=
  if more : cursor.isAtEnd = false then
    { cursor with position := cursor.position + 1, inside := position_succ_lt more }
  else cursor

def remarkHere {α : Type} (cursor : Cursor) (what : α) : Located α :=
  .about cursor.peek what

def remarkBehind {α : Type} (cursor : Cursor) (what : α) : Located α :=
  .about cursor.previous what

/-- Passes a token of the given kind, or remarks on the one found instead. -/
def expect {α : Type} (cursor : Cursor) (kind : Kind) (what : α) : Except (Located α) Cursor :=
  if cursor.check kind then .ok cursor.advance else .error (cursor.remarkHere what)

/-- A statement is over just behind a semicolon and in front of a word that starts one. -/
def atBoundary (cursor : Cursor) : Bool :=
  cursor.previous.kind == .semicolon || cursor.peek.kind.startsStatement

theorem advance_remaining {cursor : Cursor} (more : cursor.isAtEnd = false) :
    cursor.advance.remaining < cursor.remaining := by
  have room := position_succ_lt more
  simp only [advance, more, dite_true, remaining]
  omega

/-- The nearest boundary from here on, or the end of the text. -/
def toBoundary (cursor : Cursor) : Cursor :=
  if _ : cursor.isAtEnd = false then
    if cursor.atBoundary then cursor else cursor.advance.toBoundary
  else cursor
termination_by cursor.remaining
decreasing_by exact advance_remaining ‹_›

/-- Leaves the current token behind and goes on to the next boundary between statements. -/
def synchronize (cursor : Cursor) : Cursor :=
  cursor.advance.toBoundary

end Cursor

end StackScript
