/-!
Places in source text. Offsets count the bytes of the text in UTF-8, columns count characters; lines and
columns start at one. A span that knows only its line has column zero.
-/

namespace StackScript

/-- A region of source text, with the line and the column of its first character. -/
structure Span where
  start : Nat
  stop : Nat
  line : Nat
  column : Nat
deriving DecidableEq, Repr

namespace Span

/-- The span of something that has no place in a text yet: it is anchored later, or never. -/
def nowhere : Span := ⟨0, 0, 0, 0⟩

instance : Inhabited Span := ⟨nowhere⟩

/-- A span that only knows its line, which is all that running code records. -/
@[inline]
def onLine (line : Nat) : Span := ⟨0, 0, line, 0⟩

def text (span : Span) : String :=
  if span.column = 0 then s!"line {span.line}" else s!"line {span.line}, column {span.column}"

instance : ToString Span := ⟨text⟩

end Span

/-- The place between two characters at which the next character stands. -/
structure Position where
  offset : Nat
  line : Nat
  column : Nat
deriving DecidableEq, Repr

namespace Position

def start : Position := ⟨0, 1, 1⟩

instance : Inhabited Position := ⟨start⟩

def after (here : Position) (c : Char) : Position :=
  if c = '\n' then ⟨here.offset + c.utf8Size, here.line + 1, 1⟩
  else ⟨here.offset + c.utf8Size, here.line, here.column + 1⟩

def afterAll (here : Position) (text : List Char) : Position :=
  text.foldl after here

/-- The region that some characters cover when they start here. -/
def spanOf (here : Position) (text : List Char) : Span :=
  ⟨here.offset, (here.afterAll text).offset, here.line, here.column⟩

end Position

end StackScript
