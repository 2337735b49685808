/-!
Values as the embedding program sees them. A host object is an object of that program that scripts hold by
reference. Its type is told apart from others by a number; the name of the type is only shown.
-/

namespace StackScript.Host

structure Tag where
  id : Nat
  name : String
deriving DecidableEq, Repr

/-- A reference to a host object: its type, and the cell that holds its state. -/
structure Handle where
  tag : Tag
  cell : Nat
deriving DecidableEq, Repr

def Handle.isOf (handle : Handle) (tag : Tag) : Bool :=
  handle.tag.id == tag.id

inductive HostValue where
  | nil
  | number (x : Float)
  | bool (b : Bool)
  /-- A text, or the missing one, which scripts see as `nil`. -/
  | text (content : Option String)
  | object (handle : Handle)
deriving DecidableEq

def HostValue.kindName : HostValue → String
  | nil => "nil"
  | number _ => "number"
  | bool _ => "bool"
  | text none => "nil"
  | text (some _) => "string"
  | object handle => handle.tag.name

inductive HostType where
  | number
  | bool
  | text
  | void
  | object (tag : Tag)
deriving DecidableEq, Repr

def HostType.name : HostType → String
  | number => "number"
  | bool => "bool"
  | text => "string"
  | void => "void"
  | object tag => tag.name

end StackScript.Host
