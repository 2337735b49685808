import StackScript.Event
import StackScript.Host.Class

/-!
The host classes that a machine knows. Types and members are kept in the order of their first registration, and
the first registration of a name stays: a later one is dropped with a warning.
-/

namespace StackScript.Host

/-- A registered type, under the name that was given first. -/
structure Entry (State : Type) where
  tag : Tag
  members : List (String × Member State)

structure Registry (State : Type) where
  entries : List (Entry State) := []

def ambiguous (host name : String) : Event :=
  ⟨.warn, "ambiguous host member; keeping the first registration", [("host", host), ("member", name)]⟩

namespace Entry

variable {State : Type}

def member? (entry : Entry State) (name : String) : Option (Member State) :=
  entry.members.lookup name

/-- One more member, unless the name is taken, which is reported. -/
def add (entry : Entry State) (name : String) (member : Member State) : Entry State × List Event :=
  match entry.member? name with
  | some _ => (entry, [ambiguous entry.tag.name name])
  | none => ({ entry with members := entry.members ++ [(name, member)] }, [])

def addAll (entry : Entry State) : List (String × Member State) → Entry State × List Event
  | [] => (entry, [])
  | (name, member) :: further =>
    let (entry, reported) := entry.add name member
    let (entry, more) := entry.addAll further
    (entry, reported ++ more)

end Entry

namespace Registry

variable {State : Type}

def entry? (registry : Registry State) (id : Nat) : Option (Entry State) :=
  registry.entries.find? (·.tag.id == id)

def contains (registry : Registry State) (id : Nat) : Bool :=
  (registry.entry? id).isSome

def member? (registry : Registry State) (id : Nat) (name : String) : Option (Member State) :=
  (registry.entry? id).bind (·.member? name)

/-- Changes the entry of a type, which is appended if it is new. -/
def put (entry : Entry State) : List (Entry State) → List (Entry State)
  | [] => [entry]
  | first :: further => if first.tag.id = entry.tag.id then entry :: further else first :: put entry further

def register (registry : Registry State) (cls : HostClass State) : Registry State × List Event :=
  let before := (registry.entry? cls.tag.id).getD ⟨cls.tag, []⟩
  let (entry, warnings) := before.addAll cls.members
  let summary : Event :=
    ⟨.debug, "registered host class", [("host", entry.tag.name), ("members", toString entry.members.length)]⟩
  ({ registry with entries := put entry registry.entries }, warnings ++ [summary])

def lookup (registry : Registry State) (object : Handle) (name : String) : Except RuntimeError (Member State) :=
  match registry.member? object.tag.id name with
  | some member => .ok member
  | none => .error (.unplaced (.undefinedProperty name))

def names (registry : Registry State) : List String :=
  registry.entries.map (·.tag.name)

def text (registry : Registry State) : String :=
  "[" ++ ", ".intercalate (registry.names.map fun name => "\"" ++ name ++ "\"") ++ "]"

end Registry

end StackScript.Host
