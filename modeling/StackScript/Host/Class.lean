import StackScript.Host.Member

/-!
Describing a host class: the members of a type, in the order in which they are listed.
-/

namespace StackScript.Host

structure HostClass (State : Type) where
  tag : Tag
  members : List (String × Member State) := []

namespace HostClass

variable {State : Type}

def add (cls : HostClass State) (name : String) (shape : MemberShape State) : HostClass State :=
  { cls with members := cls.members ++ [(name, ⟨some cls.tag, shape⟩)] }

def numberSetter (set : State → Float → State) (state : State) : HostValue → State
  | .number x => set state x
  | _ => state

def boolSetter (set : State → Bool → State) (state : State) : HostValue → State
  | .bool b => set state b
  | _ => state

def textSetter (set : State → Option String → State) (state : State) : HostValue → State
  | .text content => set state content
  | _ => state

def numberField (cls : HostClass State) (name : String) (get : State → Float) (set : State → Float → State) :
    HostClass State :=
  cls.add name (.data .number (some fun state => .number (get state)) (some (numberSetter set)))

def boolField (cls : HostClass State) (name : String) (get : State → Bool) (set : State → Bool → State) :
    HostClass State :=
  cls.add name (.data .bool (some fun state => .bool (get state)) (some (boolSetter set)))

def textField (cls : HostClass State) (name : String) (get : State → Option String)
    (set : State → Option String → State) : HostClass State :=
  cls.add name (.data .text (some fun state => .text (get state)) (some (textSetter set)))

def objectField (cls : HostClass State) (name : String) (tag : Tag) (get : State → Handle) : HostClass State :=
  cls.add name (.data (.object tag) (some fun state => .object (get state)) none)

/-- A computed number. Either direction may be missing. -/
def numberProperty (cls : HostClass State) (name : String) (get : Option (State → Float))
    (set : Option (State → Float → State)) : HostClass State :=
  cls.add name (.data .number (get.map fun get state => .number (get state)) (set.map numberSetter))

def method (cls : HostClass State) (name : String) (params : List HostType) (returns : HostType)
    (body : MethodBody State) : HostClass State :=
  cls.add name (.method params returns body)

end HostClass

end StackScript.Host
