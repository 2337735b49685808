import StackScript.Host.Marshal

/-!
Members of host classes. A data member may be readable, writable or both; a method has declared parameter and
result types. A member belongs to the type it was made for, and refuses objects of another type.

The order in which faults are found is fixed: the sort of member and its accessors, the number of arguments, the
first argument from the left that cannot be converted, a busy object, an object of another type.
-/

namespace StackScript.Host

/-- What a method does: it gets the state of its receiver and the arguments, gives a result and the new state,
and may use the other host objects, for instance to make new ones. -/
abbrev MethodBody (State : Type) := State → List HostValue → StateM (Cells State) (HostValue × State)

inductive MemberShape (State : Type) where
  | data (kind : HostType) (get : Option (State → HostValue)) (set : Option (State → HostValue → State))
  | method (params : List HostType) (returns : HostType) (body : MethodBody State)

/-- A member of a host class. One that was made for no type in particular takes objects of any type. -/
structure Member (State : Type) where
  owner : Option Tag
  shape : MemberShape State

namespace Member

variable {State : Type}

def isMethod (member : Member State) : Bool :=
  match member.shape with
  | .method _ _ _ => true
  | .data _ _ _ => false

def fail {α : Type} (fault : HostFault) : OnStore State α :=
  throw (.unplaced (.host fault))

def stateOf (member : Member State) (object : Handle) : OnStore State State := fun store =>
  match store.borrow object with
  | .error error => .error error store
  | .ok state =>
    match member.owner with
    | none => .ok state store
    | some owner => if object.isOf owner then .ok state store else fail (.wrongType owner.name) store

/-- Reads the member. A method is read as a native function that is bound to the object. -/
def read (member : Member State) (object : Handle) (name : String) : OnStore State Value := do
  match member.shape with
  | .data kind (some get) _ =>
    let state ← member.stateOf object
    let result ← Store.look fun _ => checkResult (get state) kind
    toValue result
  | .data _ none _ => fail (.noGetter object.tag.name name)
  | .method params _ _ =>
    return .object (← Store.alloc (.native ⟨name, some params.length, .hostMethod object name⟩))

def write (member : Member State) (object : Handle) (name : String) (value : Value) : OnStore State Unit := do
  match member.shape with
  | .data kind _ (some set) =>
    let converted ← Store.look fun heap => fromValue heap value kind
    let state ← member.stateOf object
    modify (·.write object (set state converted))
  | .data _ _ none => fail (.noSetter object.tag.name name)
  | .method _ _ _ => fail (.methodAssigned object.tag.name name)

def convertAll (heap : Heap) : List HostType → List Value → Except RuntimeError (List HostValue)
  | kind :: kinds, value :: values => do
    let converted ← fromValue heap value kind
    return converted :: (← convertAll heap kinds values)
  | _, _ => .ok []

def runBody (body : MethodBody State) (object : Handle) (state : State) (args : List HostValue) :
    OnStore State HostValue := fun store =>
  let ((result, state), cells) := (body state args).run store.cells
  .ok result ({ store with cells }.write object state)

def call (member : Member State) (object : Handle) (args : List Value) : OnStore State Value := do
  match member.shape with
  | .data _ _ _ => fail (.notMethod object.tag.name)
  | .method params returns body =>
    if args.length ≠ params.length then throw (.unplaced (.wrongArity params.length args.length))
    let converted ← Store.look fun heap => convertAll heap params args
    let state ← member.stateOf object
    let result ← runBody body object state converted
    if returns = .void then return .nil
    let checked ← Store.look fun _ => checkResult result returns
    toValue checked

end Member

end StackScript.Host
