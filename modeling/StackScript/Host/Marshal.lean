import StackScript.Machine.Store

/-!
Values between scripts and the embedding program. Each direction checks against a declared type: a script value
is converted to it, a value of the embedding program is checked against it. A missing text is `nil` in scripts,
and the only `nil` that may pass.
-/

namespace StackScript.Host

def noConversion {α : Type} (found : String) (expected : HostType) : Except RuntimeError α :=
  .error (.unplaced (.host (.noConversion found expected.name)))

/-- A value of the embedding program in a script. Texts and host objects get a new place on the heap. -/
def toValue {State : Type} : HostValue → OnStore State Value
  | .nil => pure .nil
  | .number x => pure (.number x)
  | .bool b => pure (.bool b)
  | .text none => pure .nil
  | .text (some text) => Store.allocString text
  | .object handle => return .object (← Store.alloc (.host handle))

/-- A script value as the declared type, if it is of that type. -/
def convert? (heap : Heap) (value : Value) : HostType → Except RuntimeError (Option HostValue)
  | .number =>
    match value with
    | .number x => .ok (some (.number x))
    | _ => .ok none
  | .bool =>
    match value with
    | .bool b => .ok (some (.bool b))
    | _ => .ok none
  | .text =>
    match value with
    | .nil => .ok (some (.text none))
    | _ => .ok ((heap.text? value).map fun text => .text (some text))
  | .object tag =>
    match value with
    | .object ref => do
      match ← heap.fetch ref with
      | .host handle => return if handle.isOf tag then some (.object handle) else none
      | _ => return none
    | _ => .ok none
  | .void => .ok none

def fromValue (heap : Heap) (value : Value) (expected : HostType) : Except RuntimeError HostValue := do
  match ← convert? heap value expected with
  | some converted => return converted
  | none => noConversion (heap.describe value) expected

def HostValue.isOf : HostValue → HostType → Bool
  | .number _, .number => true
  | .bool _, .bool => true
  | .text _, .text => true
  | .object handle, .object tag => handle.isOf tag
  | _, _ => false

def checkResult (value : HostValue) (expected : HostType) : Except RuntimeError HostValue :=
  if value.isOf expected then .ok value else noConversion value.kindName expected

end StackScript.Host
