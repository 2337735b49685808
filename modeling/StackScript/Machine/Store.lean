import StackScript.Machine.Heap

/-!
What scripts and the embedding program share: the heap of the scripts, the states of the host objects, and the
time. The states are of a type `State` of the embedding program's choice.
-/

namespace StackScript

/-- The state of a host object. While the embedding program works on it, it is busy and nobody else may. -/
structure Cell (State : Type) where
  state : State
  isBusy : Bool := false

abbrev Cells (State : Type) := Array (Cell State)

def Cells.newObject {State : Type} (cells : Cells State) (tag : Host.Tag) (state : State) :
    Host.Handle × Cells State :=
  (⟨tag, cells.size⟩, cells.push { state })

structure Store (State : Type) where
  heap : Heap := {}
  cells : Cells State := #[]
  now : Float := 0

/-- An action on the store. What it did before it fails stays done. -/
abbrev OnStore (State : Type) := EStateM RuntimeError (Store State)

namespace Store

variable {State : Type}

def alloc (object : Object) : OnStore State Ref := fun store =>
  .ok store.heap.size { store with heap := store.heap.push object }

def allocString (text : String) : OnStore State Value := do
  return .object (← alloc (.string text))

def look {α : Type} (view : Heap → Except RuntimeError α) : OnStore State α := fun store =>
  match view store.heap with
  | .ok a => .ok a store
  | .error error => .error error store

def borrow (handle : Host.Handle) (store : Store State) : Except RuntimeError State :=
  match store.cells[handle.cell]? with
  | some ⟨state, false⟩ => .ok state
  | _ => .error (.unplaced (.host (.busy handle.tag.name)))

def write (handle : Host.Handle) (state : State) (store : Store State) : Store State :=
  { store with cells := store.cells.modify handle.cell fun cell => { cell with state } }

/-- Says whether the embedding program works on a host object. -/
def setBusy (handle : Host.Handle) (isBusy : Bool) (store : Store State) : Store State :=
  { store with cells := store.cells.modify handle.cell fun cell => { cell with isBusy } }

end Store

end StackScript
