import StackScript.Machine.State

/-!
Captured variables. While the scope of a captured variable is alive, its upvalue is open and stands for the
stack slot; when the scope ends, the upvalue is closed and takes the value with it. The open upvalues form a list
from the highest slot down, so that the ones to close come first and every slot has at most one.

Walks along the list are bounded by the size of the heap, which no list without a cycle exceeds.
-/

namespace StackScript.Exec

variable {State : Type}

def offStack {α : Type} (slot : Nat) : Exec State α :=
  fail (.access (.slotOffStack slot)) .nowhere

inductive Spot where
  | found (ref : Ref)
  /-- A new upvalue goes behind `previous` and in front of `next`. -/
  | between (previous next : Option Ref)
deriving DecidableEq

/-- Walks down the list from `current`, which comes behind `previous`, to the place of a slot. A closed upvalue
ends the list. -/
def spotFrom (heap : Heap) (slot : Nat) :
    (bound : Nat) → (previous current : Option Ref) → Except RuntimeError Spot
  | 0, previous, current => .ok (.between previous current)
  | _ + 1, previous, none => .ok (.between previous none)
  | bound + 1, previous, some ref => do
    let upvalue ← heap.fetchUpvalue ref
    match upvalue.location with
    | .closed _ => return .between previous (some ref)
    | .open openSlot =>
      if openSlot = slot then return .found ref
      else if openSlot < slot then return .between previous (some ref)
      else spotFrom heap slot bound (some ref) upvalue.next

def link (previous : Option Ref) (next : Ref) : Exec State Unit := do
  match previous with
  | none => update fun machine => { machine with openUpvalues := some next }
  | some ref =>
    let upvalue ← look (·.heap.fetchUpvalue ref)
    update (·.setObject ref (.upvalue { upvalue with next := some next }))

/-- The open upvalue of a slot, which is made if there is none. All closures over a variable share it. -/
def capture (slot : Nat) : Exec State Ref := do
  match ← look fun machine => spotFrom machine.heap slot machine.heap.size none machine.openUpvalues with
  | .found ref => return ref
  | .between previous next =>
    let ref ← alloc (.upvalue ⟨.open slot, next⟩)
    link previous ref
    return ref

/-- Closes the open upvalues from the head of the list on whose slots are at least `last`. -/
def closeFrom (last : Nat) : (bound : Nat) → Exec State Unit
  | 0 => pure ()
  | bound + 1 => do
    match ← read (·.openUpvalues) with
    | none => return
    | some ref =>
      let upvalue ← look (·.heap.fetchUpvalue ref)
      match upvalue.location with
      | .closed _ => fail (.access .closedOnOpenList) .nowhere
      | .open slot =>
        if slot < last then return
        match ← read (·.stack[slot]?) with
        | none => offStack slot
        | some value =>
          update fun machine =>
            { machine.setObject ref (.upvalue ⟨.closed value, none⟩) with openUpvalues := upvalue.next }
          closeFrom last bound

def closeUpvalues (last : Nat) : Exec State Unit := do
  closeFrom last (← read (·.heap.size + 1))

def readUpvalue (ref : Ref) : Exec State Value := do
  match (← look (·.heap.fetchUpvalue ref)).location with
  | .closed value => return value
  | .open slot =>
    match ← read (·.stack[slot]?) with
    | some value => return value
    | none => offStack slot

def writeUpvalue (ref : Ref) (value : Value) : Exec State Unit := do
  let upvalue ← look (·.heap.fetchUpvalue ref)
  match upvalue.location with
  | .closed _ => update (·.setObject ref (.upvalue { upvalue with location := .closed value }))
  | .open slot =>
    if slot < (← read (·.stack.size)) then update (·.setSlot slot value) else offStack slot

end StackScript.Exec
