import StackScript.Proofs.IntactCalls

/-!
Calls of properties. `Invoke` looks a property up and calls it in one go, and `SuperInvoke` does the same for a method of the
superclass. Both do what reading the property and calling the value would do, apart from the bound method or native function
that reading puts on the heap: nobody gets hold of it, and it only moves up the objects that come behind it.
-/

namespace StackScript

variable {State : Type}
variable {member : Host.Member State} {ref : Ref} {args : List Value} {native : Native} {error : RuntimeError}

/-- The value has properties: it is an instance or a host object. -/
def Heap.HasProperties (heap : Heap) (value : Value) : Prop :=
  ∃ ref, value = .object ref ∧ ((∃ inst, heap.get? ref = some (.instance inst)) ∨ ∃ handle, heap.get? ref = some (.host handle))

/-- The value where an object comes in front of those from an index on. -/
def Value.movedUp (start : Nat) : Value → Value
  | .object ref => .object (if ref < start then ref else ref + 1)
  | other => other

namespace Exec

end Exec

/-- How the call of a property in one go and in two steps agree, started on the same heap. -/
inductive Agree (heap : Heap) (receiver : Value) (span : Span) :
    EStateM.Result RuntimeError (Machine State) Unit → EStateM.Result RuntimeError (Machine State) Unit → Prop where
  /-- Both do the same. -/
  | same (result : EStateM.Result RuntimeError (Machine State) Unit) : Agree heap receiver span result result
  /-- Both fail, and the fault is reported in the same way. -/
  | failed {error error' : RuntimeError} {fused unfused : Machine State} (same : error.anchored span = error'.anchored span) :
      Agree heap receiver span (.error error fused) (.error error' unfused)
  /-- Both fail because the receiver has no properties, and say so in different words. -/
  | plain {fused unfused : Machine State} (plain : ¬heap.HasProperties receiver) :
      Agree heap receiver span (.error ⟨.type .methodsNeedInstance, span⟩ fused)
        (.error ⟨.type .propertiesNeedInstance, span⟩ unfused)
  /-- Both start the same frame, and in two steps there is a bound method on the heap. -/
  | entered {after : Machine State} (bound : BoundMethod) (unchanged : after.heap = heap) :
      Agree heap receiver span (.ok () after) (.ok () (after.addObject (.bound bound)))
  /-- Both run the same method of a host object, and in two steps there is a native function on the heap, in front of the
  new objects. Only the result may refer to a new one. -/
  | ran {after : Machine State} {values : List Value} {result : Value} {added : Array Object} (native : Native)
      (gained : after.heap.objects = heap.objects ++ added) (stacked : after.Stacks (values ++ [result])) :
      Agree heap receiver span (.ok () after)
        (.ok () { after with
          stack := (values ++ [result.movedUp heap.size]).toArray
          store := { after.store with heap := ⟨heap.objects.push (.native native) ++ added⟩ } })

theorem Machine.Stacks.self {machine : Machine State} {values : List Value} (stacked : machine.Stacks values) :
    { machine with stack := values.toArray } = machine := by
  rw [← stacked]

section Store

variable {heap : Heap} {value : Value} (object : Object)

theorem Heap.Has.get?_push (has : heap.Has (.object ref)) : (heap.push object).get? ref = heap.get? ref := by
  rw [Heap.get?_push, if_neg (Nat.ne_of_lt (has ref rfl))]

/-- How an action on the store fares with one more object on the heap: it fails in the same way, or gives the same value,
apart from the place of a new object. -/
inductive OnStore.Moves (heap : Heap) (object : Object) :
    EStateM.Result RuntimeError (Store State) Value → EStateM.Result RuntimeError (Store State) Value → Prop where
  | failed (error : RuntimeError) (after after' : Store State) : Moves heap object (.error error after) (.error error after')
  | done {value : Value} {added : Array Object} {after : Store State} (gained : after.heap.objects = heap.objects ++ added) :
      Moves heap object (.ok value after)
        (.ok (value.movedUp heap.size) { after with heap := ⟨heap.objects.push object ++ added⟩ })

def Store.withObject (store : Store State) : Store State :=
  { store with heap := store.heap.push object }

/-- An action does the same with one more object on the heap. -/
def OnStore.Shifts (action : OnStore State Value) (store : Store State) : Prop :=
  OnStore.Moves store.heap object (action store) (action (store.withObject object))

variable {α : Type} {store : Store State} {object : Object}

namespace OnStore.Shifts

theorem fail : (throw error : OnStore State Value).Shifts object store :=
  .failed error store (store.withObject object)

theorem pure {value : Value} (plain : value.movedUp store.heap.size = value) :
    (Pure.pure value : OnStore State Value).Shifts object store := by
  have moves := @OnStore.Moves.done _ store.heap object value #[] store (Array.append_empty).symm
  rwa [plain, Array.append_empty] at moves

theorem look {view : Heap → Except RuntimeError α} {next : α → OnStore State Value}
    (same : view (store.heap.push object) = view store.heap) (rest : ∀ value, (next value).Shifts object store) :
    (Store.look view >>= next).Shifts object store := by
  unfold Shifts
  cases seen : view store.heap with
  | ok value =>
    have here : Store.look view store = .ok value store := by simp only [Store.look, seen]
    have there : Store.look view (store.withObject object) = .ok value (store.withObject object) := by
      simp only [Store.look, Store.withObject, same, seen]
    rw [Store.bind_eq here, Store.bind_eq there]
    exact rest value
  | error error =>
    have here : Store.look view store = .error error store := by simp only [Store.look, seen]
    have there : Store.look view (store.withObject object) = .error error (store.withObject object) := by
      simp only [Store.look, Store.withObject, same, seen]
    rw [Store.bind_error here, Store.bind_error there]
    exact .failed error _ _

end OnStore.Shifts

namespace Host

namespace Member

end Member

end Host

end Store

namespace Agree

open Exec

variable {α : Type} {heap : Heap} {receiver : Value} {span : Span} {machine after machine' after' : Machine State} {value : α}
variable {action : Exec State α} {next : α → Exec State Unit} {result : EStateM.Result RuntimeError (Machine State) Unit}
  {β : Type}

theorem fused (done : action machine = .ok value after) (rest : Agree heap receiver span (next value after) result) :
    Agree heap receiver span ((action >>= next) machine) result := by
  rwa [bind_eq done]

theorem unfused (done : action machine = .ok value after) (rest : Agree heap receiver span result (next value after)) :
    Agree heap receiver span result ((action >>= next) machine) := by
  rwa [bind_eq done]

theorem within {first : α → Exec State β} {last : β → Exec State Unit} (done : action machine = .ok value after)
    (rest : Agree heap receiver span result ((first value >>= last) after)) :
    Agree heap receiver span result (((action >>= first) >>= last) machine) := by
  rw [bind_assoc]
  exact .unfused done rest

theorem bothFail {action' : Exec State β} {next' : β → Exec State Unit}
    (one : action machine = .error error after) (two : action' machine' = .error error after') :
    Agree heap receiver span ((action >>= next) machine) ((action' >>= next') machine') := by
  rw [bind_error one, bind_error two]
  exact .failed rfl

theorem look {view : Machine State → Except RuntimeError α} {first : α → Exec State β} {last : β → Exec State Unit}
    (same : view machine' = view machine)
    (rest : ∀ value, view machine = .ok value → Agree heap receiver span (next value machine) ((first value >>= last) machine')) :
    Agree heap receiver span ((Exec.look view >>= next) machine) (((Exec.look view >>= first) >>= last) machine') := by
  rw [bind_assoc]
  cases seen : view machine with
  | ok value => exact .fused (look_eq seen) (.unfused (look_eq (same.trans seen)) (rest value seen))
  | error error => exact .bothFail (look_error seen) (look_error (same.trans seen))

end Agree

namespace Exec

variable {machine : Machine State} {below values : List Value} {receiver value : Value} {name : String} {span : Span}

section Frame

variable {function : Proto} {closure : Option Ref}

end Frame

section Host

variable {handle : Host.Handle} {after : Machine State}

end Host

section Receiver

end Receiver

end Exec

end StackScript
