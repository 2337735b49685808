import StackScript.Proofs.OpenList
import StackScript.Session

/-!
Machines whose stack is known slot by slot. The open upvalues are exactly those on the list, each stands for a slot that
closures may have captured, and the values are what the slots are known to hold. Each small change that instructions are
made of keeps this, for the layout that it leads to.
-/

namespace StackScript

variable {State : Type}
variable {slot : Slot} {value : Value} {object old : Object} {ref : Ref} {gone layout' above : List Slot} {lower : Array Value}
  {index : Nat}

structure Slot.Anchors (ledger : Ledger) (slot : Slot) (ref : Ref) : Prop where
  isCaptured : slot.isCaptured = true
  role : slot.role = ledger.role ref
  copies : slot.content.copy?.isSome = true

/-- The open upvalues of the heap are those on the list, in the order of their slots. -/
structure OpenOk (ledger : Ledger) (layout : List Slot) (heap : Heap) (start : Option Ref)
    (entries : List (Ref × Nat)) : Prop where
  chain : OpenChain heap start entries
  descending : Descending entries
  anchored : ∀ ref index, (ref, index) ∈ entries → ∃ slot, layout[index]? = some slot ∧ slot.Anchors ledger ref
  complete : ∀ ref index next, heap.get? ref = some (.upvalue ⟨.open index, next⟩) → (ref, index) ∈ entries

/-- What is known of a machine apart from its stack. -/
structure Rooted (ledger : Ledger) (layout : List Slot) (known : Option String) (machine : Machine State) : Prop where
  heap : HeapOk ledger machine.heap
  globals : ∀ name value, machine.global? name = some value → machine.heap.IsValue value
  known : ∀ name, known = some name → ∃ value, machine.global? name = some value ∧ machine.heap.IsClass value
  natives : machine.natives[0]? = some Machine.clock
  upvalues : ∃ entries, OpenOk ledger layout machine.heap machine.openUpvalues entries

structure StackOk (ledger : Ledger) (heap : Heap) (layout : List Slot) (stack : Array Value) : Prop where
  size : stack.size = layout.length
  holds : ∀ (i : Nat) (slot : Slot) value, layout[i]? = some slot → stack[i]? = some value → slot.content.Holds ledger heap value

structure Typed (ledger : Ledger) (layout : List Slot) (known : Option String) (machine : Machine State) : Prop
    extends Rooted ledger layout known machine where
  stack : StackOk ledger machine.heap layout machine.stack

theorem Content.Within.copies {a b : Content} (within : a.Within b) (copies : a.copy?.isSome = true) :
    b.copy?.isSome = true := by
  cases within with
  | refl => exact copies
  | parent | «class» | closure | self => rfl

theorem Slot.Anchors.within {ledger : Ledger} {a b : Slot} (anchors : a.Anchors ledger ref) (within : a.Within b) :
    b.Anchors ledger ref :=
  ⟨within.isCaptured anchors.isCaptured, within.role_eq ▸ anchors.role, within.content.copies anchors.copies⟩

namespace StackOk

variable {ledger ledger' : Ledger} {heap heap' : Heap} {layout : List Slot} {stack : Array Value}

theorem value_at (ok : StackOk ledger heap layout stack) {i : Nat} (found : layout[i]? = some slot) :
    ∃ value, stack[i]? = some value ∧ slot.content.Holds ledger heap value := by
  have inside : i < stack.size := ok.size ▸ (List.getElem?_eq_some_iff.mp found).1
  have at_ := Array.getElem?_eq_getElem inside
  exact ⟨_, at_, ok.holds i slot _ found at_⟩

theorem mono (ok : StackOk ledger heap layout stack) (grows : Grows ledger heap ledger' heap') :
    StackOk ledger' heap' layout stack :=
  ⟨ok.size, fun i slot value found at_ => (ok.holds i slot value found at_).mono grows⟩

theorem push (ok : StackOk ledger heap layout stack) {content : Content} (holds : content.Holds ledger heap value)
    (isCaptured : Bool) : StackOk ledger heap (layout ++ [⟨content, isCaptured⟩]) (stack.push value) := by
  refine ⟨by simp [ok.size], fun i slot found slot_at at_ => ?_⟩
  rw [Array.getElem?_push] at at_
  split at at_
  · next top =>
    cases at_
    rw [top, ok.size, List.getElem?_concat_length] at slot_at
    cases slot_at
    exact holds
  · have inside := (Array.getElem?_eq_some_iff.mp at_).1
    rw [List.getElem?_append_left (ok.size ▸ inside)] at slot_at
    exact ok.holds i slot found slot_at at_

theorem shorten (ok : StackOk ledger heap (layout ++ gone) stack) (size : lower.size = layout.length)
    (same : ∀ i < layout.length, lower[i]? = stack[i]?) : StackOk ledger heap layout lower := by
  refine ⟨size, fun i slot value found at_ => ?_⟩
  have inside := (List.getElem?_eq_some_iff.mp found).1
  refine ok.holds i slot value ?_ ?_
  · rw [List.getElem?_append_left inside, found]
  · rw [← same i inside, at_]

theorem set (ok : StackOk ledger heap layout stack) (found : layout[index]? = some slot)
    (holds : slot.content.Holds ledger heap value) : StackOk ledger heap layout (stack.setIfInBounds index value) := by
  refine ⟨by simp [ok.size], fun i other held other_at at_ => ?_⟩
  rw [Array.getElem?_setIfInBounds] at at_
  split at at_
  · next same =>
    cases same
    cases found.symm.trans other_at
    split at at_ <;> cases at_
    exact holds
  · exact ok.holds i other held other_at at_

end StackOk

namespace OpenOk

variable {ledger : Ledger} {layout : List Slot} {heap heap' : Heap} {start : Option Ref} {entries : List (Ref × Nat)}

section

variable (ok : OpenOk ledger layout heap start entries)
include ok

theorem congr (same : ∀ ref index next, heap'.get? ref = some (.upvalue ⟨.open index, next⟩) ↔
      heap.get? ref = some (.upvalue ⟨.open index, next⟩)) : OpenOk ledger layout heap' start entries := by
  refine ⟨?_, ok.descending, ok.anchored, fun ref index next found => ok.complete ref index next ((same _ _ _).mp found)⟩
  refine ok.chain.congr fun ⟨ref, index⟩ member => ?_
  obtain ⟨next, found⟩ := ok.chain.found member
  exact ((same ref index next).mpr found).trans found.symm

theorem relayout (anchored : ∀ ref index slot, (ref, index) ∈ entries → layout[index]? = some slot → slot.Anchors ledger ref →
      ∃ slot', layout'[index]? = some slot' ∧ slot'.Anchors ledger ref) : OpenOk ledger layout' heap start entries := by
  refine ⟨ok.chain, ok.descending, fun ref index member => ?_, ok.complete⟩
  obtain ⟨slot, slot_at, anchors⟩ := ok.anchored ref index member
  exact anchored ref index slot member slot_at anchors

theorem inside {entry : Ref × Nat} (member : entry ∈ entries) :
    entry.2 < layout.length := by
  obtain ⟨slot, slot_at, -⟩ := ok.anchored _ _ member
  exact (List.getElem?_eq_some_iff.mp slot_at).1

theorem append (more : List Slot) :
    OpenOk ledger (layout ++ more) heap start entries := by
  refine ok.relayout fun ref index slot member slot_at anchors => ⟨slot, ?_, anchors⟩
  rw [List.getElem?_append_left (List.getElem?_eq_some_iff.mp slot_at).1, slot_at]

end

theorem shorten (ok : OpenOk ledger (layout ++ gone) heap start entries) (free : ∀ slot ∈ gone, slot.isCaptured = false) :
    OpenOk ledger layout heap start entries := by
  refine ok.relayout fun ref index slot member slot_at anchors => ?_
  rcases Nat.lt_or_ge index layout.length with below | above
  · rw [List.getElem?_append_left below] at slot_at
    exact ⟨slot, slot_at, anchors⟩
  · rw [List.getElem?_append_right above] at slot_at
    have captured := anchors.isCaptured
    rw [free slot (List.mem_of_getElem? slot_at)] at captured
    cases captured

end OpenOk

def Object.IsSettled (object : Object) : Prop :=
  ∀ index next, object ≠ .upvalue ⟨.open index, next⟩

namespace Rooted

variable {ledger : Ledger} {layout : List Slot} {known : Option String} {machine after : Machine State}

theorem evolve (rooted : Rooted ledger layout known machine) {ledger' : Ledger} (heap : HeapOk ledger' after.heap)
    (evolves : machine.heap.Evolves after.heap) (globals : after.globals = machine.globals)
    (natives : after.natives = machine.natives)
    (upvalues : ∃ entries, OpenOk ledger' layout' after.heap after.openUpvalues entries) :
    Rooted ledger' layout' known after := by
  have same (name : String) : after.global? name = machine.global? name := congrArg (·[name]?) globals
  refine ⟨heap, fun name value found => ?_, fun name learned => ?_, natives ▸ rooted.natives, upvalues⟩
  · exact (rooted.globals name value (same name ▸ found)).mono evolves
  · obtain ⟨value, found, isClass⟩ := rooted.known name learned
    exact ⟨value, (same name).trans found, isClass.mono evolves⟩

theorem addObject (rooted : Rooted ledger layout known machine) (settled : object.IsSettled)
    (fits : ObjectOk ledger (machine.heap.push object) machine.heap.size object) :
    Rooted ledger layout known (machine.addObject object) := by
  obtain ⟨entries, upvalues⟩ := rooted.upvalues
  refine rooted.evolve (rooted.heap.push fits) (.push _ _) rfl rfl ⟨entries, upvalues.congr fun ref index next => ?_⟩
  change (machine.heap.push object).get? ref = _ ↔ _
  rw [Heap.get?_push]
  split
  · next new =>
    constructor
    · intro same
      exact absurd (Option.some.inj same) (settled index next)
    · intro found
      exact absurd (Heap.lt_size found) (Nat.not_lt.mpr (Nat.le_of_eq new.symm))
  · rfl

theorem setObject (rooted : Rooted ledger layout known machine) (found : machine.heap.get? ref = some old)
    (becomes : old.Becomes object) (settled : old.IsSettled) (settled' : object.IsSettled)
    (fits : ObjectOk ledger (machine.heap.set ref object) ref object) :
    Rooted ledger layout known (machine.setObject ref object) := by
  obtain ⟨entries, upvalues⟩ := rooted.upvalues
  refine rooted.evolve (rooted.heap.set found becomes fits) (.set found becomes) rfl rfl
    ⟨entries, upvalues.congr fun other index next => ?_⟩
  change (machine.heap.set ref object).get? other = _ ↔ _
  rw [Heap.get?_set found]
  split
  · next same =>
    cases same
    constructor
    · intro same
      exact absurd (Option.some.inj same) (settled' index next)
    · intro found'
      exact absurd (Option.some.inj (found.symm.trans found')) (settled index next)
  · rfl

end Rooted

namespace Typed

variable {ledger : Ledger} {layout : List Slot} {known : Option String} {machine after : Machine State}

theorem congr (typed : Typed ledger layout known machine) (stack : after.stack = machine.stack)
    (heap : after.heap = machine.heap) (globals : after.globals = machine.globals)
    (openUpvalues : after.openUpvalues = machine.openUpvalues) (natives : after.natives = machine.natives) :
    Typed ledger layout known after := by
  refine ⟨typed.toRooted.evolve (heap ▸ typed.heap) (heap ▸ .refl _) globals natives ?_, heap ▸ stack ▸ typed.stack⟩
  rw [heap, openUpvalues]
  exact typed.upvalues

theorem within (typed : Typed ledger layout known machine) {known' : Option String}
    (slots : List.Forall₂ Slot.Within layout layout') (learned : known' = none ∨ known' = known) :
    Typed ledger layout' known' machine := by
  have related {i : Nat} {slot : Slot} (found : layout[i]? = some slot) :
      ∃ slot', layout'[i]? = some slot' ∧ slot.Within slot' := by
    obtain ⟨inside, rfl⟩ := List.getElem?_eq_some_iff.mp found
    have inside' : i < layout'.length := slots.length_eq ▸ inside
    exact ⟨layout'[i], List.getElem?_eq_getElem inside', slots.get inside inside'⟩
  obtain ⟨entries, upvalues⟩ := typed.upvalues
  refine ⟨⟨typed.heap, typed.globals, fun name same => ?_, typed.natives, entries, ?_⟩,
    typed.stack.size.trans slots.length_eq, fun i slot' value found' at_ => ?_⟩
  · rcases learned with rfl | rfl
    · cases same
    · exact typed.known name same
  · refine upvalues.relayout fun ref index slot member slot_at anchors => ?_
    obtain ⟨slot', slot_at', within⟩ := related slot_at
    exact ⟨slot', slot_at', anchors.within within⟩
  · have inside : i < layout.length := slots.length_eq ▸ (List.getElem?_eq_some_iff.mp found').1
    have found := List.getElem?_eq_getElem inside
    obtain ⟨slot, same, within⟩ := related found
    cases same.symm.trans found'
    exact (typed.stack.holds i _ value found at_).within within.content

theorem push (typed : Typed ledger layout known machine) {content : Content} (holds : content.Holds ledger machine.heap value)
    (isCaptured : Bool) : Typed ledger (layout ++ [⟨content, isCaptured⟩]) known (machine.push value) := by
  obtain ⟨entries, upvalues⟩ := typed.upvalues
  exact ⟨⟨typed.heap, typed.globals, typed.known, typed.natives, entries, upvalues.append _⟩,
    typed.stack.push holds isCaptured⟩

theorem shorten (typed : Typed ledger (layout ++ gone) known machine) (free : ∀ slot ∈ gone, slot.isCaptured = false)
    (size : lower.size = layout.length) (same : ∀ i < layout.length, lower[i]? = machine.stack[i]?) :
    Typed ledger layout known { machine with stack := lower } := by
  obtain ⟨entries, upvalues⟩ := typed.upvalues
  exact ⟨⟨typed.heap, typed.globals, typed.known, typed.natives, entries, upvalues.shorten free⟩,
    typed.stack.shorten size same⟩

section

variable (typed : Typed ledger (layout ++ [slot]) known machine)
include typed

theorem top :
    ∃ value, machine.stack.back? = some value ∧ slot.content.Holds ledger machine.heap value := by
  obtain ⟨value, found, holds⟩ := typed.stack.value_at (i := layout.length) List.getElem?_concat_length
  refine ⟨value, ?_, holds⟩
  rw [Array.back?, typed.stack.size, List.length_append, List.length_singleton, Nat.add_sub_cancel, found]

theorem popped (free : slot.isCaptured = false) :
    Typed ledger layout known { machine with stack := machine.stack.pop } := by
  have size := typed.stack.size
  rw [List.length_append, List.length_singleton] at size
  refine typed.shorten (by simpa using free) (by simp [size]) fun i inside => ?_
  rw [Array.getElem?_pop, if_pos (by omega)]

theorem pop (free : slot.isCaptured = false) :
    ∃ value, Exec.pop machine = .ok value { machine with stack := machine.stack.pop } ∧
      slot.content.Holds ledger machine.heap value ∧ Typed ledger layout known { machine with stack := machine.stack.pop } := by
  obtain ⟨value, top, holds⟩ := typed.top
  exact ⟨value, Exec.pop_eq top, holds, typed.popped free⟩

end

section

variable (typed : Typed ledger (layout ++ slot :: above) known machine)
include typed

theorem slotBelow :
    Exec.slotBelow above.length machine = .ok layout.length machine := by
  have size := typed.stack.size
  rw [List.length_append, List.length_cons] at size
  rw [Exec.slotBelow_eq (by omega)]
  congr 1
  omega

theorem peekAt :
    ∃ value, Exec.peek above.length machine = .ok value machine ∧ slot.content.Holds ledger machine.heap value ∧
      machine.stack[layout.length]? = some value := by
  have own : (layout ++ slot :: above)[layout.length]? = some slot := by simp
  obtain ⟨value, found, holds⟩ := typed.stack.value_at own
  exact ⟨value, (Exec.bind_eq typed.slotBelow).trans (Exec.slotValue_eq found), holds, found⟩

theorem peek :
    ∃ value, Exec.peek above.length machine = .ok value machine ∧ slot.content.Holds ledger machine.heap value := by
  obtain ⟨value, peeked, holds, -⟩ := typed.peekAt
  exact ⟨value, peeked, holds⟩

end

section

variable (typed : Typed ledger layout known machine)
include typed

theorem setSlot (found : layout[index]? = some slot)
    (holds : slot.content.Holds ledger machine.heap value) : Typed ledger layout known (machine.setSlot index value) :=
  ⟨⟨typed.heap, typed.globals, typed.known, typed.natives, typed.upvalues⟩, typed.stack.set found holds⟩

theorem addObject (settled : object.IsSettled)
    (fits : ObjectOk ledger (machine.heap.push object) machine.heap.size object) :
    Typed ledger layout known (machine.addObject object) :=
  ⟨typed.toRooted.addObject settled fits, typed.stack.mono (.of_evolves (.push _ _))⟩

theorem setObject (found : machine.heap.get? ref = some old)
    (becomes : old.Becomes object) (settled : old.IsSettled) (settled' : object.IsSettled)
    (fits : ObjectOk ledger (machine.heap.set ref object) ref object) :
    Typed ledger layout known (machine.setObject ref object) :=
  ⟨typed.toRooted.setObject found becomes settled settled' fits, typed.stack.mono (.of_evolves (.set found becomes))⟩

theorem setGlobal {name : String} {learned : Option String}
    (isValue : machine.heap.IsValue value) (learns : learned = none ∨ learned = some name ∧ machine.heap.IsClass value) :
    Typed ledger layout learned (machine.setGlobal name value) := by
  have lookup (other : String) : (machine.setGlobal name value).global? other =
      if compare name other = .eq then some value else machine.global? other :=
    Std.TreeMap.getElem?_insert
  refine ⟨⟨typed.heap, fun other found at_ => ?_, fun other same => ?_, typed.natives, typed.upvalues⟩, typed.stack⟩
  · rw [lookup] at at_
    split at at_
    · cases at_
      exact isValue
    · exact typed.globals other found at_
  · rcases learns with rfl | ⟨rfl, isClass⟩
    · cases same
    · cases same
      exact ⟨value, by simp [lookup], isClass⟩

end

end Typed

end StackScript
