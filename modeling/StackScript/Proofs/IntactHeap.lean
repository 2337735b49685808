import StackScript.Session
import StackScript.Proofs.HeapTyping
import StackScript.Proofs.ObjectTyping
import StackScript.Proofs.StackActions

/-!
Heaps on which nothing dangles and every object refers to objects of the right sort. Unlike the typing of the machine while
verified code runs, this survives a failed run, whose open upvalues stay behind and then stand for slots of later runs, and
it allows for natives and host objects. Nothing is said about which slot holds what, so nearly every action keeps it.
-/

namespace StackScript

variable {State : Type}
variable {object old : Object} {machine : Machine State}

/-- The content that instructions rely on, although any value may be there as far as the heap is concerned. -/
def Content.isCode : Content → Bool
  | .function _ | .closure _ => true
  | _ => false

def Content.isFree : Content → Bool
  | .function _ | .closure _ | .class => false
  | _ => true

/-- Nothing is known of the slots, except that the lowest one may hold a function. -/
structure Plain (slots : List Slot) : Prop where
  code : ∀ i slot, 0 < i → slots[i]? = some slot → slot.content.isCode = false
  apart : ∀ slot ∈ slots, slot.content ≠ .class

/-- The code can be given shapes, and so can that of all functions inside it. Nothing is known of the arguments. -/
inductive Vetted : Proto → Prop where
  | intro {proto : Proto} {manner : Manner} {tags : List Role} {slots : List Slot} (count : slots.length = proto.arity + 1)
      (plain : Plain slots)
      (block : Block (.within proto manner tags) 0 proto.chunk.code.size (.at 0 ⟨slots, none⟩) .none)
      (nested : ∀ inner ∈ proto.chunk.functions, Vetted inner) : Vetted proto

theorem Manner.entry_plain (manner : Manner) (callee : Value) (isCaptured : Bool) (arguments : List Bool) :
    Plain (manner.entry callee isCaptured arguments).slots := by
  have free : ∀ slot ∈ (manner.entry callee isCaptured arguments).slots,
      slot.content = manner.lowest callee ∨ slot.content = .value := by
    intro slot member
    rcases List.mem_cons.mp member with rfl | further
    · exact .inl rfl
    · obtain ⟨captured, -, rfl⟩ := List.mem_map.mp further
      exact .inr rfl
  refine ⟨fun i slot _ found => ?_, fun slot member => ?_⟩
  · rcases free slot (List.mem_of_getElem? found) with same | same <;> rw [same]
    · cases manner <;> rfl
    · rfl
  · rcases free slot member with same | same <;> rw [same]
    · cases manner <;> exact nofun
    · exact nofun

theorem Sealed.vetted {proto : Proto} (done : Sealed proto) : Vetted proto := by
  induction done with
  | @intro proto manner tags verified _ _ ih =>
    obtain ⟨-, isCaptured, arguments, count, block⟩ := (verified_iff proto manner tags).mp verified
    exact .intro (by simp [Manner.entry, count]) (manner.entry_plain _ _ _) (block .nil) ih

theorem SealedScript.vetted {script : Proto} (done : SealedScript script) : Vetted script := by
  obtain ⟨arity, block⟩ := done.verified
  refine .intro (by simp [arity]) ⟨fun i slot inside found => ?_, by simp⟩ block fun inner member => (done.nested inner member).vetted
  rw [List.getElem?_eq_none (Nat.succ_le_of_lt inside)] at found
  cases found

namespace Heap

def Has (heap : Heap) (value : Value) : Prop :=
  ∀ ref, value = .object ref → ref < heap.size

def IsUpvalue (heap : Heap) (ref : Ref) : Prop :=
  ∃ upvalue, heap.get? ref = some (.upvalue upvalue)

variable {before after heap : Heap} {value : Value} {ref : Ref}

theorem Evolves.size_le (evolves : before.Evolves after) : before.size ≤ after.size :=
  (@Grows.of_evolves _ ⟨fun _ => .ordinary, fun _ => .function⟩ _ evolves).size_le

theorem Has.mono (has : before.Has value) (evolves : before.Evolves after) : after.Has value :=
  fun ref same => Nat.lt_of_lt_of_le (has ref same) evolves.size_le

theorem IsUpvalue.mono (isUpvalue : before.IsUpvalue ref) (evolves : before.Evolves after) : after.IsUpvalue ref := by
  obtain ⟨upvalue, found⟩ := isUpvalue
  obtain ⟨later, found, becomes⟩ := evolves ref _ found
  cases becomes with
  | refl => exact ⟨upvalue, found⟩
  | upvalue _ later => exact ⟨later, found⟩

theorem has_object (found : heap.get? ref = some object) : heap.Has (.object ref) := by
  rintro _ same
  cases same
  exact lt_size found

/-- Later objects come behind those that are there. -/
def Extends (before after : Heap) : Prop :=
  ∃ added, after.objects = before.objects ++ added

theorem Extends.evolves (extended : before.Extends after) : before.Evolves after := by
  obtain ⟨added, same⟩ := extended
  intro ref object found
  refine ⟨object, ?_, .refl object⟩
  rw [get?, same, Array.getElem?_append_left (lt_size found)]
  exact found

end Heap

/-- What the object refers to is there, and is of the right sort. -/
def Object.Intact (heap : Heap) : Object → Prop
  | .string _ | .function _ | .native _ | .host _ => True
  | .closure made => made.upvalues.size = made.function.captures.size ∧ ∀ ref ∈ made.upvalues, heap.IsUpvalue ref
  | .upvalue captured => ∀ value, captured.location = .closed value → heap.Has value
  | .class cls => ∀ (name : String) method, cls.methods[name]? = some method → heap.IsClosure method
  | .instance inst => heap.IsClass (.object inst.ofClass) ∧
      ∀ (name : String) value, inst.fields[name]? = some value → heap.Has value
  | .bound method => heap.Has method.receiver ∧ heap.IsClosure (.object method.method)

def Object.IsVetted : Object → Prop
  | .function proto => Vetted proto
  | .closure made => Vetted made.function
  | _ => True

theorem Object.Intact.mono {before after : Heap} (intact : object.Intact before) (evolves : before.Evolves after) :
    object.Intact after := by
  cases object with
  | string | function | native | host => trivial
  | closure closure => exact ⟨intact.1, fun ref member => (intact.2 ref member).mono evolves⟩
  | upvalue upvalue => exact fun value closed => (intact value closed).mono evolves
  | «class» cls => exact fun name method found => (intact name method found).mono evolves
  | «instance» inst => exact ⟨intact.1.mono evolves, fun name value found => (intact.2 name value found).mono evolves⟩
  | bound bound => exact ⟨intact.1.mono evolves, intact.2.mono evolves⟩

/-- Every object is intact, and all code is vetted. -/
def Heap.Sane (heap : Heap) : Prop :=
  ∀ ref object, heap.get? ref = some object → object.Intact heap ∧ object.IsVetted

namespace Heap.Sane

variable {heap : Heap} {ref : Ref}

theorem push (sane : heap.Sane) (intact : object.Intact heap) (vetted : object.IsVetted) : (heap.push object).Sane := by
  intro ref found at_
  rw [get?_push] at at_
  split at at_
  · cases at_
    exact ⟨intact.mono (.push heap object), vetted⟩
  · exact ⟨(sane ref found at_).1.mono (.push heap object), (sane ref found at_).2⟩

theorem set (sane : heap.Sane) (found : heap.get? ref = some old) (becomes : old.Becomes object) (intact : object.Intact heap) :
    (heap.set ref object).Sane := by
  have vetted : object.IsVetted := by
    cases becomes with
    | refl => exact (sane ref _ found).2
    | «class» | «instance» | upvalue => trivial
  intro other held at_
  rw [get?_set found] at at_
  split at at_
  · cases at_
    exact ⟨intact.mono (.set found becomes), vetted⟩
  · exact ⟨(sane other held at_).1.mono (.set found becomes), (sane other held at_).2⟩

end Heap.Sane

/-- Classes that nothing may change any more, and the global, if there is one, that holds a class which is still being made. -/
structure Frozen where
  classes : Ref → Option Class
  making : Option String

def Frozen.nothing : Frozen := ⟨fun _ => none, none⟩

def Heap.Keeps (heap : Heap) (classes : Ref → Option Class) : Prop :=
  ∀ ref cls, classes ref = some cls → heap.get? ref = some (.class cls)

namespace Heap.Keeps

variable {heap after : Heap} {classes : Ref → Option Class} {ref : Ref}

section

variable (keeps : heap.Keeps classes)
include keeps

theorem extend (extended : heap.Extends after) : after.Keeps classes := by
  intro ref cls kept
  obtain ⟨added, same⟩ := extended
  have found := keeps ref cls kept
  rw [get?, same, Array.getElem?_append_left (lt_size found)]
  exact found

theorem push (object : Object) : (heap.push object).Keeps classes :=
  keeps.extend ⟨#[object], by simp [Heap.push]⟩

theorem set (found : heap.get? ref = some old) (free : classes ref = none) (object : Object) :
    (heap.set ref object).Keeps classes := by
  intro other cls kept
  rw [get?_set found, if_neg]
  · exact keeps other cls kept
  · rintro rfl
    rw [free] at kept
    cases kept

theorem free (found : heap.get? ref = some object) (other : ∀ cls, object ≠ .class cls) :
    classes ref = none := by
  cases kept : classes ref with
  | none => rfl
  | some cls =>
    cases found.symm.trans (keeps ref cls kept)
    exact absurd rfl (other cls)

theorem new : classes heap.size = none := by
  cases kept : classes heap.size with
  | none => rfl
  | some cls => exact absurd (lt_size (keeps _ cls kept)) (Nat.lt_irrefl _)

end

end Heap.Keeps

/-- A native function appends to the heap at most, leaves it in order and returns a value that does not dangle. -/
def NativeBody.Proper (body : NativeBody State) : Prop :=
  ∀ args store, store.heap.Sane → (∀ arg ∈ args, store.heap.Has arg) →
    match body args store with
    | .ok value after => store.heap.Extends after.heap ∧ after.heap.Sane ∧ after.heap.Has value
    | .error _ after => store.heap.Extends after.heap ∧ after.heap.Sane

namespace Machine

/-- No value that the machine holds dangles, and its objects are intact. -/
structure Intact (machine : Machine State) : Prop where
  stack : ∀ value ∈ machine.stack, machine.heap.Has value
  globals : ∀ (name : String) value, machine.globals[name]? = some value → machine.heap.Has value
  objects : ∀ ref object, machine.heap.get? ref = some object → object.Intact machine.heap

/-- The machine is intact, its code is vetted and its natives are proper. Classes that are frozen are as they were, and a
class that is still being made is not among them. -/
structure Sane (frozen : Frozen) (machine : Machine State) : Prop where
  stack : ∀ value ∈ machine.stack, machine.heap.Has value
  globals : ∀ (name : String) value, machine.globals[name]? = some value → machine.heap.Has value
  heap : machine.heap.Sane
  natives : ∀ body ∈ machine.natives, body.Proper
  classes : machine.heap.Keeps frozen.classes
  making : ∀ (name : String) ref, frozen.making = some name → machine.globals[name]? = some (.object ref) →
    frozen.classes ref = none

variable {frozen : Frozen}

theorem Sane.intact (sane : machine.Sane frozen) : machine.Intact :=
  ⟨sane.stack, sane.globals, fun ref object found => (sane.heap ref object found).1⟩

theorem Sane.settle (sane : machine.Sane frozen) : machine.Sane ⟨frozen.classes, none⟩ :=
  ⟨sane.stack, sane.globals, sane.heap, sane.natives, sane.classes, fun _ _ never => absurd never (Option.some_ne_none _).symm⟩

structure Leads (frozen : Frozen) (before after : Machine State) : Prop where
  evolves : before.heap.Evolves after.heap
  sane : after.Sane frozen
  config : after.config = before.config

namespace Leads

variable {between after : Machine State}

theorem refl (sane : machine.Sane frozen) : machine.Leads frozen machine :=
  ⟨.refl _, sane, rfl⟩

theorem trans (one : machine.Leads frozen between) (two : between.Leads frozen after) : machine.Leads frozen after :=
  ⟨one.evolves.trans two.evolves, two.sane, two.config.trans one.config⟩

theorem settle (leads : machine.Leads frozen after) : machine.Leads ⟨frozen.classes, none⟩ after :=
  ⟨leads.evolves, leads.sane.settle, leads.config⟩

end Leads

namespace Sane

variable {after : Machine State} {value : Value}

section

variable (sane : machine.Sane frozen)
include sane

theorem restack (heap : after.heap = machine.heap) (globals : after.globals = machine.globals)
    (natives : after.natives = machine.natives) (config : after.config = machine.config)
    (stack : ∀ value ∈ after.stack, machine.heap.Has value) : machine.Leads frozen after := by
  refine ⟨heap ▸ .refl _, ⟨?_, ?_, heap ▸ sane.heap, natives ▸ sane.natives, heap ▸ sane.classes, ?_⟩, config⟩
  · rwa [heap]
  · rw [heap, globals]
    exact sane.globals
  · rw [globals]
    exact sane.making

theorem inFrame (rest : Array Frame) (frame : Frame) (ip : Nat) :
    machine.Leads frozen (machine.inFrame rest frame ip) :=
  sane.restack rfl rfl rfl rfl sane.stack

theorem stack_has {values : List Value} (stacked : machine.Stacks values) (member : value ∈ values) :
    machine.heap.Has value := by
  apply sane.stack
  rw [stacked]
  exact List.mem_toArray.mpr member

theorem cut {below above : List Value} (stacked : machine.Stacks (below ++ above)) :
    machine.Leads frozen { machine with stack := below.toArray } :=
  sane.restack rfl rfl rfl rfl fun _ member =>
    sane.stack_has stacked (List.mem_append_left above (List.mem_toArray.mp member))

theorem push (has : machine.heap.Has value) : machine.Leads frozen (machine.push value) := by
  refine sane.restack rfl rfl rfl rfl fun other member => ?_
  rcases Array.mem_push.mp member with old | rfl
  · exact sane.stack other old
  · exact has

theorem setSlot (slot : Nat) (has : machine.heap.Has value) :
    machine.Leads frozen (machine.setSlot slot value) := by
  refine sane.restack rfl rfl rfl rfl fun other member => ?_
  rcases Array.mem_or_eq_of_mem_setIfInBounds member with old | rfl
  · exact sane.stack other old
  · exact has

theorem setGlobal (name : String) (has : machine.heap.Has value)
    (free : ∀ ref, frozen.making = some name → value = .object ref → frozen.classes ref = none) :
    machine.Leads frozen (machine.setGlobal name value) := by
  have found {other : String} {held : Value} (found : (machine.setGlobal name value).globals[other]? = some held) :
      (other = name ∧ held = value) ∨ machine.globals[other]? = some held := by
    have found : (machine.globals.insert name value)[other]? = some held := found
    rw [Std.TreeMap.getElem?_insert] at found
    split at found
    · next same =>
      cases found
      exact .inl ⟨(Std.LawfulEqCmp.eq_of_compare same).symm, rfl⟩
    · exact .inr found
  refine ⟨.refl _, ⟨sane.stack, fun other held at_ => ?_, sane.heap, sane.natives, sane.classes, fun other ref isMaking at_ => ?_⟩, rfl⟩
  · rcases found at_ with ⟨rfl, rfl⟩ | old
    · exact has
    · exact sane.globals other held old
  · rcases found at_ with ⟨rfl, same⟩ | old
    · exact free ref isMaking same.symm
    · exact sane.making other ref isMaking old

theorem reheap (evolves : machine.heap.Evolves after.heap) (heap : after.heap.Sane)
    (stack : after.stack = machine.stack) (globals : after.globals = machine.globals)
    (natives : after.natives = machine.natives) (config : after.config = machine.config)
    (classes : after.heap.Keeps frozen.classes) : machine.Leads frozen after := by
  refine ⟨evolves, ⟨fun value member => ?_, fun name value found => ?_, heap, natives ▸ sane.natives, classes, ?_⟩, config⟩
  · rw [stack] at member
    exact (sane.stack value member).mono evolves
  · rw [globals] at found
    exact (sane.globals name value found).mono evolves
  · rw [globals]
    exact sane.making

theorem addObject (intact : object.Intact machine.heap) (vetted : object.IsVetted) :
    machine.Leads frozen (machine.addObject object) :=
  sane.reheap (.push _ _) (sane.heap.push intact vetted) rfl rfl rfl rfl (sane.classes.push object)

theorem setObject {ref : Ref} (found : machine.heap.get? ref = some old)
    (becomes : old.Becomes object) (intact : object.Intact machine.heap) (free : frozen.classes ref = none) :
    machine.Leads frozen (machine.setObject ref object) :=
  sane.reheap (.set found becomes) (sane.heap.set found becomes intact) rfl rfl rfl rfl (sane.classes.set found free object)

end

end Sane

end Machine

end StackScript
