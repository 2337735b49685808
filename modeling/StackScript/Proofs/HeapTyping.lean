import StackScript.Machine.Heap
import StackScript.Proofs.Verification

/-!
What is known of the heap while verified code runs. Objects keep their kind, instances keep their class, and only classes,
instances and upvalues change at all. Values that scripts get hold of never refer to a bare function or an upvalue; the
methods of classes are closures, and closures are made of verified functions. What the variables of upvalues are for is
noted beside the heap: those of `super` hold classes for as long as they live. So is what closures are called as.
-/

namespace StackScript

variable {ref : Ref} {object old : Object} {heap : Heap}

/-- What an object may become. Upvalues are never opened again, and open ones stay with their slots. -/
inductive Object.Becomes : Object → Object → Prop where
  | refl (object : Object) : Becomes object object
  | class (before after : Class) : Becomes (.class before) (.class after)
  | instance (before after : Instance) (same : after.ofClass = before.ofClass) : Becomes (.instance before) (.instance after)
  | upvalue (before after : Upvalue)
      (same : ∀ slot, after.location = .open slot → before.location = .open slot) : Becomes (.upvalue before) (.upvalue after)

theorem Object.Becomes.trans {a b c : Object} (first : Becomes a b) (second : Becomes b c) : Becomes a c := by
  cases first with
  | refl => exact second
  | «class» =>
    cases second with
    | refl | «class» => exact .class _ _
  | «instance» _ _ same =>
    cases second with
    | refl => exact .instance _ _ same
    | «instance» _ _ same' => exact .instance _ _ (same'.trans same)
  | upvalue _ _ same =>
    cases second with
    | refl => exact .upvalue _ _ same
    | upvalue _ _ same' => exact .upvalue _ _ fun slot opened => same slot (same' slot opened)

namespace Heap

theorem get?_push (heap : Heap) (object : Object) (ref : Ref) :
    (heap.push object).get? ref = if ref = heap.size then some object else heap.get? ref :=
  Array.getElem?_push

theorem get?_set (found : heap.get? ref = some old) (object : Object) (other : Ref) :
    (heap.set ref object).get? other = if ref = other then some object else heap.get? other := by
  have inside := (Array.getElem?_eq_some_iff.mp found).1
  simp only [get?, set, Array.getElem?_setIfInBounds, inside, if_true]

theorem lt_size (found : heap.get? ref = some object) : ref < heap.size :=
  (Array.getElem?_eq_some_iff.mp found).1

theorem size_push (heap : Heap) (object : Object) : (heap.push object).size = heap.size + 1 :=
  Array.size_push _

theorem size_set (heap : Heap) (ref : Ref) (object : Object) : (heap.set ref object).size = heap.size :=
  Array.size_setIfInBounds

/-- The objects are still there, as what they may have become. -/
def Evolves (before after : Heap) : Prop :=
  ∀ ref object, before.get? ref = some object → ∃ later, after.get? ref = some later ∧ object.Becomes later

namespace Evolves

theorem refl (heap : Heap) : heap.Evolves heap :=
  fun _ object found => ⟨object, found, .refl object⟩

theorem trans {first second third : Heap} (one : first.Evolves second) (two : second.Evolves third) :
    first.Evolves third := by
  intro ref object found
  obtain ⟨between, found, becomes⟩ := one ref object found
  obtain ⟨later, found, becomes'⟩ := two ref between found
  exact ⟨later, found, becomes.trans becomes'⟩

theorem push (heap : Heap) (object : Object) : heap.Evolves (heap.push object) := by
  intro ref old found
  refine ⟨old, ?_, .refl old⟩
  rw [get?_push, if_neg (Nat.ne_of_lt (lt_size found)), found]

theorem set (found : heap.get? ref = some old) (becomes : old.Becomes object) : heap.Evolves (heap.set ref object) := by
  intro other older found'
  rw [get?_set found]
  split
  · next same =>
    cases same
    cases found.symm.trans found'
    exact ⟨object, rfl, becomes⟩
  · exact ⟨older, found', .refl older⟩

end Evolves

def IsClass (heap : Heap) (value : Value) : Prop :=
  ∃ ref cls, value = .object ref ∧ heap.get? ref = some (.class cls)

def IsClosure (heap : Heap) (value : Value) : Prop :=
  ∃ ref closure, value = .object ref ∧ heap.get? ref = some (.closure closure)

end Heap

def Object.isFirstClass : Object → Bool
  | .function _ | .upvalue _ => false
  | _ => true

theorem Object.Becomes.isFirstClass {before after : Object} (becomes : Becomes before after) :
    after.isFirstClass = before.isFirstClass := by
  cases becomes <;> rfl

namespace Heap

/-- The value may be handed to scripts: if it refers to an object, that is there and no inner part of the machine. -/
def IsValue (heap : Heap) (value : Value) : Prop :=
  ∀ ref, value = .object ref → ∃ object, heap.get? ref = some object ∧ object.isFirstClass = true

variable {before after : Heap} {value : Value}

theorem IsClass.mono (isClass : before.IsClass value) (evolves : before.Evolves after) : after.IsClass value := by
  obtain ⟨ref, cls, same, found⟩ := isClass
  obtain ⟨later, found, becomes⟩ := evolves ref _ found
  cases becomes with
  | refl => exact ⟨ref, cls, same, found⟩
  | «class» _ later => exact ⟨ref, later, same, found⟩

theorem IsClosure.mono (isClosure : before.IsClosure value) (evolves : before.Evolves after) : after.IsClosure value := by
  obtain ⟨ref, closure, same, found⟩ := isClosure
  obtain ⟨later, found, becomes⟩ := evolves ref _ found
  cases becomes
  exact ⟨ref, closure, same, found⟩

theorem IsValue.mono (isValue : before.IsValue value) (evolves : before.Evolves after) : after.IsValue value := by
  intro ref same
  obtain ⟨object, found, firstClass⟩ := isValue ref same
  obtain ⟨later, found, becomes⟩ := evolves ref object found
  exact ⟨later, found, becomes.isFirstClass.trans firstClass⟩

theorem IsClass.isValue (isClass : heap.IsClass value) : heap.IsValue value := by
  rintro ref rfl
  obtain ⟨_, cls, same, found⟩ := isClass
  cases same
  exact ⟨_, found, rfl⟩

theorem IsClosure.isValue (isClosure : heap.IsClosure value) : heap.IsValue value := by
  rintro ref rfl
  obtain ⟨_, closure, same, found⟩ := isClosure
  cases same
  exact ⟨_, found, rfl⟩

theorem isValue_of_get? (found : heap.get? ref = some object) (firstClass : object.isFirstClass = true) :
    heap.IsValue (.object ref) := by
  rintro _ same
  cases same
  exact ⟨object, found, firstClass⟩

end Heap

/-- What is noted beside the heap: what the variables of upvalues are for, and what closures are called as. -/
structure Ledger where
  role : Ref → Role
  manner : Ref → Manner

/-- The heap has evolved, and what was noted still holds. -/
structure Grows (ledger : Ledger) (heap : Heap) (ledger' : Ledger) (heap' : Heap) : Prop where
  evolves : heap.Evolves heap'
  role : ∀ ref < heap.size, ledger'.role ref = ledger.role ref
  manner : ∀ ref < heap.size, ledger'.manner ref = ledger.manner ref

namespace Grows

variable {ledger ledger' ledger'' : Ledger} {heap' heap'' : Heap}

theorem refl (ledger : Ledger) (heap : Heap) : Grows ledger heap ledger heap :=
  ⟨.refl heap, fun _ _ => rfl, fun _ _ => rfl⟩

theorem of_evolves (evolves : heap.Evolves heap') : Grows ledger heap ledger heap' :=
  ⟨evolves, fun _ _ => rfl, fun _ _ => rfl⟩

theorem size_le (grows : Grows ledger heap ledger' heap') : heap.size ≤ heap'.size := by
  rcases Nat.eq_zero_or_pos heap.size with empty | nonempty
  · omega
  · have inside : heap.size - 1 < heap.objects.size := Nat.sub_lt nonempty Nat.one_pos
    have last : heap.get? (heap.size - 1) = some heap.objects[heap.size - 1] := Array.getElem?_eq_getElem inside
    obtain ⟨later, found, -⟩ := grows.evolves _ _ last
    have : heap.size - 1 < heap'.size := Heap.lt_size found
    omega

theorem trans (one : Grows ledger heap ledger' heap') (two : Grows ledger' heap' ledger'' heap'') :
    Grows ledger heap ledger'' heap'' :=
  ⟨one.evolves.trans two.evolves,
    fun ref inside => (two.role ref (Nat.lt_of_lt_of_le inside one.size_le)).trans (one.role ref inside),
    fun ref inside => (two.manner ref (Nat.lt_of_lt_of_le inside one.size_le)).trans (one.manner ref inside)⟩

end Grows

def Ledger.IsMade (ledger : Ledger) (heap : Heap) (manner : Manner) (value : Value) : Prop :=
  ∃ ref closure, value = .object ref ∧ heap.get? ref = some (.closure closure) ∧ ledger.manner ref = manner

def Ledger.Tags (ledger : Ledger) (heap : Heap) (ref : Ref) (role : Role) : Prop :=
  (∃ upvalue, heap.get? ref = some (.upvalue upvalue)) ∧ ledger.role ref = role

section Ledger

variable {ledger ledger' : Ledger} {heap' : Heap}

theorem Ledger.IsMade.isClosure {manner : Manner} {value : Value} (made : ledger.IsMade heap manner value) :
    heap.IsClosure value := by
  obtain ⟨ref, closure, same, found, -⟩ := made
  exact ⟨ref, closure, same, found⟩

theorem Grows.isMade (grows : Grows ledger heap ledger' heap') {manner : Manner} {value : Value}
    (made : ledger.IsMade heap manner value) : ledger'.IsMade heap' manner value := by
  obtain ⟨ref, closure, same, found, noted⟩ := made
  obtain ⟨later, found', becomes⟩ := grows.evolves ref _ found
  cases becomes
  exact ⟨ref, closure, same, found', (grows.manner ref (Heap.lt_size found)).trans noted⟩

theorem Grows.tags (grows : Grows ledger heap ledger' heap') {role : Role} (tags : ledger.Tags heap ref role) :
    ledger'.Tags heap' ref role := by
  obtain ⟨⟨upvalue, found⟩, same⟩ := tags
  obtain ⟨later, found', becomes⟩ := grows.evolves ref _ found
  refine ⟨?_, (grows.role ref (Heap.lt_size found)).trans same⟩
  cases becomes with
  | refl => exact ⟨upvalue, found'⟩
  | upvalue _ later => exact ⟨later, found'⟩

end Ledger

def Content.Holds (ledger : Ledger) (heap : Heap) : Content → Value → Prop
  | value, found => heap.IsValue found
  | superclass, found => heap.IsClass found
  | parent, found => heap.IsClass found
  | «class», found => heap.IsClass found
  | function proto, found => ∃ ref, found = .object ref ∧ heap.get? ref = some (.function proto)
  | closure manner, found => ledger.IsMade heap manner found
  | receiver held, found => found = held ∧ heap.IsValue found
  | self held, found => found = held ∧ heap.IsValue found

namespace Content.Holds

variable {ledger ledger' : Ledger} {heap' : Heap} {content weaker : Content} {value : Value}

theorem mono (holds : content.Holds ledger heap value) (grows : Grows ledger heap ledger' heap') :
    content.Holds ledger' heap' value := by
  cases content with
  | value => exact Heap.IsValue.mono holds grows.evolves
  | superclass | parent | «class» => exact Heap.IsClass.mono holds grows.evolves
  | function proto =>
    obtain ⟨ref, same, found⟩ := holds
    obtain ⟨later, found, becomes⟩ := grows.evolves ref _ found
    cases becomes
    exact ⟨ref, same, found⟩
  | closure => exact grows.isMade holds
  | receiver | self => exact ⟨holds.1, holds.2.mono grows.evolves⟩

theorem within (holds : content.Holds ledger heap value) (within : content.Within weaker) : weaker.Holds ledger heap value := by
  cases within with
  | refl => exact holds
  | parent | «class» => exact Heap.IsClass.isValue holds
  | closure => exact Heap.IsClosure.isValue (Ledger.IsMade.isClosure holds)
  | self => exact holds.2

theorem copy {copied : Content} (holds : content.Holds ledger heap value) (copies : content.copy? = some copied) :
    copied.Holds ledger heap value := by
  cases content with
  | function => cases copies
  | closure => cases copies; exact Heap.IsClosure.isValue (Ledger.IsMade.isClosure holds)
  | self => cases copies; exact holds.2
  | _ => cases copies; exact holds

end Content.Holds

/-- The object is as it should be. The machine has one native function, and there are no host objects. -/
def ObjectOk (ledger : Ledger) (heap : Heap) (ref : Ref) : Object → Prop
  | .string _ => True
  | .function _ => True
  | .closure closure => ∃ tags, Verified closure.function (ledger.manner ref) tags ∧
      List.Forall₂ (ledger.Tags heap) closure.upvalues.toList tags
  | .upvalue upvalue => ∀ value, upvalue.location = .closed value →
      heap.IsValue value ∧ (ledger.role ref = .superclass → heap.IsClass value)
  | .class cls => ∀ (name : String) value, cls.methods[name]? = some value →
      ledger.IsMade heap (.ofMethod name) value
  | .instance inst => heap.IsClass (.object inst.ofClass) ∧
      ∀ (name : String) value, inst.fields[name]? = some value → heap.IsValue value
  | .bound bound => heap.IsValue bound.receiver ∧ ∃ name, ledger.IsMade heap (.ofMethod name) (.object bound.method)
  | .native native => native = ⟨"clock", some 0, .listed 0⟩
  | .host _ => False

def HeapOk (ledger : Ledger) (heap : Heap) : Prop :=
  ∀ ref object, heap.get? ref = some object → ObjectOk ledger heap ref object

theorem Grows.objectOk {ledger ledger' : Ledger} {heap' : Heap} (grows : Grows ledger heap ledger' heap')
    (inside : ref < heap.size) (ok : ObjectOk ledger heap ref object) : ObjectOk ledger' heap' ref object := by
  cases object with
  | string | function => trivial
  | closure closure =>
    obtain ⟨tags, verified, tagged⟩ := ok
    exact ⟨tags, (grows.manner ref inside).symm ▸ verified, tagged.imp fun _ _ => grows.tags⟩
  | upvalue upvalue =>
    intro value closed
    obtain ⟨isValue, isClass⟩ := ok value closed
    refine ⟨isValue.mono grows.evolves, fun isSuper => (isClass ?_).mono grows.evolves⟩
    rwa [grows.role ref inside] at isSuper
  | «class» cls => exact fun name value found => grows.isMade (ok name value found)
  | «instance» inst => exact ⟨ok.1.mono grows.evolves, fun name value found => (ok.2 name value found).mono grows.evolves⟩
  | bound bound => exact ⟨ok.1.mono grows.evolves, ok.2.imp fun _ => grows.isMade⟩
  | native native | host handle => exact ok

namespace HeapOk

variable {ledger : Ledger}

theorem push (ok : HeapOk ledger heap) (fits : ObjectOk ledger (heap.push object) heap.size object) :
    HeapOk ledger (heap.push object) := by
  intro ref found at_
  rw [Heap.get?_push] at at_
  split at at_
  · next same =>
    cases at_
    rw [same]
    exact fits
  · exact (Grows.of_evolves (.push heap object)).objectOk (Heap.lt_size at_) (ok ref found at_)

theorem set (ok : HeapOk ledger heap) (found : heap.get? ref = some old) (becomes : old.Becomes object)
    (fits : ObjectOk ledger (heap.set ref object) ref object) : HeapOk ledger (heap.set ref object) := by
  intro other held at_
  rw [Heap.get?_set found] at at_
  split at at_
  · next same =>
    cases same
    cases at_
    exact fits
  · exact (Grows.of_evolves (.set found becomes)).objectOk (Heap.lt_size at_) (ok other held at_)

end HeapOk

end StackScript
