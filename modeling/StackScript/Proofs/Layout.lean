import Mathlib.Data.List.Forall2
import StackScript.Bytecode.Chunk

/-!
What is known of the stack of a frame in front of an instruction: one entry for each slot, the lowest first. Most
slots hold some value. Around a class declaration more is known, and a slot named `super` holds a class for as long
as it lives. The lowest slot of a method holds its receiver, to which nobody assigns. A slot may be captured by closures,
or it is known that none captures it.

Between the declaration of a class at the top level and the end of its body, the global of that name is known to
hold the class.
-/

namespace StackScript

/-- What a variable is for. Only ordinary variables are assigned to. -/
inductive Role where
  | ordinary
  /-- It is named `super`. -/
  | superclass
  /-- It is named `this`. -/
  | receiver
deriving DecidableEq

def Role.ofName (name : String) : Role :=
  if name = "super" then .superclass else if name = "this" then .receiver else .ordinary

theorem Role.ofName_ordinary {name : String} (isSuper : name ≠ "super") (isThis : name ≠ "this") :
    ofName name = .ordinary := by
  simp [ofName, isSuper, isThis]

theorem Role.ne_super {name : String} (ordinary : ofName name = .ordinary) : name ≠ "super" := by
  rintro rfl
  cases ordinary

/-- What a function is called as. The lowest slot of a method is its receiver; an initializer is a method that returns it. -/
inductive Manner where
  | function | method | initializer
deriving DecidableEq

def Manner.ofMethod (name : String) : Manner :=
  if name = "init" then .initializer else .method

theorem Manner.ofMethod_ne_function (name : String) : ofMethod name ≠ .function := by
  unfold ofMethod
  split <;> nofun

/-- What a slot holds. -/
inductive Content where
  /-- A value that scripts can get hold of. -/
  | value
  /-- The class that `super` stands for, for as long as the slot lives. -/
  | superclass
  /-- A copy of the class that `super` stands for. -/
  | parent
  /-- A class, until somebody assigns to the slot. -/
  | «class»
  /-- A function that no closure has been made of yet. -/
  | function (proto : Proto)
  /-- A closure, until somebody assigns to the slot. -/
  | closure (manner : Manner)
  /-- The receiver of a method, for as long as the slot lives. -/
  | receiver (value : Value)
  /-- A copy of the receiver. -/
  | self (value : Value)

namespace Content

/-- Knowing the first, one knows the second. -/
inductive Within : Content → Content → Prop where
  | refl (content : Content) : Within content content
  | parent : Within .parent .value
  | class : Within .class .value
  | closure (manner : Manner) : Within (.closure manner) .value
  | self (value : Value) : Within (.self value) .value

theorem Within.trans {a b c : Content} (first : Within a b) (second : Within b c) : Within a c := by
  cases first with
  | refl => exact second
  | parent => cases second; exact .parent
  | «class» => cases second; exact .class
  | closure => cases second; exact .closure _
  | self => cases second; exact .self _

/-- What a copy of the slot's value is known to be, if the slot may be read. -/
def copy? : Content → Option Content
  | value | closure _ | self _ => some .value
  | superclass | parent => some .parent
  | «class» => some .class
  | function _ => none
  | receiver held => some (.self held)

/-- What a variable in such a slot is for. -/
def role : Content → Role
  | superclass => .superclass
  | receiver _ => .receiver
  | _ => .ordinary

theorem eq_superclass {content : Content} (isSuper : content.role = .superclass) : content = .superclass := by
  cases content with
  | superclass => rfl
  | _ => cases isSuper

theorem exists_receiver {content : Content} (isThis : content.role = .receiver) : ∃ held, content = .receiver held := by
  cases content with
  | receiver held => exact ⟨held, rfl⟩
  | _ => cases isThis

end Content

/-- What the slot of a variable holds, given the receiver. -/
def Role.content (receiver : Value) : Role → Content
  | .ordinary => .value
  | .superclass => .superclass
  | .receiver => .receiver receiver

/-- A slot of the stack, and whether closures may have captured it. -/
structure Slot where
  content : Content
  isCaptured : Bool

namespace Slot

def plain : Slot := ⟨.value, false⟩

def role (slot : Slot) : Role :=
  slot.content.role

structure Within (a b : Slot) : Prop where
  content : a.content.Within b.content
  isCaptured : a.isCaptured = true → b.isCaptured = true

theorem Within.refl (slot : Slot) : Within slot slot :=
  ⟨.refl _, id⟩

theorem Within.trans {a b c : Slot} (first : Within a b) (second : Within b c) : Within a c :=
  ⟨first.content.trans second.content, second.isCaptured ∘ first.isCaptured⟩

theorem Within.role_eq {a b : Slot} (within : Within a b) : a.role = b.role := by
  rcases a with ⟨known, _⟩
  rcases b with ⟨needed, _⟩
  cases within.content <;> rfl

end Slot

/-- The stack of a frame, and the global that is known to hold a class. -/
structure Shape where
  slots : List Slot
  known : Option String := none

namespace Shape

def push (shape : Shape) (slot : Slot) : Shape :=
  { shape with slots := shape.slots ++ [slot] }

def take (shape : Shape) (height : Nat) : Shape :=
  { shape with slots := shape.slots.take height }

structure Within (a b : Shape) : Prop where
  slots : List.Forall₂ Slot.Within a.slots b.slots
  known : b.known = none ∨ b.known = a.known

theorem slots_within_refl (slots : List Slot) : List.Forall₂ Slot.Within slots slots :=
  List.forall₂_same.mpr fun slot _ => .refl slot

theorem slots_within_trans {a b c : List Slot} (first : List.Forall₂ Slot.Within a b)
    (second : List.Forall₂ Slot.Within b c) : List.Forall₂ Slot.Within a c := by
  induction first generalizing c with
  | nil => cases second; exact .nil
  | cons head _ ih =>
    cases second with
    | cons next rest => exact .cons (head.trans next) (ih rest)

theorem Within.refl (shape : Shape) : Within shape shape :=
  ⟨slots_within_refl _, .inr rfl⟩

theorem Within.trans {a b c : Shape} (first : Within a b) (second : Within b c) : Within a c := by
  refine ⟨slots_within_trans first.slots second.slots, ?_⟩
  rcases second.known with none | same
  · exact .inl none
  · rcases first.known with none | earlier
    · exact .inl (same.trans none)
    · exact .inr (same.trans earlier)

def HasReceiver (shape : Shape) (receiver : Value) : Prop :=
  ∃ isCaptured, shape.slots[0]? = some ⟨.receiver receiver, isCaptured⟩

namespace HasReceiver

variable {shape : Shape} {receiver : Value} {kept top : List Slot} {known : Option String}

theorem within {wider : Shape} (has : shape.HasReceiver receiver) (within : shape.Within wider) : wider.HasReceiver receiver := by
  obtain ⟨isCaptured, lowest⟩ := has
  obtain ⟨inside, lowest⟩ := List.getElem?_eq_some_iff.mp lowest
  have inside' : 0 < wider.slots.length := within.slots.length_eq ▸ inside
  have known := (within.slots.get inside inside').content
  refine ⟨wider.slots[0].isCaptured, ?_⟩
  simp only [List.get_eq_getElem, lowest] at known
  rw [List.getElem?_eq_getElem inside']
  generalize wider.slots[0] = slot at known
  obtain ⟨content, isCaptured⟩ := slot
  simp only at known
  cases known
  rfl

theorem replace (has : HasReceiver ⟨kept ++ top, known⟩ receiver) (grounded : kept ≠ []) (other : List Slot)
    (known' : Option String) : HasReceiver ⟨kept ++ other, known'⟩ receiver := by
  obtain ⟨isCaptured, lowest⟩ := has
  have inside := List.length_pos_iff.mpr grounded
  exact ⟨isCaptured, by rwa [List.getElem?_append_left inside] at lowest ⊢⟩

theorem left (has : HasReceiver ⟨kept ++ top, known⟩ receiver) (grounded : kept ≠ []) (known' : Option String) :
    HasReceiver ⟨kept, known'⟩ receiver := by
  simpa using has.replace grounded [] known'

theorem push (has : shape.HasReceiver receiver) (slot : Slot) : (shape.push slot).HasReceiver receiver := by
  obtain ⟨isCaptured, lowest⟩ := has
  have inside := (List.getElem?_eq_some_iff.mp lowest).1
  exact ⟨isCaptured, by rw [Shape.push, List.getElem?_append_left inside, lowest]⟩

end HasReceiver

/-- Nothing is known of the shape that a call or an assignment could spoil: its slots hold values, the class of
`super` or the receiver, which are never assigned to, or the script itself, which no name refers to. -/
structure Settled (shape : Shape) : Prop where
  known : shape.known = none
  slots : ∀ slot ∈ shape.slots, slot.content = .value ∨ slot.role ≠ .ordinary ∨
    slot.isCaptured = false ∧ ∃ proto, slot.content = .function proto

theorem Settled.push {shape : Shape} (settled : shape.Settled) : (shape.push .plain).Settled := by
  refine ⟨settled.known, fun slot member => ?_⟩
  rcases List.mem_append.mp member with old | new
  · exact settled.slots slot old
  · rw [List.mem_singleton.mp new]
    exact .inl rfl

theorem Settled.take {shape : Shape} (settled : shape.Settled) (height : Nat) : (shape.take height).Settled :=
  ⟨settled.known, fun slot member => settled.slots slot (List.mem_of_mem_take member)⟩

end Shape

/-- No function waits for a closure to be made of it. The lowest slot is left out: a script lies there. -/
def Clear (slots : List Slot) : Prop :=
  ∀ i slot proto, 0 < i → slots[i]? = some slot → slot.content ≠ .function proto

namespace Clear

variable {kept top : List Slot}

theorem left (clear : Clear (kept ++ top)) : Clear kept := by
  intro i slot proto inside found
  have bound := (List.getElem?_eq_some_iff.mp found).1
  exact clear i slot proto inside (by rw [List.getElem?_append_left bound, found])

theorem append (clear : Clear kept) (plain : ∀ slot ∈ top, ∀ proto, slot.content ≠ .function proto) : Clear (kept ++ top) := by
  intro i slot proto inside found
  by_cases old : i < kept.length
  · rw [List.getElem?_append_left old] at found
    exact clear i slot proto inside found
  · rw [List.getElem?_append_right (Nat.le_of_not_lt old)] at found
    exact plain slot (List.mem_of_getElem? found) proto

theorem take (clear : Clear kept) (height : Nat) : Clear (kept.take height) := by
  rw [← List.take_append_drop height kept] at clear
  exact clear.left

end Clear

end StackScript
