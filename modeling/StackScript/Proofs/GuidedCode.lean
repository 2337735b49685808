import StackScript.Proofs.IntactCalls
import StackScript.Proofs.StackHeights

/-!
Code that is run with its shapes as a guide, on a machine that is in order. Of the slots only two things are followed: where
a function lies that a closure is made of next, and where a closure lies that becomes a method. Both are put there by the
instruction before, so no upvalue that was left open by an earlier run can reach them in between. How high the stack is
follows from the shapes as well.
-/

namespace StackScript

variable {State : Type}
variable {slots wider : List Slot} {slot : Slot} {chunk : Chunk Proto} {ip : Nat} {heap' : Heap}

theorem Shape.slot_within (within : List.Forall₂ Slot.Within slots wider) {i : Nat} (found : wider[i]? = some slot) :
    ∃ known, slots[i]? = some known ∧ known.Within slot := by
  induction within generalizing i with
  | nil => cases found
  | cons head _ ih =>
    cases i with
    | zero =>
      cases found
      exact ⟨_, rfl, head⟩
    | succ i => exact ih found

def Heap.IsFunction (heap : Heap) (proto : Proto) (value : Value) : Prop :=
  ∃ ref, value = .object ref ∧ heap.get? ref = some (.function proto)

theorem Heap.IsFunction.mono {heap : Heap} {proto : Proto} {value : Value} (isFunction : heap.IsFunction proto value)
    (evolves : heap.Evolves heap') : heap'.IsFunction proto value := by
  obtain ⟨ref, same, found⟩ := isFunction
  obtain ⟨later, found, becomes⟩ := evolves ref _ found
  cases becomes
  exact ⟨ref, same, found⟩

/-- What is followed of a value in a slot: of the lowest one, which belongs to the callee, only that it is no frozen class
where a class is being made. -/
def Content.Shows (classes : Ref → Option Class) (heap : Heap) (place : Nat) (value : Value) : Content → Prop
  | .function proto => 0 < place → heap.IsFunction proto value
  | .closure _ => 0 < place → heap.IsClosure value
  | .class => ∀ ref, value = .object ref → classes ref = none
  | _ => True

namespace Content.Shows

variable {classes : Ref → Option Class} {heap : Heap} {place : Nat} {value : Value} {content : Content}

theorem mono (shows : content.Shows classes heap place value) (evolves : heap.Evolves heap') :
    content.Shows classes heap' place value := by
  cases content with
  | function proto | closure => exact fun inside => (shows inside).mono evolves
  | «class» => exact shows
  | _ => trivial

theorem within {wider : Content} (shows : content.Shows classes heap place value) (within : content.Within wider) :
    wider.Shows classes heap place value := by
  cases within with
  | refl => exact shows
  | parent | «class» | closure | self => trivial

theorem of_free (free : content.isFree = true) : content.Shows classes heap place value := by
  cases content with
  | function | closure | «class» => cases free
  | _ => trivial

end Content.Shows

/-- The values of a frame are what instructions rely on. -/
structure Shown (classes : Ref → Option Class) (heap : Heap) (own : List Value) (slots : List Slot) : Prop where
  count : own.length = slots.length
  shows : ∀ i value (slot : Slot), own[i]? = some value → slots[i]? = some slot → slot.content.Shows classes heap i value

namespace Shown

variable {classes : Ref → Option Class} {heap : Heap} {own low : List Value} {kept top : List Slot} {value : Value}

theorem mono (shown : Shown classes heap own slots) (evolves : heap.Evolves heap') : Shown classes heap' own slots :=
  ⟨shown.count, fun i value slot at_ at_' => (shown.shows i value slot at_ at_').mono evolves⟩

theorem within (shown : Shown classes heap own slots) (within : List.Forall₂ Slot.Within slots wider) :
    Shown classes heap own wider := by
  refine ⟨shown.count.trans within.length_eq, fun i value slot at_ at_' => ?_⟩
  obtain ⟨known, found, sharper⟩ := Shape.slot_within within at_'
  exact (shown.shows i value known at_ found).within sharper.content

theorem split (shown : Shown classes heap own (kept ++ top)) :
    ∃ low above, own = low ++ above ∧ Shown classes heap low kept ∧ above.length = top.length ∧
      ∀ i value (slot : Slot), above[i]? = some value → top[i]? = some slot →
        slot.content.Shows classes heap (kept.length + i) value := by
  have count := shown.count
  rw [List.length_append] at count
  have lower : (own.take kept.length).length = kept.length := by
    rw [List.length_take]
    omega
  refine ⟨own.take kept.length, own.drop kept.length, (List.take_append_drop _ _).symm, ⟨lower, ?_⟩, ?_, ?_⟩
  · intro i value slot at_ at_'
    have bound := (List.getElem?_eq_some_iff.mp at_').1
    rw [List.getElem?_take_of_lt bound] at at_
    exact shown.shows i value slot at_ (by rw [List.getElem?_append_left bound, at_'])
  · rw [List.length_drop]
    omega
  · intro i value slot at_ at_'
    rw [List.getElem?_drop] at at_
    refine shown.shows _ value slot at_ ?_
    rwa [List.getElem?_append_right (Nat.le_add_right _ _), Nat.add_sub_cancel_left]

theorem append (shown : Shown classes heap own slots) (shows : slot.content.Shows classes heap slots.length value) :
    Shown classes heap (own ++ [value]) (slots ++ [slot]) := by
  refine ⟨by simp [shown.count], fun i found given at_ at_' => ?_⟩
  by_cases old : i < slots.length
  · rw [List.getElem?_append_left (shown.count ▸ old)] at at_
    rw [List.getElem?_append_left old] at at_'
    exact shown.shows i found given at_ at_'
  · have bound := (List.getElem?_eq_some_iff.mp at_').1
    rw [List.length_append, List.length_singleton] at bound
    obtain rfl : i = slots.length := by omega
    rw [List.getElem?_concat_length] at at_'
    rw [← shown.count, List.getElem?_concat_length] at at_
    cases at_
    cases at_'
    exact shows

theorem of_plain (count : own.length = slots.length) (plain : Plain slots) : Shown classes heap own slots := by
  refine ⟨count, fun i value slot _ found => ?_⟩
  have apart := plain.apart slot (List.mem_of_getElem? found)
  cases content : slot.content with
  | function | closure =>
    intro inside
    have free := plain.code i slot inside found
    rw [content] at free
    cases free
  | «class» => exact absurd content apart
  | _ => trivial

theorem set (shown : Shown classes heap own slots) {index : Nat} (found : slots[index]? = some slot)
    (isValue : slot.content = .value) : Shown classes heap (own.set index value) slots := by
  refine ⟨by simp [shown.count], fun i held given at_ at_' => ?_⟩
  by_cases same : index = i
  · subst same
    cases found.symm.trans at_'
    rw [isValue]
    trivial
  · rw [List.getElem?_set_ne same] at at_
    exact shown.shows i held given at_ at_'

end Shown

/-- If a function waits for a closure to be made of it, then this comes next, and the function is on top. -/
def Ripe (chunk : Chunk Proto) (ip : Nat) (slots : List Slot) : Prop :=
  ∀ i slot proto, 0 < i → slots[i]? = some slot → slot.content = .function proto →
    i + 1 = slots.length ∧ chunk.ClosureAt ip proto

namespace Clear

variable {kept top : List Slot}

theorem ripe (clear : Clear slots) : Ripe chunk ip slots :=
  fun i slot proto inside found same => absurd same (clear i slot proto inside found)

theorem of_plain (plain : Plain slots) : Clear slots := by
  intro i slot proto inside found same
  have free := plain.code i slot inside found
  rw [same] at free
  cases free

end Clear

theorem Content.isCode_of_role {content : Content} (special : content.role ≠ .ordinary) : content.isCode = false := by
  cases content with
  | function | closure => exact absurd rfl special
  | _ => rfl

theorem Shape.Settled.plain {known : Option String} (settled : Shape.Settled ⟨slots, known⟩) (clear : Clear slots) :
    Plain slots := by
  refine ⟨fun i slot inside found => ?_, fun slot member => ?_⟩
  · rcases settled.slots slot (List.mem_of_getElem? found) with value | special | ⟨-, proto, function⟩
    · rw [value]
      rfl
    · exact Content.isCode_of_role special
    · exact absurd function (clear i slot proto inside found)
  · rcases settled.slots slot member with value | special | ⟨-, proto, function⟩
    · simp [value]
    · rintro isClass
      exact special (by simp [Slot.role, isClass, Content.role])
    · simp [function]

theorem Plain.append (plain : Plain slots) : Plain (slots ++ [.plain]) := by
  have newest {slot : Slot} (member : slot ∈ slots ++ [.plain]) : slot ∈ slots ∨ slot.content = .value := by
    rcases List.mem_append.mp member with old | new
    · exact .inl old
    · rw [List.mem_singleton.mp new]
      exact .inr rfl
  refine ⟨fun i slot inside found => ?_, fun slot member => ?_⟩
  · by_cases old : i < slots.length
    · rw [List.getElem?_append_left old] at found
      exact plain.code i slot inside found
    · rw [List.getElem?_append_right (Nat.le_of_not_lt old)] at found
      rw [List.mem_singleton.mp (List.mem_of_getElem? found)]
      rfl
  · rcases newest member with old | value
    · exact plain.apart slot old
    · simp [value]

theorem Clear.ripe_function (clear : Clear slots) {proto : Proto} (made_at : chunk.ClosureAt ip proto) :
    Ripe chunk ip (slots ++ [⟨.function proto, false⟩]) := by
  intro i slot other inside found same
  by_cases old : i < slots.length
  · rw [List.getElem?_append_left old] at found
    exact absurd same (clear i slot other inside found)
  · have bound := (List.getElem?_eq_some_iff.mp found).1
    rw [List.length_append, List.length_singleton] at bound ⊢
    obtain rfl : i = slots.length := by omega
    rw [List.getElem?_concat_length] at found
    cases found
    cases same
    exact ⟨rfl, made_at⟩

theorem Ripe.clear {op : Opcode} (ripe : Ripe chunk ip slots) (op_at : chunk.OpAt ip op) (other : op ≠ .closure) : Clear slots :=
  fun i slot proto inside found same => other (op_at.unique (ripe i slot proto inside found same).2.op_at)

theorem Ripe.within (ripe : Ripe chunk ip slots) (within : List.Forall₂ Slot.Within slots wider) : Ripe chunk ip wider := by
  intro i slot proto inside found same
  obtain ⟨⟨known, _⟩, found', sharper⟩ := Shape.slot_within within found
  obtain ⟨content, _⟩ := slot
  cases same
  have content := sharper.content
  cases content
  obtain ⟨last, made⟩ := ripe i _ proto inside found' rfl
  exact ⟨within.length_eq ▸ last, made⟩

/-- The code of the frame has shapes, and the functions inside it are vetted. -/
structure Frame.Guided (frame : Frame) (manner : Manner) (tags : List Role) (shapes : Shapes) : Prop where
  covering : ∃ entry own, Covering (.within frame.function manner tags) 0 frame.function.chunk.code.size entry .none shapes ∧
    entry 0 own ∧ own.slots.length = frame.function.arity + 1
  nested : ∀ inner ∈ frame.function.chunk.functions, Vetted inner

def Frame.Reach (frame : Frame) (shapes : Shapes) : Points :=
  fun place found => shapes.Meet place found ∧ frame.function.chunk.Reachable place

theorem Frame.Guided.move {frame : Frame} {manner : Manner} {tags : List Role} {shapes : Shapes}
    (guided : frame.Guided manner tags shapes) (ip : Nat) : ({ frame with ip } : Frame).Guided manner tags shapes :=
  ⟨guided.covering, guided.nested⟩

theorem Vetted.guided {function : Proto} (vetted : Vetted function) (closure : Option Ref) (base : Nat) :
    ∃ manner tags shapes slots, (⟨function, closure, 0, base⟩ : Frame).Guided manner tags shapes ∧
      (⟨function, closure, 0, base⟩ : Frame).Reach shapes 0 ⟨slots, none⟩ ∧
      slots.length = function.arity + 1 ∧ Plain slots := by
  cases vetted with
  | @intro _ manner tags slots count plain block nested =>
    obtain ⟨shapes, covering⟩ := block
    exact ⟨manner, tags, shapes, slots, ⟨⟨_, _, covering, ⟨rfl, .refl ⟨slots, none⟩⟩, count⟩, nested⟩, ⟨covering.entered 0 _ ⟨rfl, .refl _⟩, .entry⟩, count, plain⟩

/-- The frames wait for a value in the slot. -/
inductive Waiting : Array Frame → Nat → Prop where
  | none : Waiting #[] 0
  | push {rest : Array Frame} {frame : Frame} {kept : List Slot} {manner : Manner} {tags : List Role} {shapes : Shapes}
      (outer : Waiting rest frame.base) (guided : frame.Guided manner tags shapes) (plain : Plain kept)
      (grounded : kept ≠ [])
      (meets : frame.Reach shapes frame.ip ⟨kept ++ [.plain], none⟩) : Waiting (rest.push frame) (frame.base + kept.length)

/-- The machine is in front of an instruction of the frame, above the others, and finds a shape there. -/
structure Guides (classes : Ref → Option Class) (rest : Array Frame) (frame : Frame) (shape : Shape) (machine : Machine State) : Prop where
  frames : machine.frames = rest.push frame
  outer : Waiting rest frame.base
  room : rest.size < machine.config.maxFrames
  code : ∃ manner tags shapes, frame.Guided manner tags shapes ∧ frame.Reach shapes frame.ip shape
  stack : ∃ below own, machine.Stacks (below ++ own) ∧ below.length = frame.base ∧ Shown classes machine.heap own shape.slots
  making : ∀ (name : String) ref, shape.known = some name → machine.globals[name]? = some (.object ref) → classes ref = none
  ripe : Ripe frame.function.chunk frame.ip shape.slots

/-- The innermost frame is about to assign to a captured variable whose upvalue is open at the slot. -/
structure Machine.Assigns (machine : Machine State) (slot : Nat) : Prop where
  captured : ∃ frame index own closure ref next, machine.frames.back? = some frame ∧
    frame.function.chunk.OpAt frame.ip .setUpvalue ∧ frame.function.chunk.operand? (frame.ip + 1) = some index ∧
    frame.closure = some own ∧ machine.heap.get? own = some (.closure closure) ∧ closure.upvalues[index]? = some ref ∧
    machine.heap.get? ref = some (.upvalue ⟨.open slot, next⟩)

/-- Where an instruction of the frame leads to. Below the frame nothing changes, unless an upvalue is open there. -/
inductive Proceeds (classes : Ref → Option Class) (rest : Array Frame) (frame : Frame) (reach : Points) (below : List Value)
    (before after : Machine State) : Prop where
  | on {ip : Nat} {shape : Shape} {own : List Value} (goes : reach ip shape)
      (ripe : Ripe frame.function.chunk ip shape.slots) (frames : after.frames = rest.push { frame with ip })
      (stacked : after.Stacks (below ++ own)) (shown : Shown classes after.heap own shape.slots)
      (making : ∀ (name : String) ref, shape.known = some name → after.globals[name]? = some (.object ref) → classes ref = none)
  | writes {ip slot : Nat} {shape : Shape} {low own : List Value} (goes : reach ip shape)
      (ripe : Ripe frame.function.chunk ip shape.slots) (frames : after.frames = rest.push { frame with ip })
      (assigns : before.Assigns slot) (others : ∀ i, i ≠ slot → after.stack[i]? = before.stack[i]?)
      (stacked : after.Stacks (low ++ own)) (lower : low.length = below.length)
      (shown : Shown classes after.heap own shape.slots)
      (making : ∀ (name : String) ref, shape.known = some name → after.globals[name]? = some (.object ref) → classes ref = none)
  | calls {ip : Nat} {kept : List Slot} {low own : List Value} {function : Proto} {closure : Option Ref}
      (goes : reach ip ⟨kept ++ [.plain], none⟩) (plain : Plain kept) (grounded : kept ≠ []) (vetted : Vetted function) (count : own.length = function.arity + 1)
      (room : rest.size + 1 < before.config.maxFrames)
      (frames : after.frames = (rest.push { frame with ip }).push ⟨function, closure, 0, below.length + kept.length⟩)
      (stacked : after.Stacks (below ++ low ++ own)) (lower : low.length = kept.length)

namespace Proceeds

variable {classes : Ref → Option Class} {rest : Array Frame} {frame : Frame} {reach : Points} {below low own : List Value}
  {kept : List Slot} {known : Option String} {machine after : Machine State} {value : Value}

theorem put (leads : machine.Leads ⟨classes, known⟩ after)
    (lays : Exec.Lays (machine.inFrame rest frame ip) (below ++ low ++ [value]) after)
    (shown : Shown classes machine.heap low kept) (clear : Clear kept) (goes : reach ip ⟨kept ++ [slot], known⟩)
    (apart : ∀ proto, slot.content ≠ .function proto) (shows : slot.content.Shows classes after.heap kept.length value) :
    Proceeds classes rest frame reach below machine after := by
  have plain : Clear (kept ++ [slot]) := by
    refine clear.append fun other member proto => ?_
    rw [List.mem_singleton.mp member]
    exact apart proto
  exact .on goes plain.ripe lays.1 (by simpa using lays.2) ((shown.mono leads.evolves).append shows) leads.sane.making

theorem pushed (leads : machine.Leads ⟨classes, known⟩ after)
    (lays : Exec.Lays (machine.inFrame rest frame ip) (below ++ low ++ [value]) after)
    (shown : Shown classes machine.heap low kept) (clear : Clear kept) (free : slot.content.isFree = true)
    (goes : reach ip ⟨kept ++ [slot], known⟩) :
    Proceeds classes rest frame reach below machine after := by
  refine put leads lays shown clear goes (fun proto same => ?_) (.of_free free)
  rw [same] at free
  cases free

theorem left (leads : machine.Leads ⟨classes, known⟩ after)
    (lays : Exec.Lays (machine.inFrame rest frame ip) (below ++ low) after)
    (shown : Shown classes machine.heap low kept) (clear : Clear kept) (goes : reach ip ⟨kept, known⟩) :
    Proceeds classes rest frame reach below machine after :=
  .on goes clear.ripe lays.1 lays.2 (shown.mono leads.evolves) leads.sane.making

end Proceeds

end StackScript
