import StackScript.Proofs.UpvalueTyping

/-!
Frames of verified code. The innermost frame stands in front of an instruction and its part of the stack is within the
shape that is known there. Every other frame has made a call and goes on when the value of the call lies on top of what
it kept. An instruction other than a return leads the innermost frame on, or makes it wait for a frame of its own. What a
frame was called as, and on what, is remembered for as long as it lives.
-/

namespace StackScript

variable {State : Type}
variable {known : Option String} {above : List Slot}

/-- What a frame was started with: what it is called as, its lowest slot and what was in it, and what its captured variables
are for. -/
structure Activation where
  manner : Manner
  base : Nat
  callee : Value
  upvalues : List Role

/-- The places that the run of a frame gets to, with the shapes that it finds there. The lowest slot of a method is its
receiver everywhere. -/
def Activation.Reach (call : Activation) (shapes : Shapes) : Points :=
  fun place found => shapes.Meet place found ∧ (call.manner ≠ .function → found.HasReceiver call.callee)

/-- The code of the frame has shapes, and the captured variables of its closure are what they are there. -/
structure Frame.Ok (ledger : Ledger) (heap : Heap) (frame : Frame) (call : Activation) (shapes : Shapes) : Prop where
  covering : ∃ entry,
    Covering (.within frame.function call.manner call.upvalues) 0 frame.function.chunk.code.size entry .none shapes
  upvalue : ∀ (i : Nat) role, call.upvalues[i]? = some role → ∃ ref closure upvalue, frame.closure = some ref ∧
    heap.get? ref = some (.closure closure) ∧ closure.upvalues[i]? = some upvalue ∧ ledger.Tags heap upvalue role
  noted : ∀ ref, frame.closure = some ref → ref < heap.size ∧ ledger.manner ref = call.manner
  base : frame.base = call.base

/-- The frames wait for calls, and have these slots. What they were started with comes innermost first. -/
inductive Suspended (ledger : Ledger) (heap : Heap) : Array Frame → List Slot → List Activation → Prop where
  | nil : Suspended ledger heap #[] [] []
  | push {rest : Array Frame} {frame : Frame} {below slots : List Slot} {call : Activation} {calls : List Activation}
      {shapes : Shapes} (outer : Suspended ledger heap rest below calls) (ok : frame.Ok ledger heap call shapes)
      (base : frame.base = below.length) (settled : Shape.Settled ⟨slots, none⟩)
      (waits : call.Reach shapes frame.ip ⟨slots ++ [.plain], none⟩) :
      Suspended ledger heap (rest.push frame) (below ++ slots) (call :: calls)

/-- The machine is in front of an instruction of the frame, above the others, and finds a shape there. -/
structure Poised (ledger : Ledger) (rest : Array Frame) (frame : Frame) (below : List Slot) (shape : Shape)
    (call : Activation) (calls : List Activation) (machine : Machine State) : Prop where
  frames : machine.frames = rest.push frame
  outer : Suspended ledger machine.heap rest below calls
  base : frame.base = below.length
  ok : ∃ shapes, frame.Ok ledger machine.heap call shapes ∧ call.Reach shapes frame.ip shape
  typed : Typed ledger (below ++ shape.slots) shape.known machine

/-- Verified code is being run by frames that were started like this, the innermost one first. -/
def Tracked : List Activation → Machine State → Prop
  | [], _ => False
  | call :: calls, machine => ∃ ledger rest frame below shape, Poised ledger rest frame below shape call calls machine

def Sound (machine : Machine State) : Prop :=
  ∃ calls, Tracked calls machine

theorem Sound.poised {machine : Machine State} (sound : Sound machine) :
    ∃ ledger rest frame below shape call calls, Poised ledger rest frame below shape call calls machine := by
  obtain ⟨calls, tracked⟩ := sound
  cases calls with
  | nil => exact tracked.elim
  | cons call calls =>
    obtain ⟨ledger, rest, frame, below, shape, poised⟩ := tracked
    exact ⟨ledger, rest, frame, below, shape, call, calls, poised⟩

section Growth

variable {ledger ledger' : Ledger} {heap heap' : Heap} {rest : Array Frame} {frame : Frame} {below : List Slot}
  {call : Activation} {calls : List Activation} {shapes : Shapes}

theorem Frame.Ok.mono (ok : frame.Ok ledger heap call shapes) (grows : Grows ledger heap ledger' heap') :
    frame.Ok ledger' heap' call shapes := by
  refine ⟨ok.covering, fun i role tagged => ?_, fun ref own => ?_, ok.base⟩
  · obtain ⟨ref, closure, upvalue, own, found, captured, tags⟩ := ok.upvalue i role tagged
    obtain ⟨later, found', becomes⟩ := grows.evolves ref _ found
    cases becomes
    exact ⟨ref, closure, upvalue, own, found', captured, grows.tags tags⟩
  · obtain ⟨inside, noted⟩ := ok.noted ref own
    exact ⟨Nat.lt_of_lt_of_le inside grows.size_le, (grows.manner ref inside).trans noted⟩

theorem Frame.Ok.move (ok : frame.Ok ledger heap call shapes) (ip : Nat) :
    ({ frame with ip } : Frame).Ok ledger heap call shapes :=
  ⟨ok.covering, ok.upvalue, ok.noted, ok.base⟩

theorem Suspended.mono (outer : Suspended ledger heap rest below calls) (grows : Grows ledger heap ledger' heap') :
    Suspended ledger' heap' rest below calls := by
  induction outer with
  | nil => exact .nil
  | push _ ok base settled waits ih => exact .push ih (ok.mono grows) base settled waits

theorem Suspended.settled (outer : Suspended ledger heap rest below calls) : Shape.Settled ⟨below, none⟩ := by
  induction outer with
  | nil => exact ⟨rfl, nofun⟩
  | push _ _ _ settled _ ih =>
    refine ⟨rfl, fun slot member => ?_⟩
    rcases List.mem_append.mp member with lower | own
    · exact ih.slots slot lower
    · exact settled.slots slot own

end Growth

def Heap.SameUpvalues (before after : Heap) : Prop :=
  ∀ ref upvalue, after.get? ref = some (.upvalue upvalue) ↔ before.get? ref = some (.upvalue upvalue)

theorem Heap.SameUpvalues.refl (heap : Heap) : heap.SameUpvalues heap :=
  fun _ _ => .rfl

theorem Heap.SameUpvalues.trans {first second third : Heap} (one : first.SameUpvalues second)
    (two : second.SameUpvalues third) : first.SameUpvalues third :=
  fun ref upvalue => (two ref upvalue).trans (one ref upvalue)

theorem Heap.SameUpvalues.push {heap : Heap} {object : Object} (other : ∀ upvalue, object ≠ .upvalue upvalue) :
    heap.SameUpvalues (heap.push object) := by
  intro ref upvalue
  rw [Heap.get?_push]
  split
  · next new =>
    constructor
    · exact fun same => absurd (Option.some.inj same) (other upvalue)
    · exact fun found => absurd (Heap.lt_size found) (Nat.not_lt.mpr (Nat.le_of_eq new.symm))
  · rfl

/-- The faults that an instruction of verified code may raise. -/
def Opcode.MayRaise : Opcode → Fault → Prop
  | .getGlobal, .undefinedVariable _ | .setGlobal, .undefinedVariable _ => True
  | .getProperty, .undefinedProperty _ | .getProperty, .type .propertiesNeedInstance => True
  | .setProperty, .type .fieldsNeedInstance => True
  | .getSuper, .undefinedProperty _ => True
  | .greater, .type .operandsNotNumbers | .less, .type .operandsNotNumbers | .subtract, .type .operandsNotNumbers
  | .multiply, .type .operandsNotNumbers | .divide, .type .operandsNotNumbers => True
  | .add, .type .operandsNotAddable => True
  | .negate, .type .operandNotNumber => True
  | .call, .notCallable | .call, .wrongArity _ _ | .call, .stackOverflow => True
  | .invoke, .notCallable | .invoke, .wrongArity _ _ | .invoke, .stackOverflow | .invoke, .undefinedProperty _
  | .invoke, .type .methodsNeedInstance => True
  | .superInvoke, .wrongArity _ _ | .superInvoke, .stackOverflow | .superInvoke, .undefinedProperty _ => True
  | .inherit, .type .superclassNotClass => True
  | _, _ => False

/-- The machine where something has failed: no upvalue has been touched, and apart from the stacks everything is as it
should be. -/
structure Stranded (before : Heap) (after : Machine State) : Prop where
  upvalues : before.SameUpvalues after.heap
  rooted : ∃ ledger layout, Rooted ledger layout none after

def Fails (op : Opcode) (before : Machine State) (fault : Fault) (after : Machine State) : Prop :=
  op.MayRaise fault ∧ Stranded before.heap after

/-- The frame is ready to be run, on slots that it finds on the stack. -/
structure Frame.Enters (ledger : Ledger) (heap : Heap) (frame : Frame) (below slots : List Slot) (call : Activation) : Prop where
  ip : frame.ip = 0
  base : frame.base = below.length
  ok : ∃ shapes, frame.Ok ledger heap call shapes ∧ call.Reach shapes 0 ⟨slots, none⟩

/-- Where an instruction of the frame leads to: on to a point of `reach`, or into a further frame, whose value will lead
to such a point. -/
inductive Continues (ledger : Ledger) (rest : Array Frame) (frame : Frame) (below : List Slot) (reach : Points)
    (before after : Machine State) : Prop where
  | on {ledger' : Ledger} {ip : Nat} {shape : Shape} (goes : reach ip shape)
      (grows : Grows ledger before.heap ledger' after.heap) (frames : after.frames = rest.push { frame with ip })
      (typed : Typed ledger' (below ++ shape.slots) shape.known after)
  | calls {ledger' : Ledger} {ip : Nat} {kept slots : List Slot} {callee : Frame} {call : Activation}
      (goes : reach ip ⟨kept ++ [.plain], none⟩) (settled : Shape.Settled ⟨kept, none⟩)
      (grows : Grows ledger before.heap ledger' after.heap)
      (frames : after.frames = (rest.push { frame with ip }).push callee)
      (enters : callee.Enters ledger' after.heap (below ++ kept) slots call)
      (typed : Typed ledger' (below ++ kept ++ slots) none after)

structure Reaches (ledger : Ledger) (layout : List Slot) (known : Option String) (before after : Machine State) : Prop where
  evolves : before.heap.Evolves after.heap
  frames : after.frames = before.frames
  typed : Typed ledger layout known after

/-- The operation of the instruction at an offset never goes wrong in the frame, and leads to points of `reach`. -/
def Performs (ledger : Ledger) (rest : Array Frame) (frame : Frame) (below : List Slot) (reach : Points)
    (machine : Machine State) (here : Nat) (op : Opcode) : Prop :=
  ∀ span, (Exec.perform op span).Yields (machine.inFrame rest frame (here + 1)) (Fails op machine)
    fun _ => Continues ledger rest frame below reach machine

section Steps

variable {ledger : Ledger} {rest : Array Frame} {frame : Frame} {below kept : List Slot} {shape : Shape}
  {call : Activation} {calls : List Activation} {machine after : Machine State}

theorem Typed.inFrame {layout : List Slot} (typed : Typed ledger layout known machine) (ip : Nat) :
    Typed ledger layout known (machine.inFrame rest frame ip) :=
  typed.congr rfl rfl rfl rfl rfl

theorem Typed.stranded {layout : List Slot} (typed : Typed ledger layout known after) {before : Heap}
    (same : before.SameUpvalues after.heap) : Stranded before after :=
  ⟨same, ledger, layout, (typed.within (Shape.slots_within_refl _) (.inl rfl)).toRooted⟩

theorem Typed.split (typed : Typed ledger (below ++ (kept ++ above)) known machine) :
    Typed ledger (below ++ kept ++ above) known machine := by
  rwa [List.append_assoc]

theorem Typed.join (typed : Typed ledger (below ++ kept ++ above) known machine) :
    Typed ledger (below ++ (kept ++ above)) known machine := by
  rwa [← List.append_assoc]

theorem Reaches.continues {reach : Points} {ip : Nat}
    (reaches : Reaches ledger (below ++ kept ++ above) known (machine.inFrame rest frame ip) after)
    (goes : reach ip ⟨kept ++ above, known⟩) : Continues ledger rest frame below reach machine after :=
  .on goes (.of_evolves reaches.evolves) reaches.frames reaches.typed.join

theorem Poised.accepted (poised : Poised ledger rest frame below shape call calls machine) :
    ∃ shapes wider next, frame.Ok ledger machine.heap call shapes ∧
      Accepts (.within frame.function call.manner call.upvalues) (call.Reach shapes) frame.ip next wider ∧
      (call.manner ≠ .function → wider.HasReceiver call.callee) ∧ Typed ledger (below ++ wider.slots) wider.known machine := by
  obtain ⟨shapes, ok, ⟨wider, given, within⟩, lowest⟩ := poised.ok
  obtain ⟨entry, covering⟩ := ok.covering
  obtain ⟨next, accepts, -⟩ := covering.accepted _ _ given
  have lowest (isMethod : call.manner ≠ .function) := (lowest isMethod).within within
  refine ⟨shapes, wider, next, ok, ?_, lowest, ?_⟩
  · exact accepts.onward fun _ _ onward goes => ⟨goes.elim id False.elim, fun isMethod => onward.receiver _ (lowest isMethod)⟩
  exact poised.typed.within (List.rel_append (Shape.slots_within_refl below) within.slots) within.known

theorem Continues.tracked {shapes : Shapes} (outer : Suspended ledger machine.heap rest below calls)
    (base : frame.base = below.length) (ok : frame.Ok ledger machine.heap call shapes)
    (continues : Continues ledger rest frame below (call.Reach shapes) machine after) :
    Tracked (call :: calls) after ∨ ∃ callee, Tracked (callee :: call :: calls) after := by
  cases continues with
  | on goes grows frames typed =>
    exact .inl ⟨_, rest, _, below, _, frames, outer.mono grows, base, ⟨shapes, (ok.mono grows).move _, goes⟩, typed⟩
  | calls goes settled grows frames enters typed =>
    obtain ⟨calleeShapes, calleeOk, meets⟩ := enters.ok
    refine .inr ⟨_, _, _, _, _, ⟨_, none⟩, frames, ?_, enters.base, ⟨calleeShapes, calleeOk, ?_⟩, typed⟩
    · exact .push (outer.mono grows) ((ok.mono grows).move _) base settled goes
    · rw [enters.ip]
      exact meets

end Steps

end StackScript
