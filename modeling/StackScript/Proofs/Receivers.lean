import StackScript.Proofs.CallProtocol
import StackScript.Proofs.RunSafety

/-!
What methods are called on. The lowest slot of the frame of a method holds the receiver for as long as the frame lives, although
closures may have captured it, and an initializer returns what lies there. So the call of a class ends with the instance that
it has made, whatever the initializer does.
-/

namespace StackScript

variable {State : Type} {machine between later after : Machine State} {rest outer : Array Frame} {frame : Frame}
variable {heap : Heap} {name : String} {depth : Nat} {visited : List (Machine State)} {ref : Ref}

/-- The run leads from one machine to the other, with more than `depth` frames after every step. Time may pass. -/
inductive Machine.Stays (depth : Nat) (machine : Machine State) : Machine State → Prop where
  | refl : machine.Stays depth machine
  | step {between after : Machine State} {flow : Flow} (stays : machine.Stays depth between)
      (stepped : Exec.cycle between = .ok flow after) (deep : depth < after.frames.size) : machine.Stays depth after
  | tick {between : Machine State} (stays : machine.Stays depth between) (now : Float) :
      machine.Stays depth { between with store := { between.store with now } }

theorem Machine.Stays.trans (first : machine.Stays depth between) (second : between.Stays depth later) :
    machine.Stays depth later := by
  induction second with
  | refl => exact first
  | step _ stepped deep ih => exact .step ih stepped deep
  | tick _ now ih => exact .tick ih now

theorem Machine.Trail.stays (trail : machine.Trail depth visited after) :
    ∃ last flow, machine.Stays depth last ∧ Exec.cycle last = .ok flow after ∧ after.frames.size ≤ depth := by
  induction trail with
  | back stepped shallow => exact ⟨_, _, .refl, stepped, shallow⟩
  | on stepped deep now _ ih =>
    obtain ⟨last, flow, stays, done, shallow⟩ := ih
    exact ⟨last, flow, (Stays.tick (.step .refl stepped deep) now).trans stays, done, shallow⟩

def Heap.HasMethod (heap : Heap) (name : String) (ref : Ref) : Prop :=
  ∃ owner cls, heap.get? owner = some (.class cls) ∧ cls.methods[name]? = some (.object ref)

/-- The closure is a method of a class, or has been bound to a receiver as one. -/
def Heap.IsMethod (heap : Heap) (ref : Ref) : Prop :=
  (∃ name, heap.HasMethod name ref) ∨ ∃ place receiver, heap.get? place = some (.bound ⟨receiver, ref⟩)

theorem Heap.HasMethod.isMethod (has : heap.HasMethod name ref) : heap.IsMethod ref :=
  .inl ⟨name, has⟩

section Ledger

variable {ledger : Ledger}

theorem HeapOk.hasMethod (ok : HeapOk ledger heap) (has : heap.HasMethod name ref) : ledger.manner ref = .ofMethod name := by
  obtain ⟨owner, cls, found, entry⟩ := has
  obtain ⟨_, closure, same, -, noted⟩ := ok owner _ found name _ entry
  cases same
  exact noted

theorem HeapOk.isMethod (ok : HeapOk ledger heap) (isMethod : heap.IsMethod ref) : ledger.manner ref ≠ .function := by
  rcases isMethod with ⟨name, has⟩ | ⟨place, receiver, found⟩
  · rw [ok.hasMethod has]
    exact Manner.ofMethod_ne_function name
  · obtain ⟨-, name, _, closure, same, -, noted⟩ := ok place _ found
    cases same
    rw [noted]
    exact Manner.ofMethod_ne_function name

end Ledger

section Activations

variable {ledger : Ledger} {below : List Slot} {call : Activation} {calls callers inner : List Activation}

theorem Suspended.size (suspended : Suspended ledger heap rest below calls) : rest.size = calls.length := by
  induction suspended with
  | nil => rfl
  | push _ _ _ _ _ ih => rw [Array.size_push, ih, List.length_cons]

theorem Suspended.receiver (suspended : Suspended ledger heap rest below calls) (member : call ∈ calls)
    (isMethod : call.manner ≠ .function) : ∃ isCaptured, below[call.base]? = some ⟨.receiver call.callee, isCaptured⟩ := by
  induction suspended with
  | nil => cases member
  | @push _ frame lower slots _ _ _ _ ok base _ waits ih =>
    rcases List.mem_cons.mp member with rfl | further
    · obtain ⟨isCaptured, lowest⟩ := waits.2 isMethod
      refine ⟨isCaptured, ?_⟩
      rw [← ok.base, base, List.getElem?_append_right (Nat.le_refl _), Nat.sub_self]
      cases slots with
      | nil => cases lowest
      | cons => exact lowest
    · obtain ⟨isCaptured, found⟩ := ih further
      exact ⟨isCaptured, by rw [List.getElem?_append_left (List.getElem?_eq_some_iff.mp found).1, found]⟩

namespace Tracked

theorem size (tracked : Tracked calls machine) : machine.frames.size = calls.length := by
  cases calls with
  | nil => exact tracked.elim
  | cons call calls =>
    obtain ⟨ledger, rest, frame, below, shape, poised⟩ := tracked
    rw [poised.frames, Array.size_push, poised.outer.size, List.length_cons]

theorem receiver (tracked : Tracked calls machine) (member : call ∈ calls) (isMethod : call.manner ≠ .function) :
    machine.stack[call.base]? = some call.callee := by
  cases calls with
  | nil => exact tracked.elim
  | cons innermost calls =>
    obtain ⟨ledger, rest, frame, below, shape, poised⟩ := tracked
    have slot : ∃ isCaptured, (below ++ shape.slots)[call.base]? = some ⟨.receiver call.callee, isCaptured⟩ := by
      rcases List.mem_cons.mp member with rfl | further
      · obtain ⟨shapes, ok, -, lowest⟩ := poised.ok
        obtain ⟨isCaptured, found⟩ := lowest isMethod
        refine ⟨isCaptured, ?_⟩
        rw [← ok.base, poised.base, List.getElem?_append_right (Nat.le_refl _), Nat.sub_self, found]
      · obtain ⟨isCaptured, found⟩ := poised.outer.receiver further isMethod
        exact ⟨isCaptured, by rw [List.getElem?_append_left (List.getElem?_eq_some_iff.mp found).1, found]⟩
    obtain ⟨isCaptured, found⟩ := slot
    obtain ⟨value, at_, same, -⟩ := poised.typed.stack.value_at found
    rw [at_, same]

theorem innermost (tracked : Tracked calls machine) (frames : machine.frames = rest.push frame) :
    ∃ call callers, calls = call :: callers ∧ callers.length = rest.size ∧ call.base = frame.base ∧
      ∀ ref, frame.closure = some ref → (machine.heap.IsMethod ref → call.manner ≠ .function) ∧
        ∀ name, machine.heap.HasMethod name ref → call.manner = .ofMethod name := by
  cases calls with
  | nil => exact tracked.elim
  | cons call callers =>
    obtain ⟨ledger, rest', frame', below, shape, poised⟩ := tracked
    obtain ⟨rfl, rfl⟩ := Array.push_eq_push.mp (poised.frames.symm.trans frames)
    obtain ⟨shapes, ok, -⟩ := poised.ok
    refine ⟨call, callers, rfl, poised.outer.size.symm, ok.base.symm, fun ref own => ?_⟩
    rw [← (ok.noted ref own).2]
    exact ⟨poised.typed.heap.isMethod, fun _ => poised.typed.heap.hasMethod⟩

theorem goesOn {flow : Flow} (tracked : Tracked (inner ++ call :: callers) machine) (stepped : Exec.cycle machine = .ok flow after) :
    (∃ inner', Tracked (inner' ++ call :: callers) after) ∨ after.frames.size = callers.length ∧
      (callers ≠ [] → ∃ value, after.stack.back? = some value ∧ (call.manner = .initializer → value = call.callee)) := by
  obtain ⟨_, _, -, -, yields⟩ := tracked.cycle
  rw [Exec.Yields, stepped] at yields
  cases yields.2 with
  | on tracked => exact .inl ⟨inner, tracked⟩
  | @enters callee tracked => exact .inl ⟨callee :: inner, tracked⟩
  | returns same tracked top own =>
    cases inner with
    | nil =>
      cases same
      exact .inr ⟨tracked.size, fun _ => ⟨_, top, own⟩⟩
    | cons _ inner =>
      cases same
      exact .inl ⟨inner, tracked⟩
  | halts last resting =>
    rcases List.append_eq_singleton_iff.mp last with ⟨rfl, last⟩ | ⟨-, last⟩
    · cases last
      exact .inr ⟨by rw [resting.frames]; rfl, fun waits => absurd rfl waits⟩
    · cases last

theorem stays (tracked : Tracked (inner ++ call :: callers) machine) (stays : machine.Stays callers.length later) :
    ∃ inner', Tracked (inner' ++ call :: callers) later := by
  induction stays with
  | refl => exact ⟨inner, tracked⟩
  | step _ stepped deep ih =>
    obtain ⟨inner', tracked⟩ := ih
    rcases tracked.goesOn stepped with further | ⟨back, -⟩
    · exact further
    · rw [back] at deep
      exact absurd deep (Nat.lt_irrefl _)
  | tick _ now ih =>
    obtain ⟨inner', tracked⟩ := ih
    exact ⟨inner', tracked.congr rfl rfl rfl rfl rfl rfl⟩

end Tracked

theorem Sound.evolves (sound : Sound machine) (trail : machine.Trail depth visited after) : machine.heap.Evolves after.heap := by
  induction trail with
  | back stepped _ =>
    obtain ⟨_, _, -, -, yields⟩ := sound.cycle
    rw [Exec.Yields, stepped] at yields
    exact yields.evolves
  | @on _ _ _ flow _ stepped deep now _ ih =>
    obtain ⟨_, _, -, -, yields⟩ := sound.cycle
    rw [Exec.Yields, stepped] at yields
    cases flow with
    | running => exact yields.evolves.trans (ih (Sound.withTime yields.leaves now))
    | halted =>
      rw [yields.leaves.frames] at deep
      cases deep

theorem Sound.keepsReceiver (sound : Sound machine) (frames : machine.frames = rest.push frame) (own : frame.closure = some ref)
    (isMethod : machine.heap.IsMethod ref) :
    ∃ receiver, (∀ later, machine.Stays rest.size later → later.stack[frame.base]? = some receiver) ∧
      (machine.heap.HasMethod "init" ref → rest ≠ #[] → ∀ visited after, machine.Trail rest.size visited after →
        after.stack.back? = some receiver) := by
  obtain ⟨calls, tracked⟩ := sound
  obtain ⟨call, callers, rfl, depth, base, manner⟩ := tracked.innermost frames
  rw [← depth, ← base]
  have tracked : Tracked ([] ++ call :: callers) machine := tracked
  refine ⟨call.callee, fun later stays => ?_, fun isInitializer waits visited after trail => ?_⟩
  · obtain ⟨inner, tracked⟩ := tracked.stays stays
    exact tracked.receiver (List.mem_append_right inner List.mem_cons_self) ((manner ref own).1 isMethod)
  · obtain ⟨last, flow, stays, done, shallow⟩ := trail.stays
    obtain ⟨inner, tracked⟩ := tracked.stays stays
    rcases tracked.goesOn done with ⟨inner', tracked⟩ | ⟨-, returned⟩
    · rw [tracked.size, List.length_append, List.length_cons] at shallow
      omega
    · have waits : callers ≠ [] := by
        rintro rfl
        exact waits (Array.size_eq_zero_iff.mp depth.symm)
      obtain ⟨value, top, same⟩ := returned waits
      rw [top, same ((manner ref own).2 "init" isInitializer)]

end Activations

def Machine.Below (machine : Machine State) (count : Nat) (value : Value) : Prop :=
  ∃ slot, slot + count + 1 = machine.stack.size ∧ machine.stack[slot]? = some value

theorem Machine.Below.popped {count : Nat} {value : Value} (below : machine.Below (count + 1) value)
    (stack : after.stack = machine.stack.pop) : after.Below count value := by
  obtain ⟨slot, size, own⟩ := below
  refine ⟨slot, ?_, ?_⟩
  · rw [stack, Array.size_pop]
    omega
  · rw [stack, Array.getElem?_pop, if_pos (by omega), own]

/-- The frame is about to call the value, which lies below its arguments or in a field of the instance there. -/
inductive Machine.AboutToCall (machine : Machine State) (frame : Frame) : Value → Prop where
  | call {argc : UInt8} {callee : Value} (op_at : frame.function.chunk.OpAt frame.ip .call)
      (count : frame.function.chunk.code[frame.ip + 1]? = some argc) (below : machine.Below argc.toNat callee) :
      machine.AboutToCall frame callee
  | field {argc : UInt8} {entry : Nat} {name : String} {ref : Ref} {inst : Instance} {callee : Value}
      (op_at : frame.function.chunk.OpAt frame.ip .invoke) (operand : frame.function.chunk.operand? (frame.ip + 1) = some entry)
      (named : frame.function.chunk.string? entry = some name) (count : frame.function.chunk.code[frame.ip + 3]? = some argc)
      (below : machine.Below argc.toNat (.object ref)) (found : machine.heap.get? ref = some (.instance inst))
      (field : inst.fields[name]? = some callee) : machine.AboutToCall frame callee

/-- The frame is about to call the method of this name on the receiver below the arguments. Either no field of the receiver
hides the method of its class, or the method is taken from the superclass on top of the arguments. -/
inductive Machine.AboutToInvoke (machine : Machine State) (frame : Frame) (name : String) : (receiver : Value) → Prop where
  | own {argc : UInt8} {entry : Nat} {ref : Ref} {inst : Instance}
      (op_at : frame.function.chunk.OpAt frame.ip .invoke) (operand : frame.function.chunk.operand? (frame.ip + 1) = some entry)
      (named : frame.function.chunk.string? entry = some name) (count : frame.function.chunk.code[frame.ip + 3]? = some argc)
      (below : machine.Below argc.toNat (.object ref)) (found : machine.heap.get? ref = some (.instance inst))
      (free : inst.fields[name]? = none) : machine.AboutToInvoke frame name (.object ref)
  | super {argc : UInt8} {entry : Nat} {receiver : Value}
      (op_at : frame.function.chunk.OpAt frame.ip .superInvoke)
      (operand : frame.function.chunk.operand? (frame.ip + 1) = some entry)
      (named : frame.function.chunk.string? entry = some name) (count : frame.function.chunk.code[frame.ip + 3]? = some argc)
      (below : machine.Below (argc.toNat + 1) receiver) : machine.AboutToInvoke frame name receiver

/-- The machine has just entered the method of this name on the receiver. -/
def Machine.HasEntered (machine : Machine State) (outer : Array Frame) (name : String) (receiver : Value) : Prop :=
  ∃ function ref base, machine.frames = outer.push ⟨function, some ref, 0, base⟩ ∧ machine.heap.HasMethod name ref ∧
    machine.stack[base]? = some receiver

theorem Machine.HasEntered.deeper {receiver : Value} (entered : machine.HasEntered outer name receiver) :
    outer.size < machine.frames.size := by
  obtain ⟨function, ref, base, frames, -⟩ := entered
  rw [frames, Array.size_push]
  exact Nat.lt_succ_self _

/-- The machine has just made an instance of the class, and has entered its initializer if there is one. -/
structure Machine.Instantiates (machine : Machine State) (outer : Array Frame) (owner : Ref) (after : Machine State) : Prop where
  heap : after.heap = machine.heap.push (.instance ⟨owner, ∅⟩)
  goesOn : (after.frames = outer ∧ after.stack.back? = some (.object machine.heap.size)) ∨
    after.HasEntered outer "init" (.object machine.heap.size)

namespace Exec

variable {argc : Nat} {span : Span} {callee receiver : Value} {owner : Ref} {cls : Class}

theorem slotBelow_at {slot : Nat} (size : slot + argc + 1 = machine.stack.size) : slotBelow argc machine = .ok slot machine := by
  rw [slotBelow_eq (by omega), show machine.stack.size - 1 - argc = slot by omega]

theorem peek_below (below : machine.Below argc callee) : peek argc machine = .ok callee machine := by
  obtain ⟨slot, size, found⟩ := below
  exact (bind_eq (slotBelow_at size)).trans (slotValue_eq found)

theorem callWithin_method {closure : Closure} (found : machine.heap.get? ref = some (.closure closure))
    (has : machine.heap.HasMethod name ref) (below : machine.Below argc receiver) (bound : Nat) :
    (callWithin span (bound + 1) (.object ref) argc).Yields machine (fun _ _ => True) fun _ after =>
      after.heap = machine.heap ∧ after.HasEntered machine.frames name receiver := by
  obtain ⟨slot, size, own⟩ := below
  refine .afterwards (fetch_eq found) (.ite (fun _ => .failed rfl trivial) fun _ => ?_)
  refine .reading (.reading (.ite (fun _ => .failed rfl trivial) fun _ => .afterwards (slotBelow_at size) (.of_ok rfl ?_)))
  exact ⟨rfl, _, ref, slot, rfl, has, own⟩

theorem callValue_class (found : machine.heap.get? owner = some (.class cls))
    (closures : ∀ value, cls.methods["init"]? = some value → machine.heap.IsClosure value)
    (below : machine.Below argc callee) :
    (callValue (.object owner) argc span).Yields machine (fun _ _ => True) fun _ => machine.Instantiates machine.frames owner := by
  obtain ⟨slot, size, -⟩ := below
  let made : Machine State := (machine.addObject (.instance ⟨owner, ∅⟩)).setSlot slot (.object machine.heap.size)
  have height : made.stack.size = machine.stack.size := Array.size_setIfInBounds
  have own : made.stack[slot]? = some (.object machine.heap.size) := by
    change (machine.stack.setIfInBounds slot _)[slot]? = _
    rw [Array.getElem?_setIfInBounds_self_of_lt (by omega)]
  have extended : machine.heap.Evolves made.heap := .push _ _
  obtain ⟨bound, full⟩ : ∃ bound, machine.heap.size = bound + 1 :=
    Nat.exists_eq_add_one.mpr (Nat.lt_of_le_of_lt (Nat.zero_le _) (Heap.lt_size found))
  refine .reading ?_
  rw [full]
  refine .afterwards (fetch_eq found) (.afterwards (alloc_eq _) ?_)
  have slot_at : slotBelow argc (machine.addObject (.instance ⟨owner, ∅⟩)) = .ok slot _ := slotBelow_at size
  have written : update (·.setSlot slot (.object machine.heap.size)) (machine.addObject (.instance ⟨owner, ∅⟩)) = .ok () made := rfl
  refine .afterwards slot_at (.afterwards written ?_)
  cases initializer : cls.methods["init"]? with
  | none =>
    refine .ite (fun _ => .fail trivial) fun none => .of_ok rfl ⟨rfl, .inl ⟨rfl, ?_⟩⟩
    rw [Array.back?, height, show machine.stack.size - 1 = slot by omega, own]
  | some value =>
    obtain ⟨ref, closure, rfl, closure_at⟩ := (closures value initializer).mono extended
    have has : made.heap.HasMethod "init" ref := by
      refine ⟨owner, cls, ?_, initializer⟩
      exact (Heap.get?_push _ _ _).trans ((if_neg (Nat.ne_of_lt (Heap.lt_size found))).trans found)
    have below : made.Below argc (.object machine.heap.size) := ⟨slot, size.trans height.symm, own⟩
    refine (callWithin_method closure_at has below bound).mono (fun _ _ => id) fun _ after ⟨same, entered⟩ => ?_
    exact ⟨same, .inr entered⟩

theorem invokeFromClass_enters (found : machine.heap.get? owner = some (.class cls))
    (closures : ∀ value, cls.methods[name]? = some value → machine.heap.IsClosure value) (below : machine.Below argc receiver) :
    (invokeFromClass owner name argc span).Yields machine (fun _ _ => True) fun _ after =>
      after.HasEntered machine.frames name receiver := by
  have looked : look (·.heap.fetchClass owner) machine = .ok cls machine := look_eq (Heap.fetchClass_eq found)
  refine .afterwards looked ?_
  cases method : cls.methods[name]? with
  | none => exact .fail trivial
  | some value =>
    obtain ⟨ref, closure, rfl, closure_at⟩ := closures value method
    refine .reading ((callWithin_method closure_at ⟨owner, cls, found, method⟩ below _).mono (fun _ _ => id) ?_)
    exact fun _ _ => And.right

theorem popClass_yields (span : Span) : (popClass span).Yields machine (fun _ _ => True) fun ref after =>
    after.stack = machine.stack.pop ∧ after.heap = machine.heap ∧ after.frames = machine.frames ∧
      ∃ cls, machine.heap.get? ref = some (.class cls) := by
  cases top : machine.stack.back? with
  | none =>
    have empty : pop machine = .error (.unplaced .stackUnderflow) machine := by
      simp only [pop, top]
    exact .failed empty trivial
  | some value =>
    refine .afterwards (pop_eq top) ?_
    cases value with
    | object ref =>
      cases found : machine.heap.get? ref with
      | none =>
        have gone : fetch ref { machine with stack := machine.stack.pop } = .error _ _ := fetch_none found
        exact .failed (bind_error gone) trivial
      | some object =>
        have fetched : fetch ref { machine with stack := machine.stack.pop } = .ok object _ := fetch_eq found
        cases object with
        | «class» cls =>
          have isClass : classOf (.object ref) .superclassNotClass span { machine with stack := machine.stack.pop } =
              .ok (ref, cls) _ := bind_eq fetched
          exact .afterwards isClass (.of_ok rfl ⟨rfl, rfl, rfl, cls, found⟩)
        | _ => exact .failed (bind_eq fetched) trivial
    | _ => exact .failed rfl trivial

theorem cycle_yields {op : Opcode} {post : Machine State → Prop} (frames : machine.frames = rest.push frame)
    (op_at : frame.function.chunk.OpAt frame.ip op) (other : op ≠ .return)
    (performs : ∀ events span, (perform op span).Yields
      (({ machine with events } : Machine State).inFrame rest frame (frame.ip + 1)) (fun _ _ => True) fun _ => post) :
    Exec.cycle.Yields machine (fun _ _ => True) fun _ => post := by
  refine .cycle (by rw [frames, Array.back?_push]) fun events span => ?_
  exact .step_perform frames op_at other (performs events span)

end Exec

namespace Sound

open Exec

variable {owner : Ref} {cls : Class} {receiver : Value} {flow : Flow}

theorem heapOk (sound : Sound machine) : ∃ ledger, HeapOk ledger machine.heap := by
  obtain ⟨ledger, _, _, _, _, _, _, poised⟩ := sound.poised
  exact ⟨ledger, poised.typed.heap⟩

theorem isClosure (sound : Sound machine) (found : machine.heap.get? owner = some (.class cls)) {value : Value}
    (entry : cls.methods[name]? = some value) : machine.heap.IsClosure value := by
  obtain ⟨ledger, ok⟩ := sound.heapOk
  exact (ok owner _ found name value entry).isClosure

theorem instantiates (sound : Sound machine) (frames : machine.frames = rest.push frame)
    (about : machine.AboutToCall frame (.object owner)) (found : machine.heap.get? owner = some (.class cls))
    (stepped : Exec.cycle machine = .ok flow between) :
    ∃ next, machine.Instantiates (rest.push { frame with ip := next }) owner between := by
  have closures (value : Value) (entry : cls.methods["init"]? = some value) := sound.isClosure found entry
  have yields : Exec.cycle.Yields machine (fun _ _ => True) fun _ after =>
      ∃ next, machine.Instantiates (rest.push { frame with ip := next }) owner after := by
    cases about with
    | call op_at count below =>
      refine cycle_yields frames op_at nofun fun events span => ?_
      let moved : Machine State := ({ machine with events } : Machine State).inFrame rest frame (frame.ip + 2)
      have found : moved.heap.get? owner = some (.class cls) := found
      have below : moved.Below _ (.object owner) := below
      have peeked : peek _ moved = .ok _ moved := peek_below below
      refine .afterwards (readByte_inFrame count) (.afterwards peeked ?_)
      refine (callValue_class found closures below).mono (fun _ _ => id) fun _ after made => ?_
      exact ⟨frame.ip + 2, made.heap, made.goesOn⟩
    | field op_at operand named count below holder field =>
      refine cycle_yields frames op_at nofun fun events span => ?_
      let moved : Machine State := ({ machine with events } : Machine State).inFrame rest frame (frame.ip + 4)
      have peeked : peek _ moved = .ok _ moved := peek_below below
      refine .afterwards (readString_inFrame ⟨_, operand, named⟩) (.afterwards (readByte_inFrame count) (.afterwards peeked ?_))
      have fetched : fetch _ moved = .ok _ moved := fetch_eq holder
      refine .afterwards fetched ?_
      -- The class is the field of an instance, and takes the place of that below the arguments.
      simp only [field]
      obtain ⟨slot, size, -⟩ := below
      have size : slot + _ + 1 = moved.stack.size := size
      have slot_at : slotBelow _ moved = .ok slot moved := slotBelow_at size
      let replaced := moved.setSlot slot (.object owner)
      have written : update (·.setSlot slot (.object owner)) moved = .ok () replaced := rfl
      have below : replaced.Below _ (.object owner) :=
        ⟨slot, size.trans Array.size_setIfInBounds.symm, Array.getElem?_setIfInBounds_self_of_lt (by omega)⟩
      have found : replaced.heap.get? owner = some (.class cls) := found
      refine .afterwards slot_at (.afterwards written ?_)
      refine (callValue_class found closures below).mono (fun _ _ => id) fun _ after made => ?_
      exact ⟨frame.ip + 4, made.heap, made.goesOn⟩
  rw [Exec.Yields, stepped] at yields
  exact yields

theorem invokes (sound : Sound machine) (frames : machine.frames = rest.push frame)
    (about : machine.AboutToInvoke frame name receiver) (stepped : Exec.cycle machine = .ok flow between) :
    ∃ next, between.HasEntered (rest.push { frame with ip := next }) name receiver := by
  have yields : Exec.cycle.Yields machine (fun _ _ => True) fun _ after =>
      ∃ next, after.HasEntered (rest.push { frame with ip := next }) name receiver := by
    cases about with
    | own op_at operand named count below holder free =>
      refine cycle_yields frames op_at nofun fun events span => ?_
      let moved : Machine State := ({ machine with events } : Machine State).inFrame rest frame (frame.ip + 4)
      have below : moved.Below _ _ := below
      have peeked : peek _ moved = .ok _ moved := peek_below below
      have fetched : fetch _ moved = .ok _ moved := fetch_eq holder
      refine .afterwards (readString_inFrame ⟨_, operand, named⟩) (.afterwards (readByte_inFrame count) (.afterwards peeked ?_))
      refine .afterwards fetched ?_
      simp only [free]
      obtain ⟨ledger, ok⟩ := sound.heapOk
      obtain ⟨⟨owner, cls, same, found⟩, -⟩ := ok _ _ holder
      cases same
      have closures (value : Value) (entry : cls.methods[name]? = some value) : moved.heap.IsClosure value :=
        sound.isClosure found entry
      have found : moved.heap.get? _ = some (.class cls) := found
      refine (invokeFromClass_enters found closures below).mono (fun _ _ => id) ?_
      exact fun _ after entered => ⟨frame.ip + 4, entered⟩
    | super op_at operand named count below =>
      refine cycle_yields frames op_at nofun fun events span => ?_
      refine .afterwards (readString_inFrame ⟨_, operand, named⟩) (.afterwards (readByte_inFrame count) ?_)
      refine .bind ((popClass_yields span).mono (fun _ _ => id) fun owner lower ⟨stack, heap, same, cls, found⟩ => ?_)
      have heap : lower.heap = machine.heap := heap
      have found : machine.heap.get? owner = some (.class cls) := found
      have closures (value : Value) (entry : cls.methods[name]? = some value) : lower.heap.IsClosure value :=
        heap ▸ sound.isClosure found entry
      refine (invokeFromClass_enters (heap ▸ found) closures (below.popped stack)).mono (fun _ _ => id) ?_
      rw [same]
      exact fun _ after entered => ⟨frame.ip + 4, entered⟩
  rw [Exec.Yields, stepped] at yields
  exact yields

theorem entered_returns (sound : Sound machine) (entered : machine.HasEntered outer "init" receiver) (waits : outer ≠ #[])
    (trail : machine.Trail outer.size visited after) : after.stack.back? = some receiver := by
  obtain ⟨function, ref, base, frames, has, own⟩ := entered
  obtain ⟨receiver', kept, returned⟩ := sound.keepsReceiver frames rfl has.isMethod
  cases (kept _ .refl).symm.trans own
  exact returned has waits visited after trail

end Sound

/-- Calling a class leaves the instance that was made by the call, and invoking an initializer leaves its receiver. The lowest
slot of a method is never written while its frame lives. -/
theorem class_call_yields_instance {source : String} {script : Proto} (compiled : compileSource source = .ok script)
    (config : Config) (reached : Reached script (.fresh config) machine) (frames : machine.frames = rest.push frame) :
    (∀ owner cls, machine.AboutToCall frame (.object owner) → machine.heap.get? owner = some (.class cls) →
      (∀ flow between, Exec.cycle machine = .ok flow between →
        between.heap.get? machine.heap.size = some (.instance ⟨owner, ∅⟩)) ∧
      ∀ visited after, machine.Trail (rest.size + 1) visited after →
        after.stack.back? = some (.object machine.heap.size) ∧
        ∃ fields, after.heap.get? machine.heap.size = some (.instance ⟨owner, fields⟩)) ∧
    (∀ receiver, machine.AboutToInvoke frame "init" receiver →
      ∀ visited after, machine.Trail (rest.size + 1) visited after → after.stack.back? = some receiver) ∧
    ∀ ref, frame.closure = some ref → machine.heap.IsMethod ref →
      ∃ receiver, (∀ later, machine.Stays rest.size later → later.stack[frame.base]? = some receiver) ∧
        (machine.heap.HasMethod "init" ref → rest ≠ #[] →
          ∀ visited after, machine.Trail rest.size visited after → after.stack.back? = some receiver) := by
  have verified := compileSource_verified compiled
  have sound := reached.sound (Machine.fresh_resting config) verified
  have depth (next : Nat) : (rest.push { frame with ip := next }).size = rest.size + 1 := Array.size_push _
  have goesOn {between : Machine State} {flow : Flow} (stepped : Exec.cycle machine = .ok flow between)
      (deep : rest.size + 1 < between.frames.size) (now : Float) :
      Sound ({ between with store := { between.store with now } } : Machine State) := by
    obtain ⟨_, _, -, -, yields⟩ := sound.cycle
    rw [Exec.Yields, stepped] at yields
    cases flow with
    | running => exact Sound.withTime yields.leaves now
    | halted =>
      rw [yields.leaves.frames] at deep
      cases deep
  refine ⟨fun owner cls about found => ⟨fun flow between stepped => ?_, fun visited after trail => ?_⟩,
    fun receiver about visited after trail => ?_, fun ref own isMethod => sound.keepsReceiver frames own isMethod⟩
  · obtain ⟨next, made⟩ := sound.instantiates frames about found stepped
    rw [made.heap]
    exact Heap.get?_push_self _ _
  · cases trail with
    | back stepped shallow =>
      obtain ⟨next, made⟩ := sound.instantiates frames about found stepped
      rcases made.goesOn with ⟨-, top⟩ | entered
      · exact ⟨top, ∅, by rw [made.heap]; exact Heap.get?_push_self _ _⟩
      · exact absurd (depth next ▸ entered.deeper) (Nat.not_lt.mpr shallow)
    | @on _ between _ _ _ stepped deep now further =>
      obtain ⟨next, made⟩ := sound.instantiates frames about found stepped
      have new : between.heap.get? machine.heap.size = some (.instance ⟨owner, ∅⟩) := by
        rw [made.heap]
        exact Heap.get?_push_self _ _
      have sound := goesOn stepped deep now
      obtain ⟨_, lives, becomes⟩ := sound.evolves further _ _ new
      rcases made.goesOn with ⟨same, -⟩ | entered
      · rw [same, depth] at deep
        exact absurd deep (Nat.lt_irrefl _)
      · refine ⟨sound.entered_returns entered (by simp) (depth next ▸ further), ?_⟩
        cases becomes with
        | refl => exact ⟨∅, lives⟩
        | «instance» _ inst same =>
          obtain ⟨_, fields⟩ := inst
          cases same
          exact ⟨fields, lives⟩
  · cases trail with
    | back stepped shallow =>
      obtain ⟨next, entered⟩ := sound.invokes frames about stepped
      exact absurd (depth next ▸ entered.deeper) (Nat.not_lt.mpr shallow)
    | on stepped deep now further =>
      obtain ⟨next, entered⟩ := sound.invokes frames about stepped
      exact (goesOn stepped deep now).entered_returns entered (by simp) (depth next ▸ further)

/-- An initializer that hands its receiver to a nested function and returns early: the call of the class leaves the instance. -/
theorem class_call_yields_instance_early_return :
    let machine := ((.fresh {} : Machine Unit).interpretSource 8
      "class A { init() { fun f() { return this; } f(); return; } } print A();").2
    machine.frames.size = 1 ∧ machine.heap.size = 5 ∧
      ∀ visited after, machine.Trail 1 visited after →
        after.stack.back? = some (.object 5) ∧ ∃ fields, after.heap.get? 5 = some (.instance ⟨2, fields⟩) := by
  intro machine
  obtain ⟨script, compiled⟩ := @exists_script "class A { init() { fun f() { return this; } f(); return; } } print A();"
    (by decide +kernel)
  have runs : ((.fresh {} : Machine Unit).interpretSource 8
      "class A { init() { fun f() { return this; } f(); return; } } print A();").1.result? = some (.ok .running) := by
    decide +kernel
  have depth : machine.frames.size = 1 := by decide +kernel
  have objects : machine.heap.size = 5 := by decide +kernel
  have height : machine.stack.size = 2 := by decide +kernel
  have top : machine.stack[1]? = some (.object 2) := by decide +kernel
  have made : (machine.heap.fetchClass 2).toOption.isSome = true := by decide +kernel
  have code : (machine.frames.back?.map fun frame =>
      (frame.function.chunk.code[frame.ip]?, frame.function.chunk.code[frame.ip + 1]?)) =
        some (some Opcode.call.toByte, some 0) := by decide +kernel
  have reached : Reached script (.fresh {}) machine := by
    change Reached script (.fresh {}) ((.fresh {} : Machine Unit).interpretSource 8 _).2
    rw [Machine.interpretSource_eq compiled] at runs ⊢
    exact Reached.of_running (Machine.outcomeOf_ok runs)
  obtain ⟨frame, innermost, code⟩ := Option.map_eq_some_iff.mp code
  obtain ⟨rest, frames⟩ := Array.back?_eq_some_iff.mp innermost
  obtain ⟨op_at, count⟩ := Prod.mk.inj code
  obtain ⟨cls, fetched⟩ : ∃ cls, machine.heap.fetchClass 2 = .ok cls := by
    cases found : machine.heap.fetchClass 2 with
    | ok cls => exact ⟨cls, rfl⟩
    | error error =>
      rw [found] at made
      cases made
  have single : rest.size + 1 = 1 := (Array.size_push _).symm.trans ((congrArg Array.size frames).symm.trans depth)
  have calls := (class_call_yields_instance compiled {} reached frames).1 2 cls
    (.call op_at count ⟨1, height.symm, top⟩) (Heap.get?_of_fetchClass fetched)
  rw [single, objects] at calls
  exact ⟨depth, objects, calls.2⟩

end StackScript
