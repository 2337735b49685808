import StackScript.Proofs.CallTyping

/-!
Runs of verified code. In front of every instruction of a sound machine the operands, the slots and the captured
variables that it needs are there; an instruction leads to a sound machine again, halts the machine, or raises one of the
faults that a script can be to blame for.
-/

namespace StackScript

variable {State : Type} {ledger : Ledger} {rest : Array Frame} {frame : Frame} {below kept layout : List Slot}
  {call : Activation} {calls : List Activation} {known : Option String} {machine after : Machine State} {here : Nat}
  {reach : Points} {shapes : Shapes} {flow : Flow} {heap : Heap} {value : Value}

def Opcode.closes : Opcode → Bool
  | .closeUpvalue | .return => true
  | _ => false

/-- What the shape of an instruction promises. -/
inductive Handled (ledger : Ledger) (rest : Array Frame) (frame : Frame) (below : List Slot) (manner : Manner) (reach : Points)
    (machine : Machine State) (here : Nat) (shape : Shape) : Opcode → Prop where
  | performs {op : Opcode} (performs : Performs ledger rest frame below reach machine here op) (other : op.closes = false) :
      Handled ledger rest frame below manner reach machine here shape op
  | closes {kept : List Slot} {slot : Slot} (slots : shape.slots = kept ++ [slot]) (goes : reach (here + 1) ⟨kept, shape.known⟩) :
      Handled ledger rest frame below manner reach machine here shape .closeUpvalue
  | returns {kept : List Slot} {content : Content} (slots : shape.slots = kept ++ [⟨content, false⟩])
      (returns : manner.Returns kept content) : Handled ledger rest frame below manner reach machine here shape .return

theorem Accepts.performs {next : Nat} {shape : Shape}
    (accepted : Accepts (.within frame.function call.manner call.upvalues) reach here next shape) (rest : Array Frame)
    (ok : frame.Ok ledger machine.heap call shapes) (base : frame.base = below.length)
    (outer : Shape.Settled ⟨below, none⟩) (typed : Typed ledger (below ++ shape.slots) shape.known machine) :
    ∃ op, frame.function.chunk.OpAt here op ∧ Handled ledger rest frame below call.manner reach machine here shape op := by
  cases accepted with
  | @literal _ op isLiteral op_at goes =>
    exact ⟨op, op_at, .performs (.literal typed isLiteral goes) (by cases op <;> first | rfl | cases isLiteral)⟩
  | constant op_at operand found goes => exact ⟨_, op_at, .performs (.constant typed operand found goes) rfl⟩
  | string op_at operand found goes => exact ⟨_, op_at, .performs (.string typed ⟨_, operand, found.reads⟩ goes) rfl⟩
  | function op_at operand found _ goes => exact ⟨_, op_at, .performs (.function typed operand found goes) rfl⟩
  | closure made_at _ captured closes made goes =>
    exact ⟨_, made_at.op_at,
      .performs (.closure base ok made_at.count made_at.inline captured closes.2 made typed goes) rfl⟩
  | pop op_at free _ goes => exact ⟨_, op_at, .performs (.pop typed free goes) rfl⟩
  | closeUpvalue op_at _ goes => exact ⟨_, op_at, .closes rfl goes⟩
  | getLocal op_at operand found copies goes =>
    exact ⟨_, op_at, .performs (.getLocal typed operand base found copies goes) rfl⟩
  | setLocal op_at operand found goes => exact ⟨_, op_at, .performs (.setLocal typed base operand found goes) rfl⟩
  | getGlobal op_at operand named holds goes =>
    exact ⟨_, op_at, .performs (.getGlobal typed ⟨_, operand, named.reads⟩ holds goes) rfl⟩
  | defineGlobal op_at operand named isValue learns _ goes =>
    exact ⟨_, op_at, .performs (.defineGlobal ⟨_, operand, named.reads⟩ isValue learns typed goes) rfl⟩
  | setGlobal op_at operand named goes => exact ⟨_, op_at, .performs (.setGlobal ⟨_, operand, named.reads⟩ typed goes) rfl⟩
  | getUpvalue op_at operand found goes => exact ⟨_, op_at, .performs (.getUpvalue typed operand ok found goes) rfl⟩
  | setUpvalue op_at operand found settled goes =>
    exact ⟨_, op_at, .performs (.setUpvalue typed ok operand found outer settled goes) rfl⟩
  | getProperty op_at operand named _ goes => exact ⟨_, op_at, .performs (.getProperty ⟨_, operand, named.reads⟩ typed goes) rfl⟩
  | setProperty op_at operand named _ goes => exact ⟨_, op_at, .performs (.setProperty ⟨_, operand, named.reads⟩ typed goes) rfl⟩
  | getSuper op_at operand named _ goes => exact ⟨_, op_at, .performs (.getSuper ⟨_, operand, named.reads⟩ typed goes) rfl⟩
  | @binary _ _ op isBinary op_at _ goes =>
    exact ⟨op, op_at, .performs (.binary typed isBinary goes) (by cases op <;> first | rfl | cases isBinary)⟩
  | @unary _ _ op isUnary op_at _ goes =>
    exact ⟨op, op_at, .performs (.unary typed isUnary goes) (by cases op <;> first | rfl | cases isUnary)⟩
  | print op_at _ goes => exact ⟨_, op_at, .performs (.print typed goes) rfl⟩
  | jump op_at operand goes => exact ⟨_, op_at, .performs (.jump typed operand goes) rfl⟩
  | jumpIfFalse op_at operand goes jumps => exact ⟨_, op_at, .performs (.jumpIfFalse operand typed goes jumps) rfl⟩
  | loop op_at operand back goes => exact ⟨_, op_at, .performs (.loop typed operand back goes) rfl⟩
  | call op_at operand settled _ goes => exact ⟨_, op_at, .performs (.call operand settled typed goes) rfl⟩
  | invoke op_at operand named count settled _ goes =>
    exact ⟨_, op_at, .performs (.invoke ⟨_, operand, named.reads⟩ count settled typed goes) rfl⟩
  | superInvoke op_at operand named count settled _ goes =>
    exact ⟨_, op_at, .performs (.superInvoke ⟨_, operand, named.reads⟩ count settled typed goes) rfl⟩
  | «return» op_at _ returns => exact ⟨_, op_at, .returns rfl returns⟩
  | newClass op_at operand named goes => exact ⟨_, op_at, .performs (.newClass typed ⟨_, operand, named.reads⟩ goes) rfl⟩
  | inherit op_at _ goes => exact ⟨_, op_at, .performs (.inherit typed goes) rfl⟩
  | method op_at operand named _ goes => exact ⟨_, op_at, .performs (.method ⟨_, operand, named.reads⟩ typed goes) rfl⟩

structure Resting (machine : Machine State) : Prop where
  frames : machine.frames = #[]
  typed : ∃ ledger, Typed ledger [] none machine

/-- Where a step ends that does not fail. -/
def Flow.Leaves (after : Machine State) : Flow → Prop
  | .running => Sound after
  | .halted => Resting after

/-- How a step changes the frames that are run. An initializer returns what it was called on. -/
inductive FrameShift (calls : List Activation) (after : Machine State) : Flow → Prop where
  | on (tracked : Tracked calls after) : FrameShift calls after .running
  | enters {callee : Activation} (tracked : Tracked (callee :: calls) after) : FrameShift calls after .running
  | returns {call : Activation} {outer : List Activation} {value : Value} (same : calls = call :: outer)
      (tracked : Tracked outer after) (top : after.stack.back? = some value)
      (own : call.manner = .initializer → value = call.callee) : FrameShift calls after .running
  | halts {call : Activation} (last : calls = [call]) (resting : Resting after) : FrameShift calls after .halted

theorem FrameShift.leaves (shift : FrameShift calls after flow) : flow.Leaves after := by
  cases shift with
  | on tracked | enters tracked | returns _ tracked => exact ⟨_, tracked⟩
  | halts _ resting => exact resting

def Heap.OpenBelow (heap : Heap) (height : Nat) : Prop :=
  ∀ ref index next, heap.get? ref = some (.upvalue ⟨.open index, next⟩) → index < height

theorem Heap.OpenBelow.mono {height height' : Nat} (lower : heap.OpenBelow height) (le : height ≤ height') :
    heap.OpenBelow height' :=
  fun ref index next found => Nat.lt_of_lt_of_le (lower ref index next found) le

theorem Rooted.openBelow (rooted : Rooted ledger layout known machine) : machine.heap.OpenBelow layout.length := by
  obtain ⟨entries, upvalues⟩ := rooted.upvalues
  exact fun ref index next found => upvalues.inside (upvalues.complete ref index next found)

/-- How low an instruction takes the stack before it puts anything there, from the height at which it is run. -/
def Opcode.lowest (op : Opcode) (frame : Frame) (height : Nat) : Nat :=
  match op with
  | .return => frame.base
  | .pop | .closeUpvalue | .print | .defineGlobal | .getProperty | .not | .negate | .closure | .inherit | .method
  | .superInvoke => height - 1
  | .setProperty | .getSuper | .equal | .greater | .less | .add | .subtract | .multiply | .divide => height - 2
  | .call => height - (argc 1 + 1)
  | .invoke => height - (argc 3 + 1)
  | _ => height
where
  /-- The number of arguments, which is found in the code. -/
  argc (distance : Nat) : Nat :=
    (frame.function.chunk.code[frame.ip + distance]?.getD 0).toNat

/-- What a step does to the machine. -/
structure Steps (op : Opcode) (frame : Frame) (before : Machine State) (flow : Flow) (after : Machine State) : Prop where
  evolves : before.heap.Evolves after.heap
  leaves : flow.Leaves after
  closes : op.closes = true → after.heap.OpenBelow (op.lowest frame before.stack.size)

theorem FrameShift.steps {op : Opcode} (shift : FrameShift calls after flow) (evolves : machine.heap.Evolves after.heap)
    (closes : op.closes = true → after.heap.OpenBelow (op.lowest frame machine.stack.size)) :
    Steps op frame machine flow after ∧ FrameShift calls after flow :=
  ⟨⟨evolves, shift.leaves, closes⟩, shift⟩

theorem Typed.resume (typed : Typed ledger below known machine) (outer : Suspended ledger machine.heap rest below calls)
    (frames : machine.frames = rest) (isValue : machine.heap.IsValue value) :
    (rest = #[] ∧ calls = [] ∧ Resting machine) ∨ rest ≠ #[] ∧ Tracked calls (machine.push value) := by
  have typed := typed.within (Shape.slots_within_refl _) (.inl rfl)
  cases outer with
  | nil => exact .inl ⟨rfl, rfl, frames, ledger, typed⟩
  | @push _ _ _ slots _ _ _ outer ok base settled waits =>
    refine .inr ⟨Array.push_ne_empty, ledger, _, _, _, ⟨slots ++ [.plain], none⟩, frames, outer, base, ⟨_, ok, waits⟩, ?_⟩
    exact (typed.pushValue isValue).join

theorem Manner.Returns.holds {manner : Manner} {content : Content} {callee : Value}
    (returns : manner.Returns kept content) (holds : content.Holds ledger heap value)
    (lowest : manner ≠ .function → Shape.HasReceiver ⟨kept ++ [⟨content, false⟩], known⟩ callee) :
    heap.IsValue value ∧ (manner = .initializer → value = callee) := by
  cases manner with
  | function | method =>
    cases returns
    exact ⟨holds, nofun⟩
  | initializer =>
    obtain ⟨held, isCaptured, own, rfl⟩ := returns
    obtain ⟨isCaptured', found⟩ := lowest nofun
    rw [List.getElem?_append_left (List.getElem?_eq_some_iff.mp own).1, own] at found
    cases found
    exact ⟨holds.2, fun _ => holds.1⟩

open Exec

theorem Typed.returns {content : Content} (typed : Typed ledger (below ++ (kept ++ [⟨content, false⟩])) known machine)
    (outer : Suspended ledger machine.heap rest below calls) (base : frame.base = below.length)
    (returns : call.manner.Returns kept content)
    (own : call.manner ≠ .function → Shape.HasReceiver ⟨kept ++ [⟨content, false⟩], known⟩ call.callee) :
    returnFromFrame.Yields (machine.inFrame rest frame (here + 1)) (Fails .return machine)
      fun flow after => Steps .return frame machine flow after ∧ FrameShift (call :: calls) after flow := by
  have typed : Typed ledger _ known (machine.inFrame rest frame (here + 1)) := typed.split.inFrame _
  obtain ⟨value, popped, holds, lower⟩ := typed.pop rfl
  obtain ⟨isValue, own⟩ := returns.holds holds own
  -- The frame is gone before its upvalues are closed and its slots are cut off.
  let returning : Machine State := { machine with stack := machine.stack.pop, frames := rest }
  have lower : Typed ledger (below ++ kept) known returning := lower.congr rfl rfl rfl rfl rfl
  obtain ⟨after, closed, keeps, cut⟩ := lower.closeAbove
  have evolves : machine.heap.Evolves after.heap := keeps.grows.evolves
  have isValue : after.heap.IsValue value := Heap.IsValue.mono isValue evolves
  have lowest : Typed ledger below known (after.truncate below.length) := by
    have size := lower.stack.size
    rw [List.length_append] at size
    refine cut _ ?_ fun i inside => ?_
    · rw [Array.size_shrink, keeps.stack, size]
      exact Nat.min_eq_left (Nat.le_add_right _ _)
    · rw [getElem?_shrink_of_lt inside, keeps.stack]
  have closes : after.heap.OpenBelow frame.base := base ▸ lowest.toRooted.openBelow
  have frames : (after.truncate below.length).frames = rest := keeps.frames
  have innermost : Exec.frame { machine.inFrame rest frame (here + 1) with stack := machine.stack.pop } =
      .ok { frame with ip := here + 1 } { machine.inFrame rest frame (here + 1) with stack := machine.stack.pop } :=
    frame_eq Array.back?_push
  have leave : update (fun machine => { machine with frames := machine.frames.pop })
      { machine.inFrame rest frame (here + 1) with stack := machine.stack.pop } = .ok () returning := by
    simp only [update, Machine.inFrame, Array.pop_push, returning]
  have closed : closeUpvalues frame.base returning = .ok () after := base ▸ closed
  have truncated : update (·.truncate frame.base) after = .ok () (after.truncate below.length) := base ▸ rfl
  refine .afterwards popped (.afterwards innermost (.afterwards leave (.afterwards closed (.afterwards truncated (.reading ?_)))))
  rcases lowest.resume (outer.mono keeps.grows) frames isValue with ⟨last, rfl, resting⟩ | ⟨waiting, tracked⟩
  · exact .ite_pos (by rw [frames, last]; rfl) (.of_ok rfl ((FrameShift.halts rfl resting).steps evolves fun _ => closes))
  · refine .ite_neg (by rw [frames]; simpa using waiting) (.of_ok rfl (FrameShift.steps ?_ evolves fun _ => closes))
    exact .returns rfl tracked Array.back?_push own

theorem Continues.evolves (continues : Continues ledger rest frame below reach machine after) :
    machine.heap.Evolves after.heap := by
  cases continues with
  | on _ grows | calls _ _ grows => exact grows.evolves

theorem Continues.shift (outer : Suspended ledger machine.heap rest below calls)
    (base : frame.base = below.length) (ok : frame.Ok ledger machine.heap call shapes)
    (continues : Continues ledger rest frame below (call.Reach shapes) machine after) : FrameShift (call :: calls) after .running := by
  rcases continues.tracked outer base ok with tracked | ⟨callee, tracked⟩
  · exact .on tracked
  · exact .enters tracked

theorem Tracked.step (tracked : Tracked calls machine) : ∃ frame op, machine.frames.back? = some frame ∧
    frame.function.chunk.OpAt frame.ip op ∧
    ∀ span, (Exec.step span).Yields machine (Fails op machine)
      fun flow after => Steps op frame machine flow after ∧ FrameShift calls after flow := by
  cases calls with
  | nil => exact tracked.elim
  | cons call calls =>
  obtain ⟨ledger, rest, frame, below, shape, poised⟩ := tracked
  obtain ⟨shapes, wider, next, ok, accepted, lowest, typed⟩ := poised.accepted
  obtain ⟨op, op_at, handled⟩ := accepted.performs rest ok poised.base poised.outer.settled typed
  refine ⟨frame, op, by rw [poised.frames, Array.back?_push], op_at, fun span => ?_⟩
  cases handled with
  | performs performs other =>
    have goesOn : op ≠ .return := by
      rintro rfl
      cases other
    refine .step_perform poised.frames op_at goesOn ((performs span).mono (fun _ _ => id) fun _ after continues => ?_)
    refine (continues.shift poised.outer poised.base ok).steps continues.evolves fun closes => ?_
    rw [other] at closes
    cases closes
  | @closes kept slot slots goes =>
    rw [slots] at typed
    have typed : Typed ledger _ wider.known (machine.inFrame rest frame (frame.ip + 1)) := typed.split.inFrame _
    refine .step_perform poised.frames op_at nofun ((typed.closeTop span).mono (fun _ _ => id) fun _ after reaches => ?_)
    have continues : Continues ledger rest frame below (call.Reach shapes) machine after :=
      .on goes (.of_evolves reaches.evolves) reaches.frames reaches.typed
    refine (continues.shift poised.outer poised.base ok).steps reaches.evolves fun _ => ?_
    have size : machine.stack.size = (below ++ kept ++ [slot]).length := typed.stack.size
    change after.heap.OpenBelow (machine.stack.size - 1)
    rw [size, List.length_append, List.length_singleton, Nat.add_sub_cancel]
    exact reaches.typed.toRooted.openBelow
  | returns slots returns =>
    obtain ⟨wider, known⟩ := wider
    cases slots
    rw [Yields, step_return poised.frames op_at]
    exact typed.returns poised.outer poised.base returns lowest

theorem Machine.trace_eq (frame : Frame) (machine : Machine State) :
    ∃ events, machine.trace frame = { machine with events } := by
  unfold Machine.trace Machine.report
  split
  · split
    · exact ⟨_, rfl⟩
    · exact ⟨_, rfl⟩
  · exact ⟨_, rfl⟩

theorem RuntimeError.anchored_fault (error : RuntimeError) (span : Span) : (error.anchored span).fault = error.fault := by
  unfold anchored
  split <;> rfl

theorem Tracked.congr (tracked : Tracked calls machine) (stack : after.stack = machine.stack)
    (heap : after.heap = machine.heap) (frames : after.frames = machine.frames) (globals : after.globals = machine.globals)
    (openUpvalues : after.openUpvalues = machine.openUpvalues) (natives : after.natives = machine.natives) :
    Tracked calls after := by
  cases calls with
  | nil => exact tracked
  | cons call calls =>
    obtain ⟨ledger, rest, frame, below, shape, poised⟩ := tracked
    exact ⟨ledger, rest, frame, below, shape, frames.trans poised.frames, heap ▸ poised.outer, poised.base, heap ▸ poised.ok,
      poised.typed.congr stack heap globals openUpvalues natives⟩

theorem Sound.withTime (sound : Sound machine) (now : Float) :
    Sound { machine with store := { machine.store with now } } := by
  obtain ⟨calls, tracked⟩ := sound
  exact ⟨calls, tracked.congr rfl rfl rfl rfl rfl rfl⟩

theorem Exec.Yields.anchoring {α : Type} {action : Exec State α} {fails : Fault → Machine State → Prop}
    {post : α → Machine State → Prop} (yields : action.Yields machine fails post) (span : Span) :
    (Exec.anchoring span action).Yields machine fails post := by
  unfold Yields Exec.anchoring at *
  cases done : action machine with
  | ok value after => simpa only [done] using yields
  | error error after => simpa only [done, RuntimeError.anchored_fault] using yields

theorem Exec.cycle_eq (innermost : machine.frames.back? = some frame) :
    ∃ events, Exec.cycle machine = anchoring (.onLine (frame.function.chunk.lineAt frame.ip))
      (step (.onLine (frame.function.chunk.lineAt frame.ip))) { machine with events } := by
  obtain ⟨events, traced⟩ := machine.trace_eq frame
  have traced : update (·.trace frame) machine = .ok () { machine with events } := by
    simp only [update, traced]
  exact ⟨events, (bind_eq (frame_eq innermost)).trans (bind_eq traced)⟩

theorem Exec.Yields.cycle {fails : Fault → Machine State → Prop} {post : Flow → Machine State → Prop}
    (innermost : machine.frames.back? = some frame)
    (steps : ∀ events span, (step span).Yields { machine with events } fails post) : Exec.cycle.Yields machine fails post := by
  obtain ⟨events, cycle_eq⟩ := cycle_eq innermost
  rw [Yields, cycle_eq]
  exact (steps events _).anchoring _

theorem Tracked.cycle (tracked : Tracked calls machine) : ∃ frame op, machine.frames.back? = some frame ∧
    frame.function.chunk.OpAt frame.ip op ∧
    Exec.cycle.Yields machine (Fails op machine)
      fun flow after => Steps op frame machine flow after ∧ FrameShift calls after flow := by
  obtain ⟨frame, op, innermost, op_at, -⟩ := tracked.step
  refine ⟨frame, op, innermost, op_at, .cycle innermost fun events span => ?_⟩
  have reported : Tracked calls { machine with events } := tracked.congr rfl rfl rfl rfl rfl rfl
  obtain ⟨frame', op', innermost', op_at', yields⟩ := reported.step
  -- tracing changed neither frames nor code: it is the same instruction
  cases innermost.symm.trans innermost'
  cases op_at.unique op_at'
  exact (yields span).mono (fun _ _ => id) fun _ _ done => done.2.steps done.1.evolves done.1.closes

theorem Sound.cycle (sound : Sound machine) : ∃ frame op, machine.frames.back? = some frame ∧
    frame.function.chunk.OpAt frame.ip op ∧
    Exec.cycle.Yields machine (Fails op machine) fun flow after => Steps op frame machine flow after := by
  obtain ⟨calls, tracked⟩ := sound
  obtain ⟨frame, op, innermost, op_at, yields⟩ := tracked.cycle
  exact ⟨frame, op, innermost, op_at, yields.mono (fun _ _ => id) fun _ _ => And.left⟩

end StackScript
