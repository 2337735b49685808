import StackScript.Proofs.Sessions

/-!
The protocol of calls. A call takes the callee and its arguments off the stack and leaves one value in their place, however
many frames come and go in between. Those frames lie above the place of the callee, and nothing below it changes, unless a
captured variable is assigned to while it still lives there.
-/

namespace StackScript

variable {State α : Type} {classes : Ref → Option Class} {frozen : Frozen} {machine between after : Machine State}
  {rest outer : Array Frame} {frame : Frame} {below own : List Value} {slot argc next extra : Nat}

/-- The frame is in front of a call of so many arguments, with `extra` values on top of them. The instruction that follows
is at `next`. -/
inductive Frame.InCall (frame : Frame) : (argc next extra : Nat) → Prop where
  | call {argc : UInt8} (op_at : frame.function.chunk.OpAt frame.ip .call)
      (count : frame.function.chunk.code[frame.ip + 1]? = some argc) : frame.InCall argc.toNat (frame.ip + 2) 0
  | invoke {argc : UInt8} (op_at : frame.function.chunk.OpAt frame.ip .invoke)
      (count : frame.function.chunk.code[frame.ip + 3]? = some argc) : frame.InCall argc.toNat (frame.ip + 4) 0
  | superInvoke {argc : UInt8} (op_at : frame.function.chunk.OpAt frame.ip .superInvoke)
      (count : frame.function.chunk.code[frame.ip + 3]? = some argc) : frame.InCall argc.toNat (frame.ip + 4) 1

/-- A run from a machine through the ones listed, which all have more than `depth` frames apart from the first, to one with
no more than `depth` frames. Time may pass between the steps. -/
inductive Machine.Trail (depth : Nat) : Machine State → List (Machine State) → Machine State → Prop where
  | back {machine after : Machine State} {flow : Flow} (stepped : Exec.cycle machine = .ok flow after)
      (shallow : after.frames.size ≤ depth) : Trail depth machine [machine] after
  | on {machine between after : Machine State} {flow : Flow} {visited : List (Machine State)}
      (stepped : Exec.cycle machine = .ok flow between) (deep : depth < between.frames.size) (now : Float)
      (further : Trail depth { between with store := { between.store with now } } visited after) :
      Trail depth machine (machine :: visited) after

/-- The slots below a height are the same, apart from those that are assigned to through an upvalue. -/
def Machine.KeepsBelow (machine after : Machine State) (floor : Nat) : Prop :=
  ∀ slot < floor, ¬machine.Assigns slot → after.stack[slot]? = machine.stack[slot]?

/-- The frames of a call that started at a slot, above the frames that were there before. -/
inductive Above (outer : Array Frame) (floor : Nat) : Array Frame → Prop where
  | first {frame : Frame} (base : frame.base = floor) : Above outer floor (outer.push frame)
  | inner {rest : Array Frame} {frame : Frame} (above : Above outer floor rest) (base : floor ≤ frame.base) :
      Above outer floor (rest.push frame)

section Above

variable {floor : Nat} {frames : Array Frame}

theorem Above.deeper (above : Above outer floor frames) : outer.size < frames.size := by
  induction above with
  | first _ => simp
  | inner _ _ ih =>
    rw [Array.size_push]
    omega

theorem Above.base_le (above : Above outer floor (rest.push frame)) : floor ≤ frame.base := by
  generalize same : rest.push frame = frames at above
  cases above with
  | first base =>
    rw [(Array.push_eq_push.mp same).1]
    exact Nat.le_of_eq base.symm
  | inner _ base =>
    rw [(Array.push_eq_push.mp same).1]
    exact base

theorem Above.move (above : Above outer floor (rest.push frame)) (ip : Nat) :
    Above outer floor (rest.push { frame with ip }) := by
  generalize same : rest.push frame = frames at above
  cases above with
  | first base =>
    obtain ⟨rfl, rfl⟩ := Array.push_eq_push.mp same
    exact .first base
  | inner above base =>
    obtain ⟨rfl, rfl⟩ := Array.push_eq_push.mp same
    exact .inner above base

theorem Above.left (above : Above outer floor (rest.push frame)) :
    (rest = outer ∧ frame.base = floor) ∨ Above outer floor rest := by
  generalize same : rest.push frame = frames at above
  cases above with
  | first base =>
    obtain ⟨rfl, rfl⟩ := Array.push_eq_push.mp same
    exact .inl ⟨rfl, base⟩
  | inner above _ =>
    obtain ⟨rfl, rfl⟩ := Array.push_eq_push.mp same
    exact .inr above

end Above

theorem Machine.Stacks.getElem? (stacked : machine.Stacks (below ++ own))
    (inside : slot < below.length) : machine.stack[slot]? = below[slot]? := by
  unfold Machine.Stacks at stacked
  rw [stacked, List.getElem?_toArray, List.getElem?_append_left inside]

theorem Machine.Stacks.keeps {own' : List Value} (stacked : machine.Stacks (below ++ own))
    (stacked' : after.Stacks (below ++ own')) : machine.KeepsBelow after below.length :=
  fun _ inside _ => (stacked'.getElem? inside).trans (stacked.getElem? inside).symm

theorem Machine.KeepsBelow.lower {low high : Nat} (keeps : machine.KeepsBelow after high) (lower : low ≤ high) :
    machine.KeepsBelow after low :=
  fun slot inside => keeps slot (Nat.lt_of_lt_of_le inside lower)

theorem Machine.trace_assigns (assigns : (machine.trace frame).Assigns slot) : machine.Assigns slot := by
  obtain ⟨events, traced⟩ := machine.trace_eq frame
  rw [traced] at assigns
  exact ⟨assigns.captured⟩

theorem Guides.above {shape : Shape} {floor : Nat} {flow : Flow} (guides : Guides classes rest frame shape machine)
    (sane : machine.Sane ⟨classes, none⟩) (above : Above outer floor machine.frames) (grounded : outer ≠ #[]) (stepped : Exec.cycle machine = .ok flow after) :
    machine.KeepsBelow after floor ∧
      (Above outer floor after.frames ∨
        after.frames = outer ∧ after.stack.size = floor + 1 ∧ after.stack.back? = machine.stack.back?) := by
  obtain ⟨below, own, stacked, base, upholds⟩ := guides.cycle sane
  obtain ⟨-, moves⟩ := upholds.of_ok stepped
  rw [guides.frames] at above
  have lower : floor ≤ below.length := base ▸ above.base_le
  have beside := sane.trace frame
  cases moves with
  | proceeds guided proceeds =>
    cases proceeds with
    | on _ _ frames stacked' _ =>
      refine ⟨(stacked.keeps stacked').lower lower, .inl ?_⟩
      rw [frames]
      exact above.move _
    | writes _ _ frames assigns others _ _ _ =>
      refine ⟨fun slot inside free => ?_, .inl ?_⟩
      · rw [others slot, beside.stack]
        rintro rfl
        exact free (Machine.trace_assigns assigns)
      · rw [frames]
        exact above.move _
    | @calls ip kept low own' _ _ _ _ _ _ _ _ frames stacked' _ =>
      rw [List.append_assoc] at stacked'
      refine ⟨(stacked.keeps stacked').lower lower, .inl ?_⟩
      rw [frames]
      exact .inner (above.move _) (Nat.le_add_right_of_le lower)
  | returns _ frames top stacked' =>
    refine ⟨(stacked.keeps stacked').lower lower, ?_⟩
    rcases above.left with ⟨rfl, first⟩ | above
    · have result : after.stack.back? = machine.stack.back? := by
        rw [← beside.stack, top]
        unfold Machine.Stacks at stacked'
        simp [stacked']
      refine .inr ⟨frames, ?_, result⟩
      rw [stacked'.size, List.length_append, base, first, List.length_singleton]
    · exact .inl (frames ▸ above)
  | halts last _ _ =>
    -- the frames of the caller are still there
    rcases above.left with ⟨rfl, -⟩ | above
    · exact absurd last grounded
    · rw [last] at above
      have deeper := above.deeper
      simp at deeper

theorem Machine.Trail.inside {floor : Nat} {visited : List (Machine State)}
    (trail : machine.Trail outer.size visited after) (sane : machine.Sane ⟨classes, none⟩) (conducted : Conducted classes machine)
    (above : Above outer floor machine.frames) (grounded : outer ≠ #[]) :
    after.frames = outer ∧ after.stack.size = floor + 1 ∧
      (∃ last, visited.getLast? = some last ∧ after.stack.back? = last.stack.back?) ∧
      ∀ slot < floor, (∀ visit ∈ visited, ¬visit.Assigns slot) → after.stack[slot]? = machine.stack[slot]? := by
  have guided {machine : Machine State} (conducted : Conducted classes machine) (above : Above outer floor machine.frames) :
      ∃ rest frame shape, Guides classes rest frame shape machine := by
    rcases conducted with idle | guided
    · have deeper := above.deeper
      rw [idle] at deeper
      cases deeper
    · exact guided
  induction trail with
  | @back machine after flow stepped shallow =>
    obtain ⟨rest, frame, shape, guides⟩ := guided conducted above
    obtain ⟨keeps, above | ⟨frames, height, result⟩⟩ := guides.above sane above grounded stepped
    · exact absurd above.deeper (Nat.not_lt.mpr shallow)
    · refine ⟨frames, height, ⟨machine, rfl, result⟩, fun slot inside free => ?_⟩
      exact keeps slot inside (free machine List.mem_cons_self)
  | @on machine between after flow visited stepped deep now further ih =>
    obtain ⟨rest, frame, shape, guides⟩ := guided conducted above
    obtain ⟨keeps, above | ⟨frames, -, -⟩⟩ := guides.above sane above grounded stepped
    · obtain ⟨leads, conducted⟩ := (conducted.cycle sane).of_ok stepped
      have ticks := leads.sane.tick now
      obtain ⟨frames, height, ⟨last, ends, result⟩, kept⟩ := ih ticks.leads.sane (conducted.aside ticks) above
      refine ⟨frames, height, ⟨last, ?_, result⟩, fun slot inside free => ?_⟩
      · rw [List.getLast?_cons, ends]
        rfl
      · have later := kept slot inside fun visit member => free visit (List.mem_cons_of_mem _ member)
        exact later.trans (keeps slot inside (free machine List.mem_cons_self))
    · rw [frames] at deep
      exact absurd deep (Nat.lt_irrefl _)

namespace Exec

theorem peek_short {distance : Nat} (short : machine.stack.size ≤ distance) :
    peek distance machine = .error (.unplaced .stackUnderflow) machine := by
  have none : slotBelow distance machine = .error (.unplaced .stackUnderflow) machine := by
    simp only [slotBelow, if_neg (Nat.not_lt.mpr short)]
  exact bind_error none

theorem callFunction_short {function : Proto} {closure : Option Ref} {argc : Nat} {span : Span} (short : machine.stack.size ≤ argc) :
    ∃ error, callFunction function closure argc span machine = .error error machine := by
  by_cases count : argc = function.arity
  · by_cases full : machine.frames.size ≥ machine.config.maxFrames
    · exact ⟨_, count ▸ callFunction_full full⟩
    · refine ⟨.unplaced .stackUnderflow, ?_⟩
      have none : slotBelow argc machine = .error (.unplaced .stackUnderflow) machine := by
        simp only [slotBelow, if_neg (Nat.not_lt.mpr short)]
      simp only [callFunction, count, ne_eq, not_true_eq_false, if_false]
      refine (bind_eq rfl).trans ((bind_eq rfl).trans ?_)
      rw [if_neg full]
      exact bind_error (count ▸ none)
  · exact ⟨_, callFunction_arity count⟩

theorem readString_upholds {ip : Nat} (sane : machine.Sane frozen) :
    readString.Upholds frozen (machine.inFrame rest frame ip) fun _ after => after = machine.inFrame rest frame (ip + 2) := by
  cases operand : frame.function.chunk.operand? ip with
  | none =>
    refine .bind ?_ fun _ _ _ unread => False.elim unread
    refine .looking frame_inFrame ?_
    simp only [operand]
    exact .fail (sane.inFrame _ _ _).sane
  | some entry =>
    refine .operand sane operand (.looking frame_inFrame ?_)
    cases named : frame.function.chunk.string? entry with
    | none => exact .fail (sane.inFrame _ _ _).sane
    | some text => exact .done rfl (.refl (sane.inFrame _ _ _).sane) rfl

theorem split_stack {values : List Value} (inside : argc < values.length) :
    ∃ below callee args, values = below ++ callee :: args ∧ args.length = argc := by
  have high : 0 < (values.drop (values.length - (argc + 1))).length := by
    rw [List.length_drop]
    omega
  obtain ⟨callee, args, cut⟩ := List.exists_cons_of_length_pos high
  refine ⟨values.take (values.length - (argc + 1)), callee, args, ?_, ?_⟩
  · rw [← cut, List.take_append_drop]
  · have length := congrArg List.length cut
    rw [List.length_drop, List.length_cons] at length
    omega

theorem invokeFromClass_short {cls : Ref} {name : String} {span : Span} {post : Unit → Machine State → Prop}
    (sane : machine.Sane frozen) (short : machine.stack.size ≤ argc) :
    (invokeFromClass cls name argc span).Upholds frozen machine post := by
  refine .look sane fun found fetched => ?_
  cases entry : found.methods[name]? with
  | none => exact .fail sane
  | some method =>
    obtain ⟨ref, closure, rfl, found_at⟩ := (sane.heap cls _ (Heap.get?_of_fetchClass fetched)).1 name method entry
    obtain ⟨error, fails⟩ := @callFunction_short _ machine closure.function (some ref) argc span short
    exact .failed ((bind_eq rfl).trans ((callWithin_closure found_at).trans fails)) (.refl sane)

end Exec

open Exec

/-- The effect of a call on the stack: the callee and its arguments are replaced by the result, or the frame of the callee
starts there. -/
def CallMade (machine : Machine State) (rest : Array Frame) (frame : Frame) (argc next extra : Nat) (after : Machine State) :
    Prop :=
  ∃ below callee args above, machine.Stacks (below ++ callee :: args ++ above) ∧ args.length = argc ∧
    above.length = extra ∧ Calls (machine.inFrame rest frame next) below after

theorem perform_called {op : Opcode} (sane : machine.Sane frozen) (inCall : frame.InCall argc next extra)
    (op_at : frame.function.chunk.OpAt frame.ip op) (span : Span) :
    (perform op span).Upholds frozen (machine.inFrame rest frame (frame.ip + 1)) fun _ =>
      CallMade machine rest frame argc next extra := by
  have stacked : machine.Stacks machine.stack.toList := machine.stacks_toList
  have moved := sane.inFrame rest frame next
  cases inCall with
  | @call argc op_at' count =>
    cases op_at.unique op_at'
    refine .byte sane count ?_
    by_cases inside : argc.toNat < machine.stack.size
    · obtain ⟨below, callee, args, values, count⟩ := split_stack inside
      rw [values] at stacked
      have placed := stacked.inFrame rest frame (frame.ip + 2)
      rw [← count]
      refine .looking (peek_stacks placed) ((callValue_upholds moved.sane placed callee span).mono fun _ _ _ calls => ?_)
      exact ⟨below, callee, args, [], by simpa using stacked, rfl, rfl, calls⟩
    · exact .after_error (peek_short (Nat.not_lt.mp inside)) (.refl moved.sane)
  | @invoke argc op_at' count =>
    cases op_at.unique op_at'
    refine .bind (readString_upholds sane) fun name _ _ read => read ▸ .byte sane count ?_
    by_cases inside : argc.toNat < machine.stack.size
    · obtain ⟨below, callee, args, values, count⟩ := split_stack inside
      rw [values] at stacked
      have placed := stacked.inFrame rest frame (frame.ip + 4)
      rw [← count]
      refine (invoke_upholds moved.sane placed name span).mono fun _ _ _ calls => ?_
      exact ⟨below, callee, args, [], by simpa using stacked, rfl, rfl, calls⟩
    · exact .after_error (peek_short (Nat.not_lt.mp inside)) (.refl moved.sane)
  | @superInvoke argc op_at' count =>
    cases op_at.unique op_at'
    refine .bind (readString_upholds sane) fun name _ _ read => read ▸ .byte sane count ?_
    rcases List.eq_nil_or_concat' machine.stack.toList with empty | ⟨upper, superclass, values⟩
    · have none : pop (machine.inFrame rest frame (frame.ip + 4)) =
          .error (.unplaced .stackUnderflow) (machine.inFrame rest frame (frame.ip + 4)) := by
        simp [pop, Machine.inFrame, Array.toList_eq_nil_iff.mp empty]
      exact .after_error (bind_error none) (.refl moved.sane)
    rw [values] at stacked
    have placed := stacked.inFrame rest frame (frame.ip + 4)
    refine .bind (popClass_upholds moved.sane placed span) fun cls popped leads lays => ?_
    by_cases inside : argc.toNat < upper.length
    · obtain ⟨below, callee, args, rfl, count⟩ := split_stack inside
      rw [← count]
      refine (invokeFromClass_upholds leads.sane lays.2 cls name span).mono fun _ _ _ calls => ?_
      exact ⟨below, callee, args, [superclass], stacked, rfl, rfl, calls.of_leads leads lays.1⟩
    · refine invokeFromClass_short leads.sane ?_
      rw [lays.2.size]
      exact Nat.not_lt.mp inside

theorem step_called (sane : machine.Sane frozen) (frames : machine.frames = rest.push frame)
    (inCall : frame.InCall argc next extra) (span : Span) :
    (step span).Upholds frozen machine fun _ => CallMade machine rest frame argc next extra := by
  have op : ∃ op, frame.function.chunk.OpAt frame.ip op ∧ op ≠ .return := by
    cases inCall with
    | call op_at _ | invoke op_at _ | superInvoke op_at _ => exact ⟨_, op_at, Opcode.noConfusion⟩
  obtain ⟨op, op_at, other⟩ := op
  exact .step_perform frames op_at other (Upholds.from_ (sane.inFrame _ _ _) (perform_called sane inCall op_at span))

theorem Machine.Sane.called (sane : machine.Sane ⟨classes, none⟩) (frames : machine.frames = rest.push frame)
    (inCall : frame.InCall argc next extra) :
    Exec.cycle.Upholds ⟨classes, none⟩ machine fun _ => CallMade machine rest frame argc next extra := by
  have traced := sane.trace frame
  have leads := traced.leads
  refine .looking (frame_eq (by rw [frames, Array.back?_push])) (.after_ok rfl leads (anchoring_upholds ?_ _))
  refine (step_called leads.sane (traced.frames.trans frames) inCall _).mono fun _ after _ made => ?_
  -- that the instruction was traced has changed neither stack
  obtain ⟨below, callee, args, above, stacked, count, extras, calls⟩ := made
  have moved : Machine.Leads ⟨classes, none⟩ (machine.inFrame rest frame next) ((machine.trace frame).inFrame rest frame next) :=
    ⟨leads.evolves, (leads.sane.inFrame _ _ _).sane, leads.config⟩
  exact ⟨below, callee, args, above, traced.stack.symm.trans stacked, count, extras, calls.of_leads moved rfl⟩

/-- The caller goes on behind a call: the callee and its arguments have been replaced by one value, which is what the callee
had on top when it returned, or was found at once. The slots below are the same, apart from those that were assigned to. -/
structure Machine.Resumes (machine : Machine State) (rest : Array Frame) (frame : Frame) (argc next extra : Nat)
    (visited : List (Machine State)) (after : Machine State) : Prop where
  frames : after.frames = rest.push { frame with ip := next }
  height : after.stack.size + argc + extra = machine.stack.size
  result : 0 < after.stack.size ∧
    (visited = [machine] ∨ ∃ last, visited.getLast? = some last ∧ after.stack.back? = last.stack.back?)
  below : ∀ slot, slot + 1 < after.stack.size → (∀ visit ∈ visited, ¬visit.Assigns slot) →
    after.stack[slot]? = machine.stack[slot]?

/-- In every state of a session there are at most as many frames as the configuration allows. Where a frame makes a call and
goes on later, it does so behind the call, with the result in the place of the callee. -/
theorem calls_return_in_place (session : Session machine) :
    machine.frames.size ≤ machine.config.maxFrames ∧
    ∀ (rest : Array Frame) (frame : Frame) (argc next extra : Nat) (visited : List (Machine State)) (after : Machine State),
      machine.frames = rest.push frame → frame.InCall argc next extra → machine.Trail (rest.size + 1) visited after →
        machine.Resumes rest frame argc next extra visited after := by
  obtain ⟨sane, conducted⟩ := session.sane
  constructor
  · rcases conducted with idle | ⟨rest, frame, shape, guides⟩
    · simp [idle]
    · rw [guides.frames, Array.size_push]
      exact guides.room
  · intro rest frame argc next extra visited after frames inCall trail
    have called := sane.called frames inCall
    cases trail with
    | back stepped shallow =>
      obtain ⟨-, below, callee, args, above, stacked, rfl, rfl, calls⟩ := called.of_ok stepped
      cases calls with
      | @returned result same stacked' =>
        rw [List.append_assoc] at stacked
        have height := stacked.size
        have height' := stacked'.size
        simp only [List.length_append, List.length_cons, List.length_nil] at height height'
        refine ⟨same, by omega, ⟨by omega, .inl rfl⟩, fun slot inside _ => ?_⟩
        rw [stacked'.getElem? (by omega), stacked.getElem? (by omega)]
      | entered _ _ _ same _ =>
        rw [same, Array.size_push] at shallow
        exact absurd shallow (Nat.not_le.mpr (by simp [Machine.inFrame]))
    | @on _ between _ _ visited stepped deep now further =>
      obtain ⟨leads, below, callee, args, above, stacked, rfl, rfl, calls⟩ := called.of_ok stepped
      cases calls with
      | returned same _ =>
        rw [same] at deep
        exact absurd deep (by simp [Machine.inFrame])
      | @entered function closure own _ _ _ same stacked' =>
        rw [List.append_assoc] at stacked
        have conducted' := ((conducted.cycle sane).of_ok stepped).2
        have ticks := leads.sane.tick now
        have above' : Above (rest.push { frame with ip := next }) below.length between.frames := same ▸ .first rfl
        have depth : (rest.push { frame with ip := next }).size = rest.size + 1 := Array.size_push _
        rw [← depth] at further
        obtain ⟨frames, height, result, kept⟩ :=
          further.inside ticks.leads.sane (conducted'.aside ticks) above' (by simp)
        have height' := stacked.size
        simp only [List.length_append, List.length_cons] at height'
        refine ⟨frames, by omega, ⟨by omega, .inr ?_⟩, fun slot inside free => ?_⟩
        · obtain ⟨last, ends, result⟩ := result
          refine ⟨last, ?_, result⟩
          rw [List.getLast?_cons, ends]
          rfl
        · have later := kept slot (by omega) fun visit member => free visit (List.mem_cons_of_mem _ member)
          rw [later]
          exact (stacked'.getElem? (by omega)).trans (stacked.getElem? (by omega)).symm

/-- In front of the call of a function of two parameters: where the script goes on, the result lies on top of it alone. -/
theorem calls_return_in_place_two_arguments :
    let machine := ((.fresh {} : Machine Unit).interpretSource 6 "fun f(a, b) { return a; } print f(1, 2);").2
    machine.frames.size = 1 ∧ machine.stack.size = 4 ∧
      ∀ visited after, machine.Trail 1 visited after → after.frames.size = 1 ∧ after.stack.size = 2 := by
  intro machine
  have session : Session machine := (Session.fresh {}).interpretSource _ _
  have depth : machine.frames.size = 1 := by decide +kernel
  have height : machine.stack.size = 4 := by decide +kernel
  have code : (machine.frames.back?.map fun frame =>
      (frame.function.chunk.code[frame.ip]?, frame.function.chunk.code[frame.ip + 1]?)) =
        some (some Opcode.call.toByte, some 2) := by decide +kernel
  refine ⟨depth, height, fun visited after trail => ?_⟩
  obtain ⟨frame, innermost, code⟩ := Option.map_eq_some_iff.mp code
  obtain ⟨rest, frames⟩ := Array.back?_eq_some_iff.mp innermost
  rw [frames, Array.size_push] at depth
  obtain ⟨op_at, count⟩ := Prod.mk.inj code
  rw [← depth] at trail
  have resumes := (calls_return_in_place session).2 rest frame _ _ _ visited after frames (.call op_at count) trail
  refine ⟨?_, ?_⟩
  · rw [resumes.frames, Array.size_push, depth]
  · have same := resumes.height
    rw [height] at same
    exact Nat.add_right_cancel same

end StackScript
