import StackScript.Proofs.InstructionTyping

/-!
The instructions on captured variables: making a closure captures slots or hands captured variables on, and the end of a
scope closes upvalues.
-/

namespace StackScript

variable {State : Type} {ledger : Ledger} {rest : Array Frame} {frame : Frame} {below kept layout : List Slot}
  {known : Option String} {reach : Points} {machine : Machine State} {here : Nat}
variable {call : Activation} {shapes : Shapes} {upvalues : List Role}

theorem Machine.inFrame_self {ip : Nat} (frames : machine.frames = rest.push { frame with ip }) :
    machine.inFrame rest frame ip = machine := by
  rw [Machine.inFrame, ← frames]

namespace Exec

theorem step_return (frames : machine.frames = rest.push frame) (op_at : frame.function.chunk.OpAt frame.ip .return) (span : Span) :
    step span machine = returnFromFrame (machine.inFrame rest frame (frame.ip + 1)) := by
  rw [← Machine.inFrame_self frames]
  refine (bind_eq (readByte_inFrame op_at)).trans ?_
  rw [Opcode.ofByte?_toByte]
  rfl

theorem step_perform {op : Opcode} (frames : machine.frames = rest.push frame) (op_at : frame.function.chunk.OpAt frame.ip op)
    (other : op ≠ .return) (span : Span) : step span machine =
      (do perform op span; return .running : Exec State Flow) (machine.inFrame rest frame (frame.ip + 1)) := by
  rw [← Machine.inFrame_self frames]
  refine (bind_eq (readByte_inFrame op_at)).trans ?_
  rw [Opcode.ofByte?_toByte]
  cases op with
  | «return» => exact absurd rfl other
  | _ => rfl

theorem Yields.step_perform {op : Opcode} {span : Span} {fails : Fault → Machine State → Prop} {post : Flow → Machine State → Prop}
    (frames : machine.frames = rest.push frame) (op_at : frame.function.chunk.OpAt frame.ip op) (other : op ≠ .return)
    (performs : (perform op span).Yields (machine.inFrame rest frame (frame.ip + 1)) fails fun _ => post .running) :
    (step span).Yields machine fails post := by
  rw [Yields, Exec.step_perform frames op_at other]
  exact Yields.bind (performs.mono (fun _ _ => id) fun _ _ holds => .of_ok rfl holds)

end Exec

theorem Typed.closeAbove {above : List Slot} (typed : Typed ledger (layout ++ above) known machine) :
    ∃ after, Exec.closeUpvalues layout.length machine = .ok () after ∧ Keeps ledger machine ledger after ∧
      ∀ lower : Array Value, lower.size = layout.length → (∀ i < layout.length, lower[i]? = machine.stack[i]?) →
        Typed ledger layout known { after with stack := lower } := by
  obtain ⟨after, done, keeps, rooted⟩ := typed.close layout.length
  rw [List.take_left] at rooted
  refine ⟨after, done, keeps, fun lower size same => ?_⟩
  exact ⟨⟨rooted.heap, rooted.globals, rooted.known, rooted.natives, rooted.upvalues⟩,
    (typed.stack.mono keeps.grows).shorten size same⟩

theorem Rooted.inFrame (rooted : Rooted ledger layout known machine) (ip : Nat) :
    Rooted ledger layout known (machine.inFrame rest frame ip) :=
  ⟨rooted.heap, rooted.globals, rooted.known, rooted.natives, rooted.upvalues⟩

theorem Frame.Ok.captureOne {slots : List Slot} {capture : Capture} {role : Role} (base : frame.base = below.length)
    (ok : frame.Ok ledger machine.heap call shapes) (rooted : Rooted ledger (below ++ slots) known machine)
    (captures : Captures (.within frame.function call.manner call.upvalues) slots capture role) (ip : Nat) :
    ∃ ref ledger' after, (∀ next : Ref → Exec State (Array Ref),
        (if (if capture.isLocal then (1 : UInt8) else 0) = 1 then do
          let frame ← Exec.frame
          let upvalue ← Exec.capture (frame.base + capture.index)
          next upvalue
        else do
          let upvalue ← Exec.frameUpvalue capture.index
          next upvalue) (machine.inFrame rest frame ip) = next ref (after.inFrame rest frame ip)) ∧
      Grows ledger machine.heap ledger' after.heap ∧ after.stack = machine.stack ∧
      Rooted ledger' (below ++ slots) known after ∧ ledger'.Tags after.heap ref role := by
  obtain ⟨isLocal, index⟩ := capture
  cases isLocal with
  | true =>
    obtain ⟨slot, found, isCaptured, rfl, copies⟩ := captures
    have own : (below ++ slots)[frame.base + index]? = some slot := by
      rw [base, List.getElem?_append_right (Nat.le_add_right _ _), Nat.add_sub_cancel_left, found]
    obtain ⟨ref, ledger', after, done, keeps, rooted, tagged⟩ := (rooted.inFrame ip).capture own isCaptured copies
    refine ⟨ref, ledger', after, fun next => ?_, keeps.grows, keeps.stack, rooted, tagged⟩
    have frames : after.inFrame rest frame ip = after := Machine.inFrame_self keeps.frames
    rw [frames]
    exact (Exec.bind_eq Exec.frame_inFrame).trans (Exec.bind_eq done)
  | false =>
    obtain ⟨ref, done, tagged⟩ := ok.frameUpvalue captures
    exact ⟨ref, ledger, machine, fun next => Exec.bind_eq done, .refl _ _, rfl, rooted, tagged⟩

theorem Frame.Ok.captureAll {slots : List Slot} {captures : List Capture} (base : frame.base = below.length)
    (captured : List.Forall₂ (Captures (.within frame.function call.manner call.upvalues) slots) captures upvalues) :
    ∀ {ledger : Ledger} {machine : Machine State} {ip : Nat} (refs : Array Ref)
    (_ : frame.Ok ledger machine.heap call shapes) (_ : Rooted ledger (below ++ slots) known machine)
    (_ : ∀ i capture, captures[i]? = some capture →
      frame.function.chunk.code[ip + 3 * i]? = some (if capture.isLocal then 1 else 0) ∧
      frame.function.chunk.operand? (ip + 1 + 3 * i) = some capture.index),
    ∃ ledger' after more, Exec.captureAll captures.length refs (machine.inFrame rest frame ip) =
        .ok (refs ++ more) (after.inFrame rest frame (ip + 3 * captures.length)) ∧
      Grows ledger machine.heap ledger' after.heap ∧ after.stack = machine.stack ∧
      Rooted ledger' (below ++ slots) known after ∧ List.Forall₂ (ledger'.Tags after.heap) more.toList upvalues := by
  induction captured with
  | nil =>
    intro ledger machine ip refs ok rooted inline
    exact ⟨ledger, machine, #[], by rw [Array.append_empty]; rfl, .refl _ _, rfl, rooted, .nil⟩
  | @cons capture role captures upvalues head _ ih =>
    intro ledger machine ip refs ok rooted inline
    obtain ⟨byte, operand⟩ := inline 0 capture rfl
    obtain ⟨ref, ledger₁, between, first, grows, stack, rooted, tagged⟩ := ok.captureOne base rooted head (ip + 3)
    have further : ∀ i capture, captures[i]? = some capture →
        frame.function.chunk.code[ip + 3 + 3 * i]? = some (if capture.isLocal then 1 else 0) ∧
        frame.function.chunk.operand? (ip + 3 + 1 + 3 * i) = some capture.index := by
      intro i capture found
      obtain ⟨byte, operand⟩ := inline (i + 1) capture found
      rw [show ip + 3 + 3 * i = ip + 3 * (i + 1) by omega, show ip + 3 + 1 + 3 * i = ip + 1 + 3 * (i + 1) by omega]
      exact ⟨byte, operand⟩
    obtain ⟨ledger₂, after, more, others, grows', stack', rooted, tagged'⟩ :=
      ih (refs.push ref) (ok.mono grows) rooted further
    refine ⟨ledger₂, after, #[ref] ++ more, ?_, grows.trans grows', stack'.trans stack, rooted, ?_⟩
    · refine (Exec.bind_eq (Exec.readByte_inFrame byte)).trans ((Exec.bind_eq (Exec.readOperand_inFrame operand)).trans ?_)
      refine (first _).trans (others.trans ?_)
      rw [List.length_cons, show ip + 3 + 3 * captures.length = ip + 3 * (captures.length + 1) by omega,
        ← Array.append_assoc, Array.append_singleton]
    · rw [Array.toList_append]
      exact .cons (grows'.tags tagged) tagged'

theorem Typed.closeTop {slot : Slot} (typed : Typed ledger (layout ++ [slot]) known machine) (span : Span) :
    (Exec.perform .closeUpvalue span).Yields machine (Fails .closeUpvalue machine) fun _ =>
      Reaches ledger layout known machine := by
  have size := typed.stack.size
  rw [List.length_append, List.length_singleton] at size
  obtain ⟨after, done, keeps, cut⟩ := typed.closeAbove
  obtain ⟨value, top, -⟩ := typed.top
  rw [← keeps.stack] at top
  have last : machine.stack.size - 1 = layout.length := size ▸ Nat.add_sub_cancel _ 1
  have done : Exec.closeUpvalues (machine.stack.size - 1) machine = .ok () after := last ▸ done
  refine .reading (.ite_neg ?_ (.afterwards done (.afterwards (Exec.pop_eq top) (.of_ok rfl ?_))))
  · exact Nat.ne_of_gt (size ▸ Nat.succ_pos _)
  · refine ⟨keeps.grows.evolves, keeps.frames, cut _ ?_ fun i inside => ?_⟩
    · simp [keeps.stack, size]
    · rw [Array.getElem?_pop, keeps.stack, if_pos (by omega)]

def Ledger.withManner (ledger : Ledger) (ref : Ref) (manner : Manner) : Ledger :=
  { ledger with manner := fun other => if other = ref then manner else ledger.manner other }

theorem Ledger.withManner_self (ref : Ref) (manner : Manner) : (ledger.withManner ref manner).manner ref = manner :=
  if_pos rfl

theorem Ledger.withManner_grows (ledger : Ledger) (heap : Heap) (manner : Manner) :
    Grows ledger heap (ledger.withManner heap.size manner) heap :=
  ⟨.refl heap, fun _ _ => rfl, fun _ inside => if_neg (Nat.ne_of_lt inside)⟩

theorem Rooted.addClosure {proto : Proto} {refs : Array Ref} {manner : Manner} (rooted : Rooted ledger layout known machine)
    (verified : Verified proto manner upvalues) (tagged : List.Forall₂ (ledger.Tags machine.heap) refs.toList upvalues) :
    Rooted (ledger.withManner machine.heap.size manner) layout known (machine.addObject (.closure ⟨proto, refs⟩)) := by
  have noted := ledger.withManner_grows machine.heap manner
  have grows := noted.trans (.of_evolves (.push machine.heap (.closure ⟨proto, refs⟩)))
  obtain ⟨entries, opened⟩ := rooted.upvalues
  have opened : OpenOk (ledger.withManner machine.heap.size manner) layout machine.heap machine.openUpvalues entries :=
    ⟨opened.chain, opened.descending, fun ref index member =>
      (opened.anchored ref index member).imp fun _ ⟨found, anchors⟩ => ⟨found, anchors.isCaptured, anchors.role, anchors.copies⟩,
      opened.complete⟩
  have rooted : Rooted (ledger.withManner machine.heap.size manner) layout known machine :=
    rooted.evolve (fun ref object found => noted.objectOk (Heap.lt_size found) (rooted.heap ref object found)) (.refl _) rfl rfl
      ⟨entries, opened⟩
  exact rooted.addObject nofun ⟨upvalues, (Ledger.withManner_self _ _).symm ▸ verified, tagged.imp fun _ _ => grows.tags⟩

namespace Performs

open Exec

theorem closure {proto : Proto} {result : Slot} {manner : Manner} (base : frame.base = below.length)
    (ok : frame.Ok ledger machine.heap call shapes)
    (operand : frame.function.chunk.operand? (here + 1) = some proto.captures.size)
    (inline : ∀ i capture, proto.captures[i]? = some capture →
      frame.function.chunk.code[here + 3 + 3 * i]? = some (if capture.isLocal then 1 else 0) ∧
      frame.function.chunk.operand? (here + 4 + 3 * i) = some capture.index)
    (captured : List.Forall₂ (Captures (.within frame.function call.manner call.upvalues) (kept ++ [result]))
      proto.captures.toList upvalues) (verified : Verified proto manner upvalues)
    (made : (Content.closure manner).Within result.content)
    (typed : Typed ledger (below ++ (kept ++ [⟨.function proto, false⟩])) known machine)
    (goes : reach (here + 3 + 3 * proto.captures.size) ⟨kept ++ [result], known⟩) :
    Performs ledger rest frame below reach machine here .closure := by
  intro span
  obtain ⟨value, top, holds⟩ := typed.split.top
  obtain ⟨ref, rfl, found⟩ := holds
  have popped := typed.split.popped rfl
  generalize lower_eq : ({ machine with stack := machine.stack.pop } : Machine State) = lower at popped
  have heap_eq : lower.heap = machine.heap := by rw [← lower_eq]; rfl
  have pop_done : Exec.pop (machine.inFrame rest frame (here + 3)) = .ok (.object ref) (lower.inFrame rest frame (here + 3)) :=
    lower_eq ▸ pop_eq top
  have fetched : fetch ref (lower.inFrame rest frame (here + 3)) = .ok (.function proto) (lower.inFrame rest frame (here + 3)) :=
    fetch_eq (heap_eq ▸ found)
  have closed : closable (.object ref) span (lower.inFrame rest frame (here + 3)) =
      .ok proto (lower.inFrame rest frame (here + 3)) :=
    bind_eq fetched
  -- The new closure may capture the slot that it will lie in.
  obtain ⟨entries, opened⟩ := popped.upvalues
  have rooted : Rooted ledger (below ++ (kept ++ [result])) known lower := by
    refine ⟨popped.heap, popped.globals, popped.known, popped.natives, entries, ?_⟩
    rw [← List.append_assoc]
    exact opened.append _
  obtain ⟨ledger', after, refs, done, grows, stack, rooted, tagged⟩ :=
    Frame.Ok.captureAll base captured #[] (heap_eq ▸ ok) rooted fun i capture found =>
      inline i capture (by rwa [Array.getElem?_toList] at found)
  rw [Array.empty_append] at done
  have grows := (grows.trans (ledger'.withManner_grows after.heap manner)).trans
    (.of_evolves (.push after.heap (.closure ⟨proto, refs⟩)))
  have rooted := rooted.addClosure verified tagged
  have made_as := ledger'.withManner_self after.heap.size manner
  generalize ledger'.withManner after.heap.size manner = ledger'' at grows rooted made_as
  have stack_ok : StackOk ledger'' (after.heap.push (.closure ⟨proto, refs⟩)) (below ++ kept) after.stack := by
    rw [stack]
    exact popped.stack.mono grows
  have isMade : (Content.closure manner).Holds ledger'' (after.heap.push (.closure ⟨proto, refs⟩)) (.object after.heap.size) :=
    ⟨_, _, rfl, Heap.get?_push_self _ _, made_as⟩
  refine .afterwards (readOperand_inFrame operand) (.afterwards pop_done (.afterwards closed (.afterwards done (.of_ok rfl ?_))))
  refine .on goes (heap_eq ▸ grows) rfl ⟨⟨rooted.heap, rooted.globals, rooted.known, rooted.natives, rooted.upvalues⟩, ?_⟩
  change StackOk _ _ (below ++ (kept ++ [result])) _
  rw [← List.append_assoc]
  exact stack_ok.push (isMade.within made) result.isCaptured

end Performs

end StackScript
