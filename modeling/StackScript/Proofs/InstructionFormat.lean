import StackScript.Proofs.ClosureTyping
import StackScript.Proofs.FaultPlaces

/-!
Listings and the machine agree on where instructions end. The machine reads the operands of an instruction one after the
other, and some instructions do part of their work in between; whatever the bytes are, if it gets to the last operand, it
then stands where the listing goes on, and the jumps that a listing shows are those that the machine takes. In compiled
code the listing therefore shows every instruction, and every byte as part of one of them.
-/

namespace StackScript

/-- The instruction may go on elsewhere than behind itself. -/
def Opcode.jumps : Opcode → Bool
  | .jump | .jumpIfFalse | .loop => true
  | _ => false

namespace Exec

open Conduct

variable {State : Type} {span : Span}

/-- What an instruction has got when it has read its last operand. -/
structure Operands where
  wide : Nat := 0
  argc : UInt8 := 0
  name : String := ""
  function : Proto := {}
  captured : Array Ref := #[]
  /-- The last variable to capture is not captured yet. -/
  last : Option (UInt8 × Nat) := none

def captureOne (isLocal : UInt8) (index : Nat) : Exec State Ref :=
  if isLocal = 1 then do capture ((← frame).base + index) else frameUpvalue index

/-- Captures variables up to the last one, of which it only reads which it is. -/
def readCaptures : (count : Nat) → (captured : Array Ref) → Exec State (Array Ref × Option (UInt8 × Nat))
  | 0, captured => pure (captured, none)
  | count + 1, captured => do
    let isLocal ← readByte
    let index ← readOperand
    if count = 0 then return (captured, some (isLocal, index))
    readCaptures count (captured.push (← captureOne isLocal index))

/-- The part of an operation up to its last operand. -/
def readOperands (span : Span) : Opcode → Exec State Operands
  | .pushNil | .pushTrue | .pushFalse | .pop | .equal | .greater | .less | .add | .subtract | .multiply | .divide
  | .not | .negate | .print | .closeUpvalue | .return | .inherit => pure {}
  | .call => do return { argc := ← readByte }
  | .invoke | .superInvoke => do
    let name ← readString
    return { name, argc := ← readByte }
  | .closure => do
    let count ← readOperand
    let function ← closable (← pop) span
    let (captured, last) ← readCaptures count #[]
    return { function, captured, last }
  | _ => do return { wide := ← readOperand }

def readInstruction (span : Span) : Exec State (Opcode × Operands) := do
  let byte ← readByte
  match Opcode.ofByte? byte with
  | none => fail (.code (.unknownOpcode byte)) span
  | some op => return (op, ← readOperands span op)

/-- The conduct of actions that at most start new frames. -/
def growing : Conduct RuntimeError (Machine State) where
  goes before after := ∃ more, after.frames = before.frames ++ more ∧ ∀ frame ∈ more, frame.ip = 0
  fails _ _ _ := True
  refl _ := ⟨#[], by simp⟩
  trans := by
    rintro first second third ⟨more, one, new⟩ ⟨further, two, new'⟩
    refine ⟨more ++ further, by rw [two, one, Array.append_assoc], fun frame member => ?_⟩
    exact (Array.mem_append.mp member).elim (new frame) (new' frame)
  fails_after _ _ := trivial

instance : Quiet (growing : Conduct _ (Machine State)) where
  beside _ frames _ := ⟨#[], by simp [frames]⟩
  adds _ _ := ⟨#[], by simp [Machine.addObject]⟩
  sets _ _ _ := ⟨#[], by simp [Machine.setObject]⟩
  fails _ _ _ := trivial

theorem calling_within_growing : (calling span : Conduct _ (Machine State)).Within growing :=
  ⟨fun called => called.frames.imp fun _ started => ⟨started.1, started.2.1⟩, fun _ => trivial⟩

theorem alloc_growing (object : Object) : growing.Obeys (alloc object : Exec State Ref) :=
  fun _ => ⟨#[], by simp⟩

theorem captureOne_quiet {conduct : Conduct RuntimeError (Machine State)} [Quiet conduct] (isLocal : UInt8) (index : Nat) :
    conduct.Obeys (captureOne isLocal index) :=
  .ite (frame_quiet.bind fun _ => capture_quiet _) (frameUpvalue_quiet index)

def captureLast : Array Ref × Option (UInt8 × Nat) → Exec State (Array Ref)
  | (captured, none) => pure captured
  | (captured, some (isLocal, index)) => do return captured.push (← captureOne isLocal index)

theorem captureAll_eq (count : Nat) (captured : Array Ref) :
    (captureAll count captured : Exec State (Array Ref)) = readCaptures count captured >>= captureLast := by
  induction count generalizing captured with
  | zero => simp [captureAll, readCaptures, captureLast]
  | succ count ih =>
    have goesOn (isLocal : UInt8) (index : Nat) : (do
        let upvalue ← captureOne isLocal index
        captureAll count (captured.push upvalue) : Exec State (Array Ref)) =
        (if count = 0 then pure (captured, some (isLocal, index))
          else captureOne isLocal index >>= fun upvalue => readCaptures count (captured.push upvalue)) >>= captureLast := by
      by_cases none : count = 0
      · subst none
        simp [captureAll, captureLast]
      · simp only [none, if_false, bind_assoc, ih]
    simp only [captureAll, readCaptures, bind_assoc]
    refine congrArg (readByte >>= ·) (funext fun isLocal => congrArg (readOperand >>= ·) (funext fun index => ?_))
    refine Eq.trans ?_ (goesOn isLocal index)
    unfold captureOne
    split
    · simp only [bind_assoc]
    · rfl

theorem readOperand_first (tail : Nat → Exec State Unit) :
    readOperand >>= tail = (do return { wide := ← readOperand } : Exec State Operands) >>= fun operands => tail operands.wide := by
  simp only [bind_assoc, pure_bind]

theorem perform_reads (op : Opcode) : ∃ act : Operands → Exec State Unit,
    perform op span = readOperands span op >>= act ∧ (op.jumps = false → ∀ operands, growing.Obeys (act operands)) := by
  by_cases special : op.isSpecial = true
  · cases op with
    | function =>
      refine ⟨_, readOperand_first _, fun _ operands => frame_quiet.bind fun frame => ?_⟩
      split
      · exact (alloc_growing _).bind fun _ => push_quiet _
      · exact fun _ => trivial
    | jump | jumpIfFalse | loop => exact ⟨_, readOperand_first _, fun no => by cases no⟩
    | call =>
      refine ⟨fun operands => peek operands.argc.toNat >>= fun callee => callValue callee operands.argc.toNat span, ?_, ?_⟩
      · simp only [perform, readOperands, bind_assoc, pure_bind]
      · exact fun _ operands => (peek_quiet _).bind fun callee => (callValue_calling callee _).within calling_within_growing
    | invoke =>
      refine ⟨fun operands => invoke operands.name operands.argc.toNat span, ?_, ?_⟩
      · simp only [perform, readOperands, bind_assoc, pure_bind]
      · exact fun _ operands => (invoke_calling _ _).within calling_within_growing
    | superInvoke =>
      refine ⟨fun operands => popClass span >>= fun cls =>
        invokeFromClass cls operands.name operands.argc.toNat span, ?_, fun _ operands => ?_⟩
      · simp only [perform, readOperands, bind_assoc, pure_bind]
      · have calls : (calling span).Obeys (popClass span >>= fun cls =>
            invokeFromClass cls operands.name operands.argc.toNat span : Exec State Unit) :=
          (popClass_settled.within settled_within_calling).bind fun cls => invokeFromClass_calling cls _ _
        exact calls.within calling_within_growing
    | closure =>
      refine ⟨fun operands => captureLast (operands.captured, operands.last) >>= fun upvalues =>
        alloc (.closure ⟨operands.function, upvalues⟩) >>= fun ref => push (.object ref), ?_, fun _ operands => ?_⟩
      · simp only [perform, makeClosure, readOperands, captureAll_eq, bind_assoc, pure_bind]
      · refine Obeys.bind ?_ fun upvalues => (alloc_growing _).bind fun _ => push_quiet _
        unfold captureLast
        split
        · exact .pure _
        · exact (captureOne_quiet _ _).bind fun _ => .pure _
    | «return» => exact ⟨fun _ => pure (), rfl, fun _ _ => .pure ()⟩
    | _ => cases special
  · have ordinary := eq_false_of_ne_true special
    have shaped : Ordinary growing op (perform op span : Exec State Unit) :=
      ((perform_ordinary ordinary).within settled_within_calling).within calling_within_growing
    generalize perform op span = action at shaped ⊢
    cases shaped with
    | bare obeys length =>
      refine ⟨fun _ => action, ?_, fun _ _ => obeys⟩
      -- Which operations are bare can be read off the lengths.
      cases op <;> first | rfl | exact absurd (length {} 0) (by decide)
    | @wide tail obeys length =>
      refine ⟨fun operands => tail operands.wide, ?_, fun _ operands => obeys _⟩
      cases op <;> first | exact readOperand_first tail | exact absurd (length {} 0) (by decide) | cases ordinary

section Landing

variable {machine : Machine State} {rest : Array Frame} {frame : Frame} {ip offset : Nat} {op : Opcode}

abbrev Gives {α : Type} (action : Exec State α) (machine : Machine State) (post : α → Machine State → Prop) : Prop :=
  action.Yields machine (fun _ _ => True) post

theorem Gives.byte {β : Type} {next : UInt8 → Exec State β} {post : β → Machine State → Prop}
    (stands : machine.frames = rest.push { frame with ip })
    (further : ∀ byte, frame.function.chunk.code[ip]? = some byte → (next byte).Gives (machine.inFrame rest frame (ip + 1)) post) :
    (readByte >>= next).Gives machine post := by
  rw [← Machine.inFrame_self stands]
  cases found : frame.function.chunk.code[ip]? with
  | some byte => exact .afterwards (readByte_inFrame found) (further byte found)
  | none =>
    refine .bind (.afterwards frame_inFrame ?_)
    simp only [found]
    exact trivial

theorem Gives.operand {β : Type} {next : Nat → Exec State β} {post : β → Machine State → Prop}
    (stands : machine.frames = rest.push { frame with ip })
    (further : ∀ operand, frame.function.chunk.operand? ip = some operand →
      (next operand).Gives (machine.inFrame rest frame (ip + 2)) post) :
    (readOperand >>= next).Gives machine post := by
  rw [← Machine.inFrame_self stands]
  cases found : frame.function.chunk.operand? ip with
  | some operand => exact .afterwards (readOperand_inFrame found) (further operand found)
  | none =>
    refine .bind (.afterwards frame_inFrame ?_)
    simp only [found]
    exact trivial

theorem Gives.settle {α β : Type} {action : Exec State α} {next : α → Exec State β} {post : β → Machine State → Prop}
    (span : Span) (obeys : (settled span).Obeys action)
    (further : ∀ value after, after.frames = machine.frames → (next value).Gives after post) : (action >>= next).Gives machine post := by
  refine .bind ?_
  have allowed := obeys machine
  unfold Yields
  cases done : action machine with
  | ok value after =>
    rw [done] at allowed
    exact further value after allowed.frames
  | error error after => exact trivial

theorem readCaptures_gives (count : Nat) (captured : Array Ref) (stands : machine.frames = rest.push { frame with ip }) :
    (readCaptures count captured).Gives machine fun _ after => after.frames = rest.push { frame with ip := ip + 3 * count } := by
  induction count generalizing machine captured ip with
  | zero => exact stands
  | succ count ih =>
    refine Gives.byte stands fun isLocal _ => Gives.operand rfl fun index _ => .ite (fun none => ?_) fun _ => ?_
    · subst none
      rfl
    · rw [show ip + 3 * (count + 1) = ip + 1 + 2 + 3 * count by omega]
      exact Gives.settle .nowhere (captureOne_quiet isLocal index) fun upvalue after same => ih _ same

theorem readOperands_gives (stands : machine.frames = rest.push { frame with ip := offset + 1 }) :
    (readOperands span op).Gives machine fun _ after =>
      after.frames = rest.push { frame with ip := (Listing.operands frame.function.chunk offset op).2 } := by
  have wide : (do return { wide := ← readOperand } : Exec State Operands).Gives machine fun _ after =>
      after.frames = rest.push { frame with ip := offset + 3 } := Gives.operand stands fun _ _ => rfl
  have named : (do let name ← readString; return { name, argc := ← readByte } : Exec State Operands).Gives machine
      fun _ after => after.frames = rest.push { frame with ip := offset + 4 } := by
    unfold readString
    rw [bind_assoc]
    refine Gives.operand stands fun entry _ => Gives.settle .nowhere ?_ fun name after same => Gives.byte same fun _ _ => rfl
    refine frame_quiet.bind fun frame => ?_
    split
    · exact .pure _
    · exact fail_nowhere _
  cases op with
  | call => exact Gives.byte stands fun _ _ => rfl
  | invoke | superInvoke => exact named
  | closure =>
    refine Gives.operand stands fun count counted => Gives.settle span pop_quiet fun value after same => ?_
    refine Gives.settle span (closable_quiet fail_settled value) fun function after' same' => ?_
    refine .bind ((readCaptures_gives count #[] (same'.trans same)).mono (fun _ _ => id) fun read final stands => ?_)
    have length : (Listing.operands frame.function.chunk offset .closure).2 = offset + 1 + 2 + 3 * count := by
      simp only [Listing.operands, Listing.operandAt, counted, Option.getD_some]
    rw [length]
    exact stands
  | pushNil | pushTrue | pushFalse | pop | equal | greater | less | add | subtract | multiply | divide | not | negate
  | print | closeUpvalue | «return» | inherit => exact stands
  | constant | string | function | getLocal | setLocal | getGlobal | defineGlobal | setGlobal | getUpvalue | setUpvalue
  | getProperty | setProperty | getSuper | jump | jumpIfFalse | loop | newClass | method => exact wide

def Shows (chunk : Chunk Proto) (offset target : Nat) : Prop :=
  ∃ front, (Listing.instruction chunk offset).1 = front ++ " -> " ++ toString target

theorem shows_of_operands {chunk : Chunk Proto} {front : String} {target : Nat} (op_at : chunk.OpAt offset op)
    (text : (Listing.operands chunk offset op).1 = front ++ " -> " ++ toString target) : Shows chunk offset target := by
  have byte : Listing.byteAt chunk offset = op.toByte := by
    rw [Listing.byteAt, show chunk.code[offset]? = _ from op_at, Option.getD_some]
  refine ⟨Listing.margin chunk offset ++ (Text.padRight 14 op.mnemonic ++ front), ?_⟩
  simp [Listing.instruction, byte, Opcode.ofByte?_toByte, text, String.append_assoc]

theorem instruction_next {chunk : Chunk Proto} (op_at : chunk.OpAt offset op) :
    (Listing.instruction chunk offset).2 = (Listing.operands chunk offset op).2 := by
  simp [Listing.instruction, Listing.byteAt, show chunk.code[offset]? = _ from op_at, Opcode.ofByte?_toByte]

/-- With this stack the operation jumps. -/
def Taken (op : Opcode) (machine : Machine State) : Prop :=
  op = .jump ∨ op = .loop ∨ op = .jumpIfFalse ∧ ∃ value, machine.stack.back? = some value ∧ value.isFalsey = true

theorem Gives.peek {β : Type} {next : Value → Exec State β} {post : β → Machine State → Prop}
    (further : ∀ value, machine.stack.back? = some value → (next value).Gives machine post) :
    (Exec.peek 0 >>= next).Gives machine post := by
  cases top : machine.stack.back? with
  | none =>
    have short : slotBelow 0 machine = .error (.unplaced .stackUnderflow) machine := by
      simp_all [slotBelow]
    exact .failed (bind_error short) trivial
  | some value =>
    have found := Array.back?_eq_getElem? ▸ top
    have inside := (Array.getElem?_eq_some_iff.mp found).1
    exact .afterwards ((bind_eq (slotBelow_eq (by omega))).trans (slotValue_eq found)) (further value top)

theorem jump_gives (op_at : frame.function.chunk.OpAt offset op) (jumps : op.jumps = true)
    (stands : machine.frames = rest.push { frame with ip := offset + 1 }) :
    (perform op span).Gives machine fun _ after => ∃ target, after.frames = rest.push { frame with ip := target } ∧
      (Taken op machine → Shows frame.function.chunk offset target ∧ frame.function.chunk.Flows offset target) ∧
      (¬Taken op machine → target = offset + 3) := by
  cases op with
  | jump =>
    refine Gives.operand stands fun distance operand => .afterwards frame_inFrame (.of_ok (setIp_inFrame _) ?_)
    refine ⟨_, rfl, fun _ => ⟨@shows_of_operands _ _ _ (Listing.column distance) _ op_at ?_, .forth op_at (.inl rfl) operand⟩,
      fun stays => absurd (.inl rfl) stays⟩
    simp only [Listing.operands, Listing.operandAt, operand, Option.getD_some]
    rfl
  | jumpIfFalse =>
    refine Gives.operand stands fun distance operand => ?_
    refine Gives.peek fun value top => .ite (fun falsey => ?_) fun truthy => ?_
    · refine .afterwards frame_inFrame (.of_ok (setIp_inFrame _) ⟨_, rfl, fun _ => ⟨@shows_of_operands _ _ _ (Listing.column distance) _
        op_at ?_, .forth op_at (.inr rfl) operand⟩, fun stays => ?_⟩)
      · simp only [Listing.operands, Listing.operandAt, operand, Option.getD_some]
        rfl
      · exact absurd (.inr (.inr ⟨rfl, value, top, falsey⟩)) stays
    · refine ⟨_, rfl, fun taken => ?_, fun _ => rfl⟩
      rcases taken with isJump | isLoop | ⟨-, other, found, falsey⟩
      · cases isJump
      · cases isLoop
      · cases top.symm.trans found
        exact absurd falsey truthy
  | loop =>
    refine Gives.operand stands fun distance operand => .afterwards frame_inFrame (.ite (fun _ => ?_) fun _ => trivial)
    refine .of_ok (setIp_inFrame _) ⟨_, rfl, fun _ => ⟨@shows_of_operands _ _ _ (Listing.column distance) _ op_at ?_,
      .back op_at operand⟩, fun stays => absurd (.inr (.inl rfl)) stays⟩
    simp only [Listing.operands, Listing.operandAt, operand, Option.getD_some]
    rfl
  | _ => cases jumps

/-- Unless the instruction of the frame returns, the frame now stands behind it or where the listing says that it jumps to,
perhaps below new frames. -/
def Lands (rest : Array Frame) (frame : Frame) (machine after : Machine State) : Prop :=
  ∃ op, frame.function.chunk.OpAt frame.ip op ∧ (op ≠ .return → ∃ target more,
    after.frames = rest.push { frame with ip := target } ++ more ∧
    (Taken op machine → Shows frame.function.chunk frame.ip target) ∧
    (¬Taken op machine → target = (Listing.instruction frame.function.chunk frame.ip).2))

/-- The same, and where new frames stand; or the frame is gone. -/
def Comes (rest : Array Frame) (frame : Frame) (machine after : Machine State) : Prop :=
  ∃ op, frame.function.chunk.OpAt frame.ip op ∧ (op = .return → after.frames = rest) ∧ (op ≠ .return → ∃ target more,
    after.frames = rest.push { frame with ip := target } ++ more ∧ (∀ new ∈ more, new.ip = 0) ∧
    (Taken op machine → Shows frame.function.chunk frame.ip target ∧ frame.function.chunk.Flows frame.ip target) ∧
    (¬Taken op machine → target = (Listing.instruction frame.function.chunk frame.ip).2))

theorem Comes.lands {after : Machine State} (comes : Comes rest frame machine after) : Lands rest frame machine after := by
  obtain ⟨op, op_at, -, goesOn⟩ := comes
  refine ⟨op, op_at, fun more => ?_⟩
  obtain ⟨target, more, frames, -, taken, stays⟩ := goesOn more
  exact ⟨target, more, frames, fun jumps => (taken jumps).1, stays⟩

theorem returnFromFrame_gives (stands : machine.frames = rest.push frame) :
    returnFromFrame.Gives machine fun flow after => after.frames = rest ∧ (flow = .running → rest ≠ #[]) := by
  refine Gives.settle .nowhere pop_quiet fun result popped same => Gives.settle .nowhere frame_quiet fun current after same' => ?_
  have dropped : ({ after with frames := after.frames.pop } : Machine State).frames = rest := by
    rw [same', same, stands, Array.pop_push]
  refine .afterwards rfl (Gives.settle .nowhere (closeUpvalues_quiet _) fun _ closed same => ?_)
  have frames := same.trans dropped
  refine .afterwards rfl (.reading (.ite (fun _ => ⟨frames, fun running => by cases running⟩) fun more => ?_))
  exact .afterwards rfl ⟨frames, fun _ empty => more (Array.isEmpty_iff.mpr (frames.trans empty))⟩

theorem step_gives (stands : machine.frames = rest.push frame) :
    (step span).Gives machine fun flow after => Comes rest frame machine after ∧ (flow = .running → after.frames ≠ #[]) := by
  refine @Gives.byte _ _ rest frame frame.ip _ _ _ stands fun byte at_ => ?_
  cases decoded : Opcode.ofByte? byte with
  | none => exact trivial
  | some op =>
    have op_at : frame.function.chunk.OpAt frame.ip op := by rw [Chunk.OpAt, at_, Opcode.toByte_of_ofByte? decoded]
    by_cases isReturn : op = .return
    · subst isReturn
      refine (@returnFromFrame_gives _ _ rest { frame with ip := frame.ip + 1 } rfl).mono (fun _ _ => id) ?_
      rintro flow after ⟨frames, more⟩
      exact ⟨⟨.return, op_at, fun _ => frames, fun other => absurd rfl other⟩, fun running => frames ▸ more running⟩
    have stands : (machine.inFrame rest frame (frame.ip + 1)).frames = rest.push { frame with ip := frame.ip + 1 } := rfl
    have done : (do perform op span; return .running : Exec State Flow).Gives (machine.inFrame rest frame (frame.ip + 1))
        fun flow after => Comes rest frame machine after ∧ (flow = .running → after.frames ≠ #[]) := by
      have comes {after : Machine State} {target : Nat} {more : Array Frame}
          (frames : after.frames = rest.push { frame with ip := target } ++ more) (new : ∀ new ∈ more, new.ip = 0)
          (taken : Taken op machine → Shows frame.function.chunk frame.ip target ∧ frame.function.chunk.Flows frame.ip target)
          (stays : ¬Taken op machine → target = (Listing.instruction frame.function.chunk frame.ip).2) :
          Comes rest frame machine after ∧ (Flow.running = .running → after.frames ≠ #[]) :=
        ⟨⟨op, op_at, fun returns => absurd returns isReturn, fun _ => ⟨target, more, frames, new, taken, stays⟩⟩, fun _ => by simp [frames]⟩
      -- only a jump leads anywhere but behind the operands
      by_cases jumps : op.jumps = true
      · refine .bind ((jump_gives op_at jumps stands).mono (fun _ _ => id) fun _ after landed => ?_)
        obtain ⟨target, frames, taken, stays⟩ := landed
        refine comes (by rw [frames, Array.append_empty]) (by simp) taken fun not => (stays not).trans ?_
        rw [instruction_next op_at]
        cases op <;> first | rfl | cases jumps
      · have straight := eq_false_of_ne_true jumps
        obtain ⟨act, reads, obeys⟩ := @perform_reads State span op
        rw [reads, bind_assoc]
        refine .bind ((readOperands_gives stands).mono (fun _ _ => id) fun operands between frames => .bind ?_)
        have allowed := obeys straight operands between
        unfold Yields
        cases acted : act operands between with
        | error => exact trivial
        | ok _ after =>
          rw [acted] at allowed
          obtain ⟨more, grown, new⟩ := allowed
          refine comes (frames ▸ grown) new (fun taken => ?_) fun _ => (instruction_next op_at).symm
          rcases taken with rfl | rfl | ⟨rfl, -⟩ <;> cases straight
    cases op with
    | «return» => exact absurd rfl isReturn
    | _ => exact done

end Landing

theorem step_reads (span : Span) : ∃ act, (step span : Exec State Flow) = readInstruction span >>= act := by
  choose act reads _ using fun op => @perform_reads State span op
  refine ⟨fun found => if found.1 = .return then returnFromFrame else act found.1 found.2 >>= fun _ => pure .running, ?_⟩
  unfold step readInstruction
  rw [bind_assoc]
  refine congrArg (readByte >>= ·) (funext fun byte => ?_)
  cases Opcode.ofByte? byte with
  | none => rfl
  | some op =>
    by_cases isReturn : op = .return
    · subst isReturn
      rfl
    · simp only [bind_assoc, pure_bind, isReturn, if_false]
      rw [← bind_assoc, ← reads op]

theorem readInstruction_gives {machine : Machine State} {rest : Array Frame} {frame : Frame} (stands : machine.frames = rest.push frame) :
    (readInstruction span).Gives machine fun _ after =>
      after.frames = rest.push { frame with ip := (Listing.instruction frame.function.chunk frame.ip).2 } := by
  refine @Gives.byte _ _ rest frame frame.ip _ _ _ stands fun byte at_ => ?_
  cases decoded : Opcode.ofByte? byte with
  | none => exact trivial
  | some op =>
    have op_at : frame.function.chunk.OpAt frame.ip op := by rw [Chunk.OpAt, at_, Opcode.toByte_of_ofByte? decoded]
    rw [instruction_next op_at]
    exact .bind ((readOperands_gives rfl).mono (fun _ _ => id) fun _ _ => id)

end Exec

namespace Listing

variable {chunk : Chunk Proto}

/-- The offsets of the instructions that a listing shows, from an offset on. -/
def offsets (chunk : Chunk Proto) (offset : Nat) : List Nat :=
  if offset < chunk.code.size then offset :: offsets chunk (instruction chunk offset).2 else []
termination_by chunk.code.size - offset
decreasing_by
  have next := instruction_next_gt chunk offset
  omega

theorem instructionsFrom_eq (chunk : Chunk Proto) (offset : Nat) (written : String) : instructionsFrom chunk offset written =
    (offsets chunk offset).foldl (fun written shown => written ++ (instruction chunk shown).1 ++ "\n") written := by
  fun_induction instructionsFrom chunk offset written with
  | case1 offset written inside shown ih =>
    rw [offsets, if_pos inside]
    exact ih
  | case2 offset written outside => rw [offsets, if_neg outside, List.foldl_nil]

theorem instruction_of_next? {offset next : Nat} (whole : chunk.next? offset = some next) :
    (instruction chunk offset).2 = next ∧ next ≤ chunk.code.size := by
  obtain ⟨op, read, found⟩ := Option.bind_eq_some_iff.mp whole
  obtain ⟨byte, at_, decoded⟩ := Option.bind_eq_some_iff.mp read
  split at found
  · next fits =>
    cases found
    exact ⟨by simp [instruction, byteAt, at_, decoded], fits⟩
  · cases found

variable {first stop : Nat}

theorem offsets_step {next : Nat} (whole : chunk.next? first = some next) : offsets chunk first = first :: offsets chunk next := by
  obtain ⟨next_eq, fits⟩ := instruction_of_next? whole
  have later := Chunk.next?_gt whole
  rw [offsets, if_pos (by omega), next_eq]

theorem mem_offsets (decodes : chunk.Decodes first stop) (ends : stop = chunk.code.size) (offset : Nat) :
    offset ∈ offsets chunk first ↔ chunk.Decodes first offset ∧ offset < chunk.code.size := by
  induction decodes with
  | done stop =>
    rw [offsets, if_neg (by omega)]
    constructor
    · intro shown
      cases shown
    · rintro ⟨further, inside⟩
      have := further.le
      omega
  | step whole rest ih =>
    have fits := (instruction_of_next? whole).2
    have later := Chunk.next?_gt whole
    rw [offsets_step whole, List.mem_cons, ih ends]
    constructor
    · rintro (rfl | ⟨further, inside⟩)
      · exact ⟨.done _, by omega⟩
      · exact ⟨.step whole further, inside⟩
    · rintro ⟨way, inside⟩
      cases way with
      | done => exact .inl rfl
      | step whole' further =>
        cases whole.symm.trans whole'
        exact .inr ⟨further, inside⟩

theorem offsets_sorted (decodes : chunk.Decodes first stop) (ends : stop = chunk.code.size) :
    (offsets chunk first).Pairwise (· < ·) := by
  induction decodes with
  | done stop => simp [offsets, ends]
  | step whole rest ih =>
    rw [offsets_step whole, List.pairwise_cons]
    refine ⟨fun offset shown => ?_, ih ends⟩
    exact Nat.lt_of_lt_of_le (Chunk.next?_gt whole) ((mem_offsets rest ends offset).mp shown).1.le

theorem byte_shown (decodes : chunk.Decodes first stop) (ends : stop = chunk.code.size) {place : Nat} (behind : first ≤ place)
    (inside : place < chunk.code.size) :
    ∃! offset, offset ∈ offsets chunk first ∧ offset ≤ place ∧ place < (instruction chunk offset).2 := by
  induction decodes with
  | done stop => omega
  | @step offset _ _ whole rest ih =>
    have next_eq := (instruction_of_next? whole).1
    rw [offsets_step whole]
    by_cases here : place < (instruction chunk offset).2
    · refine ⟨_, ⟨List.mem_cons_self, behind, here⟩, ?_⟩
      rintro other ⟨member, notAfter, -⟩
      rcases List.mem_cons.mp member with same | further
      · exact same
      · have := ((mem_offsets rest ends other).mp further).1.le
        omega
    · obtain ⟨offset, ⟨member, notAfter, before⟩, unique⟩ := ih ends (by omega)
      refine ⟨offset, ⟨List.mem_cons_of_mem _ member, notAfter, before⟩, ?_⟩
      rintro other ⟨member', notAfter', before'⟩
      rcases List.mem_cons.mp member' with rfl | further
      · exact absurd before' here
      · exact unique other ⟨further, notAfter', before'⟩

/-- The listing shows the instructions of the code at these offsets: those where the code leads among them, each up to the
next one or to the end of the code, and every byte in one of them. -/
structure Lists (chunk : Chunk Proto) (shown : List Nat) : Prop where
  text : ∀ written, instructionsFrom chunk 0 written =
    shown.foldl (fun written offset => written ++ (instruction chunk offset).1 ++ "\n") written
  sorted : shown.Pairwise (· < ·)
  starts : ∀ offset, offset ∈ shown ↔ chunk.Starts offset
  reachable : ∀ offset, chunk.Reachable offset → offset ∈ shown
  next : ∀ offset ∈ shown, (instruction chunk offset).2 ∈ shown ∨ (instruction chunk offset).2 = chunk.code.size
  bytes : ∀ place < chunk.code.size, ∃! offset, offset ∈ shown ∧ offset ≤ place ∧ place < (instruction chunk offset).2

end Listing

/-- The machine and the listing agree on the format of instructions, whatever the bytes are: when an instruction has read its
last operand, the frame stands where the listing goes on, and it stays there unless the instruction jumps, which it then does
to where the listing says. So the listing of compiled code shows its instructions and nothing else, and each byte as part of
one of them, up to the last. -/
theorem listings_match_execution {State : Type} (span : Span) :
    (∃ act, (Exec.step span : Exec State Flow) = Exec.readInstruction span >>= act) ∧
    (∀ (machine : Machine State) (rest : Array Frame) (frame : Frame), machine.frames = rest.push frame →
      (∀ read between, Exec.readInstruction span machine = .ok read between →
        between.frames = rest.push { frame with ip := (Listing.instruction frame.function.chunk frame.ip).2 }) ∧
      ∀ flow after, Exec.step span machine = .ok flow after → Exec.Lands rest frame machine after) ∧
    ∀ source script proto, compileSource source = .ok script → script.Contains proto →
      Listing.Lists proto.chunk (Listing.offsets proto.chunk 0) := by
  refine ⟨Exec.step_reads span, fun machine rest frame stands => ⟨fun read between done => ?_, fun flow after done => ?_⟩, ?_⟩
  · have gives := @Exec.readInstruction_gives State span _ _ _ stands
    rwa [Exec.Gives, Exec.Yields, done] at gives
  · have gives := @Exec.step_gives State span _ _ _ stands
    rw [Exec.Gives, Exec.Yields, done] at gives
    exact gives.1.lands
  · intro source script proto compiled inside
    have origin : proto.FromSource := ⟨source, script, compiled, inside⟩
    have decodes := origin.wellFormed.decodes
    have starts (offset : Nat) : offset ∈ Listing.offsets proto.chunk 0 ↔ proto.chunk.Starts offset :=
      Listing.mem_offsets decodes rfl offset
    refine ⟨Listing.instructionsFrom_eq _ 0, Listing.offsets_sorted decodes rfl, starts,
      fun offset reachable => (starts offset).mpr (origin.starts reachable), fun offset shown => ?_,
      fun place => Listing.byte_shown decodes rfl (Nat.zero_le place)⟩
    obtain ⟨way, before⟩ := (starts offset).mp shown
    obtain ⟨next, whole⟩ := way.next? decodes before
    obtain ⟨next_eq, fits⟩ := Listing.instruction_of_next? whole
    rw [next_eq]
    rcases Nat.lt_or_eq_of_le fits with more | last
    · exact .inl ((starts next).mpr ⟨way.trans (.single whole), more⟩)
    · exact .inr last

/-- A loop of three bytes, which is taken. -/
theorem listings_match_execution_loop : ∃ (after : Machine Unit) (target : Nat) (more : Array Frame),
    Exec.step .nowhere ({ frames := #[⟨{ chunk := { code := #[29, 0, 3] } }, none, 0, 0⟩] } : Machine Unit) = .ok .running after ∧
      after.frames = #[⟨{ chunk := { code := #[29, 0, 3] } }, none, target, 0⟩] ++ more ∧
      Exec.Shows { code := #[29, 0, 3] } 0 target := by
  obtain ⟨op, op_at, lands⟩ := ((listings_match_execution Span.nowhere).2.1 ({ frames := #[⟨{ chunk := { code := #[29, 0, 3] } },
    none, 0, 0⟩] } : Machine Unit) #[] _ rfl).2 .running _ rfl
  cases Chunk.OpAt.unique op_at (show Chunk.OpAt _ 0 .loop from rfl)
  obtain ⟨target, more, frames, taken, -⟩ := lands (by decide)
  exact ⟨_, target, more, rfl, frames, taken (.inr (.inl rfl))⟩

end StackScript
