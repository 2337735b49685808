import StackScript.Bytecode.Listing

/-!
Code read from front to back, as a listing reads it: behind an instruction and its operands stands the next one. A
place in the code is the start of an instruction if it is reached in this way from the first byte on.
-/

namespace StackScript

/-- The run goes on behind the instruction, if it goes on there at all, and nowhere else. -/
def Opcode.isStraight : Opcode → Bool
  | .jump | .jumpIfFalse | .loop | .return => false
  | _ => true

/-- The instruction reads a variable, binds a global or drops a value. -/
def Opcode.isIdle : Opcode → Bool
  | .getLocal | .getGlobal | .getUpvalue | .defineGlobal | .pop | .closeUpvalue => true
  | _ => false

namespace Chunk

def OpAt {Function : Type} (chunk : Chunk Function) (offset : Nat) (op : Opcode) : Prop :=
  chunk.code[offset]? = some op.toByte

/-- At the offset a closure of the function is made, and the captures of the function stand behind it. -/
structure ClosureAt {Function : Type} (chunk : Chunk Function) (offset : Nat) (proto : Proto) : Prop where
  op_at : chunk.OpAt offset .closure
  count : chunk.operand? (offset + 1) = some proto.captures.size
  inline : ∀ i capture, proto.captures[i]? = some capture →
    chunk.code[offset + 3 + 3 * i]? = some (if capture.isLocal then 1 else 0) ∧
      chunk.operand? (offset + 4 + 3 * i) = some capture.index

/-- From a place to another a nested function is pushed and a closure of it is made. -/
structure Closing (chunk : Chunk Proto) (place : Nat) (proto : Proto) (stop : Nat) : Prop where
  pushes : chunk.OpAt place .function ∧ ∃ index, chunk.operand? (place + 1) = some index ∧ chunk.functions[index]? = some proto
  made_at : chunk.ClosureAt (place + 3) proto
  stop_eq : stop = place + 3 + 3 + 3 * proto.captures.size

variable {chunk : Chunk Proto} {offset next : Nat} {op : Opcode}

theorem OpAt.unique {op' : Opcode} (one : chunk.OpAt offset op) (other : chunk.OpAt offset op') :
    op = op' := by
  have bytes : op.toByte = op'.toByte := Option.some.inj (one.symm.trans other)
  have decoded := congrArg Opcode.ofByte? bytes
  rw [Opcode.ofByte?_toByte, Opcode.ofByte?_toByte] at decoded
  exact Option.some.inj decoded

/-- The offset behind the instruction at an offset and behind its operands, if all of it is there. -/
def next? (chunk : Chunk Proto) (offset : Nat) : Option Nat :=
  (chunk.code[offset]?.bind Opcode.ofByte?).bind fun op =>
    if (Listing.operands chunk offset op).2 ≤ chunk.code.size then some (Listing.operands chunk offset op).2 else none

/-- From the instruction at an offset the run may go on at another one. -/
inductive Flows (chunk : Chunk Proto) (offset : Nat) : Nat → Prop where
  | on {op : Opcode} {next : Nat} (op_at : chunk.OpAt offset op) (falls : op.isStraight = true ∨ op = .jumpIfFalse)
      (whole : chunk.next? offset = some next) : Flows chunk offset next
  | forth {op : Opcode} {distance : Nat} (op_at : chunk.OpAt offset op) (jumps : op = .jump ∨ op = .jumpIfFalse)
      (operand : chunk.operand? (offset + 1) = some distance) : Flows chunk offset (offset + 3 + distance)
  | back {distance : Nat} (op_at : chunk.OpAt offset .loop) (operand : chunk.operand? (offset + 1) = some distance) :
      Flows chunk offset (offset + 3 - distance)

theorem next?_of_opAt (op_at : chunk.OpAt offset op)
    (length : (Listing.operands chunk offset op).2 = next) (inside : next ≤ chunk.code.size) :
    chunk.next? offset = some next := by
  unfold next?
  rw [show chunk.code[offset]? = some op.toByte from op_at, Option.bind_some, Opcode.ofByte?_toByte, Option.bind_some]
  simp only [length, if_pos inside]

theorem lt_of_getElem? {byte : UInt8} (found : chunk.code[offset]? = some byte) :
    offset < chunk.code.size :=
  (Array.getElem?_eq_some_iff.mp found).1

theorem lt_of_operand? {operand : Nat} (found : chunk.operand? offset = some operand) :
    offset + 1 < chunk.code.size := by
  unfold operand? at found
  split at found
  · next low => exact lt_of_getElem? low
  · cases found

theorem ClosureAt.next? {proto : Proto} (closure : chunk.ClosureAt offset proto) :
    chunk.next? offset = some (offset + 3 + 3 * proto.captures.size) := by
  refine next?_of_opAt closure.op_at ?_ ?_
  · simp only [Listing.operands, Listing.operandAt, closure.count, Option.getD_some]
  · by_cases empty : proto.captures.size = 0
    · have := lt_of_operand? closure.count
      omega
    · have last := Array.getElem?_eq_getElem (show proto.captures.size - 1 < proto.captures.size by omega)
      have := lt_of_operand? (closure.inline _ _ last).2
      omega

theorem next?_gt (whole : chunk.next? offset = some next) : offset < next := by
  obtain ⟨op, -, found⟩ := Option.bind_eq_some_iff.mp whole
  split at found
  · cases found
    exact Listing.operands_next_gt chunk offset op
  · cases found

/-- From one offset to another the code is a sequence of whole instructions. -/
inductive Decodes (chunk : Chunk Proto) : Nat → Nat → Prop where
  | done (offset : Nat) : Decodes chunk offset offset
  | step {offset next stop : Nat} (whole : chunk.next? offset = some next) (rest : Decodes chunk next stop) :
      Decodes chunk offset stop

namespace Decodes

variable {first second third : Nat}

theorem single (whole : chunk.next? first = some second) : chunk.Decodes first second :=
  .step whole (.done second)

theorem trans (one : chunk.Decodes first second) (two : chunk.Decodes second third) : chunk.Decodes first third := by
  induction one with
  | done _ => exact two
  | step whole _ ih => exact .step whole (ih two)

theorem le (decodes : chunk.Decodes first second) : first ≤ second := by
  induction decodes with
  | done _ => exact Nat.le_refl _
  | step whole _ ih => exact Nat.le_of_lt (Nat.lt_of_lt_of_le (next?_gt whole) ih)

end Decodes

def Starts (chunk : Chunk Proto) (offset : Nat) : Prop :=
  chunk.Decodes 0 offset ∧ offset < chunk.code.size

end Chunk

end StackScript
