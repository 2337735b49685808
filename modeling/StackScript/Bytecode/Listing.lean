import StackScript.Bytecode.Chunk
import StackScript.Bytecode.Opcode
import StackScript.Text.Column

/-!
Code as readable text, one instruction on a line: its offset, its source line (a bar where it is that of the
byte before), the operation and its operands, with names and constants looked up. Bytes that are missing at the
end of a chunk read as zero.
-/

namespace StackScript.Listing

open Text

def column (number : Nat) : String :=
  padLeft 5 (toString number) ' '

def byteAt (chunk : Chunk Proto) (offset : Nat) : UInt8 :=
  chunk.code[offset]?.getD 0

def operandAt (chunk : Chunk Proto) (offset : Nat) : Nat :=
  (chunk.operand? offset).getD 0

def stringAt (chunk : Chunk Proto) (offset : Nat) : String :=
  (chunk.string? offset).getD "?"

def captures (chunk : Chunk Proto) : (count offset : Nat) → (written : String) → String
  | 0, _, written => written
  | count + 1, offset, written =>
    let place := if byteAt chunk offset == 1 then "local" else "upvalue"
    captures chunk count (offset + 3) (written ++ s!" [{place} {operandAt chunk (offset + 1)}]")

def operands (chunk : Chunk Proto) (offset : Nat) : Opcode → String × Nat
  | .constant =>
    let index := operandAt chunk (offset + 1)
    let value := ((chunk.constant? index).map Value.inspect).getD "???"
    (s!"{column index} ({value})", offset + 3)
  | .string =>
    let entry := operandAt chunk (offset + 1)
    (s!"{column entry} (\"{stringAt chunk entry}\")", offset + 3)
  | .function =>
    let index := operandAt chunk (offset + 1)
    let name := (chunk.functions[index]?.map Proto.title).getD "???"
    (s!"{column index} ({name})", offset + 3)
  | .getGlobal | .defineGlobal | .setGlobal | .getProperty | .setProperty | .getSuper | .newClass | .method =>
    let entry := operandAt chunk (offset + 1)
    (s!"{column entry} ({stringAt chunk entry})", offset + 3)
  | .getLocal | .setLocal | .getUpvalue | .setUpvalue =>
    (column (operandAt chunk (offset + 1)), offset + 3)
  | .jump | .jumpIfFalse =>
    let distance := operandAt chunk (offset + 1)
    (s!"{column distance} -> {offset + 3 + distance}", offset + 3)
  | .loop =>
    let distance := operandAt chunk (offset + 1)
    (s!"{column distance} -> {offset + 3 - distance}", offset + 3)
  | .call => (column (byteAt chunk (offset + 1)).toNat, offset + 2)
  | .invoke | .superInvoke =>
    let entry := operandAt chunk (offset + 1)
    let count := (byteAt chunk (offset + 3)).toNat
    (s!"({count} args) {column entry} ({stringAt chunk entry})", offset + 4)
  | .closure =>
    let count := operandAt chunk (offset + 1)
    (captures chunk count (offset + 3) (column count), offset + 3 + 3 * count)
  | _ => ("", offset + 1)

def margin (chunk : Chunk Proto) (offset : Nat) : String :=
  let line := chunk.lineAt offset
  let lineText :=
    if offset > 0 ∧ chunk.lines[offset - 1]? = some line then "   |" else padLeft 4 (toString line) ' '
  let offsetText := padLeft 4 (toString offset) '0'
  s!"{offsetText} {lineText} "

def instruction (chunk : Chunk Proto) (offset : Nat) : String × Nat :=
  let byte := byteAt chunk offset
  match Opcode.ofByte? byte with
  | none => (margin chunk offset ++ "UNKNOWN 0x" ++ hexByte byte, offset + 1)
  | some op =>
    let (text, next) := operands chunk offset op
    let named := if text.isEmpty then op.mnemonic else padRight 14 op.mnemonic ++ text
    (margin chunk offset ++ named, next)

theorem operands_next_gt (chunk : Chunk Proto) (offset : Nat) (op : Opcode) :
    offset < (operands chunk offset op).2 := by
  cases op <;> simp only [operands] <;> omega

theorem instruction_next_gt (chunk : Chunk Proto) (offset : Nat) : offset < (instruction chunk offset).2 := by
  simp only [instruction]
  cases Opcode.ofByte? (byteAt chunk offset) with
  | none => exact Nat.lt_succ_self offset
  | some op => exact operands_next_gt chunk offset op

def instructionsFrom (chunk : Chunk Proto) (offset : Nat) (written : String) : String :=
  if offset < chunk.code.size then
    let shown := instruction chunk offset
    instructionsFrom chunk shown.2 (written ++ shown.1 ++ "\n")
  else written
termination_by chunk.code.size - offset
decreasing_by
  have next := instruction_next_gt chunk offset
  omega

def heading (proto : Proto) : String :=
  let name := if proto.name.isEmpty then "<script>" else proto.name
  s!"== {name} (arity={proto.arity}, upvalues={proto.captures.size}) ==\n"

end StackScript.Listing

namespace StackScript.Proto

def listing (proto : Proto) : String :=
  let own := Listing.instructionsFrom proto.chunk 0 (Listing.heading proto)
  proto.chunk.functions.attach.foldl (fun written nested => written ++ "\n" ++ nested.val.listing) own
termination_by proto
decreasing_by exact sizeOf_lt_of_mem nested.property

end StackScript.Proto
