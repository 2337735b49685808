import StackScript.Machine.Property
import StackScript.Bytecode.Opcode

/-!
One instruction. Operands are read from the code of the innermost frame, byte by byte, and each read moves the
instruction pointer. In most instructions the operands are read first; a closure instruction takes its function
from the stack before it reads what to capture.
-/

namespace StackScript

/-- Whether a run goes on after an instruction. -/
inductive Flow where
  | running | halted
deriving DecidableEq, Repr

namespace Exec

variable {State : Type}

@[inline]
def setIp (ip : Nat) : Exec State Unit :=
  update fun machine =>
    { machine with frames := machine.frames.modify (machine.frames.size - 1) fun frame => { frame with ip } }

@[inline]
def readByte : Exec State UInt8 := do
  let frame ← frame
  match frame.function.chunk.code[frame.ip]? with
  | some byte =>
    setIp (frame.ip + 1)
    return byte
  | none => fail (.code (.ranOff frame.ip)) .nowhere

/-- The next two-byte operand. Where the code ends inside it, the first byte that is not there is at fault. -/
@[inline]
def readOperand : Exec State Nat := do
  let frame ← frame
  match frame.function.chunk.operand? frame.ip with
  | some operand =>
    setIp (frame.ip + 2)
    return operand
  | none => fail (.code (.ranOff (max frame.ip frame.function.chunk.code.size))) .nowhere

def readString : Exec State String := do
  let entry ← readOperand
  match (← frame).function.chunk.string? entry with
  | some text => return text
  | none => fail (.access (.noString entry)) .nowhere

def frameUpvalue (index : Nat) : Exec State Ref := do
  match (← frame).closure with
  | none => fail (.access .noClosure) .nowhere
  | some ref =>
    match (← look (·.heap.fetchClosure ref)).upvalues[index]? with
    | some upvalue => return upvalue
    | none => fail (.access (.upvalueOutOfRange index)) .nowhere

/-- Replaces two numbers on top of the stack by what `operate` makes of them. -/
@[inline]
def onNumbers (operate : Float → Float → Value) (span : Span) : Exec State Unit := do
  let left ← peek 1
  let right ← peek 0
  match left, right with
  | .number x, .number y =>
    let _ ← pop
    let _ ← pop
    push (operate x y)
  | _, _ => fail (.type .operandsNotNumbers) span

def sum (left right : Value) (span : Span) : Exec State Value := do
  match left, right with
  | .number x, .number y => return .number (x + y)
  | _, _ =>
    match ← read (·.heap.text? left), ← read (·.heap.text? right) with
    | some x, some y => onStore (Store.allocString (x ++ y))
    | _, _ => fail (.type .operandsNotAddable) span

def add (span : Span) : Exec State Unit := do
  let right ← peek 0
  let left ← peek 1
  let result ← sum left right span
  let _ ← pop
  let _ ← pop
  push result

def closable (value : Value) (span : Span) : Exec State Proto := do
  match value with
  | .object ref =>
    match ← fetch ref with
    | .function proto => return proto
    | other => fail (.type (.notClosable other.kindName)) span
  | other => fail (.type (.notClosable other.typeName)) span

def captureAll : (count : Nat) → (captured : Array Ref) → Exec State (Array Ref)
  | 0, captured => pure captured
  | count + 1, captured => do
    let isLocal ← readByte
    let index ← readOperand
    let upvalue ← if isLocal = 1 then do capture ((← frame).base + index) else frameUpvalue index
    captureAll count (captured.push upvalue)

def makeClosure (span : Span) : Exec State Unit := do
  let count ← readOperand
  let function ← closable (← pop) span
  let upvalues ← captureAll count #[]
  push (.object (← alloc (.closure ⟨function, upvalues⟩)))

/-- Returns from the innermost frame. The machine halts when it was the last one. -/
def returnFromFrame : Exec State Flow := do
  let result ← pop
  let frame ← frame
  update fun machine => { machine with frames := machine.frames.pop }
  closeUpvalues frame.base
  update (·.truncate frame.base)
  if ← read (·.frames.isEmpty) then return .halted
  push result
  return .running

/-- Does one operation, whose operands come next in the code. Returning is apart. -/
def perform (op : Opcode) (span : Span) : Exec State Unit := do
  match op with
  | .constant =>
    let index ← readOperand
    match (← frame).function.chunk.constant? index with
    | some value => push value
    | none => fail (.access (.constantOutOfRange index)) span
  | .string =>
    let text ← readString
    push (← onStore (Store.allocString text))
  | .function =>
    let index ← readOperand
    match (← frame).function.chunk.functions[index]? with
    | some proto => push (.object (← alloc (.function proto)))
    | none => fail (.access (.functionOutOfRange index)) span
  | .pushNil => push .nil
  | .pushTrue => push (.bool true)
  | .pushFalse => push (.bool false)
  | .pop => let _ ← pop
  | .getLocal =>
    let index ← readOperand
    push (← slotValue ((← frame).base + index))
  | .setLocal =>
    let index ← readOperand
    let slot := (← frame).base + index
    let value ← peek 0
    if slot < (← read (·.stack.size)) then update (·.setSlot slot value) else fail .stackUnderflow span
  | .getGlobal =>
    let name ← readString
    match ← read (·.global? name) with
    | some value => push value
    | none => fail (.undefinedVariable name) span
  | .defineGlobal =>
    let name ← readString
    let value ← peek 0
    update (·.setGlobal name value)
    let _ ← pop
  | .setGlobal =>
    let name ← readString
    let value ← peek 0
    if ← read (·.globals.contains name) then update (·.setGlobal name value)
    else fail (.undefinedVariable name) span
  | .getUpvalue => push (← readUpvalue (← frameUpvalue (← readOperand)))
  | .setUpvalue =>
    let ref ← frameUpvalue (← readOperand)
    writeUpvalue ref (← peek 0)
  | .getProperty => getProperty (← readString) span
  | .setProperty => setProperty (← readString) span
  | .getSuper =>
    let name ← readString
    bindMethod (← popClass span) name span
  | .equal =>
    let right ← pop
    let left ← pop
    push (.bool (left.equals right))
  | .greater => onNumbers (fun x y => .bool (x > y)) span
  | .less => onNumbers (fun x y => .bool (x < y)) span
  | .add => add span
  | .subtract => onNumbers (fun x y => .number (x - y)) span
  | .multiply => onNumbers (fun x y => .number (x * y)) span
  | .divide => onNumbers (fun x y => .number (x / y)) span
  | .not => push (.bool (← pop).isFalsey)
  | .negate =>
    match ← pop with
    | .number x => push (.number (-x))
    | _ => fail (.type .operandNotNumber) span
  | .print =>
    let value ← pop
    update fun machine => { machine with output := machine.output.push (machine.heap.render value) }
  | .jump =>
    let distance ← readOperand
    setIp ((← frame).ip + distance)
  | .jumpIfFalse =>
    let distance ← readOperand
    if (← peek 0).isFalsey then setIp ((← frame).ip + distance)
  | .loop =>
    let distance ← readOperand
    let ip := (← frame).ip
    if distance ≤ ip then setIp (ip - distance) else fail (.code .loopBeforeStart) span
  | .call =>
    let argc := (← readByte).toNat
    callValue (← peek argc) argc span
  | .invoke =>
    let name ← readString
    let argc := (← readByte).toNat
    invoke name argc span
  | .superInvoke =>
    let name ← readString
    let argc := (← readByte).toNat
    let superclass ← popClass span
    invokeFromClass superclass name argc span
  | .closure => makeClosure span
  | .closeUpvalue =>
    let size ← read (·.stack.size)
    if size = 0 then fail .stackUnderflow span
    closeUpvalues (size - 1)
    let _ ← pop
  | .newClass =>
    let name ← readString
    push (.object (← alloc (.class ⟨name, ∅⟩)))
  | .inherit => inherit span
  | .method => defineMethod (← readString) span
  | .return => pure ()

/-- Fetches an instruction and does it; faults without a better place are reported at `span`. -/
def step (span : Span) : Exec State Flow := do
  let byte ← readByte
  match Opcode.ofByte? byte with
  | none => fail (.code (.unknownOpcode byte)) span
  | some .return => returnFromFrame
  | some op =>
    perform op span
    return .running

end Exec

end StackScript
