import StackScript.Proofs.Decoding
import StackScript.Proofs.Layout
import StackScript.Proofs.Tables

/-!
Code whose instructions always find what they need. An instruction is accepted in a shape if its operands refer to
entries of the tables, if the slots it takes are there and no closure captures them, and if what it leaves is allowed
where the run goes on. Code is verified by giving every instruction a shape, so that each one is accepted in its shape
and leads to instructions whose shapes it meets.

Code is put together from blocks. A block is a stretch of code with the points at which it may be entered and those
at which it is left; blocks that follow each other are joined, and jumps between them become inner ones.
-/

namespace StackScript

variable {shape : Shape} {next : Nat}

/-- What code refers to: the function it is the code of and what that is called as, what the captured variables are for,
and which functions may be closed over such variables. -/
structure Context where
  proto : Proto
  manner : Manner
  upvalues : List Role
  closes : Proto → Manner → List Role → Prop

def Context.chunk (context : Context) : Chunk Proto :=
  context.proto.chunk

/-- Places in code, each with a shape. -/
abbrev Points := Nat → Shape → Prop

/-- The place at an offset, for everything that is known to be within a shape. -/
def Points.at (offset : Nat) (shape : Shape) : Points :=
  fun place found => place = offset ∧ found.Within shape

def Points.none : Points :=
  fun _ _ => False

/-- A captured variable of a nested function is a captured slot here, or a captured variable here, and for the same. -/
def Captures (context : Context) (slots : List Slot) (capture : Capture) (role : Role) : Prop :=
  if capture.isLocal then
    ∃ slot, slots[capture.index]? = some slot ∧ slot.isCaptured = true ∧ slot.role = role ∧
      slot.content.copy?.isSome = true
  else context.upvalues[capture.index]? = some role

def Role.copy : Role → Content
  | .superclass => .parent
  | .ordinary | .receiver => .value

/-- What functions return: an initializer a copy of its receiver, others any value. -/
def Manner.Returns (manner : Manner) (slots : List Slot) (content : Content) : Prop :=
  match manner with
  | .initializer => ∃ value isCaptured, slots[0]? = some ⟨.receiver value, isCaptured⟩ ∧ content = .self value
  | .function | .method => content = .value

def Opcode.isBinary : Opcode → Bool
  | .equal | .greater | .less | .add | .subtract | .multiply | .divide => true
  | _ => false

def Opcode.isLiteral : Opcode → Bool
  | .pushNil | .pushTrue | .pushFalse => true
  | _ => false

def Opcode.isUnary : Opcode → Bool
  | .not | .negate => true
  | _ => false

/-- The instruction at `here` is accepted in a shape, ends in front of `next`, and goes on at points of `reach`. -/
inductive Accepts (context : Context) (reach : Points) (here : Nat) : (next : Nat) → Shape → Prop where
  | literal {shape : Shape} {op : Opcode} (isLiteral : op.isLiteral = true) (op_at : context.chunk.OpAt here op)
      (goes : reach (here + 1) (shape.push .plain)) : Accepts context reach here (here + 1) shape
  | constant {shape : Shape} {index : Nat} {x : Float} (op_at : context.chunk.OpAt here .constant)
      (operand : context.chunk.operand? (here + 1) = some index)
      (found : context.chunk.constant? index = some (.number x))
      (goes : reach (here + 3) (shape.push .plain)) : Accepts context reach here (here + 3) shape
  | string {shape : Shape} {entry : Nat} {text : String} (op_at : context.chunk.OpAt here .string)
      (operand : context.chunk.operand? (here + 1) = some entry)
      (found : context.chunk.Names entry text)
      (goes : reach (here + 3) (shape.push .plain)) : Accepts context reach here (here + 3) shape
  | function {shape : Shape} {index : Nat} {proto : Proto} (op_at : context.chunk.OpAt here .function)
      (operand : context.chunk.operand? (here + 1) = some index)
      (found : context.chunk.functions[index]? = some proto) (closed : context.chunk.ClosureAt (here + 3) proto)
      (goes : reach (here + 3) (shape.push ⟨.function proto, false⟩)) :
      Accepts context reach here (here + 3) shape
  | closure {kept : List Slot} {known : Option String} {proto : Proto} {manner : Manner} {result : Slot}
      {upvalues : List Role}
      (made_at : context.chunk.ClosureAt here proto) (grounded : kept ≠ [])
      (captured : List.Forall₂ (Captures context (kept ++ [result])) proto.captures.toList upvalues)
      (closes : context.closes proto manner upvalues) (made : (Content.closure manner).Within result.content)
      (goes : reach (here + 3 + 3 * proto.captures.size) ⟨kept ++ [result], known⟩) :
      Accepts context reach here (here + 3 + 3 * proto.captures.size) ⟨kept ++ [⟨.function proto, false⟩], known⟩
  | pop {kept : List Slot} {known : Option String} {slot : Slot} (op_at : context.chunk.OpAt here .pop) (free : slot.isCaptured = false)
      (grounded : kept ≠ []) (goes : reach (here + 1) ⟨kept, known⟩) :
      Accepts context reach here (here + 1) ⟨kept ++ [slot], known⟩
  | closeUpvalue {kept : List Slot} {known : Option String} {slot : Slot} (op_at : context.chunk.OpAt here .closeUpvalue)
      (grounded : kept ≠ []) (goes : reach (here + 1) ⟨kept, known⟩) :
      Accepts context reach here (here + 1) ⟨kept ++ [slot], known⟩
  | getLocal {shape : Shape} {index : Nat} {slot : Slot} {copied : Content} (op_at : context.chunk.OpAt here .getLocal)
      (operand : context.chunk.operand? (here + 1) = some index) (found : shape.slots[index]? = some slot)
      (copies : slot.content.copy? = some copied)
      (goes : reach (here + 3) (shape.push ⟨copied, false⟩)) :
      Accepts context reach here (here + 3) shape
  | setLocal {kept : List Slot} {known : Option String} {index : Nat} {isCaptured : Bool} (op_at : context.chunk.OpAt here .setLocal)
      (operand : context.chunk.operand? (here + 1) = some index)
      (found : kept[index]? = some ⟨.value, isCaptured⟩)
      (goes : reach (here + 3) ⟨kept ++ [.plain], known⟩) :
      Accepts context reach here (here + 3) ⟨kept ++ [.plain], known⟩
  | getGlobal {shape : Shape} {entry : Nat} {name : String} {found : Content} (op_at : context.chunk.OpAt here .getGlobal)
      (operand : context.chunk.operand? (here + 1) = some entry)
      (named : context.chunk.Names entry name)
      (holds : found = .value ∨ found = .class ∧ shape.known = some name)
      (goes : reach (here + 3) (shape.push ⟨found, false⟩)) :
      Accepts context reach here (here + 3) shape
  | defineGlobal {kept : List Slot} {entry : Nat} {name : String} {content : Content} {learned : Option String}
      (op_at : context.chunk.OpAt here .defineGlobal)
      (operand : context.chunk.operand? (here + 1) = some entry)
      (named : context.chunk.Names entry name) (isValue : content.Within .value)
      (learns : learned = none ∨ learned = some name ∧ content = .class) (grounded : kept ≠ [])
      (goes : reach (here + 3) ⟨kept, learned⟩) :
      Accepts context reach here (here + 3) ⟨kept ++ [⟨content, false⟩], none⟩
  | setGlobal {kept : List Slot} {entry : Nat} {name : String} (op_at : context.chunk.OpAt here .setGlobal)
      (operand : context.chunk.operand? (here + 1) = some entry)
      (named : context.chunk.Names entry name)
      (goes : reach (here + 3) ⟨kept ++ [.plain], none⟩) :
      Accepts context reach here (here + 3) ⟨kept ++ [.plain], none⟩
  | getUpvalue {shape : Shape} {index : Nat} {role : Role} (op_at : context.chunk.OpAt here .getUpvalue)
      (operand : context.chunk.operand? (here + 1) = some index)
      (found : context.upvalues[index]? = some role)
      (goes : reach (here + 3) (shape.push ⟨role.copy, false⟩)) :
      Accepts context reach here (here + 3) shape
  | setUpvalue {kept : List Slot} {known : Option String} {index : Nat} (op_at : context.chunk.OpAt here .setUpvalue)
      (operand : context.chunk.operand? (here + 1) = some index)
      (found : context.upvalues[index]? = some .ordinary) (settled : Shape.Settled ⟨kept ++ [.plain], known⟩)
      (goes : reach (here + 3) ⟨kept ++ [.plain], known⟩) :
      Accepts context reach here (here + 3) ⟨kept ++ [.plain], known⟩
  | getProperty {kept : List Slot} {known : Option String} {entry : Nat} {name : String} (op_at : context.chunk.OpAt here .getProperty)
      (operand : context.chunk.operand? (here + 1) = some entry)
      (named : context.chunk.Names entry name) (grounded : kept ≠ [])
      (goes : reach (here + 3) ⟨kept ++ [.plain], known⟩) :
      Accepts context reach here (here + 3) ⟨kept ++ [.plain], known⟩
  | setProperty {kept : List Slot} {known : Option String} {entry : Nat} {name : String} (op_at : context.chunk.OpAt here .setProperty)
      (operand : context.chunk.operand? (here + 1) = some entry)
      (named : context.chunk.Names entry name) (grounded : kept ≠ [])
      (goes : reach (here + 3) ⟨kept ++ [.plain], known⟩) :
      Accepts context reach here (here + 3) ⟨kept ++ [.plain, .plain], known⟩
  | getSuper {kept : List Slot} {known : Option String} {entry : Nat} {name : String} (op_at : context.chunk.OpAt here .getSuper)
      (operand : context.chunk.operand? (here + 1) = some entry)
      (named : context.chunk.Names entry name) (grounded : kept ≠ [])
      (goes : reach (here + 3) ⟨kept ++ [.plain], known⟩) :
      Accepts context reach here (here + 3) ⟨kept ++ [.plain, ⟨.parent, false⟩], known⟩
  | binary {kept : List Slot} {known : Option String} {op : Opcode} (isBinary : op.isBinary = true) (op_at : context.chunk.OpAt here op)
      (grounded : kept ≠ []) (goes : reach (here + 1) ⟨kept ++ [.plain], known⟩) :
      Accepts context reach here (here + 1) ⟨kept ++ [.plain, .plain], known⟩
  | unary {kept : List Slot} {known : Option String} {op : Opcode} (isUnary : op.isUnary = true) (op_at : context.chunk.OpAt here op)
      (grounded : kept ≠ []) (goes : reach (here + 1) ⟨kept ++ [.plain], known⟩) :
      Accepts context reach here (here + 1) ⟨kept ++ [.plain], known⟩
  | print {kept : List Slot} {known : Option String} (op_at : context.chunk.OpAt here .print) (grounded : kept ≠ [])
      (goes : reach (here + 1) ⟨kept, known⟩) : Accepts context reach here (here + 1) ⟨kept ++ [.plain], known⟩
  | jump {distance : Nat} {shape : Shape} (op_at : context.chunk.OpAt here .jump)
      (operand : context.chunk.operand? (here + 1) = some distance)
      (goes : reach (here + 3 + distance) shape) : Accepts context reach here (here + 3) shape
  | jumpIfFalse {kept : List Slot} {known : Option String} {distance : Nat} {slot : Slot} (op_at : context.chunk.OpAt here .jumpIfFalse)
      (operand : context.chunk.operand? (here + 1) = some distance)
      (goes : reach (here + 3) ⟨kept ++ [slot], known⟩)
      (jumps : reach (here + 3 + distance) ⟨kept ++ [slot], known⟩) :
      Accepts context reach here (here + 3) ⟨kept ++ [slot], known⟩
  | loop {distance : Nat} {shape : Shape} (op_at : context.chunk.OpAt here .loop)
      (operand : context.chunk.operand? (here + 1) = some distance) (back : distance ≤ here + 3)
      (goes : reach (here + 3 - distance) shape) : Accepts context reach here (here + 3) shape
  | call {kept : List Slot} {argc : UInt8} (op_at : context.chunk.OpAt here .call)
      (operand : context.chunk.code[here + 1]? = some argc) (settled : Shape.Settled ⟨kept, none⟩)
      (grounded : kept ≠ []) (goes : reach (here + 2) ⟨kept ++ [.plain], none⟩) :
      Accepts context reach here (here + 2) ⟨kept ++ List.replicate (argc.toNat + 1) .plain, none⟩
  | invoke {kept : List Slot} {entry : Nat} {name : String} {argc : UInt8} (op_at : context.chunk.OpAt here .invoke)
      (operand : context.chunk.operand? (here + 1) = some entry)
      (named : context.chunk.Names entry name)
      (count : context.chunk.code[here + 3]? = some argc) (settled : Shape.Settled ⟨kept, none⟩)
      (grounded : kept ≠ []) (goes : reach (here + 4) ⟨kept ++ [.plain], none⟩) :
      Accepts context reach here (here + 4) ⟨kept ++ List.replicate (argc.toNat + 1) .plain, none⟩
  | superInvoke {kept : List Slot} {entry : Nat} {name : String} {argc : UInt8} (op_at : context.chunk.OpAt here .superInvoke)
      (operand : context.chunk.operand? (here + 1) = some entry)
      (named : context.chunk.Names entry name)
      (count : context.chunk.code[here + 3]? = some argc) (settled : Shape.Settled ⟨kept, none⟩)
      (grounded : kept ≠ []) (goes : reach (here + 4) ⟨kept ++ [.plain], none⟩) :
      Accepts context reach here (here + 4)
        ⟨kept ++ List.replicate (argc.toNat + 1) .plain ++ [⟨.parent, false⟩], none⟩
  | return {kept : List Slot} {known : Option String} {content : Content} (op_at : context.chunk.OpAt here .return)
      (grounded : kept ≠ []) (returns : context.manner.Returns kept content) :
      Accepts context reach here (here + 1) ⟨kept ++ [⟨content, false⟩], known⟩
  | newClass {shape : Shape} {entry : Nat} {name : String} (op_at : context.chunk.OpAt here .newClass)
      (operand : context.chunk.operand? (here + 1) = some entry)
      (named : context.chunk.Names entry name)
      (goes : reach (here + 3) (shape.push ⟨.class, false⟩)) :
      Accepts context reach here (here + 3) shape
  | inherit {kept : List Slot} {known : Option String} {isCaptured : Bool} (op_at : context.chunk.OpAt here .inherit) (grounded : kept ≠ [])
      (goes : reach (here + 1) ⟨kept ++ [⟨.superclass, isCaptured⟩], known⟩) :
      Accepts context reach here (here + 1) ⟨kept ++ [.plain, ⟨.class, false⟩], known⟩
  | method {kept : List Slot} {known : Option String} {entry : Nat} {name : String} (op_at : context.chunk.OpAt here .method)
      (operand : context.chunk.operand? (here + 1) = some entry)
      (named : context.chunk.Names entry name) (grounded : kept ≠ [])
      (goes : reach (here + 3) ⟨kept ++ [⟨.class, false⟩], known⟩) :
      Accepts context reach here (here + 3) ⟨kept ++ [⟨.class, false⟩, ⟨.closure (.ofMethod name), false⟩], known⟩

variable {context : Context} {reach exit : Points} {here : Nat}

theorem Accepts.next? (accepted : Accepts context reach here next shape) : context.chunk.next? here = some next := by
  have plain {op : Opcode} (op_at : context.chunk.OpAt here op)
      (length : (Listing.operands context.chunk here op).2 = here + 1) : context.chunk.next? here = some (here + 1) :=
    Chunk.next?_of_opAt op_at length (Chunk.lt_of_getElem? op_at)
  have wide {op : Opcode} {operand : Nat} (op_at : context.chunk.OpAt here op)
      (length : (Listing.operands context.chunk here op).2 = here + 3)
      (found : context.chunk.operand? (here + 1) = some operand) : context.chunk.next? here = some (here + 3) :=
    Chunk.next?_of_opAt op_at length (Chunk.lt_of_operand? found)
  cases accepted with
  | @literal _ op isLiteral op_at _ => exact plain op_at (by cases op <;> first | rfl | cases isLiteral)
  | constant op_at operand _ _ | string op_at operand _ _ | function op_at operand _ _ _ | getLocal op_at operand _ _ _
  | setLocal op_at operand _ _ | getGlobal op_at operand _ _ _ | defineGlobal op_at operand _ _ _ _ _
  | setGlobal op_at operand _ _ | getUpvalue op_at operand _ _ | setUpvalue op_at operand _ _ _ | getProperty op_at operand _ _ _
  | setProperty op_at operand _ _ _ | getSuper op_at operand _ _ _ | jump op_at operand _ | jumpIfFalse op_at operand _ _
  | loop op_at operand _ _ | newClass op_at operand _ _ | method op_at operand _ _ _ => exact wide op_at rfl operand
  | closure made_at _ _ _ _ _ => exact made_at.next?
  | pop op_at _ _ _ | closeUpvalue op_at _ _ | print op_at _ _ | «return» op_at _ _ | inherit op_at _ _ => exact plain op_at rfl
  | @binary _ _ op isBinary op_at _ _ => exact plain op_at (by cases op <;> first | rfl | cases isBinary)
  | @unary _ _ op isUnary op_at _ _ => exact plain op_at (by cases op <;> first | rfl | cases isUnary)
  | call op_at operand _ _ _ => exact Chunk.next?_of_opAt op_at rfl (Chunk.lt_of_getElem? operand)
  | invoke op_at _ _ count _ _ _
  | superInvoke op_at _ _ count _ _ _ => exact Chunk.next?_of_opAt op_at rfl (Chunk.lt_of_getElem? count)

/-- From the instruction in front of a shape the run may come to a place with another shape. -/
structure Onward (context : Context) (here : Nat) (shape : Shape) (place : Nat) (found : Shape) : Prop where
  flows : context.chunk.Flows here place
  receiver : ∀ receiver, shape.HasReceiver receiver → found.HasReceiver receiver

theorem Accepts.onward {wider : Points} (accepted : Accepts context reach here next shape)
    (within : ∀ place found, Onward context here shape place found → reach place found → wider place found) :
    Accepts context wider here next shape := by
  have whole := accepted.next?
  have on {op : Opcode} {found : Shape} (op_at : context.chunk.OpAt here op) (falls : op.isStraight = true)
      (receiver : ∀ receiver, shape.HasReceiver receiver → found.HasReceiver receiver) (goes : reach next found) :
      wider next found := within _ _ ⟨.on op_at (.inl falls) whole, receiver⟩ goes
  cases accepted with
  | @literal _ op isLiteral op_at goes =>
    have straight : op.isStraight = true := by cases op <;> first | rfl | cases isLiteral
    exact .literal isLiteral op_at (on op_at straight (fun _ has => has.push _) goes)
  | constant op_at operand found goes => exact .constant op_at operand found (on op_at rfl (fun _ has => has.push _) goes)
  | string op_at operand found goes => exact .string op_at operand found (on op_at rfl (fun _ has => has.push _) goes)
  | function op_at operand found closed goes =>
    exact .function op_at operand found closed (on op_at rfl (fun _ has => has.push _) goes)
  | closure made_at grounded captured closes made goes =>
    exact .closure made_at grounded captured closes made (on made_at.op_at rfl (fun _ has => has.replace grounded _ _) goes)
  | pop op_at free grounded goes => exact .pop op_at free grounded (on op_at rfl (fun _ has => has.left grounded _) goes)
  | closeUpvalue op_at grounded goes => exact .closeUpvalue op_at grounded (on op_at rfl (fun _ has => has.left grounded _) goes)
  | getLocal op_at operand found copies goes =>
    exact .getLocal op_at operand found copies (on op_at rfl (fun _ has => has.push _) goes)
  | setLocal op_at operand found goes => exact .setLocal op_at operand found (on op_at rfl (fun _ => id) goes)
  | getGlobal op_at operand named holds goes =>
    exact .getGlobal op_at operand named holds (on op_at rfl (fun _ has => has.push _) goes)
  | defineGlobal op_at operand named isValue learns grounded goes =>
    exact .defineGlobal op_at operand named isValue learns grounded (on op_at rfl (fun _ has => has.left grounded _) goes)
  | setGlobal op_at operand named goes => exact .setGlobal op_at operand named (on op_at rfl (fun _ => id) goes)
  | getUpvalue op_at operand found goes => exact .getUpvalue op_at operand found (on op_at rfl (fun _ has => has.push _) goes)
  | setUpvalue op_at operand found settled goes => exact .setUpvalue op_at operand found settled (on op_at rfl (fun _ => id) goes)
  | getProperty op_at operand named grounded goes =>
    exact .getProperty op_at operand named grounded (on op_at rfl (fun _ => id) goes)
  | setProperty op_at operand named grounded goes =>
    exact .setProperty op_at operand named grounded (on op_at rfl (fun _ has => has.replace grounded _ _) goes)
  | getSuper op_at operand named grounded goes =>
    exact .getSuper op_at operand named grounded (on op_at rfl (fun _ has => has.replace grounded _ _) goes)
  | @binary _ _ op isBinary op_at grounded goes =>
    have straight : op.isStraight = true := by cases op <;> first | rfl | cases isBinary
    exact .binary isBinary op_at grounded (on op_at straight (fun _ has => has.replace grounded _ _) goes)
  | @unary _ _ op isUnary op_at grounded goes =>
    have straight : op.isStraight = true := by cases op <;> first | rfl | cases isUnary
    exact .unary isUnary op_at grounded (on op_at straight (fun _ => id) goes)
  | print op_at grounded goes => exact .print op_at grounded (on op_at rfl (fun _ has => has.left grounded _) goes)
  | jump op_at operand goes => exact .jump op_at operand (within _ _ ⟨.forth op_at (.inl rfl) operand, fun _ => id⟩ goes)
  | jumpIfFalse op_at operand goes jumps =>
    exact .jumpIfFalse op_at operand (within _ _ ⟨.on op_at (.inr rfl) whole, fun _ => id⟩ goes)
      (within _ _ ⟨.forth op_at (.inr rfl) operand, fun _ => id⟩ jumps)
  | loop op_at operand back goes => exact .loop op_at operand back (within _ _ ⟨.back op_at operand, fun _ => id⟩ goes)
  | call op_at operand settled grounded goes =>
    exact .call op_at operand settled grounded (on op_at rfl (fun _ has => has.replace grounded _ _) goes)
  | invoke op_at operand named count settled grounded goes =>
    exact .invoke op_at operand named count settled grounded (on op_at rfl (fun _ has => has.replace grounded _ _) goes)
  | superInvoke op_at operand named count settled grounded goes =>
    refine .superInvoke op_at operand named count settled grounded (on op_at rfl (fun _ has => ?_) goes)
    rw [List.append_assoc] at has
    exact has.replace grounded _ _
  | «return» op_at grounded returns => exact .return op_at grounded returns
  | newClass op_at operand named goes => exact .newClass op_at operand named (on op_at rfl (fun _ has => has.push _) goes)
  | inherit op_at grounded goes => exact .inherit op_at grounded (on op_at rfl (fun _ has => has.replace grounded _ _) goes)
  | method op_at operand named grounded goes =>
    exact .method op_at operand named grounded (on op_at rfl (fun _ has => has.replace grounded _ _) goes)

theorem Accepts.mono {wider : Points} (accepted : Accepts context reach here next shape)
    (within : ∀ place found, reach place found → wider place found) : Accepts context wider here next shape :=
  accepted.onward fun place found _ => within place found

/-- Shapes for offsets of the code. -/
abbrev Shapes := Nat → Option Shape

/-- The offset has a shape that what is found there is within. -/
def Shapes.Meet (shapes : Shapes) : Points :=
  fun place found => ∃ shape, shapes place = some shape ∧ found.Within shape

/-- The shapes belong to the code from `start` to `stop`, which may be entered at the points of `entry` and goes on
at those of `exit`. Its instructions follow each other without a gap. -/
structure Covering (context : Context) (start stop : Nat) (entry exit : Points) (shapes : Shapes) : Prop where
  decodes : context.chunk.Decodes start stop
  inside : ∀ place shape, shapes place = some shape → context.chunk.Decodes start place ∧ place < stop
  first : (shapes start).isSome = true
  entered : ∀ place found, entry place found → shapes.Meet place found
  accepted : ∀ place shape, shapes place = some shape →
    ∃ next, Accepts context (fun place found => shapes.Meet place found ∨ exit place found) place next shape ∧
      (next = stop ∨ (shapes next).isSome = true)

/-- The code from `start` to `stop`, which is not empty, can be given shapes. -/
def Block (context : Context) (start stop : Nat) (entry exit : Points) : Prop :=
  ∃ shapes, Covering context start stop entry exit shapes

namespace Block

variable {start middle stop : Nat} {entry : Points}

theorem mono {entry' exit' : Points} (block : Block context start stop entry exit)
    (enters : ∀ place found, entry' place found → entry place found)
    (leaves : ∀ place found, exit place found → exit' place found) : Block context start stop entry' exit' := by
  obtain ⟨shapes, covering⟩ := block
  refine ⟨shapes, covering.decodes, covering.inside, covering.first,
    fun place found at_ => covering.entered _ _ (enters _ _ at_), ?_⟩
  intro place shape given
  obtain ⟨next, accepts, follows⟩ := covering.accepted place shape given
  exact ⟨next, accepts.mono fun _ _ goes => goes.imp id (leaves _ _), follows⟩

theorem single (accepts : Accepts context exit here next shape) : Block context here next (.at here shape) exit := by
  refine ⟨fun place => if place = here then some shape else none, .single accepts.next?, ?_, by simp, ?_, ?_⟩
  · intro place found given
    split at given
    · next same =>
      subst same
      exact ⟨.done place, Chunk.next?_gt accepts.next?⟩
    · cases given
  · rintro place found ⟨same, within⟩
    exact ⟨shape, by simp [same], within⟩
  · intro place found given
    split at given
    · next same =>
      cases given
      subst same
      exact ⟨next, accepts.mono fun _ _ => .inr, .inl rfl⟩
    · cases given

theorem join {entry₁ entry₂ exit₁ exit₂ : Points} (first : Block context start middle entry₁ exit₁)
    (second : Block context middle stop entry₂ exit₂)
    (enters : ∀ place found, entry place found → entry₁ place found ∨ entry₂ place found)
    (leaves : ∀ place found, exit₁ place found ∨ exit₂ place found →
      entry₁ place found ∨ entry₂ place found ∨ exit place found) : Block context start stop entry exit := by
  obtain ⟨shapes₁, covering₁⟩ := first
  obtain ⟨shapes₂, covering₂⟩ := second
  -- Each place gets its shape from the block that it is in.
  let shapes : Shapes := fun place => if place < middle then shapes₁ place else shapes₂ place
  have lower {place : Nat} {shape : Shape} (given : shapes₁ place = some shape) : shapes place = some shape := by
    simp only [shapes, if_pos (covering₁.inside _ _ given).2, given]
  have upper {place : Nat} {shape : Shape} (given : shapes₂ place = some shape) : shapes place = some shape := by
    simp only [shapes, if_neg (Nat.not_lt.mpr (covering₂.inside _ _ given).1.le), given]
  have meets {place : Nat} {found : Shape} (enter : entry₁ place found ∨ entry₂ place found) :
      shapes.Meet place found := by
    rcases enter with one | two
    · obtain ⟨shape, given, within⟩ := covering₁.entered _ _ one
      exact ⟨shape, lower given, within⟩
    · obtain ⟨shape, given, within⟩ := covering₂.entered _ _ two
      exact ⟨shape, upper given, within⟩
  have goes {place : Nat} {found : Shape} (leave : exit₁ place found ∨ exit₂ place found) :
      shapes.Meet place found ∨ exit place found := by
    rcases leaves _ _ leave with one | two | out
    · exact .inl (meets (.inl one))
    · exact .inl (meets (.inr two))
    · exact .inr out
  have second_given : (shapes middle).isSome = true := by
    simpa only [shapes, if_neg (Nat.lt_irrefl middle)] using covering₂.first
  obtain ⟨shape, given⟩ := Option.isSome_iff_exists.mp covering₁.first
  obtain ⟨last, given'⟩ := Option.isSome_iff_exists.mp covering₂.first
  have middle_lt : middle < stop := (covering₂.inside _ _ given').2
  refine ⟨shapes, covering₁.decodes.trans covering₂.decodes, ?_, by rw [lower given]; rfl,
    fun place found at_ => meets (enters _ _ at_), ?_⟩
  · intro place shape given
    by_cases below : place < middle
    · simp only [shapes, if_pos below] at given
      exact ⟨(covering₁.inside _ _ given).1, Nat.lt_trans below middle_lt⟩
    · simp only [shapes, if_neg below] at given
      obtain ⟨decodes, above⟩ := covering₂.inside _ _ given
      exact ⟨covering₁.decodes.trans decodes, above⟩
  · intro place shape given
    -- What leaves the one block to enter the other goes to a place with a shape.
    by_cases below : place < middle
    · simp only [shapes, if_pos below] at given
      obtain ⟨next, accepts, follows⟩ := covering₁.accepted _ _ given
      refine ⟨next, accepts.mono fun place found reach => ?_, ?_⟩
      · rcases reach with ⟨shape, given, within⟩ | out
        · exact .inl ⟨shape, lower given, within⟩
        · exact goes (.inl out)
      · rcases follows with rfl | some
        · exact .inr second_given
        · obtain ⟨shape, given⟩ := Option.isSome_iff_exists.mp some
          exact .inr (by rw [lower given]; rfl)
    · simp only [shapes, if_neg below] at given
      obtain ⟨next, accepts, follows⟩ := covering₂.accepted _ _ given
      refine ⟨next, accepts.mono fun place found reach => ?_, ?_⟩
      · rcases reach with ⟨shape, given, within⟩ | out
        · exact .inl ⟨shape, upper given, within⟩
        · exact goes (.inr out)
      · rcases follows with rfl | some
        · exact .inl rfl
        · obtain ⟨shape, given⟩ := Option.isSome_iff_exists.mp some
          exact .inr (by rw [upper given]; rfl)

theorem seq (first : Block context start middle entry (.at middle shape))
    (second : Block context middle stop (.at middle shape) exit) : Block context start stop entry exit :=
  first.join second (fun _ _ => .inl) fun _ _ leave => leave.elim (.inr ∘ .inl) (.inr ∘ .inr)

theorem within {before before' after after' : Shape}
    (block : Block context start stop (.at start before) (.at stop after)) (more : before'.Within before)
    (less : after.Within after') : Block context start stop (.at start before') (.at stop after') :=
  block.mono (fun _ _ ⟨same, found⟩ => ⟨same, found.trans more⟩) fun _ _ ⟨same, found⟩ => ⟨same, found.trans less⟩

end Block

/-- The code from `start` to `stop` leads from one shape to another, or there is no code. -/
def Segment (context : Context) (start stop : Nat) (before after : Shape) : Prop :=
  start = stop ∧ before = after ∨ Block context start stop (.at start before) (.at stop after)

namespace Segment

variable {start middle stop : Nat} {before between after : Shape}

theorem refl (context : Context) (start : Nat) (shape : Shape) : Segment context start start shape shape :=
  .inl ⟨rfl, rfl⟩

theorem trans (first : Segment context start middle before between) (second : Segment context middle stop between after) :
    Segment context start stop before after := by
  rcases first with ⟨rfl, rfl⟩ | first
  · exact second
  · rcases second with ⟨rfl, rfl⟩ | second
    · exact .inr first
    · exact .inr (first.seq second)

theorem of_block (block : Block context start stop (.at start before) (.at stop after)) :
    Segment context start stop before after :=
  .inr block

theorem decodes (segment : Segment context start stop before after) : context.chunk.Decodes start stop := by
  rcases segment with ⟨rfl, -⟩ | ⟨shapes, covering⟩
  · exact .done start
  · exact covering.decodes

theorem after_block {entry : Points} (first : Block context start middle entry (.at middle before))
    (second : Segment context middle stop before after) : Block context start stop entry (.at stop after) := by
  rcases second with ⟨rfl, rfl⟩ | second
  · exact first
  · exact first.seq second

theorem after_branch {entry : Points}
    (first : Block context start middle entry fun place found => Points.at middle before place found ∨ exit place found)
    (second : Segment context middle stop before after)
    (ends : ∀ place found, Points.at stop after place found → exit place found) : Block context start stop entry exit := by
  rcases second with ⟨rfl, rfl⟩ | second
  · exact first.mono (fun _ _ => id) fun _ _ leave => leave.elim (ends _ _) id
  · refine first.join second (fun _ _ => .inl) ?_
    rintro place found ((on | out) | stops)
    · exact .inr (.inl on)
    · exact .inr (.inr out)
    · exact .inr (.inr (ends _ _ stops))

theorem before_block (first : Segment context start middle before after)
    (second : Block context middle stop (.at middle after) exit) : Block context start stop (.at start before) exit := by
  rcases first with ⟨rfl, rfl⟩ | first
  · exact second
  · exact first.seq second

end Segment

/-- What the lowest slot of a function holds at a call: the receiver of a method, or what is called. -/
def Manner.lowest (manner : Manner) (callee : Value) : Content :=
  match manner with
  | .function => .value
  | .method | .initializer => .receiver callee

/-- The slots of a function at a call: the callee or receiver, and the arguments. -/
def Manner.entry (manner : Manner) (callee : Value) (isCaptured : Bool) (arguments : List Bool) : Shape :=
  ⟨⟨manner.lowest callee, isCaptured⟩ :: arguments.map (⟨.value, ·⟩), none⟩

theorem Manner.entry_hasReceiver {manner : Manner} (isMethod : manner ≠ .function) (callee : Value) (isCaptured : Bool)
    (arguments : List Bool) : (manner.entry callee isCaptured arguments).HasReceiver callee := by
  cases manner with
  | function => exact absurd rfl isMethod
  | method | initializer => exact ⟨isCaptured, rfl⟩

/-- The code of a function can be given shapes, whatever closures are made of it and whatever it is called on: at a call
there are the callee and the arguments, and the code never runs off its end. `upvalues` says what the captured variables are
for. -/
def Verified (proto : Proto) (manner : Manner) (upvalues : List Role) : Prop :=
  upvalues.length = proto.captures.size ∧
    ∃ (isCaptured : Bool) (arguments : List Bool), arguments.length = proto.arity ∧ ∀ callee,
      Block ⟨proto, manner, upvalues, fun nested manner tags =>
          ∃ _ : nested ∈ proto.chunk.functions, Verified nested manner tags⟩
        0 proto.chunk.code.size (.at 0 (manner.entry callee isCaptured arguments)) .none
termination_by proto
decreasing_by exact Proto.sizeOf_lt_of_mem ‹_›

/-- The context of a verified function: the functions nested in it are verified too. -/
def Context.within (proto : Proto) (manner : Manner) (upvalues : List Role) : Context :=
  ⟨proto, manner, upvalues, fun nested manner tags => nested ∈ proto.chunk.functions ∧ Verified nested manner tags⟩

theorem verified_iff (proto : Proto) (manner : Manner) (upvalues : List Role) :
    Verified proto manner upvalues ↔ upvalues.length = proto.captures.size ∧
      ∃ (isCaptured : Bool) (arguments : List Bool), arguments.length = proto.arity ∧ ∀ callee,
        Block (.within proto manner upvalues) 0 proto.chunk.code.size (.at 0 (manner.entry callee isCaptured arguments)) .none := by
  rw [Verified]
  simp only [Context.within, exists_prop]

/-- The code reads as instructions from its first byte to its last, and the last one is a return. -/
def Chunk.EndsInReturn (chunk : Chunk Proto) : Prop :=
  ∃ last, chunk.Decodes 0 last ∧ chunk.OpAt last .return ∧ last + 1 = chunk.code.size

/-- The function and all the functions inside it are verified, and end in a return. -/
inductive Sealed : Proto → Prop where
  | intro {proto : Proto} {manner : Manner} {tags : List Role} (verified : Verified proto manner tags) (ends : proto.chunk.EndsInReturn)
      (nested : ∀ inner ∈ proto.chunk.functions, Sealed inner) : Sealed proto

/-- A script is verified if its code can be given shapes: it starts with itself on the stack. -/
def VerifiedScript (script : Proto) : Prop :=
  script.arity = 0 ∧
    Block (.within script .function []) 0 script.chunk.code.size (.at 0 ⟨[⟨.function script, false⟩], none⟩) .none

/-- A script that is done: it is verified, as are all the functions inside it, it captures nothing and ends in a return. -/
structure SealedScript (script : Proto) : Prop where
  verified : VerifiedScript script
  captures : script.captures = #[]
  ends : script.chunk.EndsInReturn
  nested : ∀ inner ∈ script.chunk.functions, Sealed inner

end StackScript
