import StackScript.Proofs.WellFormedCode

/-!
The height of the stack in front of an instruction. Each instruction takes a number of values off the stack and leaves a
number of values there, and the run goes on behind it or where it jumps to. Whatever way a run takes to an instruction of
a compiled function, it finds the same height there; the lowest slot is never taken.
-/

namespace StackScript

variable {op : Opcode} {offset : Nat} {proto : Proto} {shape : Shape}

/-- How many values an instruction takes, where `argc` arguments are passed. -/
def Opcode.taken (argc : Nat) : Opcode → Nat
  | .constant | .string | .function | .pushNil | .pushTrue | .pushFalse | .getLocal | .setLocal | .getGlobal | .setGlobal
  | .getUpvalue | .setUpvalue | .jump | .jumpIfFalse | .loop | .newClass => 0
  | .pop | .closeUpvalue | .print | .defineGlobal | .getProperty | .not | .negate | .closure | .return => 1
  | .setProperty | .getSuper | .equal | .greater | .less | .add | .subtract | .multiply | .divide | .inherit | .method => 2
  | .call | .invoke => argc + 1
  | .superInvoke => argc + 2

/-- How many values an instruction leaves in their place. -/
def Opcode.left : Opcode → Nat
  | .setLocal | .setGlobal | .setUpvalue | .jump | .jumpIfFalse | .loop | .pop | .closeUpvalue | .print | .defineGlobal
  | .return => 0
  | _ => 1

namespace Chunk

def argc (chunk : Chunk Proto) (offset : Nat) : Opcode → Nat
  | .call => (chunk.code[offset + 1]?.map UInt8.toNat).getD 0
  | .invoke | .superInvoke => (chunk.code[offset + 3]?.map UInt8.toNat).getD 0
  | _ => 0

def taken (chunk : Chunk Proto) (offset : Nat) (op : Opcode) : Nat :=
  op.taken (chunk.argc offset op)

/-- Some way leads to the offset from the first instruction. -/
inductive Reachable (chunk : Chunk Proto) : Nat → Prop where
  | entry : Reachable chunk 0
  | step {offset target : Nat} (reached : Reachable chunk offset) (flows : chunk.Flows offset target) :
      Reachable chunk target

variable {chunk : Chunk Proto} {target next distance : Nat}

section

variable (flows : chunk.Flows offset target)
include flows

theorem Flows.opAt : ∃ op, chunk.OpAt offset op := by
  cases flows with
  | on op_at _ _ | forth op_at _ _ | back op_at _ => exact ⟨_, op_at⟩

theorem Flows.straight (op_at : chunk.OpAt offset op) (straight : op.isStraight = true)
    (whole : chunk.next? offset = some next) : target = next := by
  cases flows with
  | on _ _ whole' => exact Option.some.inj (whole'.symm.trans whole)
  | forth op_at' jumps _ =>
    cases op_at.unique op_at'
    rcases jumps with rfl | rfl <;> cases straight
  | back op_at' _ =>
    cases op_at.unique op_at'
    cases straight

theorem Flows.jump (op_at : chunk.OpAt offset .jump)
    (operand : chunk.operand? (offset + 1) = some distance) : target = offset + 3 + distance := by
  cases flows with
  | on op_at' falls _ =>
    cases op_at.unique op_at'
    rcases falls with straight | other
    · cases straight
    · cases other
  | forth _ _ operand' => rw [Option.some.inj (operand'.symm.trans operand)]
  | back op_at' _ => cases op_at.unique op_at'

theorem Flows.jumpIfFalse (op_at : chunk.OpAt offset .jumpIfFalse)
    (operand : chunk.operand? (offset + 1) = some distance) (whole : chunk.next? offset = some next) :
    target = next ∨ target = offset + 3 + distance := by
  cases flows with
  | on _ _ whole' => exact .inl (Option.some.inj (whole'.symm.trans whole))
  | forth _ _ operand' =>
    right
    rw [Option.some.inj (operand'.symm.trans operand)]
  | back op_at' _ => cases op_at.unique op_at'

theorem Flows.loop (op_at : chunk.OpAt offset .loop)
    (operand : chunk.operand? (offset + 1) = some distance) : target = offset + 3 - distance := by
  cases flows with
  | on op_at' falls _ =>
    cases op_at.unique op_at'
    rcases falls with straight | other
    · cases straight
    · cases other
  | forth op_at' jumps _ =>
    cases op_at.unique op_at'
    rcases jumps with other | other <;> cases other
  | back _ operand' => rw [Option.some.inj (operand'.symm.trans operand)]

theorem Flows.not_return : ¬ chunk.OpAt offset .return := by
  intro op_at
  cases flows with
  | on op_at' falls _ =>
    cases op_at.unique op_at'
    rcases falls with straight | other
    · cases straight
    · cases other
  | forth op_at' jumps _ =>
    cases op_at.unique op_at'
    rcases jumps with other | other <;> cases other
  | back op_at' _ => cases op_at.unique op_at'

end

end Chunk

/-- One height for each place in the code of a function that a run can get to. -/
structure Proto.Heights (proto : Proto) (height : Nat → Nat) : Prop where
  starts : ∀ offset, proto.chunk.Reachable offset → proto.chunk.Starts offset
  entry : height 0 = proto.arity + 1
  edge : ∀ offset target op, proto.chunk.Reachable offset → proto.chunk.OpAt offset op → proto.chunk.Flows offset target →
    height target + proto.chunk.taken offset op = height offset + op.left
  above : ∀ offset op, proto.chunk.Reachable offset → proto.chunk.OpAt offset op →
    proto.chunk.taken offset op < height offset
  locals : ∀ offset op slot, proto.chunk.Reachable offset → proto.chunk.OpAt offset op → op = .getLocal ∨ op = .setLocal →
    proto.chunk.operand? (offset + 1) = some slot → slot < height offset
  captures : ∀ offset count i slot, proto.chunk.Reachable offset → proto.chunk.OpAt offset .closure →
    proto.chunk.operand? (offset + 1) = some count → i < count → proto.chunk.code[offset + 3 + 3 * i]? = some 1 →
    proto.chunk.operand? (offset + 4 + 3 * i) = some slot → slot < height offset

theorem Proto.Heights.unique {height height' : Nat → Nat} (one : proto.Heights height) (other : proto.Heights height')
    (reached : proto.chunk.Reachable offset) : height offset = height' offset := by
  induction reached with
  | entry => rw [one.entry, other.entry]
  | @step offset target reached flows ih =>
    obtain ⟨op, op_at⟩ := flows.opAt
    have here := one.edge offset target op reached op_at flows
    have there := other.edge offset target op reached op_at flows
    omega

section Accepted

variable {context : Context} {reach : Points} {here next : Nat}

/-- What an instruction needs of the height in front of it, and what the height is where the run goes on. -/
structure Balanced (context : Context) (reach : Points) (here : Nat) (op : Opcode) (height : Nat) : Prop where
  above : context.chunk.taken here op < height
  goes : ∀ target, context.chunk.Flows here target →
    ∃ found, reach target found ∧ found.slots.length + context.chunk.taken here op = height + op.left

section

variable (op_at : context.chunk.OpAt here op)
include op_at

theorem Balanced.straight {height : Nat} {after : Shape} (straight : op.isStraight = true)
    (whole : context.chunk.next? here = some next) (goes : reach next after) (above : context.chunk.taken here op < height)
    (length : after.slots.length + context.chunk.taken here op = height + op.left) : Balanced context reach here op height := by
  refine ⟨above, fun target flows => ⟨after, ?_, length⟩⟩
  rw [flows.straight op_at straight whole]
  exact goes

theorem Balanced.pushes {slot : Slot} (straight : op.isStraight = true)
    (whole : context.chunk.next? here = some next) (goes : reach next (shape.push slot)) (grounded : shape.slots ≠ [])
    (takes : context.chunk.taken here op = 0) (leaves : op.left = 1) : Balanced context reach here op shape.slots.length := by
  have height : 0 < shape.slots.length := List.length_pos_iff.mpr grounded
  refine .straight op_at straight whole goes (by omega) ?_
  rw [takes, leaves, Shape.push, List.length_append, List.length_singleton]

theorem Balanced.replaces {kept old new : List Slot} {known known' : Option String}
    (straight : op.isStraight = true) (whole : context.chunk.next? here = some next) (goes : reach next ⟨kept ++ new, known'⟩)
    (grounded : kept ≠ []) (takes : context.chunk.taken here op = old.length) (leaves : op.left = new.length) :
    Balanced context reach here op (Shape.slots ⟨kept ++ old, known⟩).length := by
  have height : 0 < kept.length := List.length_pos_iff.mpr grounded
  refine .straight op_at straight whole goes ?_ ?_
  · rw [takes, List.length_append]
    omega
  · rw [takes, leaves, List.length_append, List.length_append]
    omega

theorem Balanced.looks (straight : op.isStraight = true)
    (whole : context.chunk.next? here = some next) (goes : reach next shape) (grounded : shape.slots ≠ [])
    (takes : context.chunk.taken here op = 0) (leaves : op.left = 0) : Balanced context reach here op shape.slots.length := by
  refine .straight op_at straight whole goes (takes ▸ List.length_pos_iff.mpr grounded) ?_
  rw [takes, leaves]

end

theorem Accepts.balanced (accepted : Accepts context reach here next shape) (grounded : shape.slots ≠ [])
    (op_at : context.chunk.OpAt here op) : Balanced context reach here op shape.slots.length := by
  have whole := accepted.next?
  have height : 0 < shape.slots.length := List.length_pos_iff.mpr grounded
  cases accepted with
  | literal isLiteral op_at' goes =>
    cases op_at.unique op_at'
    cases op <;> cases isLiteral <;> exact .pushes op_at rfl whole goes grounded rfl rfl
  | constant op_at' _ _ goes | string op_at' _ _ goes | function op_at' _ _ _ goes | getLocal op_at' _ _ _ goes
  | getGlobal op_at' _ _ _ goes | getUpvalue op_at' _ _ goes | newClass op_at' _ _ goes =>
    cases op_at.unique op_at'
    exact .pushes op_at rfl whole goes grounded rfl rfl
  | setLocal op_at' _ _ goes | setGlobal op_at' _ _ goes | setUpvalue op_at' _ _ _ goes =>
    cases op_at.unique op_at'
    exact .looks op_at rfl whole goes grounded rfl rfl
  | closure made_at kept_grounded _ _ _ goes =>
    cases op_at.unique made_at.op_at
    exact .replaces op_at rfl whole goes kept_grounded rfl rfl
  | @pop kept _ _ op_at' _ kept_grounded goes | @closeUpvalue kept _ _ op_at' kept_grounded goes
  | @print kept _ op_at' kept_grounded goes | @defineGlobal kept _ _ _ _ op_at' _ _ _ _ kept_grounded goes =>
    cases op_at.unique op_at'
    rw [← List.append_nil kept] at goes
    exact .replaces op_at rfl whole goes kept_grounded rfl rfl
  | getProperty op_at' _ _ kept_grounded goes | setProperty op_at' _ _ kept_grounded goes
  | getSuper op_at' _ _ kept_grounded goes | inherit op_at' kept_grounded goes | method op_at' _ _ kept_grounded goes =>
    cases op_at.unique op_at'
    exact .replaces op_at rfl whole goes kept_grounded rfl rfl
  | binary isBinary op_at' kept_grounded goes =>
    cases op_at.unique op_at'
    cases op <;> cases isBinary <;> exact .replaces op_at rfl whole goes kept_grounded rfl rfl
  | unary isUnary op_at' kept_grounded goes =>
    cases op_at.unique op_at'
    cases op <;> cases isUnary <;> exact .replaces op_at rfl whole goes kept_grounded rfl rfl
  | call op_at' operand _ kept_grounded goes =>
    cases op_at.unique op_at'
    refine .replaces op_at rfl whole goes kept_grounded ?_ rfl
    simp [Chunk.taken, Opcode.taken, Chunk.argc, operand]
  | invoke op_at' _ _ count _ kept_grounded goes =>
    cases op_at.unique op_at'
    refine .replaces op_at rfl whole goes kept_grounded ?_ rfl
    simp [Chunk.taken, Opcode.taken, Chunk.argc, count]
  | superInvoke op_at' _ _ count _ kept_grounded goes =>
    cases op_at.unique op_at'
    rw [List.append_assoc]
    refine .replaces op_at rfl whole goes kept_grounded ?_ rfl
    simp [Chunk.taken, Opcode.taken, Chunk.argc, count]
  | jump op_at' operand goes =>
    cases op_at.unique op_at'
    refine ⟨height, fun target flows => ⟨_, ?_, rfl⟩⟩
    rw [flows.jump op_at operand]
    exact goes
  | jumpIfFalse op_at' operand goes jumps =>
    cases op_at.unique op_at'
    refine ⟨height, fun target flows => ⟨_, ?_, rfl⟩⟩
    rcases flows.jumpIfFalse op_at operand whole with rfl | rfl
    · exact goes
    · exact jumps
  | loop op_at' operand _ goes =>
    cases op_at.unique op_at'
    refine ⟨height, fun target flows => ⟨_, ?_, rfl⟩⟩
    rw [flows.loop op_at operand]
    exact goes
  | «return» op_at' kept_grounded =>
    cases op_at.unique op_at'
    refine ⟨?_, fun target flows => absurd op_at flows.not_return⟩
    have below : 0 < List.length _ := List.length_pos_iff.mpr kept_grounded
    rw [List.length_append]
    exact Nat.lt_add_of_pos_left below

theorem Accepts.local_lt (accepted : Accepts context reach here next shape) {slot : Nat} (op_at : context.chunk.OpAt here op)
    (reads : op = .getLocal ∨ op = .setLocal) (operand : context.chunk.operand? (here + 1) = some slot) :
    slot < shape.slots.length := by
  cases accepted with
  | getLocal _ operand' found =>
    cases operand.symm.trans operand'
    exact (List.getElem?_eq_some_iff.mp found).1
  | setLocal _ operand' found =>
    cases operand.symm.trans operand'
    exact Nat.lt_of_lt_of_le (List.getElem?_eq_some_iff.mp found).1 (by simp)
  | literal isLiteral op_at' | binary isLiteral op_at' | unary isLiteral op_at' =>
    cases op_at.unique op_at'
    rcases reads with rfl | rfl <;> cases isLiteral
  | closure made_at =>
    cases op_at.unique made_at.op_at
    rcases reads with other | other <;> cases other
  | _ =>
    rename context.chunk.OpAt here _ => op_at'
    cases op_at.unique op_at'
    rcases reads with other | other <;> cases other

theorem Accepts.capture_lt (accepted : Accepts context reach here next shape) {count i slot : Nat}
    (op_at : context.chunk.OpAt here .closure) (counted : context.chunk.operand? (here + 1) = some count)
    (below : i < count) (flag : context.chunk.code[here + 3 + 3 * i]? = some 1)
    (operand : context.chunk.operand? (here + 4 + 3 * i) = some slot) : slot < shape.slots.length := by
  cases accepted with
  | @closure kept _ nested _ result _ made_at _ captured =>
    cases counted.symm.trans made_at.count
    obtain ⟨flag', operand'⟩ := made_at.inline i _ (Array.getElem?_eq_getElem below)
    cases operand.symm.trans operand'
    have isLocal : nested.captures[i].isLocal = true := by
      by_contra isUpvalue
      rw [flag, if_neg isUpvalue] at flag'
      cases flag'
    have below' : i < nested.captures.toList.length := by simpa using below
    have captures := captured.get below' (captured.length_eq ▸ below')
    rw [List.get_eq_getElem, Array.getElem_toList, Captures, if_pos isLocal] at captures
    obtain ⟨_, found, -⟩ := captures
    -- The closure takes the place of its function.
    simpa using (List.getElem?_eq_some_iff.mp found).1
  | literal isLiteral op_at' | binary isLiteral op_at' | unary isLiteral op_at' =>
    cases op_at.unique op_at'
    cases isLiteral
  | _ =>
    rename context.chunk.OpAt here _ => op_at'
    cases op_at.unique op_at'

end Accepted

theorem Shape.Within.length_eq {found : Shape} (within : found.Within shape) : found.slots.length = shape.slots.length :=
  within.slots.length_eq

def Shapes.height (shapes : Shapes) (offset : Nat) : Nat :=
  ((shapes offset).map fun shape => shape.slots.length).getD 0

section Covering

variable {manner : Manner} {tags : List Role} {own : Shape} {entry : Points} {shapes : Shapes}

theorem Shapes.height_eq (given : shapes offset = some shape) : shapes.height offset = shape.slots.length := by
  rw [height, given]
  rfl

theorem Shapes.Meet.height_eq {found : Shape} (meets : shapes.Meet offset found) : shapes.height offset = found.slots.length := by
  obtain ⟨shape, given, within⟩ := meets
  rw [Shapes.height_eq given, within.length_eq]

theorem Covering.reached (covering : Covering (.within proto manner tags) 0 proto.chunk.code.size entry .none shapes)
    (enters : entry 0 own) (length : own.slots.length = proto.arity + 1) (reached : proto.chunk.Reachable offset) :
    ∃ shape, shapes offset = some shape ∧ shape.slots ≠ [] := by
  induction reached with
  | entry =>
    obtain ⟨shape, given, within⟩ := covering.entered 0 own enters
    refine ⟨shape, given, List.length_pos_iff.mp ?_⟩
    rw [← within.length_eq, length]
    exact Nat.succ_pos _
  | @step offset target _ flows ih =>
    obtain ⟨shape, given, grounded⟩ := ih
    obtain ⟨next, accepts, -⟩ := covering.accepted offset shape given
    obtain ⟨op, op_at⟩ := flows.opAt
    have balanced := accepts.balanced grounded op_at
    obtain ⟨found, meets | out, height⟩ := balanced.goes target flows
    · obtain ⟨after, given, within⟩ := meets
      refine ⟨after, given, List.length_pos_iff.mp ?_⟩
      have above := balanced.above
      have same := within.length_eq
      omega
    · cases out

theorem Covering.heights (covering : Covering (.within proto manner tags) 0 proto.chunk.code.size entry .none shapes)
    (enters : entry 0 own) (length : own.slots.length = proto.arity + 1) : proto.Heights shapes.height := by
  have shaped {offset : Nat} (reached : proto.chunk.Reachable offset) : ∃ shape next,
      shapes.height offset = shape.slots.length ∧ shape.slots ≠ [] ∧ Accepts (.within proto manner tags)
        (fun place found => shapes.Meet place found ∨ Points.none place found) offset next shape := by
    obtain ⟨shape, given, grounded⟩ := covering.reached enters length reached
    obtain ⟨next, accepts, -⟩ := covering.accepted offset shape given
    exact ⟨shape, next, Shapes.height_eq given, grounded, accepts⟩
  constructor
  case starts =>
    intro offset reached
    obtain ⟨shape, given, -⟩ := covering.reached enters length reached
    exact (covering.starts_iff offset).mpr ⟨shape, given⟩
  case entry => rw [(covering.entered 0 own enters).height_eq, length]
  case edge =>
    intro offset target op reached op_at flows
    obtain ⟨shape, next, height, grounded, accepts⟩ := shaped reached
    obtain ⟨found, meets | out, balance⟩ := (accepts.balanced grounded op_at).goes target flows
    · rw [meets.height_eq, height]
      exact balance
    · cases out
  case above =>
    intro offset op reached op_at
    obtain ⟨shape, next, height, grounded, accepts⟩ := shaped reached
    rw [height]
    exact (accepts.balanced grounded op_at).above
  case locals =>
    intro offset op slot reached op_at reads operand
    obtain ⟨shape, next, height, -, accepts⟩ := shaped reached
    rw [height]
    exact accepts.local_lt op_at reads operand
  case captures =>
    intro offset count i slot reached op_at counted below flag operand
    obtain ⟨shape, next, height, -, accepts⟩ := shaped reached
    rw [height]
    exact accepts.capture_lt op_at counted below flag operand

end Covering

theorem SealedScript.heights {script : Proto} (done : SealedScript script) (inside : script.Contains proto) :
    ∃ height, proto.Heights height := by
  rcases done.contains inside with rfl | ⟨verified, -, -⟩
  · obtain ⟨arity, shapes, covering⟩ := done.verified
    exact ⟨_, covering.heights ⟨rfl, .refl _⟩ (by rw [arity]; rfl)⟩
  · obtain ⟨-, isCaptured, arguments, count, covered⟩ := (verified_iff _ _ _).mp verified
    obtain ⟨shapes, covering⟩ := covered .nil
    exact ⟨_, covering.heights ⟨rfl, .refl _⟩ (by simp [Manner.entry, count])⟩

end StackScript
