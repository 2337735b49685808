import StackScript.Proofs.SourceCode

/-!
Compiled code is well-formed: it reads as instructions from front to back, jumps land on instructions, and every operand
refers to what its instruction needs. This holds of a script and of every function inside it.
-/

namespace StackScript

/-- The function itself, and the functions inside it. -/
inductive Proto.Contains (script : Proto) : Proto → Prop where
  | self : script.Contains script
  | nested {outer inner : Proto} (around : script.Contains outer) (member : inner ∈ outer.chunk.functions) :
      script.Contains inner

/-- What the operands of an instruction refer to. -/
def Proto.OperandsFound (proto : Proto) (offset : Nat) : Opcode → Prop
  | .constant => ∃ index x, proto.chunk.operand? (offset + 1) = some index ∧
      proto.chunk.constant? index = some (.number x)
  | .string | .getGlobal | .defineGlobal | .setGlobal | .getProperty | .setProperty | .getSuper | .invoke
  | .superInvoke | .newClass | .method => ∃ entry text, proto.chunk.operand? (offset + 1) = some entry ∧
      proto.chunk.Names entry text
  | .function => ∃ index nested, proto.chunk.operand? (offset + 1) = some index ∧
      proto.chunk.functions[index]? = some nested ∧ proto.chunk.ClosureAt (offset + 3) nested
  | .getUpvalue | .setUpvalue => ∃ index, proto.chunk.operand? (offset + 1) = some index ∧
      index < proto.captures.size
  | .closure => ∃ count, proto.chunk.operand? (offset + 1) = some count ∧ ∀ i < count, ∃ index,
      proto.chunk.operand? (offset + 4 + 3 * i) = some index ∧
        (proto.chunk.code[offset + 3 + 3 * i]? = some 1 ∨
          proto.chunk.code[offset + 3 + 3 * i]? = some 0 ∧ index < proto.captures.size)
  | .jump | .jumpIfFalse => ∃ distance, proto.chunk.operand? (offset + 1) = some distance ∧
      proto.chunk.Starts (offset + 3 + distance)
  | .loop => ∃ distance, proto.chunk.operand? (offset + 1) = some distance ∧ distance ≤ offset + 3 ∧
      proto.chunk.Starts (offset + 3 - distance)
  | _ => True

/-- The code is a sequence of instructions, the last one a return, and all operands refer to something. -/
structure Proto.WellFormed (proto : Proto) : Prop where
  decodes : proto.chunk.Decodes 0 proto.chunk.code.size
  ends : proto.chunk.EndsInReturn
  operands : ∀ offset op, proto.chunk.Starts offset → proto.chunk.OpAt offset op → proto.OperandsFound offset op

section Covering

variable {proto : Proto} {manner : Manner} {tags : List Role} {entry : Points} {shapes : Shapes}

section

variable (covering : Covering (.within proto manner tags) 0 proto.chunk.code.size entry .none shapes)
include covering

theorem Covering.starts_iff (offset : Nat) : proto.chunk.Starts offset ↔ ∃ shape, shapes offset = some shape := by
  constructor
  · rintro ⟨decodes, inside⟩
    -- Along the instructions each one with a shape is followed by one with a shape.
    have along : ∀ {first last : Nat}, proto.chunk.Decodes first last → last < proto.chunk.code.size →
        (∃ shape, shapes first = some shape) → ∃ shape, shapes last = some shape := by
      intro first last decodes
      induction decodes with
      | done _ => exact fun _ given => given
      | step whole rest ih =>
        rintro inside ⟨shape, given⟩
        obtain ⟨next, accepts, follows⟩ := covering.accepted _ shape given
        cases Option.some.inj (accepts.next?.symm.trans whole)
        rcases follows with stop | follows
        · have := rest.le
          omega
        · exact ih inside (Option.isSome_iff_exists.mp follows)
    exact along decodes inside (Option.isSome_iff_exists.mp covering.first)
  · rintro ⟨shape, given⟩
    exact covering.inside offset shape given

theorem Covering.lands {place : Nat} {found : Shape} (goes : shapes.Meet place found ∨ Points.none place found) :
    proto.chunk.Starts place := by
  rcases goes with ⟨shape, given, -⟩ | out
  · exact (covering.starts_iff place).mpr ⟨shape, given⟩
  · cases out

omit covering in
theorem Captures.index_lt {slots : List Slot} {capture : Capture} {role : Role}
    (captures : Captures (.within proto manner tags) slots capture role) (isUpvalue : capture.isLocal = false) :
    capture.index < tags.length := by
  simp only [Captures, isUpvalue] at captures
  exact (List.getElem?_eq_some_iff.mp captures).1

theorem Covering.operands
    (length : tags.length = proto.captures.size) (offset : Nat) (op : Opcode) (starts : proto.chunk.Starts offset)
    (op_at : proto.chunk.OpAt offset op) : proto.OperandsFound offset op := by
  obtain ⟨shape, given⟩ := (covering.starts_iff offset).mp starts
  obtain ⟨next, accepts, -⟩ := covering.accepted offset shape given
  cases accepts with
  | literal isLiteral op_at' | binary isBinary op_at' | unary isUnary op_at' =>
    cases op_at.unique op_at'
    cases op <;> trivial
  | constant op_at' operand found | string op_at' operand found =>
    cases op_at.unique op_at'
    exact ⟨_, _, operand, found⟩
  | function op_at' operand found closed =>
    cases op_at.unique op_at'
    exact ⟨_, _, operand, found, closed⟩
  | @closure _ _ nested _ _ _ made_at _ captured =>
    cases op_at.unique made_at.op_at
    refine ⟨_, made_at.count, fun i below => ?_⟩
    obtain ⟨flag, index⟩ := made_at.inline i _ (Array.getElem?_eq_getElem below)
    refine ⟨_, index, ?_⟩
    by_cases isLocal : nested.captures[i].isLocal = true
    · rw [isLocal] at flag
      exact .inl flag
    · have isUpvalue : nested.captures[i].isLocal = false := eq_false_of_ne_true isLocal
      rw [isUpvalue] at flag
      have below' : i < nested.captures.toList.length := by simpa using below
      have captures := captured.get below' (captured.length_eq ▸ below')
      rw [List.get_eq_getElem, Array.getElem_toList] at captures
      exact .inr ⟨flag, length ▸ captures.index_lt isUpvalue⟩
  | pop op_at' | closeUpvalue op_at' | getLocal op_at' | setLocal op_at' | print op_at' | call op_at' | «return» op_at'
  | inherit op_at' =>
    cases op_at.unique op_at'
    trivial
  | getGlobal op_at' operand named | defineGlobal op_at' operand named | setGlobal op_at' operand named
  | getProperty op_at' operand named | setProperty op_at' operand named | getSuper op_at' operand named
  | invoke op_at' operand named | superInvoke op_at' operand named | newClass op_at' operand named
  | method op_at' operand named =>
    cases op_at.unique op_at'
    exact ⟨_, _, operand, named⟩
  | getUpvalue op_at' operand found | setUpvalue op_at' operand found =>
    cases op_at.unique op_at'
    exact ⟨_, operand, length ▸ (List.getElem?_eq_some_iff.mp found).1⟩
  | jump op_at' operand goes =>
    cases op_at.unique op_at'
    exact ⟨_, operand, covering.lands goes⟩
  | jumpIfFalse op_at' operand _ jumps =>
    cases op_at.unique op_at'
    exact ⟨_, operand, covering.lands jumps⟩
  | loop op_at' operand back goes =>
    cases op_at.unique op_at'
    exact ⟨_, operand, back, covering.lands goes⟩

theorem Covering.wellFormed (length : tags.length = proto.captures.size) (ends : proto.chunk.EndsInReturn) : proto.WellFormed :=
  ⟨covering.decodes, ends, covering.operands length⟩

end

end Covering

theorem Sealed.wellFormed {proto : Proto} (done : Sealed proto) : proto.WellFormed := by
  cases done with
  | intro verified ends _ =>
    obtain ⟨length, _, _, _, covered⟩ := (verified_iff _ _ _).mp verified
    obtain ⟨shapes, covering⟩ := covered .nil
    exact covering.wellFormed length ends

theorem SealedScript.wellFormed {script : Proto} (done : SealedScript script) : script.WellFormed := by
  obtain ⟨-, shapes, covering⟩ := done.verified
  refine covering.wellFormed ?_ done.ends
  rw [done.captures]
  rfl

theorem SealedScript.contains {script proto : Proto} (done : SealedScript script) (inside : script.Contains proto) :
    proto = script ∨ Sealed proto := by
  induction inside with
  | self => exact .inl rfl
  | nested _ member ih =>
    right
    rcases ih with rfl | ⟨_, _, nested⟩
    · exact done.nested _ member
    · exact nested _ member

/-- What a source text compiles to is well-formed, down to the innermost function, and the script captures nothing. -/
theorem compiled_code_wellFormed {source : String} {script : Proto} (compiled : compileSource source = .ok script) :
    script.captures = #[] ∧ ∀ proto, script.Contains proto → proto.WellFormed := by
  have done := compileSource_sealed compiled
  refine ⟨done.captures, fun proto inside => ?_⟩
  rcases done.contains inside with rfl | inner
  · exact done.wellFormed
  · exact inner.wellFormed

/-- A function inside a function, which captures a local of it. -/
theorem compiled_code_wellFormed_closure : ∃ script outer inner,
    compileSource "fun f() { var a = 1; fun g() { return a; } return g; } while (f) { print f()(); }" = .ok script ∧
      script.chunk.functions[0]? = some outer ∧ outer.chunk.functions[0]? = some inner ∧
      inner.captures = #[⟨true, 1⟩] ∧ script.WellFormed ∧ outer.WellFormed ∧ inner.WellFormed := by
  obtain ⟨script, compiled⟩ :=
    @exists_script "fun f() { var a = 1; fun g() { return a; } return g; } while (f) { print f()(); }" (by decide +kernel)
  have nested : ((compileSource "fun f() { var a = 1; fun g() { return a; } return g; } while (f) { print f()(); }"
      ).toOption.bind fun script => script.chunk.functions[0]?.bind fun outer =>
        outer.chunk.functions[0]?.map Proto.captures) = some #[⟨true, 1⟩] := by decide +kernel
  rw [compiled, Except.toOption, Option.bind_some] at nested
  obtain ⟨outer, outer_at, nested⟩ := Option.bind_eq_some_iff.mp nested
  obtain ⟨inner, inner_at, captures⟩ := Option.map_eq_some_iff.mp nested
  obtain ⟨-, formed⟩ := compiled_code_wellFormed compiled
  have outer_in : script.Contains outer := .nested .self (Array.mem_of_getElem? outer_at)
  have inner_in : script.Contains inner := .nested outer_in (Array.mem_of_getElem? inner_at)
  exact ⟨script, outer, inner, compiled, outer_at, inner_at, captures, formed script .self, formed outer outer_in,
    formed inner inner_in⟩

end StackScript
