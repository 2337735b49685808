import StackScript.Proofs.FaultLines
import StackScript.Proofs.Receivers
import StackScript.Proofs.StatementStarts

/-!
Method tables. When the code of a class declaration has been run, the table of the new class has the closures of the
declared methods, and for other names what the superclass had when the class inherited from it. From then on no step of the
run changes the table, whatever is declared later.
-/

namespace StackScript

variable {α : Type} {op : Opcode} {methods : List (String × Proto)}

/-- In front of the place the code can be given shapes in which nothing is known of the slots. -/
def Proto.RestsAt (proto : Proto) (place : Nat) : Prop :=
  ∃ manner tags shapes entry own slots, Covering (.within proto manner tags) 0 proto.chunk.code.size entry .none shapes ∧
    entry 0 own ∧ own.slots.length = proto.arity + 1 ∧ shapes.Meet place ⟨slots, none⟩ ∧ Plain slots

namespace Compile

open Parse

variable {home : Proto} {state : Compilation}

inductive Methods (inner : Inner) : Compilation → List (String × Proto) → Compilation → Prop where
  | nil (state : Compilation) : Methods inner state [] state
  | cons {before between after : Compilation} {proto : Proto} {methods : List (String × Proto)} (isOpen : before.isOpen)
      (compiled : method inner before = .ok () between) (newest : between.scope.chunk.functions.back? = some proto)
      (more : Methods inner between methods after) : Methods inner before ((before.cursor.peek.lexeme, proto) :: methods) after

structure ClassDeclared (budget : Nat) (before : Compilation) (inherits : Bool) (methods : List (String × Proto))
    (after : Compilation) : Prop where
  parts : ∃ opened entered added, accept (.keyword .class) before = .ok true opened ∧
    inherits = opened.cursor.advance.check .less ∧ classHead opened = .ok () entered ∧
    Methods (.within budget) entered methods added ∧ added.cursor.peek.kind = .rightBrace
  whole : declaration (.within budget) before = .ok () after

theorem methods_listed {inner : Inner} (bodied : Bodied inner.functionBody) {bound : Nat} {before after : Compilation}
    (done : repeatUpTo (methodSuffix inner) bound before = .ok () after) (clean : after.errors = #[]) :
    before.errors = #[] ∧ (Ready before → ∃ methods, Methods inner before methods after ∧
      Gains (·.AddsMethods · methods ·) before.scope.chunk after.scope.chunk) := by
  have none (state : Compilation) : Gains (·.AddsMethods · [] ·) state.scope.chunk state.scope.chunk :=
    ⟨.refl _, Nat.le_refl _, fun _ _ => rfl, fun _ _ _ => .nil _⟩
  induction bound generalizing before with
  | zero =>
    cases done
    exact ⟨clean, fun _ => ⟨[], .nil _, none _⟩⟩
  | succ bound ih =>
    obtain ⟨more, between, once, done⟩ := bind_ok done
    by_cases isOpen : before.isOpen
    · rw [methodSuffix_open isOpen] at once
      obtain ⟨_, between', compiled, once⟩ := bind_ok once
      cases once
      obtain ⟨clean, rest⟩ := ih done
      obtain ⟨clean, leads⟩ := method_leads bodied "" _ _ _ compiled clean
      refine ⟨clean, fun ready => ?_⟩
      obtain ⟨leads, proto, newest, first⟩ := leads ready
      obtain ⟨methods, listed, gains⟩ := rest leads.ready
      refine ⟨_, .cons isOpen compiled newest listed, first.join gains ?_⟩
      rintro whole start middle stop (_ | ⟨closing, op_at, operand, named, ⟨⟩⟩) more
      exact .cons closing op_at operand named more
    · have closed : methodSuffix inner before = .ok false before := by
        change (if (before.cursor.check .rightBrace || before.cursor.isAtEnd) = true then _ else _ : Parse Bool) before = _
        rw [if_pos]
        · rfl
        · by_contra other
          rw [Bool.or_eq_true, not_or, Bool.not_eq_true, Bool.not_eq_true] at other
          exact isOpen other
      cases closed.symm.trans once
      cases done
      exact ⟨clean, fun _ => ⟨[], .nil _, none _⟩⟩

theorem Standing.declaresClass {budget : Nat}
    (standing : Standing home (declaration (.within budget)) state) (keyword : state.cursor.peek.kind = .keyword .class) :
    ∃ inherits methods after, ClassDeclared budget state inherits methods after ∧
      home.chunk.DeclaresClass state.offset inherits methods after.offset := by
  obtain ⟨ready, level, _, after, _, _, _, _, done, clean, -, hole⟩ := standing
  have whole := done
  have done := declaration_unrecovered done clean
  rw [declarationOrFail_eq, keyword] at done
  obtain ⟨entered, added, cursor, classes, head, list, brace, ends⟩ := classDeclaration_ok done
  have moved := moved_phrase ready (advance_tokens state.cursor)
  -- Behind the methods the class is dropped, and then the superclass if there is one.
  have pops : Gains Chunk.Idles added.scope.chunk (Compilation.emit { added with cursor } .pop).scope.chunk :=
    .emits { added with cursor } [Opcode.pop.toByte] fun whole place _ bytes =>
      .cons (bytes 0 _ rfl) rfl (Chunk.next?_of_opAt (bytes 0 _ rfl) rfl (Chunk.lt_of_getElem? (bytes 0 _ rfl))) (.nil _)
  have last : Gains Chunk.Idles added.scope.chunk after.scope.chunk ∧ after.errors = added.errors := by
    rcases ends with rfl | rfl
    · exact ⟨pops, rfl⟩
    · have ends := endScope_gains { Compilation.emit { added with cursor } .pop with classes }
      exact ⟨pops.join ends fun _ _ _ _ => .trans, endScope_errors _⟩
  obtain ⟨clean, methods⟩ := methods_listed (within_compiles budget).functionBody list (last.2 ▸ clean)
  obtain ⟨ready, founds⟩ := classHead_founds head clean moved.ready (Fact.level.stable moved level)
  obtain ⟨methods, listed, adds⟩ := methods ready
  generalize same : Cursor.check _ _ = inherits at founds
  refine ⟨inherits, methods, after, ⟨⟨_, entered, added, ?_, same.symm, head, listed, brace⟩, whole⟩, ?_⟩
  · rw [accept, Cursor.check, keyword]
    rfl
  · have body : Gains (fun whole start stop => ∃ last, whole.AddsMethods start methods last ∧ whole.Idles last stop)
        entered.scope.chunk after.scope.chunk := adds.join last.1 fun _ _ middle _ one two => ⟨middle, one, two⟩
    have spells : Gains (fun whole start stop => whole.DeclaresClass start inherits methods stop) state.scope.chunk after.scope.chunk := by
      refine founds.join body ?_
      rintro whole start middle stop founds ⟨last, adds, drops⟩
      exact ⟨middle, last, founds, adds, drops⟩
    exact spells.spells _ hole.holds.tables hole.holds.code

theorem Standing.rests {action : Parse α} (standing : Standing home action state)
    (running : Running action) :
    ∃ value after, action state = .ok value after ∧ home.RestsAt state.offset ∧ home.RestsAt after.offset := by
  obtain ⟨ready, level, value, after, manner, tags, own, shape, done, clean, length, hole⟩ := standing
  have runs := (running _ _ _ done clean).2 ready level
  obtain ⟨shapes, covering⟩ := hole.whole.entered (runs.segment _ shape hole.holds hole.suits)
  have rests {place : Nat} {found : Shape} (meets : shapes.Meet place found) (settled : found.Settled) (clear : Clear found.slots) :
      home.RestsAt place := by
    obtain ⟨slots, known⟩ := found
    obtain rfl : known = none := settled.known
    exact ⟨manner, tags, shapes, _, own, slots, covering, .inl (.inl ⟨rfl, .refl own⟩), length, meets, settled.plain clear⟩
  refine ⟨value, after, done, ?_, ?_⟩
  · exact rests (covering.entered _ _ (.inl (.inr ⟨rfl, .refl _⟩))) (hole.suits.settled.take _) (hole.suits.clear.take _)
  · exact rests (covering.entered _ _ (.inr ⟨rfl, .refl _⟩)) hole.suits.settled hole.suits.clear

end Compile

section Rest

variable {State : Type} {classes : Ref → Option Class} {rest : Array Frame} {frame : Frame} {shape : Shape}
  {machine : Machine State}

theorem Guides.refreeze (guides : Guides classes rest frame shape machine) (rests : frame.function.RestsAt frame.ip)
    (frozen : Ref → Option Class) : ∃ shape, Guides frozen rest frame shape machine := by
  obtain ⟨manner, tags, shapes, entry, own, slots, covering, enters, length, meets, plain⟩ := rests
  obtain ⟨manner', tags', shapes', guided, meets', reached⟩ := guides.code
  obtain ⟨entry', own', covering', enters', length'⟩ := guided.covering
  obtain ⟨below, values, stacked, base, shown⟩ := guides.stack
  have height : values.length = slots.length := by
    have heights := (covering.heights enters length).unique (covering'.heights enters' length') reached
    rw [meets.height_eq, meets'.height_eq] at heights
    exact shown.count.trans heights.symm
  exact ⟨⟨slots, none⟩, guides.frames, guides.outer, guides.room,
    ⟨manner, tags, shapes, ⟨⟨entry, own, covering, enters, length⟩, guided.nested⟩, meets, reached⟩,
    ⟨below, values, stacked, base, .of_plain height plain⟩, (fun _ _ known => by cases known), (Clear.of_plain plain).ripe⟩

def Heap.classAt (heap : Heap) (ref : Ref) : Option Class :=
  match heap.get? ref with
  | some (.class cls) => some cls
  | _ => none

theorem Heap.classAt_eq_some {heap : Heap} {ref : Ref} {cls : Class} :
    heap.classAt ref = some cls ↔ heap.get? ref = some (.class cls) := by
  unfold Heap.classAt
  split
  · next found => simp [found]
  · next other => exact ⟨fun never => (by cases never), fun found => absurd found (other cls)⟩

theorem Machine.Sane.refreeze {making : Option String} (sane : machine.Sane ⟨classes, making⟩) :
    machine.Sane ⟨machine.heap.classAt, none⟩ :=
  ⟨sane.stack, sane.globals, sane.heap, sane.natives, fun _ _ => Heap.classAt_eq_some.mp, fun _ _ known => by cases known⟩

end Rest

namespace Exec

open Conduct

variable {State : Type} {span : Span}

/-- The conduct of actions that neither add nor change a class, and that leave the number of frames as it is. -/
def sparing : Conduct RuntimeError (Machine State) where
  goes before after := after.frames.size = before.frames.size ∧ before.heap.size ≤ after.heap.size ∧
    ∀ ref cls, after.heap.get? ref = some (.class cls) → before.heap.get? ref = some (.class cls)
  fails _ _ _ := True
  refl _ := ⟨rfl, Nat.le_refl _, fun _ _ => id⟩
  trans one two := ⟨two.1.trans one.1, Nat.le_trans one.2.1 two.2.1, fun ref cls found => one.2.2 ref cls (two.2.2 ref cls found)⟩
  fails_after _ _ := trivial

theorem sparing_add {object : Object} (other : ∀ cls, object ≠ .class cls) (machine : Machine State) :
    sparing.goes machine (machine.addObject object) := by
  refine ⟨rfl, Nat.le_of_lt (Nat.lt_of_lt_of_eq (Nat.lt_succ_self _) (Heap.size_push _ _).symm), fun ref cls found => ?_⟩
  change (machine.heap.push object).get? ref = _ at found
  rw [Heap.get?_push] at found
  split at found
  · cases found
    exact absurd rfl (other cls)
  · exact found

instance : Roaming (sparing : Conduct _ (Machine State)) where
  beside _ frames heap := ⟨congrArg Array.size frames, Nat.le_of_eq (congrArg Heap.size heap.symm), fun _ _ found => heap ▸ found⟩
  adds machine upvalue := sparing_add (fun _ same => by cases same) machine
  sets machine ref upvalue := by
    refine ⟨rfl, Nat.le_of_eq (Heap.size_set _ _ _).symm, fun other cls found => ?_⟩
    have found : (machine.heap.objects.setIfInBounds ref (.upvalue upvalue))[other]? = some (.class cls) := found
    rw [Array.getElem?_setIfInBounds] at found
    split at found
    · split at found <;> cases found
    · exact found
  fails _ _ _ := trivial
  moves _ _ := ⟨Array.size_modify, Nat.le_refl _, fun _ _ => id⟩

theorem fail_sparing (fault : Fault) : sparing.Obeys (fail fault span : Exec State α) := fun _ => trivial

theorem perform_sparing {op : Opcode} (harmless : op.isIdle = true ∨ op = .function ∨ op = .closure) :
    sparing.Obeys (perform op span : Exec State Unit) := by
  have adds {object : Object} (other : ∀ cls, object ≠ .class cls) : sparing.Obeys (alloc object : Exec State Ref) :=
    sparing_add other
  rcases harmless with idle | rfl | rfl
  · exact (perform_idle fail_sparing idle).roams
  · refine readOperand_roaming.bind fun index => frame_quiet.bind fun frame => ?_
    split
    · exact (adds fun _ same => by cases same).bind fun ref => push_quiet _
    · exact fail_sparing _
  · exact makeClosure_roaming fail_sparing fun closure => adds fun _ same => by cases same

theorem sparing_of_ok {before after : Machine State} (harmless : op.isIdle = true ∨ op = .function ∨ op = .closure)
    (done : perform op span before = .ok () after) : sparing.goes before after := by
  have allowed := @perform_sparing _ span _ harmless before
  rwa [done] at allowed

end Exec

namespace Chunk

variable {chunk : Chunk Proto} {start stop : Nat}

theorem next?_length (whole : chunk.next? start = some stop) (op_at : chunk.OpAt start op) :
    (Listing.operands chunk start op).2 = stop := by
  unfold Chunk.next? at whole
  rw [show chunk.code[start]? = some op.toByte from op_at, Option.bind_some, Opcode.ofByte?_toByte, Option.bind_some] at whole
  split at whole <;> cases whole
  rfl

theorem Idles.le (idles : chunk.Idles start stop) : start ≤ stop := by
  induction idles with
  | nil => exact Nat.le_refl _
  | cons _ _ whole _ ih => exact Nat.le_of_lt (Nat.lt_of_lt_of_le (Chunk.next?_gt whole) ih)

theorem AddsMethods.le (adds : chunk.AddsMethods start methods stop) : start ≤ stop := by
  induction adds with
  | nil => exact Nat.le_refl _
  | cons closing _ _ _ _ ih =>
    have := closing.stop_eq
    omega

end Chunk

/-- The instructions that work on a class on the stack find one there that is being made. -/
theorem Accepts.onClass {context : Context} {reach : Points} {here next : Nat} {shape : Shape}
    (accepted : Accepts context reach here next shape) (op_at : context.chunk.OpAt here op) (works : op = .inherit ∨ op = .method) :
    ∃ kept first second, shape.slots = kept ++ [first, second] ∧ (op = .inherit → second.content = .class) ∧
      (op = .method → first.content = .class) := by
  cases accepted with
  | inherit op_at' =>
    cases op_at.unique op_at'
    exact ⟨_, _, _, rfl, fun _ => rfl, fun never => by cases never⟩
  | method op_at' =>
    cases op_at.unique op_at'
    exact ⟨_, _, _, rfl, (fun never => by cases never), fun _ => rfl⟩
  | literal isLiteral op_at' | binary isLiteral op_at' | unary isLiteral op_at' =>
    cases op_at.unique op_at'
    rcases works with rfl | rfl <;> cases isLiteral
  | closure made_at =>
    cases op_at.unique made_at.op_at
    rcases works with other | other <;> cases other
  | _ =>
    rename context.chunk.OpAt here _ => op_at'
    cases op_at.unique op_at'
    rcases works with other | other <;> cases other

/-- A run from a machine to the first one with the frames, through the ones listed. Time may pass between the steps. -/
inductive Machine.RunsTo {State : Type} (frames : Array Frame) : Machine State → List (Machine State) → Machine State → Prop where
  | here {machine : Machine State} (arrived : machine.frames = frames) : RunsTo frames machine [] machine
  | on {machine between after : Machine State} {flow : Flow} {visited : List (Machine State)} (away : machine.frames ≠ frames)
      (stepped : Exec.cycle machine = .ok flow between) (now : Float)
      (further : RunsTo frames { between with store := { between.store with now } } visited after) :
      RunsTo frames machine (machine :: visited) after

section Steps

variable {State : Type} {classes : Ref → Option Class} {machine after : Machine State} {rest : Array Frame} {frame : Frame}
  {place next stop : Nat} {op : Opcode} {flow : Flow}

/-- Every run to the place in the frame comes out like this. -/
def Machine.Ends (machine : Machine State) (rest : Array Frame) (frame : Frame) (stop : Nat)
    (post : List (Machine State) → Machine State → Prop) : Prop :=
  ∀ visited finished, machine.RunsTo (rest.push { frame with ip := stop }) visited finished → post visited finished

/-- The machine is in order, and the frame is at a place in its code. -/
structure Underway (classes : Ref → Option Class) (rest : Array Frame) (frame : Frame) (place : Nat) (machine : Machine State) : Prop where
  sane : machine.Sane ⟨classes, none⟩
  guides : ∃ shape, Guides classes rest { frame with ip := place } shape machine

def Machine.Performs (machine : Machine State) (rest : Array Frame) (frame : Frame) (place : Nat) (op : Opcode)
    (after : Machine State) : Prop :=
  ∃ events span, Exec.perform op span (({ machine with events } : Machine State).inFrame rest frame (place + 1)) = .ok () after

section

variable (underway : Underway classes rest frame place machine)
include underway

theorem Underway.performs
    (op_at : frame.function.chunk.OpAt place op) (straight : op.isStraight = true) (stepped : Exec.cycle machine = .ok flow after) :
    machine.Performs rest frame place op after := by
  obtain ⟨shape, guides⟩ := underway.guides
  obtain ⟨events, done⟩ := Exec.cycle_ok (by rw [guides.frames, Array.back?_push]) stepped
  have goesOn : op ≠ .return := by
    rintro rfl
    cases straight
  have frames : ({ machine with events } : Machine State).frames = rest.push { frame with ip := place } := guides.frames
  rw [Exec.step_perform frames op_at goesOn] at done
  obtain ⟨_, _, performed, done⟩ := Exec.bind_ok done
  cases done
  exact ⟨events, _, performed⟩

theorem Underway.straight (op_at : frame.function.chunk.OpAt place op) (straight : op.isStraight = true)
    (length : (Listing.operands frame.function.chunk place op).2 = next) (stepped : Exec.cycle machine = .ok flow after)
    (stays : after.frames.size = rest.size + 1) : Underway classes rest frame next after := by
  obtain ⟨shape, guides⟩ := underway.guides
  obtain ⟨_, _, _, behind, _, _, _, _, accepts, -⟩ := guides.accepted underway.sane
  have whole : frame.function.chunk.next? place = some behind := accepts.next?
  rw [← Chunk.next?_length whole op_at, length] at whole
  obtain ⟨below, own, -, base, upholds⟩ := guides.cycle underway.sane
  obtain ⟨leads, moves⟩ := upholds.of_ok stepped
  have traced : (machine.trace { frame with ip := place }).config = machine.config := (underway.sane.trace _).leads.config
  have frames : flow = .running ∧ after.frames = rest.push { frame with ip := next } := by
    cases moves with
    | proceeds _ proceeds =>
      refine ⟨rfl, ?_⟩
      cases proceeds with
      | on goes _ frames | writes goes _ frames =>
        rw [goes.2.straight op_at straight whole] at frames
        exact frames
      | calls _ _ _ _ _ _ frames =>
        rw [frames, Array.size_push, Array.size_push] at stays
        omega
    | returns _ frames =>
      rw [frames] at stays
      omega
    | halts _ frames =>
      rw [frames] at stays
      cases stays
  obtain ⟨rfl, frames⟩ := frames
  obtain ⟨rest', frame', shape', guides'⟩ := moves.guides guides.outer base (traced ▸ guides.room) (leads.config.trans traced.symm)
  obtain ⟨rfl, rfl⟩ := Array.push_eq_push.mp (guides'.frames.symm.trans frames)
  exact ⟨leads.sane, shape', guides'⟩

variable {post : List (Machine State) → Machine State → Prop}

theorem Underway.step (op_at : frame.function.chunk.OpAt place op)
    (straight : op.isStraight = true) (length : (Listing.operands frame.function.chunk place op).2 = next) (inside : place < stop)
    (leaves : Option Value → Heap → Prop)
    (performs : ∀ after, machine.Performs rest frame place op after → machine.heap.Evolves after.heap →
      after.frames.size = rest.size + 1 ∧ leaves after.stack.back? after.heap)
    (further : ∀ after, Underway classes rest frame next after → machine.heap.Evolves after.heap → leaves after.stack.back? after.heap →
      after.Ends rest frame stop fun visited => post (machine :: visited)) : machine.Ends rest frame stop post := by
  obtain ⟨shape, guides⟩ := underway.guides
  intro visited finished runs
  cases runs with
  | here arrived =>
    have same := congrArg Frame.ip (Array.push_eq_push.mp (guides.frames.symm.trans arrived)).1
    exact absurd same (Nat.ne_of_lt inside)
  | @on _ between _ flow visited _ stepped now runs =>
    obtain ⟨_, _, _, _, upholds⟩ := guides.cycle underway.sane
    have leads := (upholds.of_ok stepped).1
    obtain ⟨size, left⟩ := performs between (underway.performs op_at straight stepped) leads.evolves
    obtain ⟨sane, shape, guides⟩ := underway.straight op_at straight length stepped size
    have ticks := sane.tick now
    exact further _ ⟨ticks.leads.sane, shape, guides.aside ticks⟩ leads.evolves left visited finished runs

omit underway in
theorem Underway.arrived (underway : Underway classes rest frame stop machine) (holds : post [] machine) :
    machine.Ends rest frame stop post := by
  obtain ⟨shape, guides⟩ := underway.guides
  intro visited finished runs
  cases runs with
  | here => exact holds
  | on away => exact absurd guides.frames away

theorem Underway.stays {later : Machine State}
    (rests : frame.function.RestsAt place) (stays : machine.Stays 0 later) :
    later.Sane ⟨machine.heap.classAt, none⟩ ∧ Conducted machine.heap.classAt later := by
  induction stays with
  | refl =>
    obtain ⟨shape, guides⟩ := underway.guides
    obtain ⟨shape, guides⟩ := guides.refreeze rests machine.heap.classAt
    exact ⟨underway.sane.refreeze, .inr ⟨_, _, shape, guides⟩⟩
  | step _ stepped _ ih =>
    obtain ⟨leads, conducted⟩ := (ih.2.cycle ih.1).of_ok stepped
    exact ⟨leads.sane, conducted⟩
  | tick _ now ih =>
    have ticks := ih.1.tick now
    exact ⟨ticks.leads.sane, ih.2.aside ticks⟩

end

end Steps

/-- One class on the heap is being made, and the others are as they were. -/
structure Heap.Makes (earlier heap : Heap) (ref : Ref) (cls : Class) : Prop where
  found : heap.get? ref = some (.class cls)
  others : ∀ other old, heap.get? other = some (.class old) → other = ref ∨ earlier.get? other = some (.class old)

namespace Heap.Makes

variable {earlier heap : Heap} {ref own : Ref} {cls old : Class}

theorem unique (makes : earlier.Makes heap ref cls) (found : heap.get? own = some (.class old)) (free : earlier.classAt own = none) :
    own = ref ∧ old = cls := by
  rcases makes.others own old found with rfl | before
  · cases found.symm.trans makes.found
    exact ⟨rfl, rfl⟩
  · rw [Heap.classAt_eq_some.mpr before] at free
    cases free

theorem set (makes : earlier.Makes heap ref cls) (changed : Class) : earlier.Makes (heap.set ref (.class changed)) ref changed := by
  refine ⟨by rw [Heap.get?_set makes.found, if_pos rfl], fun other old found => ?_⟩
  rw [Heap.get?_set makes.found] at found
  split at found
  · next same => exact .inl same.symm
  · exact makes.others other old found

end Heap.Makes

section Making

variable {State : Type} {earlier : Heap} {machine after : Machine State} {rest : Array Frame} {frame : Frame} {ref : Ref} {cls : Class}
  {place next stop : Nat} {op : Opcode} {post : List (Machine State) → Machine State → Prop}

theorem Heap.Makes.spared (makes : earlier.Makes machine.heap ref cls) (harmless : op.isIdle = true ∨ op = .function ∨ op = .closure)
    (performs : machine.Performs rest frame place op after) (evolves : machine.heap.Evolves after.heap) :
    after.frames.size = rest.size + 1 ∧ earlier.Makes after.heap ref cls := by
  obtain ⟨events, span, performed⟩ := performs
  obtain ⟨size, -, classes⟩ := Exec.sparing_of_ok harmless performed
  refine ⟨size.trans (Array.size_push _), ?_, fun other old found => makes.others other old (classes other old found)⟩
  obtain ⟨later, found, becomes⟩ := evolves ref _ makes.found
  obtain ⟨cls', rfl⟩ : ∃ cls', later = .class cls' := by
    cases becomes <;> exact ⟨_, rfl⟩
  cases makes.found.symm.trans (classes ref cls' found)
  exact found

section

variable (underway : Underway earlier.classAt rest frame place machine)
include underway

theorem Underway.idles (makes : earlier.Makes machine.heap ref cls)
    (idles : frame.function.chunk.Idles place next) (inside : next ≤ stop)
    (longer : ∀ machine visited finished, post visited finished → post (machine :: visited) finished)
    (further : ∀ after, Underway earlier.classAt rest frame next after → earlier.Makes after.heap ref cls →
      machine.heap.Evolves after.heap → after.Ends rest frame stop post) : machine.Ends rest frame stop post := by
  induction idles generalizing machine with
  | nil => exact further machine underway makes (.refl _)
  | @cons place middle next op op_at idle whole more ih =>
    have straight : op.isStraight = true := by
      cases op <;> first | rfl | cases idle
    have before : place < stop := Nat.lt_of_lt_of_le (Nat.lt_of_lt_of_le (Chunk.next?_gt whole) more.le) inside
    refine underway.step op_at straight (Chunk.next?_length whole op_at) before (fun _ heap => earlier.Makes heap ref cls)
      (fun after => makes.spared (.inl idle)) fun after underway evolves makes visited finished runs => ?_
    refine longer machine visited finished (ih underway makes inside (fun later underway makes evolves' => ?_) visited finished runs)
    exact further later underway makes (evolves.trans evolves')

theorem Underway.topTwo (op_at : frame.function.chunk.OpAt place op)
    (works : op = .inherit ∨ op = .method) :
    ∃ known low left right, machine.Stacks (low ++ [left, right]) ∧
      (∀ events ip, (({ machine with events } : Machine State).inFrame rest frame ip).Sane ⟨earlier.classAt, known⟩) ∧
      ∀ own, (if op = .inherit then right else left) = .object own → earlier.classAt own = none := by
  obtain ⟨shape, guides⟩ := underway.guides
  obtain ⟨_, _, _, _, wider, below, own, _, accepts, sane, stacked, -, shown, -⟩ := guides.accepted underway.sane
  obtain ⟨kept, first, second, slots, inherits, method⟩ := accepts.onClass op_at works
  rw [slots] at shown
  obtain ⟨low, left, right, stacked, -, lower, upper⟩ := shown.topTwo stacked
  have moved (events : Array Event) (ip : Nat) : machine.Leads ⟨earlier.classAt, wider.known⟩
      (({ machine with events } : Machine State).inFrame rest frame ip) := sane.restack rfl rfl rfl rfl sane.stack
  refine ⟨wider.known, below ++ low, left, right, stacked, fun events ip => (moved events ip).sane, ?_⟩
  rcases works with rfl | rfl
  · rw [inherits rfl] at upper
    exact upper
  · rw [method rfl] at lower
    exact lower

theorem Underway.inherits (makes : earlier.Makes machine.heap ref cls)
    (op_at : frame.function.chunk.OpAt place .inherit) (performs : machine.Performs rest frame place .inherit after) :
    after.frames.size = rest.size + 1 ∧ ∃ parent superclass, machine.Below 1 (.object parent) ∧
      machine.heap.get? parent = some (.class superclass) ∧
      earlier.Makes after.heap ref { cls with methods := Exec.inheritMethods superclass.methods cls.methods } := by
  obtain ⟨events, span, performed⟩ := performs
  obtain ⟨known, low, left, right, stacked, sane, free⟩ := underway.topTwo op_at (.inl rfl)
  obtain ⟨-, ⟨frames, -⟩, parent, superclass, own, old, rfl, found, rfl, found', heap⟩ :=
    (Exec.inherit_upholds (sane _ _) stacked free span).of_ok performed
  obtain ⟨rfl, rfl⟩ := makes.unique found' (free own rfl)
  refine ⟨(congrArg Array.size frames).trans (Array.size_push _), parent, superclass, ⟨low.length, ?_, ?_⟩, found, heap ▸ makes.set _⟩
  · rw [stacked.size]
    simp
  · rw [Machine.Stacks] at stacked
    simp [stacked]

theorem Underway.method (makes : earlier.Makes machine.heap ref cls)
    (op_at : frame.function.chunk.OpAt place .method) {name : String}
    (named : frame.function.chunk.NameAt (place + 1) name)
    {own : Ref} {closure : Closure} (top : machine.stack.back? = some (.object own))
    (isClosure : machine.heap.get? own = some (.closure closure)) (performs : machine.Performs rest frame place .method after) :
    after.frames.size = rest.size + 1 ∧ earlier.Makes after.heap ref { cls with methods := cls.methods.insert name (.object own) } := by
  obtain ⟨events, span, performed⟩ := performs
  obtain ⟨known, low, left, right, stacked, sane, free⟩ := underway.topTwo op_at (.inr rfl)
  have same : right = .object own := by
    rw [Machine.Stacks] at stacked
    simpa [stacked] using top
  subst same
  change (Exec.readString >>= fun name => Exec.defineMethod name span) _ = _ at performed
  rw [Exec.bind_eq (Exec.readString_inFrame named)] at performed
  obtain ⟨-, ⟨frames, -⟩, ref', old, rfl, found, heap⟩ :=
    (Exec.defineMethod_upholds (sane _ _) stacked ⟨own, closure, rfl, isClosure⟩ free name span).of_ok performed
  obtain ⟨rfl, rfl⟩ := makes.unique found (free ref' rfl)
  exact ⟨(congrArg Array.size frames).trans (Array.size_push _), heap ▸ makes.set _⟩

end

theorem Machine.Performs.newClass (performs : machine.Performs rest frame place .newClass after) :
    after.frames.size = rest.size + 1 ∧ ∃ ref name, machine.heap.get? ref = none ∧ machine.heap.Makes after.heap ref ⟨name, ∅⟩ := by
  obtain ⟨events, span, performed⟩ := performs
  obtain ⟨name, named, read, performed⟩ := Exec.bind_ok performed
  cases performed
  have allowed := @Exec.readString_roaming State Exec.sparing _ (({ machine with events } : Machine State).inFrame rest frame (place + 1))
  rw [read] at allowed
  obtain ⟨size, grows, classes⟩ := allowed
  refine ⟨size.trans (Array.size_push _), named.heap.size, name, Array.getElem?_eq_none grows, Heap.get?_push_self _ _,
    fun other old found => ?_⟩
  change (named.heap.push (.class ⟨name, ∅⟩)).get? other = _ at found
  rw [Heap.get?_push] at found
  split at found
  · next new => exact .inl new
  · exact .inr (classes other old found)

variable {proto : Proto} {inherits : Bool}

theorem Machine.Performs.function {index : Nat} (performs : machine.Performs rest frame place .function after)
    (operand : frame.function.chunk.operand? (place + 1) = some index) (nested : frame.function.chunk.functions[index]? = some proto) :
    ∃ ref, after.stack.back? = some (.object ref) ∧ after.heap.get? ref = some (.function proto) := by
  obtain ⟨events, span, performed⟩ := performs
  change (Exec.readOperand >>= _) _ = _ at performed
  rw [Exec.bind_eq (Exec.readOperand_inFrame operand), Exec.bind_eq Exec.frame_inFrame] at performed
  simp only [nested] at performed
  cases performed
  exact ⟨_, Array.back?_push, Heap.get?_push_self _ _⟩

theorem Machine.Performs.closure {count : Nat} {own : Ref} (performs : machine.Performs rest frame place .closure after)
    (operand : frame.function.chunk.operand? (place + 1) = some count) (top : machine.stack.back? = some (.object own))
    (found : machine.heap.get? own = some (.function proto)) :
    ∃ made upvalues, after.stack.back? = some (.object made) ∧ machine.heap.get? made = none ∧
      after.heap.get? made = some (.closure ⟨proto, upvalues⟩) := by
  obtain ⟨events, span, performed⟩ := performs
  let behind := ({ machine with events } : Machine State).inFrame rest frame (place + 1 + 2)
  let popped : Machine State := { behind with stack := machine.stack.pop }
  have pops : Exec.pop behind = .ok (.object own) popped := Exec.pop_eq top
  have fetched : Exec.fetch own popped = .ok (.function proto) popped := Exec.fetch_eq found
  have closed : Exec.closable (.object own) span popped = .ok proto popped := Exec.bind_eq fetched
  change Exec.makeClosure span _ = _ at performed
  rw [Exec.makeClosure, Exec.bind_eq (Exec.readOperand_inFrame operand), Exec.bind_eq pops, Exec.bind_eq closed] at performed
  obtain ⟨upvalues, between, captured, performed⟩ := Exec.bind_ok performed
  cases performed
  have allowed := @Exec.captureAll_roaming State Exec.sparing _ count #[] popped
  rw [captured] at allowed
  exact ⟨between.heap.size, upvalues, Array.back?_push, Array.getElem?_eq_none allowed.2.1, Heap.get?_push_self _ _⟩

/-- The table has the closures of the methods, the last one of each name, and for other names what the base has. The closures
are new since the earlier heap. -/
structure Overrides (earlier heap : Heap) (methods : List (String × Proto)) (base table : Table) : Prop where
  own : ∀ name proto, methods.reverse.lookup name = some proto → ∃ ref upvalues, table[name]? = some (.object ref) ∧
    earlier.get? ref = none ∧ heap.get? ref = some (.closure ⟨proto, upvalues⟩)
  inherited : ∀ name, methods.reverse.lookup name = none → table[name]? = base[name]?

section Overrides

variable {heap heap' : Heap} {methods : List (String × Proto)} {base base' table : Table} {name : String}

theorem Overrides.cons {own : Ref} {upvalues : Array Ref} (new : earlier.get? own = none)
    (made : heap.get? own = some (.closure ⟨proto, upvalues⟩))
    (more : Overrides earlier heap methods (base.insert name (.object own)) table) :
    Overrides earlier heap ((name, proto) :: methods) base table := by
  have found (other : String) : ((name, proto) :: methods).reverse.lookup other =
      (methods.reverse.lookup other).or (if other = name then some proto else none) := by
    rw [List.reverse_cons, List.lookup_append, List.lookup_cons]
    by_cases same : other = name
    · simp [same]
    · simp [same, beq_eq_false_iff_ne.mpr same]
  refine ⟨fun other function listed => ?_, fun other absent => ?_⟩
  · rw [found] at listed
    cases later : methods.reverse.lookup other with
    | some last =>
      rw [later] at listed
      cases listed
      exact more.own other function later
    | none =>
      rw [later, Option.none_or, Option.ite_none_right_eq_some] at listed
      obtain ⟨rfl, same⟩ := listed
      cases same
      refine ⟨own, upvalues, ?_, new, made⟩
      rw [more.inherited other later, Std.TreeMap.getElem?_insert_self]
  · rw [found, Option.or_eq_none_iff] at absent
    have differs : name ≠ other := by
      rintro rfl
      simp at absent
    rw [more.inherited other absent.1, Std.TreeMap.getElem?_insert, if_neg (by simpa using differs)]

theorem Overrides.later (overrides : Overrides earlier heap methods base table) (evolves : heap.Evolves heap')
    (same : ∀ name : String, base[name]? = base'[name]?) : Overrides earlier heap' methods base' table := by
  refine ⟨fun name proto listed => ?_, fun name absent => (overrides.inherited name absent).trans (same name)⟩
  obtain ⟨ref, upvalues, entry, new, found⟩ := overrides.own name proto listed
  obtain ⟨_, found, becomes⟩ := evolves ref _ found
  cases becomes
  exact ⟨ref, upvalues, entry, new, found⟩

end Overrides

theorem Underway.adds (underway : Underway earlier.classAt rest frame place machine)
    (makes : earlier.Makes machine.heap ref cls) (adds : frame.function.chunk.AddsMethods place methods next) (inside : next ≤ stop)
    (grown : earlier.Evolves machine.heap)
    (longer : ∀ machine visited finished, post visited finished → post (machine :: visited) finished)
    (further : ∀ table after, Underway earlier.classAt rest frame next after →
      earlier.Makes after.heap ref { cls with methods := table } → machine.heap.Evolves after.heap →
        Overrides earlier after.heap methods cls.methods table → after.Ends rest frame stop post) :
    machine.Ends rest frame stop post := by
  induction adds generalizing machine cls with
  | nil => exact further cls.methods machine underway makes (.refl _) ⟨(fun _ _ never => by cases never), fun _ _ => rfl⟩
  | @cons place middle next entry name proto methods closing op_at operand named more ih =>
    obtain ⟨⟨pushes, index, at_index, nested⟩, made_at, rfl⟩ := closing
    have upper := more.le
    -- First the function is pushed, then a closure is made of it, and then this becomes a method.
    refine underway.step pushes rfl (Eq.refl (place + 3)) (by omega) (fun top heap => earlier.Makes heap ref cls ∧
      ∃ own, top = some (.object own) ∧ heap.get? own = some (.function proto)) (fun after performs evolves => ?_) ?_
    · obtain ⟨size, makes⟩ := makes.spared (.inr (.inl rfl)) performs evolves
      exact ⟨size, makes, performs.function at_index nested⟩
    rintro pushed underway pushing ⟨makes, function, top, isFunction⟩
    refine underway.step made_at.op_at rfl (Chunk.next?_length made_at.next? made_at.op_at) (by omega)
      (fun top heap => earlier.Makes heap ref cls ∧ ∃ own upvalues, top = some (.object own) ∧ pushed.heap.get? own = none ∧
        heap.get? own = some (.closure ⟨proto, upvalues⟩)) (fun after performs evolves => ?_) ?_
    · obtain ⟨size, makes⟩ := makes.spared (.inr (.inr rfl)) performs evolves
      exact ⟨size, makes, performs.closure made_at.count top isFunction⟩
    rintro closed underway closing ⟨makes, own, upvalues, top, new, isClosure⟩
    refine underway.step op_at rfl (Eq.refl _) (by omega)
      (fun _ heap => earlier.Makes heap ref { cls with methods := cls.methods.insert name (.object own) })
      (fun after performs _ => underway.method makes op_at ⟨_, operand, named⟩ top isClosure performs) ?_
    intro after underway adding makes visited finished runs
    have unmade : earlier.get? own = none := by
      cases old : earlier.get? own with
      | none => rfl
      | some object =>
        obtain ⟨_, found, -⟩ := (grown.trans pushing) own object old
        cases new.symm.trans found
    have evolves := (pushing.trans closing).trans adding
    refine longer machine _ finished (longer pushed _ finished (longer closed _ finished ?_))
    refine ih underway makes inside (grown.trans evolves) (fun table later underway makes evolved overrides => ?_) visited finished runs
    obtain ⟨_, lives, becomes⟩ := (adding.trans evolved) own _ isClosure
    cases becomes
    exact further table later underway makes (evolves.trans evolved) (overrides.cons unmade lives)

/-- Where the table comes from that a new class starts with: from no superclass, or from the one below the class on the stack
when an instruction of the frame inherits from it. -/
inductive Inherited (rest : Array Frame) (frame : Frame) (visited : List (Machine State)) : Bool → Table → Prop where
  | none : Inherited rest frame visited false ∅
  | «from» {moment : Machine State} {place : Nat} {parent : Ref} {superclass : Class} (passed : moment ∈ visited)
      (frames : moment.frames = rest.push { frame with ip := place }) (op_at : frame.function.chunk.OpAt place .inherit)
      (below : moment.Below 1 (.object parent)) (found : moment.heap.get? parent = some (.class superclass)) :
      Inherited rest frame visited true superclass.methods

theorem Inherited.longer {visited : List (Machine State)} {base : Table}
    (inherited : Inherited rest frame visited inherits base) (machine : Machine State) :
    Inherited rest frame (machine :: visited) inherits base := by
  cases inherited with
  | none => exact .none
  | «from» passed frames op_at below found => exact .from (List.mem_cons_of_mem _ passed) frames op_at below found

theorem Underway.founds (left : Table → Machine State → Prop)
    (underway : Underway machine.heap.classAt rest frame place machine) (founds : frame.function.chunk.Founds place inherits next)
    (inside : next ≤ stop)
    (further : ∀ ref cls base after, machine.heap.get? ref = none → Underway machine.heap.classAt rest frame next after →
      machine.heap.Makes after.heap ref cls → machine.heap.Evolves after.heap →
        (∀ name : String, cls.methods[name]? = base[name]?) → after.Ends rest frame stop fun _ => left base) :
    machine.Ends rest frame stop fun visited finished => ∃ base, Inherited rest frame visited inherits base ∧ left base finished := by
  have longer (machine : Machine State) (visited : List (Machine State)) (finished : Machine State) :
      (∃ base, Inherited rest frame visited inherits base ∧ left base finished) →
        ∃ base, Inherited rest frame (machine :: visited) inherits base ∧ left base finished := by
    rintro ⟨base, inherited, left⟩
    exact ⟨base, inherited.longer machine, left⟩
  have starts : frame.function.chunk.OpAt place .newClass ∧ place + 3 ≤ next := by
    cases founds with
    | alone op_at binds => exact ⟨op_at, binds.le⟩
    | inheriting op_at inheriting reads =>
      obtain ⟨_, binds, -, rfl⟩ := inheriting
      have := binds.le
      have := reads.le
      exact ⟨op_at, by omega⟩
  -- The first instruction makes the class. The code behind it binds the class, and then may let it inherit.
  refine underway.step starts.1 rfl (Eq.refl (place + 3)) (by omega)
    (fun _ heap => ∃ ref name, machine.heap.get? ref = none ∧ machine.heap.Makes heap ref ⟨name, ∅⟩)
    (fun after performs _ => performs.newClass) ?_
  rintro after underway made ⟨ref, name, new, makes⟩ visited finished runs
  refine longer machine visited finished ?_
  cases founds with
  | alone op_at binds =>
    refine underway.idles makes binds inside longer (fun later underway makes bound visited finished runs => ?_) visited finished runs
    exact ⟨∅, .none, further ref _ ∅ later new underway makes (made.trans bound) (fun _ => rfl) visited finished runs⟩
  | inheriting op_at inheriting reads =>
    obtain ⟨_, binds, inherits, rfl⟩ := inheriting
    have lower := reads.le
    refine underway.idles makes binds (by omega) longer (fun moment underway makes bound => ?_) visited finished runs
    refine underway.step inherits rfl (Eq.refl _) (by omega) (fun _ heap => ∃ parent superclass, moment.Below 1 (.object parent) ∧
      moment.heap.get? parent = some (.class superclass) ∧
      machine.heap.Makes heap ref ⟨name, Exec.inheritMethods superclass.methods ∅⟩)
      (fun after performs _ => underway.inherits makes inherits performs) ?_
    rintro inherited underway' passed ⟨parent, superclass, below, found, makes⟩ visited finished runs
    obtain ⟨shape, guides⟩ := underway.guides
    refine ⟨superclass.methods, .from List.mem_cons_self guides.frames inherits below found, ?_⟩
    have ends : inherited.Ends rest frame stop fun _ => left superclass.methods := by
      refine underway'.idles makes reads inside (fun _ _ _ => id) fun later underway makes read => ?_
      refine further ref _ _ later new underway makes (((made.trans bound).trans passed).trans read) fun name => ?_
      simp [Exec.inheritMethods_getElem?]
    exact ends visited finished runs

/-- One class is new. Its table has the closures of the methods, and for other names what the superclass had. -/
structure MakesClass (machine : Machine State) (rest : Array Frame) (frame : Frame) (inherits : Bool) (methods : List (String × Proto))
    (visited : List (Machine State)) (finished : Machine State) : Prop where
  made : ∃ ref cls base, machine.heap.get? ref = none ∧ machine.heap.Makes finished.heap ref cls ∧
    Inherited rest frame visited inherits base ∧ Overrides machine.heap finished.heap methods base cls.methods

end Making

open Compile in
/-- Where a machine is in front of the code of a class declaration, and gets to its end, there is one new class, whose table has
the closures of the declared methods and for other names what the superclass had when the class inherited from it. From then on
no step changes a class that there is, whether it fails or not. -/
theorem class_tables_are_snapshots {State : Type} {machine : Machine State} (session : Session machine) {source : String}
    {tokens : Array Token} (scanned : scan source = .ok tokens) {rest : Array Frame} {frame : Frame}
    (frames : machine.frames = rest.push frame) {budget : Nat} {state : Compilation}
    (begins : Begins tokens frame.function .declaration budget state) (keyword : state.cursor.peek.kind = .keyword .class)
    (placed : frame.ip = state.offset) :
    ∃ inherits methods after, ClassDeclared budget state inherits methods after ∧
      ∀ visited finished, machine.RunsTo (rest.push { frame with ip := after.offset }) visited finished →
        MakesClass machine rest frame inherits methods visited finished ∧
          ∀ later next, finished.Stays 0 later →
            (∃ flow, Exec.cycle later = .ok flow next) ∨ (∃ error, Exec.cycle later = .error error next) →
              ∀ ref cls, finished.heap.get? ref = some (.class cls) → next.heap.get? ref = some (.class cls) := by
  have standing := begins.standing (scan_wellNamed scanned)
  obtain ⟨inherits, methods, after, declared, head, last, founds, adds, drops⟩ := standing.declaresClass keyword
  obtain ⟨_, _, done, starts, ends⟩ := standing.rests (Part.running .declaration budget)
  cases declared.whole.symm.trans done
  refine ⟨inherits, methods, after, declared, ?_⟩
  obtain ⟨sane, idle | ⟨rest', frame', shape, guides⟩⟩ := session.sane
  · exact absurd (frames.symm.trans idle) Array.push_ne_empty
  obtain ⟨rfl, rfl⟩ := Array.push_eq_push.mp (guides.frames.symm.trans frames)
  obtain ⟨shape, guides⟩ := guides.refreeze (placed ▸ starts) machine.heap.classAt
  have here : ({ frame' with ip := state.offset } : Frame) = frame' := by rw [← placed]
  have underway : Underway machine.heap.classAt rest' frame' state.offset machine := ⟨sane.refreeze, shape, here ▸ guides⟩
  have middle := adds.le
  have upper := drops.le
  have declares := underway.founds (fun base finished => ∃ ref cls, machine.heap.get? ref = none ∧
    Underway machine.heap.classAt rest' frame' after.offset finished ∧ machine.heap.Makes finished.heap ref cls ∧
      Overrides machine.heap finished.heap methods base cls.methods) founds (Nat.le_trans middle upper)
    fun ref cls base entered new underway makes grown same =>
      underway.adds makes adds upper grown (fun _ _ _ => id) fun table added underway makes _ overrides =>
        underway.idles makes drops (Nat.le_refl _) (fun _ _ _ => id) fun finished underway makes evolves =>
          underway.arrived ⟨ref, _, new, underway, makes, overrides.later evolves same⟩
  intro visited finished runs
  obtain ⟨base, inherited, ref, cls, new, underway, makes, overrides⟩ := declares visited finished runs
  refine ⟨⟨ref, cls, base, new, makes, inherited, overrides⟩, fun later next stays outcome ref cls found => ?_⟩
  obtain ⟨sane, conducted⟩ := underway.stays ends stays
  have leads : later.Leads ⟨finished.heap.classAt, none⟩ next := by
    rcases outcome with ⟨flow, stepped⟩ | ⟨error, failed⟩
    · exact ((conducted.cycle sane).of_ok stepped).1
    · exact (conducted.cycle sane).of_error failed
  exact leads.sane.classes ref cls (Heap.classAt_eq_some.mpr found)

open Compile in
/-- A script that starts with a class: where the run is behind it, the class has its method. -/
theorem class_tables_are_snapshots_first : ∃ (machine : Machine Unit) (frame : Frame) (tokens : Array Token),
    scan "class A { f() {} }" = .ok tokens ∧ machine.frames = #[frame] ∧
      ∃ inherits methods after, ClassDeclared maxNesting (.start tokens) inherits methods after ∧
        ∀ visited finished, machine.RunsTo #[{ frame with ip := after.offset }] visited finished →
          MakesClass machine #[] frame inherits methods visited finished := by
  obtain ⟨script, compiled⟩ := @exists_script "class A { f() {} }" (by decide +kernel)
  obtain ⟨tokens, scanned, compiles⟩ := compileSource_ok compiled
  have arity : script.arity = 0 := (compileSource_verified compiled).1
  obtain ⟨machine, started, frames⟩ : ∃ machine, Exec.start script (.fresh {} : Machine Unit) = .ok () machine ∧
      machine.frames = (#[] : Array Frame).push ⟨script, none, 0, 0⟩ := by
    unfold Exec.start Exec.callFunction
    rw [arity]
    exact ⟨_, rfl, rfl⟩
  have first : (scan "class A { f() {} }").toOption.map (fun tokens => (Compilation.start tokens).cursor.peek.kind) =
      some (.keyword .class) := by decide +kernel
  rw [scanned] at first
  have keyword : (Compilation.start tokens).cursor.peek.kind = .keyword .class := Option.some.inj first
  have begins : Begins tokens script .declaration maxNesting (.start tokens) :=
    .script compiles (.here _ _) (by simp [Cursor.isAtEnd, keyword])
  obtain ⟨inherits, methods, after, declared, ends⟩ :=
    class_tables_are_snapshots (.start (.fresh {}) compiled started) scanned frames begins keyword rfl
  exact ⟨machine, _, tokens, scanned, frames, inherits, methods, after, declared, fun visited finished runs => (ends visited finished runs).1⟩

end StackScript
