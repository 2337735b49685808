import StackScript.Compile.State
import StackScript.Proofs.Scoping
import StackScript.Proofs.Tables
import StackScript.Proofs.Verification

/-!
What a compilation has emitted stays: later states have the same code below, larger tables, and wider functions
around. So a statement about a stretch of code can be made about every function that the state is on the way to: its
code agrees with the state's on that stretch, and its tables cover those of the state.
-/

namespace StackScript.Compile

variable {state : Compilation} {context : Context} {place start stop value : Nat} {chunk : Chunk Proto}

/-- A chunk with the entries of another one, and maybe more. -/
structure TablesKept (before after : Chunk Proto) : Prop where
  constants : Extended before.constants after.constants
  functions : Extended before.functions after.functions
  strings : ∀ entry text, before.Names entry text → after.Names entry text

theorem TablesKept.refl (chunk : Chunk Proto) : TablesKept chunk chunk :=
  ⟨.refl _, .refl _, fun _ _ => id⟩

theorem TablesKept.trans {first second third : Chunk Proto} (one : TablesKept first second)
    (two : TablesKept second third) : TablesKept first third :=
  ⟨one.constants.trans two.constants, one.functions.trans two.functions,
    fun entry text found => two.strings entry text (one.strings entry text found)⟩

/-- The tables of a chunk as far as it is compiled: the strings are whole entries, and the nested functions are done. -/
structure Stocked (chunk : Chunk Proto) : Prop where
  ended : chunk.Ended
  nested : ∀ proto ∈ chunk.functions, Sealed proto

/-- What was emitted before is still there. -/
structure Later (before after : Compilation) : Prop where
  tokens : after.cursor.tokens = before.cursor.tokens
  enclosing : List.Forall₂ FunctionScope.Widened before.enclosing after.enclosing
  locals : LocalsKept before.scope.locals after.scope.locals
  captures : Extended before.scope.captures after.scope.captures
  tables : TablesKept before.scope.chunk after.scope.chunk
  offset : before.offset ≤ after.offset
  code : ∀ i < before.offset, after.scope.chunk.code[i]? = before.scope.chunk.code[i]?
  kind : after.scope.kind = before.scope.kind

namespace Later

variable {first second third : Compilation}

theorem refl (state : Compilation) : Later state state :=
  ⟨rfl, widened_refl _, .refl _, .refl _, .refl _, Nat.le_refl _, fun _ _ => rfl, rfl⟩

theorem trans (one : Later first second) (two : Later second third) : Later first third :=
  ⟨two.tokens.trans one.tokens, widened_trans one.enclosing two.enclosing, one.locals.trans two.locals,
    one.captures.trans two.captures, one.tables.trans two.tables, Nat.le_trans one.offset two.offset,
    fun i below => (two.code i (Nat.lt_of_lt_of_le below one.offset)).trans (one.code i below), two.kind.trans one.kind⟩

end Later

def FunctionKind.manner : FunctionKind → Manner
  | .script | .function => .function
  | .method => .method
  | .initializer => .initializer

/-- The tables of the context have the entries of those of a compilation, its captured variables are tagged as they
are there, it is called as what is compiled, and functions that are verified may be closed over. -/
structure Covers (context : Context) (state : Compilation) : Prop where
  tables : TablesKept state.scope.chunk context.chunk
  upvalue : ∀ (i : Nat) (capture : Capture), state.scope.captures[i]? = some capture →
    ∃ role, context.upvalues[i]? = some role ∧ Tagged state.enclosing capture role
  closes : ∀ proto ∈ context.chunk.functions, ∀ manner tags, Verified proto manner tags → context.closes proto manner tags
  manner : context.manner = state.scope.kind.manner

/-- Moreover the code of the context is that of the compilation from `start` to `stop`. -/
structure Holds (context : Context) (state : Compilation) (start stop : Nat) : Prop extends Covers context state where
  code : ∀ i, start ≤ i → i < stop → context.chunk.code[i]? = state.scope.chunk.code[i]?

section Holds

variable {before after : Compilation}

theorem Covers.earlier (covers : Covers context after) (later : Later before after)
    (sound : Sound (before.scope :: before.enclosing)) : Covers context before := by
  refine ⟨later.tables.trans covers.tables, fun i capture found => ?_, covers.closes, later.kind ▸ covers.manner⟩
  obtain ⟨role, tag_at, tagged⟩ := covers.upvalue i capture (later.captures i capture found)
  obtain ⟨tag, meant⟩ := sound.2.2.1 capture (Array.mem_of_getElem? found)
  cases (meant.widened later.enclosing).unique tagged
  exact ⟨_, tag_at, meant⟩

theorem Holds.narrow (holds : Holds context state start stop) {start' stop' : Nat} (lower : start ≤ start')
    (upper : stop' ≤ stop) : Holds context state start' stop' :=
  ⟨holds.toCovers, fun i above below => holds.code i (Nat.le_trans lower above) (Nat.lt_of_lt_of_le below upper)⟩

theorem Holds.earlier (holds : Holds context after start stop) (later : Later before after)
    (sound : Sound (before.scope :: before.enclosing)) (upper : stop ≤ before.offset) :
    Holds context before start stop :=
  ⟨holds.toCovers.earlier later sound, fun i above below =>
    (holds.code i above below).trans (later.code i (Nat.lt_of_lt_of_le below upper))⟩

end Holds

/-- The chunk has the code of the compilation from `start` to `stop` and the entries of its tables. -/
structure Bears (chunk : Chunk Proto) (state : Compilation) (start stop : Nat) : Prop where
  tables : TablesKept state.scope.chunk chunk
  code : ∀ i, start ≤ i → i < stop → chunk.code[i]? = state.scope.chunk.code[i]?

section Bears

variable {before after : Compilation}

theorem Holds.bears (holds : Holds context state start stop) : Bears context.chunk state start stop :=
  ⟨holds.tables, holds.code⟩

end Bears

/-- The operand at an offset has been given a value. Nothing else has changed. -/
structure Patched (place value : Nat) (before after : Compilation) : Prop where
  tokens : after.cursor.tokens = before.cursor.tokens
  enclosing : after.enclosing = before.enclosing
  classes : after.classes = before.classes
  kind : after.scope.kind = before.scope.kind
  depth : after.scope.depth = before.scope.depth
  arity : after.scope.arity = before.scope.arity
  locals : after.scope.locals = before.scope.locals
  captures : after.scope.captures = before.scope.captures
  tables : TablesKept before.scope.chunk after.scope.chunk
  stocked : Stocked before.scope.chunk → Stocked after.scope.chunk
  offset : after.offset = before.offset
  code : ∀ i, i ≠ place → i ≠ place + 1 → after.scope.chunk.code[i]? = before.scope.chunk.code[i]?
  operand : after.scope.chunk.operand? place = some value

theorem Later.patched {first before after : Compilation} (later : Later first before) (above : first.offset ≤ place)
    (patched : Patched place value before after) : Later first after := by
  refine ⟨patched.tokens.trans later.tokens, patched.enclosing ▸ later.enclosing, patched.locals ▸ later.locals,
    patched.captures ▸ later.captures, later.tables.trans patched.tables, patched.offset ▸ later.offset, ?_, patched.kind.trans later.kind⟩
  intro i below
  rw [patched.code i (by omega) (by omega), later.code i below]

theorem Holds.unpatched {before after : Compilation} (holds : Holds context after start stop)
    (patched : Patched place value before after) (apart : stop ≤ place ∨ place + 2 ≤ start) :
    Holds context before start stop := by
  refine ⟨⟨patched.tables.trans holds.tables, ?_, holds.closes, patched.kind ▸ holds.manner⟩, fun i above below => ?_⟩
  · rw [← patched.captures, ← patched.enclosing]
    exact holds.upvalue
  · rw [holds.code i above below, patched.code i (by omega) (by omega)]

/-- The shape has the locals of a function in their slots, where they can be read. -/
structure Fits (locals : Array Local) (slots : List Slot) : Prop where
  grounded : slots ≠ []
  named : ∀ (i : Nat) (binding : Local), locals[i]? = some binding → binding.depth.isSome = true → binding.name ≠ "" →
    ∃ slot, slots[i]? = some slot ∧ slot.role = .ofName binding.name ∧ slot.content.copy?.isSome = true ∧
      (binding.isCaptured = true → slot.isCaptured = true)

namespace Fits

variable {locals before after : Array Local} {slots : List Slot}

theorem earlier (fits : Fits after slots) (kept : LocalsKept before after) : Fits before slots := by
  refine ⟨fits.grounded, fun i binding found readable named => ?_⟩
  obtain ⟨later, found, widened⟩ := kept i binding found
  rw [← widened.name] at named ⊢
  obtain ⟨slot, slot_at, role, copies, captured⟩ := fits.named i later found (widened.depth ▸ readable) named
  exact ⟨slot, slot_at, role, copies, captured ∘ widened.isCaptured⟩

theorem append (fits : Fits locals slots) (more : List Slot) : Fits locals (slots ++ more) := by
  refine ⟨fun empty => fits.grounded (List.append_eq_nil_iff.mp empty).1, fun i binding found readable named => ?_⟩
  obtain ⟨slot, slot_at, meaning⟩ := fits.named i binding found readable named
  exact ⟨slot, by rw [List.getElem?_append_left (List.getElem?_eq_some_iff.mp slot_at).1, slot_at], meaning⟩

end Fits

/-- What every phrase finds: words that are no names of variables do not pass as such, captures refer to variables,
in the methods of a class with a superclass there is a variable `super`, and the tables are in order. -/
structure Ready (state : Compilation) : Prop where
  names : ∀ token ∈ state.cursor.tokens, token.kind = .identifier →
    token.lexeme ≠ "" ∧ Role.ofName token.lexeme = .ordinary
  sound : Sound (state.scope :: state.enclosing)
  supers : state.classes.head? = some ⟨true⟩ →
    state.scope.Declares "super" ∨ ∃ scope ∈ state.enclosing, scope.Declares "super"
  tables : Stocked state.scope.chunk

/-- What a phrase leaves that declares no variables where it stands. -/
structure Phrase (before after : Compilation) : Prop where
  later : Later before after
  ready : Ready after
  classes : after.classes = before.classes
  kind : after.scope.kind = before.scope.kind
  depth : after.scope.depth = before.scope.depth
  arity : after.scope.arity = before.scope.arity
  size : after.scope.locals.size = before.scope.locals.size

namespace Phrase

variable {first second third : Compilation}

theorem refl (ready : Ready state) : Phrase state state :=
  ⟨.refl _, ready, rfl, rfl, rfl, rfl, rfl⟩

theorem trans (one : Phrase first second) (two : Phrase second third) : Phrase first third :=
  ⟨one.later.trans two.later, two.ready, two.classes.trans one.classes, two.kind.trans one.kind,
    two.depth.trans one.depth, two.arity.trans one.arity, two.size.trans one.size⟩

theorem patched (one : Phrase first second) (above : first.offset ≤ place) (patched : Patched place value second third) :
    Phrase first third := by
  refine ⟨one.later.patched above patched, ⟨?_, ?_, ?_, patched.stocked one.ready.tables⟩, patched.classes.trans one.classes,
    patched.kind.trans one.kind, patched.depth.trans one.depth, patched.arity.trans one.arity,
    patched.locals ▸ one.size⟩
  · rw [patched.tokens]
    exact one.ready.names
  · have sound := one.ready.sound
    simp only [Sound, patched.locals, patched.captures, patched.enclosing] at sound ⊢
    exact sound
  · intro head
    rw [patched.enclosing, FunctionScope.Declares, patched.locals]
    exact one.ready.supers (patched.classes ▸ head)

end Phrase

theorem moved_phrase (ready : Ready state) {cursor : Cursor} (tokens : cursor.tokens = state.cursor.tokens) :
    Phrase state { state with cursor } :=
  ⟨⟨tokens, widened_refl _, .refl _, .refl _, .refl _, Nat.le_refl _, fun _ _ => rfl, rfl⟩,
    ⟨tokens ▸ ready.names, ready.sound, ready.supers, ready.tables⟩, rfl, rfl, rfl, rfl, rfl⟩

def emitBytes (state : Compilation) (bytes : List UInt8) : Compilation :=
  bytes.foldl Compilation.emitByte state

def bytesWith (op : Opcode) (operand : Nat) : List UInt8 :=
  [op.toByte, (Chunk.bytesOf operand).1, (Chunk.bytesOf operand).2]

section EmitBytes

theorem emitBytes_code (state : Compilation) (bytes : List UInt8) :
    (emitBytes state bytes).scope.chunk.code = state.scope.chunk.code ++ bytes.toArray := by
  induction bytes generalizing state with
  | nil => simp [emitBytes]
  | cons byte rest ih =>
    change (emitBytes (state.emitByte byte) rest).scope.chunk.code = _
    rw [ih]
    simp [Compilation.emitByte, Chunk.write]

theorem emitBytes_offset (state : Compilation) (bytes : List UInt8) :
    (emitBytes state bytes).offset = state.offset + bytes.length := by
  simp [Compilation.offset, emitBytes_code]

theorem bytesWith_offset (state : Compilation) (op : Opcode) (operand : Nat) :
    (emitBytes state (bytesWith op operand)).offset = state.offset + 3 :=
  emitBytes_offset _ _

theorem emitBytes_errors (state : Compilation) (bytes : List UInt8) : (emitBytes state bytes).errors = state.errors := by
  induction bytes generalizing state with
  | nil => rfl
  | cons byte rest ih => exact ih (state.emitByte byte)

theorem emitBytes_functions (state : Compilation) (bytes : List UInt8) :
    (emitBytes state bytes).scope.chunk.functions = state.scope.chunk.functions := by
  induction bytes generalizing state with
  | nil => rfl
  | cons byte rest ih => exact ih (state.emitByte byte)

theorem emitBytes_kind (state : Compilation) (bytes : List UInt8) : (emitBytes state bytes).scope.kind = state.scope.kind := by
  induction bytes generalizing state with
  | nil => rfl
  | cons byte rest ih => exact ih (state.emitByte byte)

theorem emitBytes_append (state : Compilation) (first second : List UInt8) :
    emitBytes state (first ++ second) = emitBytes (emitBytes state first) second :=
  List.foldl_append

theorem emitByte_later (state : Compilation) (byte : UInt8) : Later state (state.emitByte byte) := by
  refine ⟨rfl, widened_refl _, .refl _, .refl _, ⟨.refl _, .refl _, fun _ _ named => ⟨named.starts, named.reads⟩⟩, ?_,
    fun i below => ?_, rfl⟩
  · simp [Compilation.offset, Compilation.emitByte, Chunk.write]
  · simp only [Compilation.offset] at below
    simp only [Compilation.emitByte, Chunk.write, Array.getElem?_push_lt below, Array.getElem?_eq_getElem below]

theorem emitBytes_later (state : Compilation) (bytes : List UInt8) : Later state (emitBytes state bytes) := by
  induction bytes generalizing state with
  | nil => exact .refl state
  | cons byte rest ih => exact (emitByte_later state byte).trans (ih _)

theorem emitByte_phrase (ready : Ready state) (byte : UInt8) : Phrase state (state.emitByte byte) :=
  ⟨emitByte_later state byte, ⟨ready.names, ready.sound, ready.supers, ready.tables.ended, ready.tables.nested⟩, rfl, rfl, rfl, rfl, rfl⟩

theorem emitBytes_phrase (ready : Ready state) (bytes : List UInt8) : Phrase state (emitBytes state bytes) := by
  induction bytes generalizing state with
  | nil => exact .refl ready
  | cons byte rest ih =>
    have first := emitByte_phrase ready byte
    exact first.trans (ih first.ready)

theorem Bears.emitted {bytes : List UInt8} (bears : Bears chunk (emitBytes state bytes) start stop) (lower : start ≤ state.offset)
    (upper : state.offset + bytes.length ≤ stop) {i : Nat} {byte : UInt8} (found : bytes[i]? = some byte) :
    chunk.code[state.offset + i]? = some byte := by
  obtain ⟨inside, -⟩ := List.getElem?_eq_some_iff.mp found
  rw [bears.code _ (by omega) (by omega), emitBytes_code]
  rw [Array.getElem?_append_right (by simp [Compilation.offset])]
  simpa [Compilation.offset] using found

theorem Holds.emitted {bytes : List UInt8} (holds : Holds context (emitBytes state bytes) start stop)
    (lower : start ≤ state.offset) (upper : state.offset + bytes.length ≤ stop) {i : Nat} {byte : UInt8}
    (found : bytes[i]? = some byte) : context.chunk.code[state.offset + i]? = some byte :=
  holds.bears.emitted lower upper found

end EmitBytes

theorem tables_phrase (ready : Ready state) (tables : TablesKept state.scope.chunk chunk) (stocked : Stocked chunk)
    (code : chunk.code = state.scope.chunk.code) : Phrase state { state with scope := { state.scope with chunk } } :=
  ⟨⟨rfl, widened_refl _, .refl _, .refl _, tables, by simp [Compilation.offset, code], fun i _ => by rw [code], rfl⟩,
    ⟨ready.names, ready.sound, ready.supers, stocked⟩, rfl, rfl, rfl, rfl, rfl⟩

theorem addString_phrase (ready : Ready state) {text : String} (storable : Chunk.isStorable text = true) :
    Phrase state { state with scope := { state.scope with chunk := state.scope.chunk.addString text } } :=
  tables_phrase ready ⟨.refl _, .refl _, fun _ _ named => named.addString text⟩
    ⟨ready.tables.ended.addString storable, ready.tables.nested⟩ rfl

theorem addConstant_phrase (ready : Ready state) (value : Value) :
    Phrase state { state with scope := { state.scope with chunk := state.scope.chunk.addConstant value } } :=
  tables_phrase ready ⟨.push _ _, .refl _, fun _ _ named => ⟨named.starts, named.reads⟩⟩
    ⟨ready.tables.ended, ready.tables.nested⟩ rfl

theorem addFunction_phrase (ready : Ready state) {proto : Proto} (done : Sealed proto) :
    Phrase state { state with scope := { state.scope with chunk := state.scope.chunk.addFunction proto } } := by
  refine tables_phrase ready ⟨.refl _, .push _ _, fun _ _ named => ⟨named.starts, named.reads⟩⟩
    ⟨ready.tables.ended, fun nested member => ?_⟩ rfl
  rcases Array.mem_push.mp member with old | rfl
  · exact ready.tables.nested nested old
  · exact done

theorem operand?_of_bytes {operand : Nat} (fits : operand ≤ maxOperand)
    (high : chunk.code[place]? = some (Chunk.bytesOf operand).1) (low : chunk.code[place + 1]? = some (Chunk.bytesOf operand).2) :
    chunk.operand? place = some operand := by
  simp only [Chunk.operand?, high, low, Chunk.ofBytes_bytesOf fits]

end StackScript.Compile
