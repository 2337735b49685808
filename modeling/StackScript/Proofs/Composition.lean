import StackScript.Proofs.StatementGrammar

/-!
How the compiler is put together. It does everything with a small number of actions: reading the state, passing a token,
writing an instruction, looking up a captured variable, entering a scope and so on. The phrases of the grammar are built from
these in one and the same way, whatever the phrases further in are. A property of the small actions that carries over from two
actions to one after the other is therefore a property of all phrases.

What is built keeps track of numbers that are put into the code. Where an operand is written, it fits; where a jump is patched,
its operand has been written; and a loop goes back to code that is there.
-/

namespace StackScript

def Token.bare (token : Token) : Token := { token with span := .nowhere }

namespace Compile

open Parse Reading Conduct

structure FunctionScope.Limited (scope : FunctionScope) : Prop where
  arity : scope.arity ≤ maxArguments
  locals : scope.locals.size ≤ maxLocals
  captures : scope.captures.size ≤ maxCaptures
  indices : ∀ capture ∈ scope.captures, capture.index < maxLocals

structure Compilation.Limited (state : Compilation) : Prop where
  scope : state.scope.Limited
  enclosing : ∀ outer ∈ state.enclosing, outer.Limited

/-- What two compilations have in common that differ in the places of tokens and in what the code contains. -/
structure Sight (left right : Compilation) : Prop where
  peek : left.cursor.peek.bare = right.cursor.peek.bare
  previous : left.cursor.previous.bare = right.cursor.previous.bare
  remaining : left.cursor.remaining = right.cursor.remaining
  kind : left.scope.kind = right.scope.kind
  arity : left.scope.arity = right.scope.arity
  locals : left.scope.locals = right.scope.locals
  depth : left.scope.depth = right.scope.depth
  classes : left.classes = right.classes
  nesting : left.nesting = right.nesting
  offset : left.offset = right.offset

def countParameter : Parse Unit := do
  if (← read (·.scope.arity)) = maxArguments then failHere .tooManyParameters
  else update fun state => { state with scope := { state.scope with arity := state.scope.arity + 1 } }

/-- How the locals of the innermost function stand: all of them are initialized, maybe with no scope open, inside a scope, in a
scope without this name, in one without locals, or behind a local of the current scope; or the newest is being initialized. -/
inductive Mode where
  | settled | outermost | inside | clear (name : String) | fresh | owning | pending

inductive Act : Type → Type 1 where
  | read {α : Type} (view : Compilation → α) : Act α
  | depth : Act Nat
  | declares (name : String) : Act Bool
  | failHere {α : Type} (complaint : Complaint) : Act α
  | failBehind {α : Type} (complaint : Complaint) : Act α
  | advance : Act Unit
  | emit (op : Opcode) : Act Unit
  | emitWith (op : Opcode) (operand : Nat) : Act Unit
  | emitCount (count : Nat) : Act Unit
  | patchJump (jump : Nat) : Act Unit
  | emitLoop (start : Nat) : Act Unit
  | makeConstant (value : Value) : Act Nat
  | makeString (text : String) : Act Nat
  | resolveCapture (name : String) : Act (Option Nat)
  | beginScope : Act Unit
  | endScope : Act Unit
  | addLocal (name : String) : Act Unit
  | markInitialized : Act Unit
  | countParameter : Act Unit
  | markSuperclass : Act Unit
  | leaveLevel : Act Unit
  | leaveClass : Act Unit
  | leaveFunction : Act Unit

namespace Act

def run {α : Type} : Act α → Parse α
  | .read view => Parse.read view
  | .depth => Parse.read (·.scope.depth)
  | .declares name => Parse.read (declaresName ·.scope name)
  | .failHere complaint => Parse.failHere complaint
  | .failBehind complaint => Parse.failBehind complaint
  | .advance => Parse.advance
  | .emit op => Parse.emit op
  | .emitWith op operand => Parse.emitWith op operand
  | .emitCount count => Parse.emitByte count.toUInt8
  | .patchJump jump => Parse.patchJump jump
  | .emitLoop start => Parse.emitLoop start
  | .makeConstant value => Parse.makeConstant value
  | .makeString text => Parse.makeString text
  | .resolveCapture name => Parse.resolveCapture name
  | .beginScope => update (·.beginScope)
  | .endScope => update (·.endScope)
  | .addLocal name => Parse.addLocal name
  | .markInitialized => update (·.markInitialized)
  | .countParameter => Compile.countParameter
  | .markSuperclass => update (·.markSuperclass)
  | .leaveLevel => update (·.shallower)
  | .leaveClass => update fun state => { state with classes := state.classes.tail }
  | .leaveFunction => Reading.leaveFunction

/-- How the locals stand after a small action, where it has given a value. -/
def after {α : Type} : Act α → Mode → α → Mode
  | .depth, _, level => if level = 0 then .outermost else .inside
  | .declares name, _, declared => if declared then .inside else .clear name
  | .beginScope, _, _ => .fresh
  | .endScope, _, _ => .settled
  | .addLocal _, _, _ => .pending
  | .markInitialized, .outermost, _ => .outermost
  | .markInitialized, _, _ => .owning
  | _, mode, _ => mode

/-- The small action may be taken where the locals stand like this, and so much is known of the size of the code. Only actions
with scopes change them. -/
def Proper (rescoping : Prop) (mode : Mode) (known : Nat → Prop) {α : Type} : Act α → Prop
  | .read view => ∀ left right, Sight left right → view left = view right
  | .depth => mode ≠ .pending
  | .declares _ => mode = .inside
  | .emitWith _ operand => ∀ size, known size → operand ≤ maxOperand
  | .emitCount count => ∀ size, known size → count ≤ maxArguments
  | .patchJump jump => ∀ size, known size → jump + 2 ≤ size
  | .emitLoop start => ∀ size, known size → start ≤ size
  | .beginScope | .endScope => rescoping ∧ mode ≠ .pending
  | .addLocal name => rescoping ∧ (mode = .clear name ∨ mode = .fresh)
  | .markInitialized => rescoping ∧ (mode = .outermost ∨ mode = .pending ∨ mode = .owning)
  | .countParameter | .markSuperclass => rescoping
  | .leaveLevel | .leaveClass | .leaveFunction => False
  | _ => True

theorem Proper.weaken {rescoping : Prop} {mode : Mode} {known wider : Nat → Prop} {α : Type} {action : Act α}
    (proper : action.Proper rescoping mode known) (implies : ∀ size, wider size → known size) : action.Proper rescoping mode wider := by
  cases action with
  | emitWith | emitCount | patchJump | emitLoop => exact fun size known => proper size (implies size known)
  | _ => exact proper

end Act

/-- The action may have given the value when the code had at most this size. -/
def Yields {α : Type} (action : Parse α) (value : α) (size : Nat) : Prop :=
  ∃ before after : Compilation, before.Limited ∧ action before = .ok value after ∧ after.offset ≤ size

/-- What actions are built from: pairs that are given, and small actions, among them such that change scopes. -/
structure Stock where
  rescoping : Prop
  pair : {α : Type} → Mode → Parse α → Parse α → (α → Mode) → Prop

/-- The two actions are built in the same way, and lead from the one mode to the other. -/
inductive Stock.Shifts (stock : Stock) : {α : Type} → (Nat → Prop) → Mode → Parse α → Parse α → (α → Mode) → Prop where
  | given {α : Type} {known : Nat → Prop} {mode : Mode} {action action' : Parse α} {after : α → Mode}
      (pair : stock.pair mode action action' after) : stock.Shifts known mode action action' after
  | yield {α : Type} {known : Nat → Prop} {mode : Mode} {after : α → Mode} (value : α) (stays : after value = mode) :
      stock.Shifts known mode (Pure.pure value) (Pure.pure value) after
  | small {α : Type} {known : Nat → Prop} {mode : Mode} (action : Act α) (proper : action.Proper stock.rescoping mode known) :
      stock.Shifts known mode action.run action.run (action.after mode)
  | bind {α β : Type} {known : Nat → Prop} {mode : Mode} {action action' : Parse α} {next next' : α → Parse β}
      {between : α → Mode} {after : β → Mode} (one : stock.Shifts known mode action action' between)
      (two : ∀ value, stock.Shifts (fun size => known size ∧ Yields action value size) (between value) (next value) (next' value) after) :
      stock.Shifts known mode (action >>= next) (action' >>= next') after
  | settle {α : Type} {known : Nat → Prop} {mode : Mode} {action action' : Parse α} {after : α → Mode}
      (shifts : stock.Shifts known mode action action' after) (calm : ∀ value, after value ≠ .pending) :
      stock.Shifts known mode action action' fun _ => .settled

/-- The two actions are built in the same way, and leave the locals as they stand. -/
abbrev Stock.Builds (stock : Stock) {α : Type} (known : Nat → Prop) (mode : Mode) (action action' : Parse α) : Prop :=
  stock.Shifts known mode action action' fun _ => mode

namespace Stock.Shifts

variable {stock : Stock} {α β : Type} {known wider : Nat → Prop} {mode : Mode} {between : α → Mode} {after : β → Mode}
variable {action action' : Parse α} {next next' : α → Parse β} {kind : Kind} {what : Expectation} {again again' : Parse Bool}

theorem weaken (shifts : stock.Shifts known mode action action' between) (implies : ∀ size, wider size → known size) :
    stock.Shifts wider mode action action' between := by
  induction shifts generalizing wider with
  | given pair => exact .given pair
  | yield value stays => exact .yield value stays
  | small action proper => exact .small action (proper.weaken implies)
  | bind _ _ one two => exact .bind (one implies) fun value => two value fun size both => ⟨implies size both.1, both.2⟩
  | settle _ calm ih => exact .settle (ih implies) calm

theorem always (shifts : stock.Shifts (fun _ => True) mode action action' between) : stock.Shifts known mode action action' between :=
  shifts.weaken fun _ _ => trivial

theorem pure (value : α) : stock.Builds known mode (Pure.pure value : Parse α) (Pure.pure value) := .yield value rfl

theorem seq (one : stock.Shifts known mode action action' between)
    (two : ∀ value, stock.Shifts known (between value) (next value) (next' value) after) :
    stock.Shifts known mode (action >>= next) (action' >>= next') after :=
  .bind one fun value => (two value).weaken fun _ => And.left

theorem having {fact : α → Nat → Prop} (one : stock.Shifts known mode action action' between)
    (tells : ∀ {value size}, Yields action value size → fact value size)
    (two : ∀ value, stock.Shifts (fun size => known size ∧ fact value size) (between value) (next value) (next' value) after) :
    stock.Shifts known mode (action >>= next) (action' >>= next') after :=
  .bind one fun value => (two value).weaken fun _ => And.imp_right tells

theorem ite {condition : Prop} [Decidable condition] {other other' : Parse α} (yes : stock.Shifts known mode action action' between)
    (no : stock.Shifts known mode other other' between) :
    stock.Shifts known mode (if condition then action else other) (if condition then action' else other') between := by
  split
  · exact yes
  · exact no

theorem failing (fails : {α : Type} → Parse α) (builds : stock.Builds known mode (fails : Parse Empty) fails)
    (same : (fails : Parse α) = fails >>= Empty.elim) : stock.Shifts known mode (fails : Parse α) fails between := by
  rw [same]
  exact seq builds fun impossible => impossible.elim

theorem failHere (complaint : Complaint) :
    stock.Shifts known mode (Parse.failHere complaint : Parse α) (Parse.failHere complaint) between :=
  failing (Parse.failHere complaint) (.small (.failHere complaint) trivial) rfl

theorem failBehind (complaint : Complaint) :
    stock.Shifts known mode (Parse.failBehind complaint : Parse α) (Parse.failBehind complaint) between :=
  failing (Parse.failBehind complaint) (.small (.failBehind complaint) trivial) rfl

theorem reading {view : Compilation → α} (same : ∀ {left right}, Sight left right → view left = view right)
    (two : ∀ value, stock.Shifts known mode (next value) (next' value) after) :
    stock.Shifts known mode (Parse.read view >>= next) (Parse.read view >>= next') after :=
  seq (.small (.read view) fun _ _ => same) two

theorem looking {view : Compilation → Token} (same : ∀ {left right}, Sight left right → (view left).bare = (view right).bare)
    {next next' : Token → Parse β} (bare : ∀ token, next token.bare = next token) (bare' : ∀ token, next' token.bare = next' token)
    (two : ∀ token, stock.Shifts known mode (next token) (next' token) after) :
    stock.Shifts known mode (Parse.read view >>= next) (Parse.read view >>= next') after := by
  have looks {next : Token → Parse β} (bare : ∀ token, next token.bare = next token) :
      (Parse.read fun state => (view state).bare) >>= next = Parse.read view >>= next :=
    funext fun state => congrFun (bare (view state)) state
  rw [← looks bare, ← looks bare']
  exact reading same two

theorem accept (kind : Kind) : stock.Builds known mode (Parse.accept kind) (Parse.accept kind) := by
  have same : Parse.accept kind = Parse.read (·.cursor.check kind) >>= fun given =>
      if given then Parse.advance >>= fun _ => Pure.pure true else Pure.pure false := by
    funext state
    change _ = (if state.cursor.check kind then _ else _ : Parse Bool) state
    unfold Parse.accept
    split <;> rfl
  rw [same]
  refine reading (fun sight => ?_) fun given => .ite (seq (.small .advance trivial) fun _ => .pure true) (.pure false)
  exact congrArg (·.kind == kind) sight.peek

theorem accepting {next next' : Bool → Parse β} (two : ∀ given, stock.Shifts known mode (next given) (next' given) after) :
    stock.Shifts known mode (Parse.accept kind >>= next) (Parse.accept kind >>= next') after :=
  seq (accept kind) two

theorem expect (kind : Kind) (what : Expectation) : stock.Builds known mode (Parse.expect kind what) (Parse.expect kind what) := by
  have same : Parse.expect kind what = Parse.read (·.cursor.check kind) >>= fun found =>
      if found then Parse.advance else Parse.failHere (.expect what) := by
    funext state
    change _ = (if state.cursor.check kind then _ else _ : Parse Unit) state
    unfold Parse.expect Cursor.expect
    by_cases found : state.cursor.check kind
    · rw [if_pos found, if_pos found]
      rfl
    · rw [if_neg found, if_neg found]
      rfl
  rw [same]
  refine reading (fun sight => ?_) fun found => .ite (.small .advance trivial) (failHere _)
  exact congrArg (·.kind == kind) sight.peek

theorem expecting {next next' : Unit → Parse β} (two : stock.Shifts known mode (next ()) (next' ()) after) :
    stock.Shifts known mode (Parse.expect kind what >>= next) (Parse.expect kind what >>= next') after :=
  seq (expect kind what) fun _ => two

theorem naming {next next' : String → Parse β} (two : ∀ name, stock.Shifts known mode (next name) (next' name) after) :
    stock.Shifts known mode (expectName what >>= next) (expectName what >>= next') after := by
  refine seq (expecting (looking Sight.previous (fun _ => rfl) (fun _ => rfl) fun token => .pure _)) two

theorem repeatUpTo (builds : stock.Builds known mode again again') (bound : Nat) :
    stock.Builds known mode (Parse.repeatUpTo again bound) (Parse.repeatUpTo again' bound) := by
  induction bound with
  | zero => exact .pure ()
  | succ bound ih => exact seq builds fun more => .ite ih (.pure ())

theorem whileProgress (builds : stock.Builds known mode again again') :
    stock.Builds known mode (Parse.whileProgress again) (Parse.whileProgress again') :=
  reading (fun sight => congrArg (· + 1) sight.remaining) builds.repeatUpTo

theorem emit (op : Opcode) : stock.Builds known mode (Parse.emit op) (Parse.emit op) := .small (.emit op) trivial

theorem emitAll (ops : List Opcode) : stock.Builds known mode (Compile.emitAll ops) (Compile.emitAll ops) := by
  induction ops with
  | nil => exact .pure ()
  | cons op ops ih => exact seq (emit op) fun _ => ih

theorem emitWith (op : Opcode) {operand : Nat} (fits : ∀ size, known size → operand ≤ maxOperand) :
    stock.Builds known mode (Parse.emitWith op operand) (Parse.emitWith op operand) :=
  .small (.emitWith op operand) fits

theorem emitReturn : stock.Builds known mode (update (·.emitReturn)) (update (·.emitReturn)) := by
  have same : update (·.emitReturn) = Parse.read (·.scope.kind) >>= fun kind =>
      if kind = .initializer then Parse.emitWith .getLocal 0 >>= fun _ => Parse.emit .return
      else Parse.emit .pushNil >>= fun _ => Parse.emit .return := by
    funext state
    change .ok () state.emitReturn = (if state.scope.kind = .initializer then _ else _ : Parse Unit) state
    unfold Compilation.emitReturn
    split <;> rfl
  rw [same]
  refine reading Sight.kind fun kind => .ite (seq (emitWith _ ?_) fun _ => emit _) (seq (emit _) fun _ => emit _)
  exact fun _ _ => Nat.zero_le _

theorem jumping (op : Opcode) {next next' : Nat → Parse β}
    (two : ∀ jump, stock.Shifts (fun size => known size ∧ jump + 2 ≤ size) mode (next jump) (next' jump) after) :
    stock.Shifts known mode (emitJump op >>= next) (emitJump op >>= next') after := by
  refine having (seq (emitWith op fun _ _ => Nat.le_refl _) fun _ => .small (.read (·.offset - 2)) ?_) (fun yields => ?_) two
  · exact fun _ _ sight => congrArg (· - 2) sight.offset
  · obtain ⟨before, after, -, done, within⟩ := yields
    have size := bytesWith_offset before op maxOperand
    cases done
    change (emitBytes before (bytesWith op maxOperand)).offset ≤ _ at within
    change (emitBytes before (bytesWith op maxOperand)).offset - 2 + 2 ≤ _
    omega

theorem patchJump {jump : Nat} (inside : ∀ size, known size → jump + 2 ≤ size) :
    stock.Builds known mode (Parse.patchJump jump) (Parse.patchJump jump) :=
  .small (.patchJump jump) inside

theorem marking {next next' : Nat → Parse β}
    (two : ∀ mark, stock.Shifts (fun size => known size ∧ mark ≤ size) mode (next mark) (next' mark) after) :
    stock.Shifts known mode (Parse.read (·.offset) >>= next) (Parse.read (·.offset) >>= next') after := by
  refine having (.small (.read (·.offset)) fun _ _ => Sight.offset) (fun yields => ?_) two
  obtain ⟨before, after, -, done, within⟩ := yields
  cases done
  exact within

theorem emitLoop {start : Nat} (behind : ∀ size, known size → start ≤ size) :
    stock.Builds known mode (Parse.emitLoop start) (Parse.emitLoop start) :=
  .small (.emitLoop start) behind

theorem storing (text : String) {next next' : Nat → Parse β}
    (two : ∀ entry, stock.Shifts (fun size => known size ∧ entry ≤ maxOperand) mode (next entry) (next' entry) after) :
    stock.Shifts known mode (makeString text >>= next) (makeString text >>= next') after := by
  refine having (.small (.makeString text) trivial) (fun yields => ?_) two
  obtain ⟨before, after, -, done, -⟩ := yields
  exact (makeString_ok done).2.2.1

theorem constant (value : Value) : stock.Builds known mode (makeConstant value >>= Parse.emitWith .constant)
    (makeConstant value >>= Parse.emitWith .constant) := by
  refine .bind (.small (.makeConstant value) trivial) fun index => emitWith _ fun size both => ?_
  obtain ⟨-, before, after, -, done, -⟩ := both
  exact Nat.le_trans (makeConstant_ok done).2.1 (by decide)

end Stock.Shifts

section Lookup

variable {name : String} {inner : FunctionScope} {outers : List FunctionScope}

theorem slotOf?_lt {scope : FunctionScope} {slot : Nat} (found : scope.slotOf? name = .ok (some slot)) :
    slot < scope.locals.size := by
  obtain ⟨binding, held, -⟩ := (FunctionScope.binds_of_slotOf? found).found
  exact (Array.getElem?_eq_some_iff.mp held).1

/-- Threading a name inwards keeps the functions within their limits, and gives the index of a capture. -/
structure Threading.Limited (threading : Threading) : Prop where
  inner : threading.inner.Limited
  outers : ∀ outer ∈ threading.outers, outer.Limited
  index : ∀ index, threading.index = .ok (some index) → index < threading.inner.captures.size

theorem Threading.Limited.capture {capture : Capture} (limited : inner.Limited)
    (around : ∀ outer ∈ outers, outer.Limited) (near : capture.index < maxLocals) :
    (Threading.capture inner outers capture).Limited := by
  unfold Threading.capture
  cases added : inner.addCapture capture with
  | error complaint => exact ⟨limited, around, nofun⟩
  | ok found =>
    obtain ⟨index, after⟩ := found
    obtain ⟨captures, rfl, -, held, size, members⟩ := addCapture_ok added
    refine ⟨⟨limited.arity, limited.locals, size limited.captures, fun other member => ?_⟩, around, fun place same => ?_⟩
    · rcases members other member with old | rfl
      · exact limited.indices other old
      · exact near
    · cases same
      exact (Array.getElem?_eq_some_iff.mp held).1

theorem thread_limited (name : String) (limited : inner.Limited)
    (around : ∀ outer ∈ outers, outer.Limited) : (thread name inner outers).Limited := by
  induction outers generalizing inner with
  | nil => exact ⟨limited, around, fun _ known => by cases known⟩
  | cons outer further ih =>
    obtain ⟨nearest, rest⟩ := List.forall_mem_cons.mp around
    have threaded := ih nearest rest
    have kept := List.forall_mem_cons.mpr ⟨threaded.inner, threaded.outers⟩
    unfold thread
    cases found : outer.slotOf? name with
    | error complaint => exact ⟨limited, around, fun _ known => by cases known⟩
    | ok slot =>
      cases slot with
      | some slot =>
        refine .capture limited (List.forall_mem_cons.mpr ⟨?_, rest⟩) (Nat.lt_of_lt_of_le (slotOf?_lt found) nearest.locals)
        exact ⟨nearest.arity, Array.size_modify.trans_le nearest.locals, nearest.captures, nearest.indices⟩
      | none =>
        dsimp only
        split
        · next index known => exact .capture limited kept (Nat.lt_of_lt_of_le (threaded.index _ known) threaded.inner.captures)
        · exact ⟨limited, kept, fun _ known => by cases known⟩
        · exact ⟨limited, kept, fun _ known => by cases known⟩

theorem resolve_fits {before after : Compilation} {access : Access} (limited : before.Limited)
    (done : resolve name before = .ok access after) : access.operand ≤ maxOperand := by
  have done := read_ok done
  cases found : before.scope.slotOf? name with
  | error complaint =>
    rw [found] at done
    cases done
  | ok slot =>
    rw [found] at done
    cases slot with
    | some slot =>
      cases done
      exact Nat.le_trans (Nat.le_of_lt (slotOf?_lt found)) (Nat.le_trans limited.scope.locals (by decide))
    | none =>
      obtain ⟨index, between, captured, done⟩ := bind_ok done
      have threaded := thread_limited name limited.scope limited.enclosing
      unfold resolveCapture at captured
      dsimp only at captured
      split at captured
      · next same =>
        cases captured
        cases index with
        | some index =>
          cases done
          exact Nat.le_trans (Nat.le_of_lt (threaded.index _ same)) (Nat.le_trans threaded.inner.captures (by decide))
        | none =>
          obtain ⟨entry, final, made, done⟩ := bind_ok done
          cases done
          exact (makeString_ok made).2.2.1
      · cases captured

end Lookup

end Compile

end StackScript
