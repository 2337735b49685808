import StackScript.Proofs.PhraseComposition
import StackScript.Proofs.ScopeTables

/-!
All states that the compiler comes through, whether the text is compiled or rejected. A run is a sequence of small actions.
In every state between them the functions in progress are within their limits and their locals stand in the order of scopes.
So every number that is written into the code is read back as it was, and the tables of locals mirror the scopes of the text.
-/

namespace StackScript

namespace Compile

open Parse Reading Conduct

/-- What is said of a run: of the states on the way, of the small actions that go through, and of the states in which errors
leave the phrases. -/
structure Watch where
  seen : Compilation → Prop
  taken : {α : Type} → Act α → Compilation → α → Compilation → Prop
  broken : Compilation → Prop

/-- The run of the action from the state is made of small actions, and all that is said holds of it. -/
inductive Watch.Passes (watch : Watch) : {α : Type} → Parse α → Compilation → Prop where
  | pure {α : Type} {state : Compilation} (value : α) (seen : watch.seen state) : watch.Passes (Pure.pure value : Parse α) state
  | small {α : Type} {state : Compilation} (action : Act α) (seen : watch.seen state)
      (goes : ∀ value after, action.run state = .ok value after → watch.taken action state value after ∧ watch.seen after)
      (fails : ∀ error after, action.run state = .error error after → watch.broken after) : watch.Passes action.run state
  | bind {α β : Type} {state : Compilation} {action : Parse α} {next : α → Parse β} (first : watch.Passes action state)
      (second : ∀ value after, action state = .ok value after → watch.Passes (next value) after) : watch.Passes (action >>= next) state
  | wrapped {α β : Type} {state : Compilation} {enter leave : Compilation → Compilation} {body : Parse α} {exit : α → Parse β}
      (seen : watch.seen state) (inside : watch.Passes body (enter state))
      (exits : ∀ value after, body (enter state) = .ok value after → watch.Passes (exit value) after)
      (breaks : ∀ error after, body (enter state) = .error error after → watch.broken (leave after)) :
      watch.Passes (wrapped enter leave body exit) state
  | declaration {inner : Inner} {state : Compilation} (inside : watch.Passes (declarationOrFail inner) state)
      (recovers : ∀ error after, declarationOrFail inner state = .error error after →
        watch.seen (after.recover error state.scope.depth state.scope.locals.size)) : watch.Passes (declaration inner) state

theorem Watch.Passes.mono {watch wider : Watch} {α : Type} {action : Parse α} {state : Compilation} (passes : watch.Passes action state)
    (seen : ∀ state, watch.seen state → wider.seen state)
    (taken : ∀ {α : Type} {action : Act α} {before value after}, watch.taken action before value after → wider.taken action before value after)
    (broken : ∀ state, watch.broken state → wider.broken state) : wider.Passes action state := by
  induction passes with
  | pure value here => exact .pure value (seen _ here)
  | small action here goes fails =>
    exact .small action (seen _ here) (fun value after done => (goes value after done).imp taken (seen after))
      fun error after failed => broken after (fails error after failed)
  | bind _ _ first second => exact .bind first second
  | wrapped here _ _ breaks inside exits =>
    exact .wrapped (seen _ here) inside exits fun error after failed => broken _ (breaks error after failed)
  | declaration _ recovers inside => exact .declaration inside fun error after failed => seen _ (recovers error after failed)

namespace Act

/-- What the small action writes is read back as it was: operands, counts of arguments, distances of jumps, which land where they
should, entries of tables, and the captures of a closure. -/
def Faithful {α : Type} : Act α → Compilation → α → Compilation → Prop
  | .emitWith _ operand, before, _, after => after.scope.chunk.operand? (before.offset + 1) = some operand
  | .emitCount count, before, _, after => after.scope.chunk.code[before.offset]?.map UInt8.toNat = some count
  | .patchJump jump, _, _, after => ∃ distance, after.scope.chunk.operand? jump = some distance ∧ jump + 2 + distance = after.offset
  | .emitLoop start, before, _, after =>
    ∃ distance, after.scope.chunk.operand? (before.offset + 1) = some distance ∧ start + distance = after.offset
  | .makeConstant value, _, index, after => index ≤ maxConstantIndex ∧ after.scope.chunk.constants[index]? = some value.toWord
  | .makeString _, before, entry, _ => entry = before.scope.chunk.strings.size ∧ entry ≤ maxOperand
  | .resolveCapture _, _, index?, after => ∀ index ∈ index?, index < after.scope.captures.size
  | .leaveFunction, before, _, after => after.scope.chunk.Closing before.closeFunction.offset before.scope.finish after.offset
  | _, _, _, _ => True

/-- What the small action has to do with scopes: the end of a scope removes just its locals, and a name counts as declared if a
local of the innermost scope has it. -/
def Scoped {α : Type} : Act α → Compilation → α → Compilation → Prop
  | .endScope, before, _, after => after.scope.table =
      ⟨before.scope.table.entries.filter (!ScopeTable.deeper (before.scope.depth - 1) ·), before.scope.depth - 1⟩
  | .declares name, before, declared, _ => declared = true ↔ (name, some before.scope.depth) ∈ before.scope.table.entries
  | _, _, _, _ => True

end Act

def Mode.Holds (table : ScopeTable) : Mode → Prop
  | .settled => table.Settled
  | .outermost => table.Settled ∧ table.depth = 0
  | .inside => table.Settled ∧ table.depth ≠ 0
  | .clear name => table.Clear name
  | .fresh => ∀ name, table.Clear name
  | .owning => ∃ earlier name depth, table = ⟨earlier ++ [(name, some depth)], depth⟩ ∧ ScopeTable.Clear ⟨earlier, depth⟩ name
  | .pending => ∃ earlier name depth, table = ⟨earlier ++ [(name, none)], depth⟩ ∧ ScopeTable.Clear ⟨earlier, depth⟩ name

namespace Mode.Holds

variable {table : ScopeTable} {mode : Mode}

theorem settled (holds : mode.Holds table) (calm : mode ≠ .pending) : table.Settled := by
  cases mode with
  | settled => exact holds
  | outermost | inside => exact holds.1
  | clear name => exact holds.toSettled
  | fresh => exact (holds "").toSettled
  | owning =>
    obtain ⟨earlier, name, depth, rfl, clear⟩ := holds
    exact clear.declare
  | pending => exact absurd rfl calm

theorem lexical (holds : mode.Holds table) : table.Lexical := by
  by_cases calm : mode = .pending
  · subst calm
    obtain ⟨earlier, name, depth, rfl, clear⟩ := holds
    exact clear.push (by simp)
  · exact (holds.settled calm).toLexical

end Mode.Holds

variable {α β : Type} {mode : Mode} {known : Nat → Prop} {origin state before between after : Compilation}

/-- The code has grown, and the functions around are what they were. -/
structure Prolongs (before after : Compilation) : Prop where
  offset : before.offset ≤ after.offset
  enclosing : List.Forall₂ FunctionScope.Widened before.enclosing after.enclosing

theorem Prolongs.trans (one : Prolongs before between) (two : Prolongs between after) : Prolongs before after :=
  ⟨Nat.le_trans one.offset two.offset, widened_trans one.enclosing two.enclosing⟩

theorem FunctionScope.Widened.table {before after : FunctionScope} (widened : before.Widened after) : after.table = before.table :=
  table_of_kept widened.locals widened.size widened.depth

theorem Prolongs.lexical (prolongs : Prolongs before after) (lexical : ∀ outer ∈ before.enclosing, outer.table.Lexical) :
    ∀ outer ∈ after.enclosing, outer.table.Lexical := by
  have kept {outers outers' : List FunctionScope} (widened : List.Forall₂ FunctionScope.Widened outers outers')
      (lexical : ∀ outer ∈ outers, outer.table.Lexical) : ∀ outer ∈ outers', outer.table.Lexical := by
    induction widened with
    | nil => exact lexical
    | cons widened _ ih =>
      obtain ⟨nearest, further⟩ := List.forall_mem_cons.mp lexical
      exact List.forall_mem_cons.mpr ⟨widened.table ▸ nearest, ih further⟩
  exact kept prolongs.enclosing lexical

/-- All functions in progress are within their limits, and their locals stand in the order of scopes. -/
structure Orderly (mode : Mode) (state : Compilation) : Prop where
  limited : state.Limited
  holds : mode.Holds state.scope.table
  enclosing : ∀ outer ∈ state.enclosing, outer.table.Lexical

structure Disrupted (state : Compilation) : Prop where
  limited : state.Limited
  frayed : state.scope.table.Frayed
  enclosing : ∀ outer ∈ state.enclosing, outer.table.Lexical

theorem Orderly.disrupted (orderly : Orderly mode state) : Disrupted state :=
  ⟨orderly.limited, orderly.holds.lexical.frayed, orderly.enclosing⟩

def attentive (broken : Compilation → Prop) : Watch where
  seen state := state.Limited ∧ ∀ scope ∈ state.scope :: state.enclosing, scope.table.Lexical
  taken action before value after := action.Faithful before value after ∧ action.Scoped before value after
  broken

theorem Orderly.seen (orderly : Orderly mode state) (broken : Compilation → Prop) : (attentive broken).seen state :=
  ⟨orderly.limited, List.forall_mem_cons.mpr ⟨orderly.holds.lexical, orderly.enclosing⟩⟩

/-- Errors may leave broken states, or there are no errors. -/
def Excused (broken : Compilation → Prop) (action : Parse α) (state : Compilation) : Prop :=
  (∀ after, Disrupted after → broken after) ∨ ∃ value after, action state = .ok value after ∧ after.errors.size ≤ state.errors.size

theorem Excused.mono {action : Parse α} {other : Parse β} {broken : Compilation → Prop} (excused : Excused broken action state)
    (fine : ∀ value after, action state = .ok value after → after.errors.size ≤ state.errors.size →
      ∃ value' after', other between = .ok value' after' ∧ after'.errors.size ≤ between.errors.size) : Excused broken other between := by
  rcases excused with allows | ⟨value, after, goes, few⟩
  · exact .inl allows
  · exact .inr (fine value after goes few)

/-- A state that is reached from another one, while more has been reached since the origin. -/
structure Furthers (origin state after : Compilation) : Prop extends Prolongs origin after where
  errors : state.errors.size ≤ after.errors.size

/-- The actions do the same, and what is said holds of the run. -/
structure Upheld (origin : Compilation) (post : α → Mode) (action action' : Parse α) (state : Compilation) : Prop where
  same : action state = action' state
  goes : ∀ value after, action state = .ok value after → Orderly (post value) after ∧ Furthers origin state after
  fails : ∀ error after, action state = .error error after → Disrupted after ∧ Furthers origin state after
  passes : ∀ broken, Excused broken action state → (attentive broken).Passes action state

namespace Upheld

variable {action action' : Parse α} {next next' : α → Parse β} {post : α → Mode} {last : β → Mode}

theorem since (upheld : Upheld state post action action' state) (prolongs : Prolongs origin state) : Upheld origin post action action' state where
  same := upheld.same
  goes value after done := (upheld.goes value after done).imp_right fun reaches => ⟨prolongs.trans reaches.toProlongs, reaches.errors⟩
  fails error after failed := (upheld.fails error after failed).imp_right fun reaches => ⟨prolongs.trans reaches.toProlongs, reaches.errors⟩
  passes := upheld.passes

theorem chain {enter leave : Compilation → Compilation} {ground : Compilation} {whole whole' : Parse β}
    (runs : whole state = Reading.wrapped enter leave action next state)
    (runs' : whole' state = Reading.wrapped enter leave action' next' state)
    (glue : ∀ broken, (attentive broken).Passes action (enter state) →
      (∀ value after, action (enter state) = .ok value after → (attentive broken).Passes (next value) after) →
      (∀ error after, action (enter state) = .error error after → broken (leave after)) → (attentive broken).Passes whole state)
    (one : Upheld ground post action action' (enter state)) (errors : (enter state).errors = state.errors)
    (two : ∀ value after, action (enter state) = .ok value after → Orderly (post value) after → Prolongs ground after →
      Upheld origin last (next value) (next' value) after)
    (leaves : ∀ {after}, Disrupted after → Prolongs ground after → Disrupted (leave after) ∧ Prolongs origin (leave after) ∧
      (leave after).errors = after.errors) : Upheld origin last whole whole' state := by
  unfold Reading.wrapped at runs runs'
  rw [← one.same] at runs'
  cases done : action (enter state) with
  | error error between =>
    rw [done] at runs runs'
    -- the rest never runs: what is left is the broken state, after `leave`
    obtain ⟨disrupted, reached⟩ := one.fails error between done
    obtain ⟨left, prolongs, kept⟩ := leaves disrupted reached.toProlongs
    refine ⟨runs.trans runs'.symm, fun value after goes => ?_, fun error' after failed => ?_, fun broken excused => ?_⟩
    · cases runs.symm.trans goes
    · cases runs.symm.trans failed
      exact ⟨left, prolongs, by rw [kept, ← errors]; exact reached.errors⟩
    · rcases excused with allows | ⟨value, after, goes, -⟩
      · refine glue _ (one.passes broken (.inl allows)) (fun value after goes => ?_) fun error' after failed => ?_
        · cases done.symm.trans goes
        · cases done.symm.trans failed
          exact allows _ left
      · cases runs.symm.trans goes
  | ok value between =>
    rw [done] at runs runs'
    obtain ⟨orderly, reached⟩ := one.goes value between done
    have before : state.errors.size ≤ between.errors.size := errors ▸ reached.errors
    have rest := two value between done orderly reached.toProlongs
    refine ⟨runs.trans (rest.same.trans runs'.symm), fun value after goes => ?_, fun error after failed => ?_, fun broken excused => ?_⟩
    · have further := rest.goes _ after (runs.symm.trans goes)
      exact ⟨further.1, further.2.toProlongs, Nat.le_trans before further.2.errors⟩
    · have further := rest.fails _ after (runs.symm.trans failed)
      exact ⟨further.1, further.2.toProlongs, Nat.le_trans before further.2.errors⟩
    · refine glue _ (one.passes broken (excused.mono fun final after goes few => ?_)) (fun value' after' goes' => ?_)
        fun error after failed => ?_
      · have further := (rest.goes _ after (runs.symm.trans goes)).2.errors
        exact ⟨value, between, done, errors ▸ Nat.le_trans further few⟩
      · cases done.symm.trans goes'
        exact rest.passes broken (excused.mono fun final after goes few => ⟨final, after, runs.symm.trans goes, Nat.le_trans few before⟩)
      · cases done.symm.trans failed

theorem bind (one : Upheld state post action action' state) (two : ∀ value after, action state = .ok value after →
      Orderly (post value) after → Prolongs state after → Upheld after last (next value) (next' value) after) :
    Upheld state last (action >>= next) (action' >>= next') state := by
  have runs (action : Parse α) (next : α → Parse β) : (action >>= next) state = Reading.wrapped id id action next state := by
    change EStateM.bind action next state = _
    unfold EStateM.bind Reading.wrapped
    dsimp only [id]
    cases action state <;> rfl
  refine chain (runs _ _) (runs _ _) (fun _ first second _ => .bind first second) one rfl (fun value after done orderly prolongs => ?_)
    fun disrupted prolongs => ⟨disrupted, prolongs, rfl⟩
  exact (two value after done orderly prolongs).since prolongs

theorem wrapped {enter leave : Compilation → Compilation} (orderly : Orderly mode state)
    (one : Upheld (enter state) post action action' (enter state)) (errors : (enter state).errors = state.errors)
    (two : ∀ value {after}, Orderly (post value) after → Prolongs (enter state) after → Upheld state last (next value) (next value) after)
    (leaves : ∀ {after}, Disrupted after → Prolongs (enter state) after → Disrupted (leave after) ∧ Prolongs state (leave after) ∧
      (leave after).errors = after.errors) :
    Upheld state last (Reading.wrapped enter leave action next) (Reading.wrapped enter leave action' next) state :=
  chain rfl rfl (fun broken => .wrapped (orderly.seen broken)) one errors (fun value _ _ => two value) leaves

theorem small (action : Act α) (orderly : Orderly mode state)
    (goes : ∀ value after, action.run state = .ok value after →
      (Orderly (post value) after ∧ Furthers origin state after) ∧ action.Faithful state value after ∧ action.Scoped state value after)
    (fails : ∀ error after, action.run state = .error error after → Disrupted after ∧ Furthers origin state after) :
    Upheld origin post action.run action.run state := by
  refine ⟨rfl, fun value after done => (goes value after done).1, fails, fun broken excused => ?_⟩
  refine .small action (orderly.seen broken) (fun value after done => ?_) fun error after failed => ?_
  · exact ⟨(goes value after done).2, (goes value after done).1.1.seen broken⟩
  · rcases excused with allows | ⟨value, final, done, -⟩
    · exact allows after (fails error after failed).1
    · cases done.symm.trans failed

theorem settle (upheld : Upheld origin post action action' state) (calm : ∀ value, post value ≠ .pending) :
    Upheld origin (fun _ => .settled) action action' state := by
  refine ⟨upheld.same, fun value after done => ?_, upheld.fails, upheld.passes⟩
  obtain ⟨orderly, furthers⟩ := upheld.goes value after done
  exact ⟨⟨orderly.limited, orderly.holds.settled (calm value), orderly.enclosing⟩, furthers⟩

end Upheld

structure Smooth (before after : Compilation) : Prop extends Prolongs before after where
  table : after.scope.table = before.scope.table
  limited : before.Limited → after.Limited
  errors : after.errors = before.errors

def smoothly : Conduct CompileError Compilation :=
  .alike Smooth (fun _ => ⟨⟨Nat.le_refl _, widened_refl _⟩, rfl, id, rfl⟩) fun one two =>
    ⟨one.toProlongs.trans two.toProlongs, two.table.trans one.table, two.limited ∘ one.limited, two.errors.trans one.errors⟩

theorem Smooth.recoded (state : Compilation) {chunk : Chunk Proto} (grows : state.offset ≤ chunk.code.size) :
    Smooth state (state.recoded chunk) :=
  ⟨⟨grows, widened_refl _⟩, rfl, fun limited => ⟨⟨limited.scope.arity, limited.scope.locals, limited.scope.captures, limited.scope.indices⟩,
    limited.enclosing⟩, rfl⟩

theorem Smooth.threaded (state : Compilation) (name : String) : Smooth state (state.threaded name) := by
  obtain ⟨inner, outers⟩ := thread_widened name state.scope state.enclosing
  refine ⟨⟨Nat.le_of_eq (congrArg (·.code.size) inner.chunk.symm), outers⟩, inner.table, fun limited => ?_, rfl⟩
  have threaded := thread_limited name limited.scope limited.enclosing
  exact ⟨threaded.inner, threaded.outers⟩

instance : smoothly.Closed where
  refuse state _ := smoothly.refl state
  byte state byte := .recoded state (by simp [Chunk.write, Compilation.offset])
  patch state offset byte := .recoded state (by simp [Chunk.writeAt, Compilation.offset])
  constant state value := .recoded state (Nat.le_refl _)
  string state text := .recoded state (Nat.le_refl _)
  capture name := resolveCapture_obeys (fun state => .threaded state name) fun state _ => .threaded state name
  here _ state := smoothly.refl state
  behind _ state := smoothly.refl state
  advance state := ⟨⟨Nat.le_refl _, widened_refl _⟩, rfl, fun limited => ⟨limited.scope, limited.enclosing⟩, rfl⟩

theorem Orderly.smooth (orderly : Orderly mode before) (smooth : Smooth before after) : Orderly mode after ∧ Furthers before before after :=
  ⟨⟨smooth.limited orderly.limited, smooth.table ▸ orderly.holds, smooth.toProlongs.lexical orderly.enclosing⟩, smooth.toProlongs,
    Nat.le_of_eq (congrArg Array.size smooth.errors.symm)⟩

theorem taken_rightly (action : Act α) (proper : action.Proper True mode known) (orderly : Orderly mode before) (knows : known before.offset)
    {value : α} (done : action.run before = .ok value after) : action.Faithful before value after ∧ action.Scoped before value after := by
  have written (bytes : List UInt8) {i : Nat} {byte : UInt8} (found : bytes[i]? = some byte) :
      (emitBytes before bytes).scope.chunk.code[before.offset + i]? = some byte := by
    have bears : Bears (emitBytes before bytes).scope.chunk (emitBytes before bytes) before.offset (emitBytes before bytes).offset :=
      ⟨.refl _, fun _ _ _ => rfl⟩
    exact bears.emitted (Nat.le_refl _) (Nat.le_of_eq (emitBytes_offset _ _).symm) found
  have operand (op : Opcode) {operand : Nat} (fits : operand ≤ maxOperand) :
      (emitBytes before (bytesWith op operand)).scope.chunk.operand? (before.offset + 1) = some operand :=
    operand?_of_bytes fits (written (bytesWith op operand) rfl) (written (bytesWith op operand) rfl)
  cases action with
  | emitWith op number =>
    cases done
    exact ⟨operand op (proper _ knows), trivial⟩
  | emitCount count =>
    cases done
    refine ⟨?_, trivial⟩
    have byte : (before.emitByte count.toUInt8).scope.chunk.code[before.offset]? = some count.toUInt8 := written [_] (i := 0) rfl
    exact (congrArg _ byte).trans (congrArg some (toNat_count (proper _ knows)))
  | patchJump jump =>
    have inside := proper _ knows
    have patched := patchJump_ok done inside
    refine ⟨⟨_, patched.operand, ?_⟩, trivial⟩
    rw [patched.offset]
    omega
  | emitLoop start =>
    obtain ⟨rfl, near⟩ := emitLoop_ok done
    have behind := proper _ knows
    refine ⟨⟨_, operand .loop near, ?_⟩, trivial⟩
    rw [bytesWith_offset]
    omega
  | makeConstant value =>
    obtain ⟨rfl, near, rfl⟩ := makeConstant_ok done
    exact ⟨⟨near, by simp [Chunk.addConstant]⟩, trivial⟩
  | makeString text =>
    obtain ⟨-, same, near, -⟩ := makeString_ok done
    exact ⟨⟨same, near⟩, trivial⟩
  | resolveCapture name =>
    refine ⟨fun index found => ?_, trivial⟩
    have threaded := thread_limited name orderly.limited.scope orderly.limited.enclosing
    simp only [Act.run, Parse.resolveCapture] at done
    split at done
    · next same =>
      cases done
      exact threaded.index index (same.trans (congrArg _ found))
    · cases done
  | endScope =>
    cases done
    refine ⟨trivial, (endScope_table before).trans ?_⟩
    rw [ScopeTable.ended, (orderly.holds.settled proper.2).deeper_last]
    rfl
  | declares name =>
    cases done
    cases proper
    exact ⟨trivial, declaresName_iff orderly.holds.1 name⟩
  | leaveLevel | leaveClass | leaveFunction => exact proper.elim
  | _ => exact ⟨trivial, trivial⟩

def prolonging : Conduct CompileError Compilation :=
  .alike (fun before after => Prolongs before after ∧ after.errors = before.errors) (fun _ => ⟨⟨Nat.le_refl _, widened_refl _⟩, rfl⟩)
    fun one two => ⟨one.1.trans two.1, two.2.trans one.2⟩

theorem smoothly_within : smoothly.Within prolonging :=
  ⟨fun smooth => ⟨smooth.toProlongs, smooth.errors⟩, fun smooth => ⟨smooth.toProlongs, smooth.errors⟩⟩

instance : prolonging.Closed := Closed.within inferInstance smoothly_within

instance : prolonging.Rescopes where
  toWrites := Writes.within inferInstance smoothly_within
  rescope _ _ _ _ := ⟨⟨Nat.le_refl _, widened_refl _⟩, rfl⟩
  reclass _ _ := ⟨⟨Nat.le_refl _, widened_refl _⟩, rfl⟩

theorem Compilation.Limited.rescoped (limited : state.Limited) {locals : Array Local} {depth arity : Nat} {chunk : Chunk Proto}
    (few : locals.size ≤ maxLocals) (small : arity ≤ maxArguments) :
    Limited { state with scope := { state.scope with chunk, locals, depth, arity } } :=
  ⟨⟨small, few, limited.scope.captures, limited.scope.indices⟩, limited.enclosing⟩

theorem Compilation.Limited.endScope (limited : state.Limited) : state.endScope.Limited := by
  obtain ⟨chunk, ended⟩ := endScope_recoded state
  rw [ended]
  exact limited.rescoped (Nat.le_trans ((Array.size_shrink ..).trans_le (Nat.min_le_right _ _)) limited.scope.locals) limited.scope.arity

theorem Compilation.Limited.markInitialized (limited : state.Limited) : state.markInitialized.Limited := by
  unfold Compilation.markInitialized
  split
  · exact limited
  · exact limited.rescoped (Array.size_modify.trans_le limited.scope.locals) limited.scope.arity

theorem markInitialized_table {earlier : List (String × Option Nat)} {name : String} {own : Option Nat} {depth : Nat}
    (table : state.scope.table = ⟨earlier ++ [(name, own)], depth⟩) (inside : depth ≠ 0) :
    state.markInitialized.scope.table = ⟨earlier ++ [(name, some depth)], depth⟩ := by
  obtain ⟨entries, rfl⟩ := ScopeTable.mk.inj table
  obtain ⟨init, last, whole, rfl, single⟩ := List.map_eq_append_iff.mp entries
  obtain ⟨newest, rfl, same⟩ := List.map_eq_singleton_iff.mp single
  cases same
  have size : state.scope.locals.size = init.length + 1 := by simpa using congrArg List.length whole
  rw [Grown.markInitialized_eq inside]
  simp [FunctionScope.table, whole, size, List.modify_eq_take_drop]

theorem markInitialized_holds (holds : mode.Holds state.scope.table) (own : mode = .pending ∨ mode = .owning) :
    Mode.owning.Holds state.markInitialized.scope.table := by
  rcases own with rfl | rfl
  all_goals
    obtain ⟨earlier, name, depth, table, clear⟩ := holds
    exact ⟨earlier, name, depth, markInitialized_table table clear.inside, clear⟩

theorem acted_orderly (action : Act α) (proper : action.Proper True mode known) (orderly : Orderly mode before)
    {value : α} (done : action.run before = .ok value after) (prolongs : Prolongs before after) : Orderly (action.after mode value) after := by
  have enclosing := prolongs.lexical orderly.enclosing
  have limited := orderly.limited
  have smooth (obeys : smoothly.Obeys action.run) : Orderly mode after := by
    have allowed := obeys before
    rw [done] at allowed
    exact (orderly.smooth allowed).1
  cases action with
  | beginScope =>
    cases done
    exact ⟨limited.rescoped limited.scope.locals limited.scope.arity, (orderly.holds.settled proper.2).begins, enclosing⟩
  | endScope =>
    cases done
    exact ⟨limited.endScope, endScope_table before ▸ (orderly.holds.settled proper.2).ended, enclosing⟩
  | addLocal name =>
    obtain ⟨room, rfl⟩ := addLocal_ok done
    have clear : before.scope.table.Clear name := by
      rcases proper.2 with rfl | rfl
      · exact orderly.holds
      · exact orderly.holds name
    refine ⟨limited.rescoped ?_ limited.scope.arity, ⟨_, name, _, ?_, clear⟩, enclosing⟩
    · have := limited.scope.locals
      rw [Array.size_push]
      omega
    · simp [withLocal, FunctionScope.table]
  | markInitialized =>
    cases done
    refine ⟨limited.markInitialized, ?_, enclosing⟩
    rcases proper.2 with rfl | own
    · change Mode.Holds before.markInitialized.scope.table .outermost
      rw [markInitialized_outermost orderly.holds.2]
      exact orderly.holds
    · have marked := markInitialized_holds orderly.holds own
      rcases own with rfl | rfl <;> exact marked
  | countParameter =>
    have done := read_ok done
    split at done
    · cases done
    · next room =>
      cases done
      have := limited.scope.arity
      exact ⟨limited.rescoped limited.scope.locals (by omega), orderly.holds, enclosing⟩
  | markSuperclass =>
    cases done
    exact ⟨⟨limited.scope, limited.enclosing⟩, orderly.holds, enclosing⟩
  | depth =>
    cases done
    have settled := orderly.holds.settled proper
    refine ⟨limited, ?_, enclosing⟩
    by_cases outermost : before.scope.depth = 0
    · simpa only [Act.after, if_pos outermost] using ⟨settled, outermost⟩
    · simpa only [Act.after, if_neg outermost] using ⟨settled, outermost⟩
  | declares name =>
    cases done
    cases proper
    obtain ⟨settled, inside⟩ := orderly.holds
    have iff := declaresName_iff settled name
    refine ⟨limited, ?_, enclosing⟩
    change Mode.Holds _ (if declaresName before.scope name then .inside else .clear name)
    split
    · exact ⟨settled, inside⟩
    · next undeclared => exact ⟨settled, inside, fun member => undeclared (iff.mpr member)⟩
  | leaveLevel | leaveClass | leaveFunction => exact proper.elim
  | _ => exact smooth (@small_obeys _ smoothly known mode _ _ proper)

theorem failed_disrupted (action : Act α) (proper : action.Proper True mode known) (orderly : Orderly mode before) {error : CompileError}
    (failed : action.run before = .error error after) : Disrupted after := by
  have smooth (obeys : smoothly.Obeys action.run) : Disrupted after := by
    have allowed := obeys before
    rw [failed] at allowed
    exact (orderly.smooth allowed).1.disrupted
  cases action with
  | addLocal name =>
    change (if before.scope.locals.size = maxLocals then _ else _ : Parse Unit) before = _ at failed
    split at failed <;> cases failed
    exact orderly.disrupted
  | countParameter =>
    change (if before.scope.arity = maxArguments then _ else _ : Parse Unit) before = _ at failed
    split at failed <;> cases failed
    exact orderly.disrupted
  | beginScope | endScope | markInitialized | markSuperclass => cases failed
  | leaveLevel | leaveClass | leaveFunction => exact proper.elim
  | _ => exact smooth (@small_obeys _ smoothly known mode _ _ proper)

theorem small_upheld (action : Act α) (proper : action.Proper True mode known) (orderly : Orderly mode state) (knows : known state.offset) :
    Upheld state (action.after mode) action.run action.run state := by
  have prolongs := @small_obeys_rescoping _ prolonging known mode _ _ action proper state
  refine .small action orderly (fun value after done => ?_) fun error after failed => ?_
  · rw [done] at prolongs
    exact ⟨⟨acted_orderly action proper orderly done prolongs.1, prolongs.1, Nat.le_of_eq (congrArg Array.size prolongs.2.symm)⟩,
      taken_rightly action proper orderly knows done⟩
  · rw [failed] at prolongs
    exact ⟨failed_disrupted action proper orderly failed, prolongs.1, Nat.le_of_eq (congrArg Array.size prolongs.2.symm)⟩

def orderly : Stock := ⟨True, fun mode action action' after => ∀ state, Orderly mode state → Upheld state after action action' state⟩

theorem upheld_of_shifts {action action' : Parse α} {after : α → Mode} (shifts : orderly.Shifts known mode action action' after)
    (upwards : ∀ {size size'}, size ≤ size' → known size → known size') (stands : Orderly mode state) (knows : known state.offset) :
    Upheld state after action action' state := by
  induction shifts generalizing state with
  | given pair => exact pair state stands
  | yield value stays =>
    subst stays
    refine ⟨rfl, fun _ _ done => ?_, fun _ _ failed => ?_, fun broken _ => .pure value (stands.seen broken)⟩
    · cases done
      exact ⟨stands, ⟨Nat.le_refl _, widened_refl _⟩, Nat.le_refl _⟩
    · cases failed
  | small action proper => exact small_upheld action proper stands knows
  | bind _ _ one two =>
    refine .bind (one upwards stands knows) fun value after done stands' prolongs => two value (fun more => ?_) stands' ?_
    · exact And.imp (upwards more) fun ⟨before, after, limited, done, within⟩ => ⟨before, after, limited, done, Nat.le_trans within more⟩
    · exact ⟨upwards prolongs.offset knows, state, after, stands.limited, done, Nat.le_refl _⟩
  | settle _ calm ih => exact (ih upwards stands knows).settle calm

theorem quiet_upheld (action : Act Unit) (goes : action.run state = .ok () after) (stands : Orderly mode state) (smooth : Smooth state after)
    (taken : action.Faithful state () after ∧ action.Scoped state () after) : Upheld state (fun _ => mode) action.run action.run state := by
  refine .small action stands (fun _ _ done => ?_) fun _ _ failed => ?_
  · cases goes.symm.trans done
    exact ⟨stands.smooth smooth, taken⟩
  · cases goes.symm.trans failed

theorem built_upheld {action action' : Parse α} {after : α → Mode} (shifts : orderly.Shifts (fun _ => True) mode action action' after)
    (stands : Orderly mode state) : Upheld state after action action' state :=
  upheld_of_shifts shifts (fun _ _ => trivial) stands trivial

theorem inScope_upheld {body body' : Parse Unit} (inside : orderly.Keeps .settled body body') :
    orderly.Keeps .settled (inScope body) (inScope body') := by
  rw [inScope_eq, inScope_eq]
  intro state stands
  have begun := (@small_upheld _ _ (fun _ => True) _ .beginScope ⟨trivial, Mode.noConfusion⟩ stands trivial).goes () _ rfl
  refine .wrapped stands (inside _ ⟨begun.1.limited, begun.1.holds.settled Mode.noConfusion, begun.1.enclosing⟩) rfl
    (fun _ {after} stands prolongs => ?_) fun {after} disrupted prolongs => ?_
  · have ends : orderly.Keeps .settled (update (·.endScope)) (update (·.endScope)) := fun _ =>
      built_upheld (.small .endScope ⟨trivial, Mode.noConfusion⟩)
    exact (ends after stands).since ⟨prolongs.offset, prolongs.enclosing⟩
  · have ended : Prolongs after after.endScope ∧ after.endScope.errors = after.errors := @endScope_obeys prolonging _ after
    refine ⟨⟨disrupted.limited.endScope, endScope_table after ▸ disrupted.frayed.ended, ended.1.lexical disrupted.enclosing⟩, ?_, ended.2⟩
    exact Prolongs.trans ⟨prolongs.offset, prolongs.enclosing⟩ ended.1

theorem inClass_upheld {body body' : Parse Unit} (inside : orderly.Keeps .settled body body') :
    orderly.Keeps .settled (inClass body) (inClass body') := by
  rw [inClass_eq, inClass_eq]
  intro state stands
  refine .wrapped stands (inside _ ⟨⟨stands.limited.scope, stands.limited.enclosing⟩, stands.holds, stands.enclosing⟩) rfl
    (fun _ {after} stands prolongs => ?_) fun {after} disrupted prolongs => ?_
  · refine Upheld.since (built_upheld (.reading (fun sight => ?_) fun inherits => .seq (.given fun state stands => ?_) fun _ => .pure inherits) stands)
      ⟨prolongs.offset, prolongs.enclosing⟩
    · rw [sight.classes]
    · exact quiet_upheld .leaveClass rfl stands ⟨⟨Nat.le_refl _, widened_refl _⟩, rfl, fun limited => ⟨limited.scope, limited.enclosing⟩, rfl⟩
        ⟨trivial, trivial⟩
  · exact ⟨⟨⟨disrupted.limited.scope, disrupted.limited.enclosing⟩, disrupted.frayed, disrupted.enclosing⟩,
      ⟨prolongs.offset, prolongs.enclosing⟩, rfl⟩

instance : orderly.Closed := ⟨trivial, fun shifts _ => built_upheld shifts, inScope_upheld, inClass_upheld⟩

theorem nested_upheld {body body' : Parse Unit} (phrase : StackScript.Phrase) (inside : orderly.Keeps mode body body') :
    orderly.Keeps mode (nested phrase body) (nested phrase body') := by
  have same (body : Parse Unit) : nested phrase body = read (·.nesting) >>= fun nesting =>
      if nesting ≥ maxNesting then failHere (.nestedTooDeeply phrase)
      else wrapped Compilation.deeper Compilation.shallower body fun _ => update (·.shallower) := by
    funext state
    rw [nested_eq]
    change _ = (if state.nesting ≥ maxNesting then _ else _ : Parse Unit) state
    split <;> rfl
  rw [same, same]
  refine fun state => built_upheld (.reading Sight.nesting fun nesting => .ite (.failHere _) (.given fun state stands => ?_))
  refine .wrapped stands (inside _ ⟨⟨stands.limited.scope, stands.limited.enclosing⟩, stands.holds, stands.enclosing⟩) rfl
    (fun _ {after} stands prolongs => ?_) fun {after} disrupted prolongs => ?_
  · refine Upheld.since (quiet_upheld .leaveLevel rfl stands ?_ ⟨trivial, trivial⟩) ⟨prolongs.offset, prolongs.enclosing⟩
    exact ⟨⟨Nat.le_refl _, widened_refl _⟩, rfl, fun limited => ⟨limited.scope, limited.enclosing⟩, rfl⟩
  · exact ⟨⟨⟨disrupted.limited.scope, disrupted.limited.enclosing⟩, disrupted.frayed, disrupted.enclosing⟩,
      ⟨prolongs.offset, prolongs.enclosing⟩, rfl⟩

theorem closeFunction_orderly {kind : FunctionKind} {name : String} (stands : Orderly mode state)
    (prolongs : Prolongs (state.openFunction kind name) after) (limited : after.Limited) :
    Orderly mode after.closeFunction ∧ Prolongs state after.closeFunction := by
  have widened := prolongs.enclosing
  unfold Compilation.closeFunction
  cases around : after.enclosing with
  | nil =>
    rw [around] at widened
    cases widened
  | cons outer further =>
    rw [around] at widened
    cases widened with
    | cons widened wider =>
      have around := List.forall_mem_cons.mp (around ▸ limited.enclosing)
      have onward : Prolongs state { after with scope := outer, enclosing := further } :=
        ⟨Nat.le_of_eq (congrArg (·.code.size) widened.chunk.symm), wider⟩
      exact ⟨⟨⟨around.1, around.2⟩, widened.table ▸ stands.holds, onward.lexical stands.enclosing⟩, onward⟩

theorem leaveFunction_upheld {kind : FunctionKind} {name : String} (stands : Orderly mode state)
    (prolongs : Prolongs (state.openFunction kind name) after) (ended : Orderly .settled after) :
    Upheld state (fun _ => mode) leaveFunction leaveFunction after := by
  obtain ⟨closed, onward⟩ := closeFunction_orderly stands prolongs ended.limited
  let outer := after.closeFunction
  let listed := outer.recoded (outer.scope.chunk.addFunction after.scope.finish)
  have lists : Smooth outer listed := .recoded outer (Nat.le_refl _)
  have errors : listed.errors.size = after.errors.size := congrArg Array.size (closeFunction_errors after)
  refine .small .leaveFunction ended (fun _ final done => ?_) fun error final failed => ?_
  · change (if outer.scope.chunk.functions.size > maxOperand then _ else _ : EStateM.Result CompileError Compilation Unit) = _ at done
    split at done
    · cases done
    · next room =>
      have writes : Smooth listed (emitBytes listed (closureBytes outer.scope.chunk.functions.size after.scope.finish)) :=
        @emitBytes_goes smoothly _ _ listed
      cases done
      obtain ⟨orderly, further⟩ := (closed.smooth lists).1.smooth writes
      refine ⟨⟨orderly, onward.trans (lists.toProlongs.trans further.toProlongs), errors ▸ further.errors⟩, ?_, trivial⟩
      refine Bears.closing rfl (by simp [Chunk.addFunction]) (Nat.le_of_not_lt room) ended.limited.scope.captures
        (fun capture member => ?_) ⟨.refl _, fun _ _ _ => rfl⟩
      exact Nat.le_trans (Nat.le_of_lt (ended.limited.scope.indices capture member)) (by decide)
  · change (if outer.scope.chunk.functions.size > maxOperand then _ else _ : EStateM.Result CompileError Compilation Unit) = _ at failed
    split at failed <;> cases failed
    exact ⟨(closed.smooth lists).1.disrupted, onward.trans lists.toProlongs, Nat.le_of_eq errors.symm⟩

theorem entered_settled (kind : FunctionKind) (name : String) : (FunctionScope.enter kind name).table.Settled := by
  refine ⟨⟨⟨⟨_, rfl⟩, List.pairwise_singleton ..⟩, fun entry member depth has => ?_⟩, fun entry member => ?_⟩
  all_goals cases List.mem_singleton.mp member
  · cases has
    exact Nat.le_refl _
  · exact Option.some_ne_none _

theorem entered_limited (kind : FunctionKind) (name : String) : (FunctionScope.enter kind name).Limited :=
  ⟨Nat.zero_le _, show 1 ≤ maxLocals by decide, Nat.zero_le _, nofun⟩

theorem function_upheld {body body' : Parse Unit} (kind : FunctionKind) (mode : Mode) (inside : orderly.Keeps .settled body body') :
    orderly.Keeps mode (function body kind) (function body' kind) := by
  rw [function_eq, function_eq]
  intro state stands
  have opened : Orderly .settled (state.openFunction kind state.cursor.previous.lexeme) :=
    ⟨⟨entered_limited _ _, List.forall_mem_cons.mpr ⟨stands.limited.scope, stands.limited.enclosing⟩⟩, entered_settled _ _,
      List.forall_mem_cons.mpr ⟨stands.holds.lexical, stands.enclosing⟩⟩
  refine .wrapped stands (inside _ opened) rfl (fun _ {after} ended prolongs => leaveFunction_upheld stands prolongs ended)
    fun {after} disrupted prolongs => ?_
  obtain ⟨closed, onward⟩ := closeFunction_orderly stands prolongs disrupted.limited
  exact ⟨closed.disrupted, onward, closeFunction_errors after⟩

theorem Orderly.neat (stands : Orderly mode state) : state.Neat := fun _ _ found =>
  stands.holds.lexical.within _ (List.mem_map_of_mem (Array.mem_toList_iff.mpr (Array.mem_of_getElem? found)))

theorem declaration_upheld {budget : Nat} {inner : Inner}
    (inside : orderly.Keeps .settled (declarationOrFail (.within budget)) (declarationOrFail inner)) :
    orderly.Keeps .settled (declaration (.within budget)) (declaration inner) := by
  intro state stands
  have upheld := inside state stands
  have left := declarationOrFail_leaves (within_keeping budget) stands.neat
  have same : declaration (.within budget) state = declaration inner state := by
    unfold declaration
    rw [upheld.same]
  cases performed : declarationOrFail (.within budget) state with
  | ok _ between =>
    have whole : declaration (.within budget) state = .ok () between := by rw [declaration, performed]; rfl
    refine ⟨same, fun value after done => ?_, fun error after failed => ?_, fun broken excused => ?_⟩
    · cases whole.symm.trans done
      exact upheld.goes () between performed
    · cases whole.symm.trans failed
    · refine .declaration (upheld.passes broken (excused.mono fun _ after done few => ?_)) fun error after failed => ?_
      · cases whole.symm.trans done
        exact ⟨(), between, performed, few⟩
      · cases performed.symm.trans failed
  | error error between =>
    rw [Leaves, performed] at left
    obtain ⟨disrupted, reached⟩ := upheld.fails error between performed
    have steady := recover_steady left error
    let recovered := between.recover error state.scope.depth state.scope.locals.size
    have whole : declaration (.within budget) state = .ok () recovered := by rw [declaration, performed]; rfl
    have onward : Prolongs state recovered := ⟨reached.offset, reached.enclosing⟩
    have size : recovered.errors.size = between.errors.size + 1 := Array.size_push _
    have orderly : Orderly .settled recovered := by
      obtain ⟨scope, enclosing⟩ := disrupted.limited
      refine ⟨⟨⟨scope.arity, ?_, scope.captures, scope.indices⟩, enclosing⟩, ?_, onward.lexical stands.enclosing⟩
      · exact Nat.le_trans (Nat.le_of_eq steady.size) stands.limited.scope.locals
      · exact table_of_kept steady.locals steady.size steady.depth ▸ stands.holds
    have before := reached.errors
    refine ⟨same, fun value after done => ?_, fun error after failed => ?_, fun broken excused => ?_⟩
    · cases whole.symm.trans done
      exact ⟨orderly, onward, by omega⟩
    · cases whole.symm.trans failed
    · refine .declaration (upheld.passes broken (excused.mono fun _ after done few => ?_)) fun error after failed => ?_
      · cases whole.symm.trans done
        omega
      · cases performed.symm.trans failed
        exact orderly.seen broken

theorem orderly_nests : orderly.Nests := ⟨nested_upheld, function_upheld, declaration_upheld⟩

theorem start_orderly (tokens : Array Token) : Orderly .settled (.start tokens) :=
  ⟨⟨entered_limited _ _, nofun⟩, entered_settled _ _, nofun⟩

/-- The locals of all functions in progress stand in the order of their scopes. Only where an error leaves a phrase, locals of
scopes that have ended may be left below one that is not initialized. -/
def scopes : Watch where
  seen state := ∀ scope ∈ state.scope :: state.enclosing, scope.table.Lexical
  taken := Act.Scoped
  broken state := state.scope.table.Frayed ∧ ∀ scope ∈ state.enclosing, scope.table.Lexical

end Compile

end StackScript
