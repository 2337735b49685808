import StackScript.Compile.Statement
import StackScript.Proofs.ExpressionCode

/-!
Scopes. A declaration adds locals, and their slots are those that it leaves on the stack. Which of them closures capture
is known at the end of the scope, so the shapes of a scope are read off the locals that it ends with: the code of each
declaration leads from the slots of the locals that were there to those that are there after it.
-/

namespace StackScript.Compile

open Parse

variable {before after state first second third : Compilation} {count i : Nat} {shape : Shape} {α : Type} {again : Parse Bool}
  {context : Context} {body : Parse Unit}

def Local.slot (receiver : Value) (binding : Local) : Slot :=
  ⟨(Role.ofName binding.name).content receiver, binding.isCaptured⟩

theorem Local.slot_role (receiver : Value) (binding : Local) : (binding.slot receiver).role = .ofName binding.name := by
  simp only [slot, Slot.role]
  cases Role.ofName binding.name <;> rfl

theorem Local.slot_copies (receiver : Value) (binding : Local) : (binding.slot receiver).content.copy?.isSome = true := by
  simp only [slot]
  cases Role.ofName binding.name <;> rfl

theorem Local.slot_content (receiver : Value) (binding : Local) (proto : Proto) :
    (binding.slot receiver).content ≠ .function proto := by
  simp only [slot]
  cases Role.ofName binding.name <;> nofun

theorem Local.slot_settled (receiver : Value) (binding : Local) :
    (binding.slot receiver).content = .value ∨ (binding.slot receiver).role ≠ .ordinary := by
  simp only [slot, Slot.role]
  cases Role.ofName binding.name with
  | ordinary => exact .inl rfl
  | superclass | receiver => exact .inr nofun

/-- What statements and declarations find: the locals are initialized and belong to scopes around, outside of all
scopes there are none, and the first slot of an initializer is the receiver. -/
structure Level (state : Compilation) : Prop where
  readable : ∀ (i : Nat) (binding : Local), state.scope.locals[i]? = some binding →
    ∃ depth, binding.depth = some depth ∧ depth ≤ state.scope.depth
  nonempty : 0 < state.scope.locals.size
  outermost : state.scope.depth = 0 → state.enclosing = [] ∧ state.scope.locals.size = 1 ∧
    ∀ binding, state.scope.locals[0]? = some binding → binding.name = ""
  receiver : state.scope.kind = .initializer → ∃ binding, state.scope.locals[0]? = some binding ∧ binding.name = "this"

theorem earlier_local {before after : Array Local} (kept : LocalsKept before after) {binding : Local}
    (inside : i < before.size) (found : after[i]? = some binding) :
    ∃ earlier, before[i]? = some earlier ∧ earlier.Widened binding := by
  obtain ⟨later, found', widened⟩ := kept i before[i] (Array.getElem?_eq_getElem inside)
  cases found.symm.trans found'
  exact ⟨_, Array.getElem?_eq_getElem inside, widened⟩

def Fact.level : Fact where
  holds := Level
  stable {before after} phrase level := by
    have nonempty : 0 < after.scope.locals.size := phrase.size ▸ level.nonempty
    refine ⟨fun i binding found => ?_, nonempty, fun outermost => ?_, fun isInitializer => ?_⟩
    · have inside := (Array.getElem?_eq_some_iff.mp found).1
      obtain ⟨earlier, found, widened⟩ := earlier_local phrase.later.locals (phrase.size ▸ inside) found
      rw [widened.depth, phrase.depth]
      exact level.readable i earlier found
    · obtain ⟨script, single, unnamed⟩ := level.outermost (phrase.depth ▸ outermost)
      have around := phrase.later.enclosing
      rw [script, List.forall₂_nil_left_iff] at around
      refine ⟨around, phrase.size.trans single, fun binding found => ?_⟩
      obtain ⟨earlier, found, widened⟩ := earlier_local phrase.later.locals level.nonempty found
      rw [widened.name]
      exact unnamed earlier found
    · obtain ⟨binding, found, named⟩ := level.receiver (phrase.kind ▸ isInitializer)
      obtain ⟨later, found, widened⟩ := phrase.later.locals 0 binding found
      exact ⟨later, found, widened.name.trans named⟩

/-- What a declaration leaves: new locals, if any, belong to the current scope. -/
structure Declared (before after : Compilation) : Prop where
  later : Later before after
  ready : Ready after
  level : Level after
  classes : after.classes = before.classes
  kind : after.scope.kind = before.scope.kind
  depth : after.scope.depth = before.scope.depth
  arity : after.scope.arity = before.scope.arity
  size : before.scope.locals.size ≤ after.scope.locals.size
  fresh : ∀ (i : Nat) (binding : Local), before.scope.locals.size ≤ i → after.scope.locals[i]? = some binding →
    binding.depth = some before.scope.depth

theorem Declared.trans (one : Declared first second) (two : Declared second third) :
    Declared first third := by
  refine ⟨one.later.trans two.later, two.ready, two.level, two.classes.trans one.classes, two.kind.trans one.kind,
    two.depth.trans one.depth, two.arity.trans one.arity, Nat.le_trans one.size two.size, ?_⟩
  intro i binding above found
  by_cases inside : i < second.scope.locals.size
  · obtain ⟨earlier, found, widened⟩ := earlier_local two.later.locals inside found
    rw [widened.depth]
    exact one.fresh i earlier above found
  · rw [two.fresh i binding (Nat.le_of_not_lt inside) found, one.depth]

theorem Phrase.declared (phrase : Phrase before after) (level : Level before) : Declared before after := by
  refine ⟨phrase.later, phrase.ready, Fact.level.stable phrase level, phrase.classes, phrase.kind, phrase.depth,
    phrase.arity, Nat.le_of_eq phrase.size.symm, fun i binding above found => ?_⟩
  have := (Array.getElem?_eq_some_iff.mp found).1
  rw [phrase.size] at this
  omega

/-- The code of a declaration leads from the slots of the locals that were there to those that are there now. -/
structure Runs (before after : Compilation) : Prop extends Declared before after where
  segment : ∀ context shape, Holds context after before.offset after.offset → Suits false after.scope.locals shape →
    Segment context before.offset after.offset (shape.take before.scope.locals.size) shape

def Running {α : Type} (action : Parse α) : Prop :=
  action.Ensures fun before _ after => Ready before → Level before → Runs before after

theorem Suits.take {before after : Array Local} (suits : Suits false after shape)
    (kept : LocalsKept before after) (nonempty : 0 < before.size) : Suits false before (shape.take before.size) := by
  have enough : before.size ≤ shape.slots.length := by
    rw [suits.exact rfl]
    have last : before[before.size - 1]? = some before[before.size - 1] := Array.getElem?_eq_getElem _
    obtain ⟨later, found, -⟩ := kept (before.size - 1) _ last
    have := (Array.getElem?_eq_some_iff.mp found).1
    omega
  have fits := suits.fits.earlier kept
  refine ⟨⟨?_, fun i binding found readable named => ?_⟩, suits.settled.take _,
    (fun _ => by simp [Shape.take, enough]), suits.clear.take _⟩
  · intro empty
    have length := congrArg List.length empty
    simp only [Shape.take, List.length_take, List.length_nil] at length
    omega
  · obtain ⟨slot, slot_at, meaning⟩ := fits.named i binding found readable named
    have inside := (Array.getElem?_eq_some_iff.mp found).1
    exact ⟨slot, by rw [Shape.take, List.getElem?_take_of_lt inside, slot_at], meaning⟩

theorem Runs.trans (one : Runs first second) (two : Runs second third) :
    Runs first third := by
  refine ⟨one.toDeclared.trans two.toDeclared, fun context shape holds suits => ?_⟩
  have lower := one.later.offset
  have upper := two.later.offset
  have earlier := (holds.narrow (Nat.le_refl _) upper).earlier two.later one.ready.sound (Nat.le_refl _)
  have taken := one.segment context _ earlier (suits.take two.later.locals one.level.nonempty)
  rw [Shape.take, Shape.take, List.take_take, Nat.min_eq_left one.size] at taken
  exact taken.trans (two.segment context shape (holds.narrow lower (Nat.le_refl _)) suits)

theorem Turns.runs (turns : Turns false before after 0 0) (level : Level before) : Runs before after := by
  refine ⟨turns.toPhrase.declared level, fun context shape holds suits => ?_⟩
  have segment := turns.segment context shape holds suits
  rw [Shape.pushes_zero] at segment
  rwa [Shape.take, List.take_of_length_le (Nat.le_of_eq ((suits.exact rfl).trans turns.size))]

theorem Turning.running {action : Parse α} (turning : Turning false .level action 0 0) : Running action :=
  turning.mono fun _ _ _ turns ready level => (turns ready level).runs level

theorem Running.bind {β : Type} {action : Parse α} {next : α → Parse β} (first : Running action)
    (second : ∀ value, Running (next value)) : Running (action >>= next) := by
  refine (Ensures.bind first second).mono ?_
  rintro before result after ⟨value, between, one, two⟩ ready level
  have runs := one ready level
  exact runs.trans (two runs.ready runs.level)

theorem repeatUpTo_running (running : Running again) (bound : Nat) :
    Running (repeatUpTo again bound) := by
  refine Ensures.repeatUpTo running (fun _ ready level => (Turns.refl ready).runs level) (fun one two ready level => ?_) bound
  have runs := one ready level
  exact runs.trans (two runs.ready runs.level)

theorem whileProgress_running (running : Running again) : Running (whileProgress again) :=
  fun before _ after done clean => repeatUpTo_running running _ before _ after (read_ok done) clean

/-- The code that takes locals off the stack, the first of them first. -/
def closing (gone : List Local) : List UInt8 :=
  gone.map fun binding => (if binding.isCaptured then Opcode.closeUpvalue else .pop).toByte

theorem closing_segment {kept : List Slot} {known : Option String} (grounded : kept ≠ [])
    (receiver : Value) (gone : List Local) {place : Nat}
    (code : ∀ i byte, (closing gone)[i]? = some byte → context.chunk.code[place + i]? = some byte) :
    Segment context place (place + gone.length) ⟨kept ++ (gone.map (Local.slot receiver)).reverse, known⟩ ⟨kept, known⟩ := by
  induction gone generalizing place with
  | nil =>
    rw [List.map_nil, List.reverse_nil, List.append_nil]
    exact .refl _ _ _
  | cons binding rest ih =>
    have rest_code : ∀ i byte, (closing rest)[i]? = some byte → context.chunk.code[place + 1 + i]? = some byte := by
      intro i byte found
      rw [Nat.add_assoc, Nat.add_comm 1]
      exact code (i + 1) byte found
    have below : kept ++ (rest.map (Local.slot receiver)).reverse ≠ [] :=
      fun empty => grounded (List.append_eq_nil_iff.mp empty).1
    have op_at : context.chunk.OpAt place (if binding.isCaptured then .closeUpvalue else .pop) := code 0 _ rfl
    have first : Block context place (place + 1)
        (.at place ⟨kept ++ (rest.map (Local.slot receiver)).reverse ++ [binding.slot receiver], known⟩)
        (.at (place + 1) ⟨kept ++ (rest.map (Local.slot receiver)).reverse, known⟩) := by
      refine .single ?_
      split at op_at
      · exact .closeUpvalue op_at below ⟨rfl, .refl _⟩
      · next free => exact .pop op_at (Bool.eq_false_iff.mpr free) below ⟨rfl, .refl _⟩
    rw [List.map_cons, List.reverse_cons, ← List.append_assoc, List.length_cons, Nat.add_comm rest.length,
      ← Nat.add_assoc]
    exact .inr ((ih rest_code).after_block first)

theorem endScope_errors (state : Compilation) : state.endScope.errors = state.errors := by
  have emitted := emitBytes_errors state
    (closing (state.scope.locals.toList.reverse.takeWhile (·.isDeeperThan (state.scope.depth - 1))))
  rw [emitBytes, closing, List.foldl_map] at emitted
  exact emitted

theorem leaving_eq {locals : List Local} {depth : Nat}
    (outer : ∀ i binding, i < count → locals[i]? = some binding → binding.isDeeperThan depth = false)
    (inner : ∀ i binding, count ≤ i → locals[i]? = some binding → binding.isDeeperThan depth = true) :
    locals.reverse.takeWhile (·.isDeeperThan depth) = (locals.drop count).reverse := by
  conv_lhs => rw [← List.take_append_drop count locals, List.reverse_append]
  rw [List.takeWhile_append_of_pos]
  · rw [List.append_right_eq_self]
    cases below : (locals.take count).reverse with
    | nil => rfl
    | cons binding rest =>
      have member : binding ∈ locals.take count := by
        rw [← List.mem_reverse, below]
        exact List.mem_cons_self
      obtain ⟨i, inside, found⟩ := List.mem_take_iff_getElem.mp member
      rw [List.takeWhile_cons, outer i binding (by omega) (List.getElem?_eq_some_iff.mpr ⟨_, found⟩)]
      rfl
  · intro binding member
    obtain ⟨i, inside, found⟩ := List.mem_drop_iff_getElem.mp (List.mem_reverse.mp member)
    exact inner (count + i) binding (Nat.le_add_right _ _) (List.getElem?_eq_some_iff.mpr ⟨_, found⟩)

theorem endScope_eq {depth : Nat} (deep : state.scope.depth = depth + 1) (few : count ≤ state.scope.locals.size)
    (outer : ∀ i binding, i < count → state.scope.locals[i]? = some binding → binding.isDeeperThan depth = false)
    (inner : ∀ i binding, count ≤ i → state.scope.locals[i]? = some binding → binding.isDeeperThan depth = true) :
    let popped := emitBytes state (closing (state.scope.locals.toList.drop count).reverse)
    state.endScope =
      { popped with scope := { popped.scope with depth, locals := state.scope.locals.shrink count } } := by
  have leaving := @leaving_eq count state.scope.locals.toList depth (by simpa using outer) (by simpa using inner)
  have staying : state.scope.locals.size - (state.scope.locals.toList.drop count).reverse.length = count := by
    simp
    omega
  simp only [Compilation.endScope, deep, Nat.add_sub_cancel, leaving, staying, emitBytes, closing, List.foldl_map]
  rfl

theorem shrink_getElem? (locals : Array Local) (inside : i < count) : (locals.shrink count)[i]? = locals[i]? := by
  simp only [Array.shrink_eq_take, Array.take_eq_extract, Array.getElem?_extract, Nat.sub_zero, Nat.zero_add]
  split
  · rfl
  · rw [Array.getElem?_eq_none]
    omega

/-- The state in front of the end of a scope that was entered at `before`. -/
structure Inside (before inner : Compilation) : Prop where
  later : Later before inner
  ready : Ready inner
  classes : inner.classes = before.classes
  kind : inner.scope.kind = before.scope.kind
  arity : inner.scope.arity = before.scope.arity
  depth : inner.scope.depth = before.scope.depth + 1
  size : before.scope.locals.size ≤ inner.scope.locals.size
  fresh : ∀ (i : Nat) (binding : Local), before.scope.locals.size ≤ i → inner.scope.locals[i]? = some binding →
    binding.depth = some (before.scope.depth + 1)

namespace Inside

variable {inner : Compilation}

theorem endScope_eq (inside : Inside before inner) (level : Level before) :
    let popped := emitBytes inner (closing (inner.scope.locals.toList.drop before.scope.locals.size).reverse)
    inner.endScope = { popped with scope := { popped.scope with
      depth := before.scope.depth, locals := inner.scope.locals.shrink before.scope.locals.size } } := by
  refine Compile.endScope_eq inside.depth inside.size (fun i binding below found => ?_) fun i binding above found => ?_
  · obtain ⟨earlier, found, widened⟩ := earlier_local inside.later.locals below found
    obtain ⟨depth, at_, shallow⟩ := level.readable i earlier found
    simp [Local.isDeeperThan, widened.depth, at_, shallow]
  · simp [Local.isDeeperThan, inside.fresh i binding above found]

theorem endScope_phrase (inside : Inside before inner) (ready : Ready before) (level : Level before) :
    Phrase before inner.endScope := by
  have emitted := emitBytes_phrase inside.ready
    (closing (inner.scope.locals.toList.drop before.scope.locals.size).reverse)
  have later := inside.later.trans emitted.later
  have size : (inner.scope.locals.shrink before.scope.locals.size).size = before.scope.locals.size := by
    rw [Array.size_shrink, Nat.min_eq_left inside.size]
  have kept : LocalsKept before.scope.locals (inner.scope.locals.shrink before.scope.locals.size) := by
    intro i binding found
    rw [shrink_getElem? _ (Array.getElem?_eq_some_iff.mp found).1]
    exact inside.later.locals i binding found
  rw [inside.endScope_eq level]
  refine ⟨⟨later.tokens, later.enclosing, kept, later.captures, later.tables, later.offset, later.code, later.kind⟩,
    ⟨emitted.ready.names, ⟨?_, emitted.ready.sound.2⟩, fun head => ?_, emitted.ready.tables⟩, emitted.classes.trans inside.classes,
    emitted.kind.trans inside.kind, rfl, emitted.arity.trans inside.arity, size⟩
  · exact Nat.le_trans (Nat.le_of_eq size) ready.sound.1
  · have declared := ready.supers (by rw [← inside.classes, ← emitted.classes]; exact head)
    rw [declares_widened later.enclosing]
    exact declared.imp_left (FunctionScope.declares_kept kept size "super").mpr

theorem endScope_segment (inside : Inside before inner) (ready : Ready before) (level : Level before)
    (holds : Holds context inner.endScope before.offset inner.endScope.offset)
    (suits : Suits false inner.endScope.scope.locals shape) :
    ∃ full : Shape, full.take before.scope.locals.size = shape ∧ Suits false inner.scope.locals full ∧
      Holds context inner before.offset inner.offset ∧ Segment context inner.offset inner.endScope.offset full shape := by
  have size := (inside.endScope_phrase ready level).size
  rw [inside.endScope_eq level] at holds suits size ⊢
  have emitted := emitBytes_phrase inside.ready
    (closing (inner.scope.locals.toList.drop before.scope.locals.size).reverse)
  have length := (suits.exact rfl).trans size
  have lower := inside.later.offset
  have holds : Holds context (emitBytes inner _) before.offset (emitBytes inner _).offset :=
    ⟨⟨holds.tables, holds.upvalue, holds.closes, holds.manner⟩, holds.code⟩
  -- Before the end of the scope its locals lie on top of what is left behind it.
  refine ⟨⟨shape.slots ++ (inner.scope.locals.toList.drop before.scope.locals.size).map (Local.slot .nil),
    shape.known⟩, ?_,
    ⟨⟨?_, ?_⟩, ⟨suits.settled.known, ?_⟩, ?_, suits.clear.append ?_⟩, ?_, ?_⟩
  · rw [Shape.take, List.take_left' length]
  · exact fun empty => suits.fits.grounded (List.append_eq_nil_iff.mp empty).1
  · intro i binding found readable named
    by_cases below : i < before.scope.locals.size
    · obtain ⟨slot, slot_at, meaning⟩ := suits.fits.named i binding (by rwa [shrink_getElem? _ below]) readable named
      exact ⟨slot, by rw [List.getElem?_append_left (by omega), slot_at], meaning⟩
    · refine ⟨binding.slot .nil, ?_, binding.slot_role .nil, binding.slot_copies .nil, id⟩
      rw [List.getElem?_append_right (by omega), List.getElem?_map, List.getElem?_drop, length,
        Nat.add_sub_cancel' (by omega), Array.getElem?_toList, found]
      rfl
  · intro slot member
    rcases List.mem_append.mp member with old | new
    · exact suits.settled.slots slot old
    · obtain ⟨binding, -, rfl⟩ := List.mem_map.mp new
      exact (binding.slot_settled .nil).imp_right .inl
  · intro _
    rw [List.length_append, length, List.length_map, List.length_drop, Array.length_toList]
    have := inside.size
    omega
  · intro slot member proto
    obtain ⟨binding, -, rfl⟩ := List.mem_map.mp member
    exact binding.slot_content .nil proto
  · exact (holds.narrow (Nat.le_refl _) emitted.later.offset).earlier emitted.later inside.ready.sound (Nat.le_refl _)
  · change Segment context inner.offset (emitBytes inner (closing _)).offset _ _
    have segment : Segment context inner.offset _ ⟨shape.slots ++ _, shape.known⟩ ⟨shape.slots, shape.known⟩ :=
      closing_segment suits.fits.grounded .nil (inner.scope.locals.toList.drop before.scope.locals.size).reverse
        fun i byte found => holds.emitted lower (Nat.le_of_eq (emitBytes_offset _ _).symm) found
    rw [List.map_reverse, List.reverse_reverse] at segment
    rwa [emitBytes_offset, closing, List.length_map]

end Inside

theorem Level.beginScope (level : Level state) : Level state.beginScope := by
  refine ⟨fun i binding found => ?_, level.nonempty, nofun, level.receiver⟩
  obtain ⟨depth, at_, shallow⟩ := level.readable i binding found
  exact ⟨depth, at_, Nat.le_succ_of_le shallow⟩

theorem Ready.beginScope (ready : Ready state) : Ready state.beginScope :=
  ⟨ready.names, ready.sound, ready.supers, ready.tables⟩

theorem Runs.inside {inner : Compilation} (runs : Runs before.beginScope inner) : Inside before inner := by
  have later : Later before inner :=
    ⟨runs.later.tokens, runs.later.enclosing, runs.later.locals, runs.later.captures, runs.later.tables,
      runs.later.offset, runs.later.code, runs.later.kind⟩
  exact ⟨later, runs.ready, runs.classes, runs.kind, runs.arity, runs.depth, runs.size, runs.fresh⟩

theorem inScope_ok (done : inScope body before = .ok () after) :
    ∃ inner, body before.beginScope = .ok () inner ∧ after = inner.endScope := by
  unfold inScope at done
  split at done
  · next inner ran =>
    cases done
    exact ⟨inner, ran, rfl⟩
  · cases done

theorem inScope_turning (running : Running body) : Turning false .level (inScope body) 0 0 := by
  intro before _ after done clean
  obtain ⟨inner, ran, rfl⟩ := inScope_ok done
  obtain ⟨clean, runs⟩ := running before.beginScope () inner ran (endScope_errors inner ▸ clean)
  refine ⟨clean, fun ready level => ?_⟩
  have runs := runs ready.beginScope level.beginScope
  have inside := runs.inside
  refine ⟨inside.endScope_phrase ready level, fun context shape holds suits => ?_⟩
  obtain ⟨full, taken, suits', holds', closes⟩ := inside.endScope_segment ready level holds suits
  have segment := runs.segment context full holds' suits'
  rw [Shape.pushes_zero]
  rw [show full.take before.beginScope.scope.locals.size = shape from taken] at segment
  exact segment.trans closes

end StackScript.Compile
