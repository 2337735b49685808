import StackScript.Proofs.Scopes

/-!
Declarations of variables. Inside a scope a declared variable is a new local, which is not readable before its value is
on the stack; outside of all scopes it is a global, which takes the value from the stack.
-/

namespace StackScript.Compile

open Parse

variable {before after : Compilation} {name : String} {entry : Nat}

def withLocal (state : Compilation) (name : String) : Compilation :=
  { state with scope := { state.scope with locals := state.scope.locals.push ⟨name, none, false⟩ } }

/-- The state has one local more, of the given name and depth. -/
structure Grown (before after : Compilation) (name : String) (own : Option Nat) : Prop where
  later : Later before after
  ready : Ready after
  classes : after.classes = before.classes
  kind : after.scope.kind = before.scope.kind
  depth : after.scope.depth = before.scope.depth
  arity : after.scope.arity = before.scope.arity
  size : after.scope.locals.size = before.scope.locals.size + 1
  newest : ∃ binding, after.scope.locals[before.scope.locals.size]? = some binding ∧ binding.name = name ∧
    binding.depth = own

namespace Grown

variable {state : Compilation} {own : Option Nat}

theorem withLocal (ready : Ready before) (room : before.scope.locals.size < maxLocals) (name : String) :
    Grown before (withLocal before name) name none := by
  have kept : LocalsKept before.scope.locals (before.scope.locals.push ⟨name, none, false⟩) := by
    intro i binding found
    exact ⟨binding, Extended.push _ _ i binding found, rfl, rfl, id⟩
  refine ⟨⟨rfl, widened_refl _, kept, .refl _, .refl _, Nat.le_refl _, fun _ _ => rfl, rfl⟩,
    ⟨ready.names, ⟨?_, ready.sound.2⟩, fun head => ?_, ready.tables⟩, rfl, rfl, rfl, rfl, Array.size_push _,
    ⟨name, none, false⟩, ?_, rfl, rfl⟩
  · simp only [Compile.withLocal, Array.size_push]
    omega
  · refine (ready.supers head).imp_left ?_
    rintro ⟨binding, member, same⟩
    exact ⟨binding, Array.mem_push_of_mem _ member, same⟩
  · simp [Compile.withLocal]

theorem phrase (grown : Grown before state name own) (phrase : Phrase state after) : Grown before after name own := by
  obtain ⟨binding, found, named, deep⟩ := grown.newest
  obtain ⟨later, found, widened⟩ := phrase.later.locals _ binding found
  exact ⟨grown.later.trans phrase.later, phrase.ready, phrase.classes.trans grown.classes,
    phrase.kind.trans grown.kind, phrase.depth.trans grown.depth, phrase.arity.trans grown.arity,
    phrase.size.trans grown.size, later, found, widened.name.trans named, widened.depth.trans deep⟩

theorem markInitialized_eq (inScope : state.scope.depth ≠ 0) :
    let locals := state.scope.locals.modify (state.scope.locals.size - 1) ({ · with depth := some state.scope.depth })
    state.markInitialized = { state with scope := { state.scope with locals } } := by
  simp only [Compilation.markInitialized, inScope, if_false]

theorem declares_modify {scope : FunctionScope} {i : Nat} {depth : Option Nat} (declared : scope.Declares name) :
    FunctionScope.Declares { scope with locals := scope.locals.modify i ({ · with depth }) } name := by
  obtain ⟨binding, member, same⟩ := declared
  obtain ⟨j, inside, at_⟩ := Array.mem_iff_getElem.mp member
  have found : (scope.locals.modify i ({ · with depth }))[j]? =
      some (if i = j then { binding with depth } else binding) := by
    rw [Array.getElem?_modify, Array.getElem?_eq_getElem inside, at_]
    split <;> rfl
  refine ⟨_, Array.mem_of_getElem? found, ?_⟩
  split <;> exact same

theorem markInitialized (grown : Grown before state name own) (inScope : 0 < before.scope.depth) :
    Grown before state.markInitialized name (some before.scope.depth) := by
  have deep : state.scope.depth ≠ 0 := by
    rw [grown.depth]
    omega
  have last : state.scope.locals.size - 1 = before.scope.locals.size := by
    rw [grown.size, Nat.add_sub_cancel]
  obtain ⟨binding, found, named, -⟩ := grown.newest
  rw [markInitialized_eq deep, last, grown.depth]
  refine ⟨⟨grown.later.tokens, grown.later.enclosing, ?_, grown.later.captures, grown.later.tables, grown.later.offset,
      grown.later.code, grown.later.kind⟩, ⟨grown.ready.names, ⟨?_, grown.ready.sound.2⟩, fun head => ?_, grown.ready.tables⟩, grown.classes, grown.kind,
    grown.depth, grown.arity, (Array.size_modify).trans grown.size, { binding with depth := some before.scope.depth }, ?_, named,
    rfl⟩
  · intro i binding found
    have inside := (Array.getElem?_eq_some_iff.mp found).1
    obtain ⟨later, found, widened⟩ := grown.later.locals i binding found
    exact ⟨later, by rw [Array.getElem?_modify, if_neg (by omega), found], widened⟩
  · exact Nat.le_trans (Nat.le_of_eq Array.size_modify) grown.ready.sound.1
  · exact (grown.ready.supers head).imp_left declares_modify
  · rw [Array.getElem?_modify, if_pos rfl, found]
    rfl

theorem markInitialized_offset (state : Compilation) : state.markInitialized.offset = state.offset := by
  unfold Compilation.markInitialized
  split <;> rfl

theorem markInitialized_errors (state : Compilation) : state.markInitialized.errors = state.errors := by
  unfold Compilation.markInitialized
  split <;> rfl

section

variable (grown : Grown before after name (some before.scope.depth))
include grown

theorem level (level : Level before)
    (inScope : 0 < before.scope.depth) : Level after := by
  refine ⟨fun i binding found => ?_, by rw [grown.size]; omega, fun outermost => ?_, fun isInitializer => ?_⟩
  · by_cases old : i < before.scope.locals.size
    · obtain ⟨earlier, found, widened⟩ := earlier_local grown.later.locals old found
      rw [widened.depth, grown.depth]
      exact level.readable i earlier found
    · have inside := (Array.getElem?_eq_some_iff.mp found).1
      have same : i = before.scope.locals.size := by
        have := grown.size
        omega
      obtain ⟨newest, found', -, deep⟩ := grown.newest
      rw [same] at found
      cases found.symm.trans found'
      exact ⟨_, deep, Nat.le_of_eq grown.depth.symm⟩
  · rw [grown.depth] at outermost
    omega
  · obtain ⟨binding, found, named⟩ := level.receiver (grown.kind ▸ isInitializer)
    obtain ⟨later, found, widened⟩ := grown.later.locals 0 binding found
    exact ⟨later, found, widened.name.trans named⟩

theorem declared (level : Level before)
    (inScope : 0 < before.scope.depth) : Declared before after := by
  refine ⟨grown.later, grown.ready, grown.level level inScope, grown.classes, grown.kind, grown.depth, grown.arity,
    by rw [grown.size]; omega, fun i binding above found => ?_⟩
  have inside := (Array.getElem?_eq_some_iff.mp found).1
  have same : i = before.scope.locals.size := by
    have := grown.size
    omega
  obtain ⟨newest, found', -, deep⟩ := grown.newest
  rw [same] at found
  cases found.symm.trans found'
  exact deep

theorem slots_eq (named : name ≠ "")
    (ordinary : Role.ofName name = .ordinary) {shape : Shape} (suits : Suits false after.scope.locals shape) :
    ∃ kept isCaptured, kept.length = before.scope.locals.size ∧ shape.take before.scope.locals.size = ⟨kept, none⟩ ∧
      shape = ⟨kept ++ [⟨.value, isCaptured⟩], none⟩ := by
  obtain ⟨slots, known⟩ := shape
  cases suits.settled.known
  have length : slots.length = before.scope.locals.size + 1 := (suits.exact rfl).trans grown.size
  obtain ⟨binding, found, rfl, deep⟩ := grown.newest
  obtain ⟨isCaptured, slot_at⟩ := suits.slot_value found (by rw [deep]; rfl) named ordinary
  refine ⟨slots.take before.scope.locals.size, isCaptured, by rw [List.length_take, length]; omega, rfl, ?_⟩
  conv_lhs => rw [← List.take_of_length_le (Nat.le_of_eq length), List.take_add_one, slot_at]
  rfl

theorem runs (level : Level before)
    (inScope : 0 < before.scope.depth) (named : name ≠ "") (ordinary : Role.ofName name = .ordinary)
    (segment : ∀ context kept isCaptured, Holds context after before.offset after.offset →
      Suits false after.scope.locals ⟨kept ++ [⟨.value, isCaptured⟩], none⟩ → kept.length = before.scope.locals.size →
      Segment context before.offset after.offset ⟨kept, none⟩ ⟨kept ++ [⟨.value, isCaptured⟩], none⟩) :
    Runs before after := by
  refine ⟨grown.declared level inScope, fun context shape holds suits => ?_⟩
  obtain ⟨kept, isCaptured, length, taken, rfl⟩ := grown.slots_eq named ordinary suits
  rw [taken]
  exact segment context kept isCaptured holds suits length

end

theorem kept_markInitialized (grown : Grown before state name (some before.scope.depth)) (inScope : 0 < before.scope.depth) :
    LocalsKept state.scope.locals state.markInitialized.scope.locals := by
  have deep : state.scope.depth ≠ 0 := by
    rw [grown.depth]
    omega
  intro i binding found
  rw [markInitialized_eq deep, Array.getElem?_modify, found]
  split
  · next last =>
    have same : i = before.scope.locals.size := by
      have := grown.size
      omega
    obtain ⟨newest, at_, -, depth⟩ := grown.newest
    rw [same] at found
    cases found.symm.trans at_
    exact ⟨_, rfl, rfl, by rw [grown.depth, depth], id⟩
  · exact ⟨binding, rfl, rfl, rfl, id⟩

theorem suits_below (grown : Grown before state name none) (inScope : 0 < before.scope.depth)
    (nonempty : 0 < before.scope.locals.size) {kept : List Slot} {slot : Slot} {known : Option String}
    (suits : Suits false state.markInitialized.scope.locals ⟨kept ++ [slot], known⟩)
    (length : kept.length = before.scope.locals.size) : Suits true state.scope.locals ⟨kept, known⟩ := by
  have deep : state.scope.depth ≠ 0 := by
    rw [grown.depth]
    omega
  refine ⟨⟨fun empty => ?_, fun i binding found readable named => ?_⟩, ⟨suits.settled.known, fun slot member => ?_⟩, nofun,
    suits.clear.left⟩
  · rw [show kept = [] from empty] at length
    simp only [List.length_nil] at length
    omega
  · have inside := (Array.getElem?_eq_some_iff.mp found).1
    have size := grown.size
    obtain ⟨newest, at_, -, unread⟩ := grown.newest
    have old : i < before.scope.locals.size := by
      rcases Nat.lt_or_ge i before.scope.locals.size with below | above
      · exact below
      · have same : i = before.scope.locals.size := by omega
        rw [same] at found
        cases found.symm.trans at_
        rw [unread] at readable
        cases readable
    have marked : state.markInitialized.scope.locals[i]? = some binding := by
      rw [markInitialized_eq deep, Array.getElem?_modify, if_neg (by omega), found]
    obtain ⟨slot, slot_at, meaning⟩ := suits.fits.named i binding marked readable named
    rw [List.getElem?_append_left (by omega)] at slot_at
    exact ⟨slot, slot_at, meaning⟩
  · exact suits.settled.slots slot (List.mem_append_left _ member)

end Grown

theorem Holds.unmarked {context : Context} {state : Compilation} {start stop : Nat}
    (holds : Holds context state.markInitialized start stop) : Holds context state start stop := by
  unfold Compilation.markInitialized at holds
  split at holds
  · exact holds
  · exact ⟨⟨holds.tables, holds.upvalue, holds.closes, holds.manner⟩, holds.code⟩

theorem addLocal_ok (done : addLocal name before = .ok () after) :
    before.scope.locals.size ≠ maxLocals ∧ after = withLocal before name := by
  have done := read_ok done
  split at done
  · cases done
  · next room =>
    cases done
    exact ⟨room, rfl⟩

theorem declareVariable_ok (done : declareVariable before = .ok () after) : before.scope.depth = 0 ∧ after = before ∨
      0 < before.scope.depth ∧ before.scope.locals.size ≠ maxLocals ∧
        after = withLocal before before.cursor.previous.lexeme := by
  have done := read_ok done
  by_cases outermost : before.scope.depth = 0
  · simp only [outermost, if_true] at done
    cases done
    exact .inl ⟨outermost, rfl⟩
  · simp only [outermost, if_false] at done
    have done := read_ok done
    have done := read_ok done
    split at done
    · cases done
    · obtain ⟨room, rfl⟩ := addLocal_ok done
      exact .inr ⟨Nat.pos_of_ne_zero outermost, room, rfl⟩

theorem parseVariable_ok {what : Expectation} {global? : Option Nat} (done : parseVariable what before = .ok global? after) :
    ∃ token ∈ before.cursor.tokens, token.kind = .identifier ∧
      let moved := { before with cursor := before.cursor.advance }
      moved.cursor.previous = token ∧
      ((∃ entry, before.scope.depth = 0 ∧ global? = some entry ∧ makeString token.lexeme moved = .ok entry after) ∨
        0 < before.scope.depth ∧ before.scope.locals.size ≠ maxLocals ∧ global? = none ∧
          after = withLocal moved token.lexeme) := by
  obtain ⟨name, moved, named, done⟩ := bind_ok done
  obtain ⟨token, member, isName, rfl, rfl, previous⟩ := expectName_ok named
  refine ⟨token, member, isName, previous, ?_⟩
  obtain ⟨_, declared, declares, done⟩ := bind_ok done
  have done := read_ok done
  rcases declareVariable_ok declares with ⟨outermost, rfl⟩ | ⟨deep, room, rfl⟩
  · have outermost : before.scope.depth = 0 := outermost
    simp only [outermost, gt_iff_lt, Nat.lt_irrefl, if_false] at done
    obtain ⟨entry, after, made, done⟩ := bind_ok done
    cases done
    exact .inl ⟨entry, outermost, rfl, made⟩
  · rw [if_pos (show (withLocal _ _).scope.depth > 0 from deep)] at done
    cases done
    exact .inr ⟨deep, room, rfl, by rw [← previous]⟩

theorem defineVariable_errors (state : Compilation) (global? : Option Nat) :
    (state.defineVariable global?).errors = state.errors := by
  cases global? with
  | none => exact Grown.markInitialized_errors state
  | some entry => rfl

theorem defineGlobal_turning {loose : Bool} {fact : Fact} (named : fact.Implies (.names entry name)) :
    Turning loose fact (emitWith .defineGlobal entry) 1 0 := by
  refine emitWith_turning (fun _ _ known => (named _ known).2) ?_
  intro state context shape place known covers suits op_at operand
  rcases shape with ⟨slots, none'⟩
  cases suits.settled.known
  rw [Shape.pushes_zero]
  exact .defineGlobal op_at operand (covers.tables.strings _ _ (named _ known).1) (.refl _) (.inl rfl)
    suits.fits.grounded ⟨rfl, .refl _⟩

theorem Runs.after_silent {first second third : Compilation} (phrase : Phrase first second)
    (silent : second.offset = first.offset) (runs : Runs second third) (level : Level first) : Runs first third := by
  have turns : Turns false first second 0 0 := ⟨phrase, fun _ _ _ _ => silent ▸ .refl _ _ _⟩
  exact (turns.runs level).trans runs

theorem Turns.defines {started valued : Compilation} (level : Level before) (phrase : Phrase before started)
    (silent : started.offset = before.offset) (named : (Fact.names entry name).holds started)
    (value : Turns true started valued 0 1) (clean : (valued.defineVariable (some entry)).errors = #[]) :
    Runs before (valued.defineVariable (some entry)) := by
  have defined : (emitWith .defineGlobal entry) valued = .ok () (valued.defineVariable (some entry)) := rfl
  have turning : Turning true (.names entry name) (emitWith .defineGlobal entry) 1 0 :=
    defineGlobal_turning fun _ => id
  have defines := (turning _ _ _ defined clean).2 value.ready ((Fact.names entry name).stable value.toPhrase named)
  exact .after_silent phrase silent ((value.trans defines).loosen.runs (Fact.level.stable phrase level)) level

theorem makeString_phrase {text : String} (ready : Ready before) (made : makeString text before = .ok entry after) :
    Phrase before after ∧ after.offset = before.offset ∧ (Fact.names entry text).holds after := by
  obtain ⟨storable, entry_eq, small, rfl⟩ := makeString_ok made
  refine ⟨addString_phrase ready storable, rfl, ?_, small⟩
  rw [entry_eq]
  exact Chunk.names_addString ready.tables.ended storable

theorem makeString_errors {text : String} (made : makeString text before = .ok entry after) : after.errors = before.errors := by
  obtain ⟨-, -, -, rfl⟩ := makeString_ok made
  rfl

theorem varDeclaration_running {inner : Inner} (expression : Turning true .none inner.expression 0 1) :
    Running (varDeclaration inner) := by
  intro before _ after done final
  obtain ⟨global?, started, parsed, done⟩ := bind_ok done
  obtain ⟨token, member, isName, -, cases_⟩ := parseVariable_ok parsed
  have value : Turning true .none (do if ← accept .equal then inner.expression else emit .pushNil) 0 1 :=
    (accept_turning _).bind fun _ => .ite (fun _ => expression) fun _ => literal_turning rfl
  have inverted : ∃ valued expected,
      (do if ← accept .equal then inner.expression else emit .pushNil : Parse Unit) started = .ok () valued ∧
      expect .semicolon .semicolonAfterVariable valued = .ok () expected ∧ after = expected.defineVariable global? := by
    obtain ⟨given, accepted, accepts, done⟩ := bind_ok done
    cases given
    all_goals
      obtain ⟨_, valued, evaluated, done⟩ := bind_ok done
      obtain ⟨_, expected, expects, done⟩ := bind_ok done
      cases done
      exact ⟨valued, expected, bind_intro accepts evaluated, expects, rfl⟩
  obtain ⟨valued, expected, evaluated, expects, rfl⟩ := inverted
  obtain ⟨clean, ends⟩ := @expect_turning true .none 1 _ _ _ _ _ expects (defineVariable_errors expected global? ▸ final)
  obtain ⟨clean, values⟩ := value _ _ _ evaluated clean
  -- A global takes its value off the stack. The slot of a local is where its value already lies.
  rcases cases_ with ⟨entry, -, rfl, made⟩ | ⟨deep, room, rfl, rfl⟩
  · refine ⟨makeString_errors made ▸ clean, fun ready level => ?_⟩
    have moved := moved_phrase ready (advance_tokens before.cursor)
    obtain ⟨phrase, silent, named⟩ := makeString_phrase moved.ready made
    have values := values phrase.ready trivial
    exact (values.trans (ends values.ready trivial)).defines level (moved.trans phrase) silent named final
  · refine ⟨clean, fun ready level => ?_⟩
    have moved := moved_phrase ready (advance_tokens before.cursor)
    have level' := Fact.level.stable moved level
    obtain ⟨named, ordinary⟩ := ready.names token member isName
    have grown := Grown.withLocal moved.ready (Nat.lt_of_le_of_ne moved.ready.sound.1 room) token.lexeme
    have values := values grown.ready trivial
    have ended := values.trans (ends values.ready trivial)
    have grown := grown.phrase ended.toPhrase
    refine .after_silent moved rfl (show Runs _ expected.markInitialized from ?_) level
    refine (grown.markInitialized deep).runs level' deep named ordinary fun context kept isCaptured holds suits length => ?_
    have suits := grown.suits_below deep level'.nonempty suits length
    rw [Grown.markInitialized_offset] at holds ⊢
    refine (ended.segment context _ holds.unmarked suits).leaves ⟨?_, .inr rfl⟩
    exact List.rel_append (Shape.slots_within_refl _) (.cons ⟨.refl _, nofun⟩ .nil)

end StackScript.Compile
