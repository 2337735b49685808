import StackScript.Compile.Program
import StackScript.Proofs.StatementCode

/-!
The compiler makes verified code only. The shapes of a function are read off the locals that it ends with: the slot of
the callee or receiver comes first, then those of the parameters, which are ordinary variables.
-/

namespace StackScript

variable {tokens : Array Token} {script : Proto}

namespace Compile

open Parse

variable {state before headed finished : Compilation} {tokens : Array Token} {inner : Inner}

def ownShape (receiver : Value) (state : Compilation) : Shape :=
  ⟨state.scope.locals.toList.map (Local.slot receiver), none⟩

theorem Level.suits (level : Level state) (receiver : Value) : Suits false state.scope.locals (ownShape receiver state) := by
  have nonempty := level.nonempty
  refine ⟨⟨fun empty => ?_, fun i binding found _ _ => ?_⟩, ⟨rfl, fun slot member => ?_⟩,
    (fun _ => by simp [ownShape]), fun i slot proto _ found => ?_⟩
  · have length := congrArg List.length empty
    simp only [ownShape, List.length_map, Array.length_toList, List.length_nil] at length
    omega
  · exact ⟨binding.slot receiver, by simp [ownShape, found], binding.slot_role _, binding.slot_copies _, id⟩
  · obtain ⟨binding, -, rfl⟩ := List.mem_map.mp member
    exact (binding.slot_settled receiver).imp_right .inl
  · obtain ⟨binding, -, rfl⟩ := List.mem_map.mp (List.mem_of_getElem? found)
    exact binding.slot_content receiver proto

theorem holds_finish {tags : List Role} {start stop : Nat}
    (tagged : List.Forall₂ (Tagged state.enclosing) state.scope.captures.toList tags) :
    Holds (.within state.scope.finish state.scope.kind.manner tags) state start stop := by
  refine ⟨⟨.refl _, fun i capture found => ?_, fun proto member _ tags verified => ⟨member, verified⟩, rfl⟩, fun _ _ _ => rfl⟩
  obtain ⟨inside, rfl⟩ := Array.getElem?_eq_some_iff.mp found
  have inside' : i < state.scope.captures.toList.length := by simpa using inside
  have enough : i < tags.length := tagged.length_eq ▸ inside'
  exact ⟨tags[i], List.getElem?_eq_getElem enough, by simpa using tagged.get inside' enough⟩

theorem Headed.enter {kind : FunctionKind} {name : String} (ready : Ready before) (opened : before.scope = .enter kind name) :
    Headed before before.beginScope := by
  have locals : ∃ first, before.scope.locals = #[⟨first, some 0, false⟩] ∧
      (∀ callee, (Role.ofName first).content callee = before.scope.kind.manner.lowest callee) ∧
      (kind = .initializer → first = "this") := by
    rw [opened]
    cases kind <;> exact ⟨_, rfl, fun _ => rfl, by simp⟩
  obtain ⟨first, locals, lowest, receiver⟩ := locals
  have only {i : Nat} {binding : Local} (found : before.scope.locals[i]? = some binding) :
      binding = ⟨first, some 0, false⟩ := by
    rw [locals] at found
    exact Array.mem_singleton.mp (Array.mem_of_getElem? found)
  refine ⟨beginScope_later before, ⟨ready.names, ready.sound, ready.supers, ready.tables⟩, ⟨?_, ?_, nofun, ?_⟩, rfl, Nat.succ_pos _, ?_,
    rfl, rfl, ⟨⟨first, some 0, false⟩, by simp [Compilation.beginScope, locals], lowest⟩, ?_⟩
  · intro i binding found
    cases only found
    exact ⟨0, rfl, Nat.zero_le _⟩
  · simp [Compilation.beginScope, locals]
  · intro isInitializer
    have isInitializer : before.scope.kind = .initializer := isInitializer
    rw [opened] at isInitializer
    exact ⟨_, by simp [Compilation.beginScope, locals]; rfl, receiver isInitializer⟩
  · simp [Compilation.beginScope, opened, FunctionScope.enter]
  · intro i binding above found
    have inside := (Array.getElem?_eq_some_iff.mp found).1
    simp only [Compilation.beginScope, locals, List.size_toArray, List.length_cons, List.length_nil] at inside
    omega

theorem parameters_ensures (before : Compilation) :
    Parse.Ensures (do if !(← check .rightParen) then whileProgress parameter) fun state _ after =>
      Headed before state → Headed before after := by
  intro state _ after done clean
  have done := read_ok done
  split at done
  · exact Ensures.whileProgress (parameter_ensures before) (fun _ => id) (fun one two headed => two (one headed)) _ _ _
      done clean
  · cases done
    exact ⟨clean, id⟩

theorem Headed.ownShape_take (header : Headed before headed)
    (kept : LocalsKept headed.scope.locals state.scope.locals) :
    ∃ (isCaptured : Bool) (arguments : List Bool), arguments.length = headed.scope.arity ∧ ∀ callee,
      (ownShape callee state).take headed.scope.locals.size =
        before.scope.kind.manner.entry callee isCaptured arguments := by
  obtain ⟨lowest, lowest_at, content⟩ := header.lowest
  obtain ⟨first, first_at, widened⟩ := kept 0 lowest lowest_at
  obtain ⟨rest, locals⟩ : ∃ rest, state.scope.locals.toList = first :: rest := by
    rw [← Array.getElem?_toList] at first_at
    cases list : state.scope.locals.toList with
    | nil => simp [list] at first_at
    | cons head rest =>
      rw [list] at first_at
      cases first_at
      exact ⟨rest, rfl⟩
  -- the lowest slot may hold the receiver; only the ones above it are named by the source
  have parameter (i : Nat) (binding : Local) (inside : i < headed.scope.arity) (found : rest[i]? = some binding) :
      Role.ofName binding.name = .ordinary := by
    have found : state.scope.locals[i + 1]? = some binding := by
      rw [← Array.getElem?_toList, locals]
      exact found
    have size := header.size
    obtain ⟨earlier, found, widened⟩ := earlier_local kept (show i + 1 < headed.scope.locals.size by omega) found
    exact widened.name ▸ header.ordinary (i + 1) earlier (Nat.succ_pos i) found
  refine ⟨first.isCaptured, (rest.take headed.scope.arity).map Local.isCaptured, ?_, fun callee => ?_⟩
  · have bound : headed.scope.arity < headed.scope.locals.size := Nat.lt_of_lt_of_eq (Nat.lt_succ_self _) header.size.symm
    obtain ⟨later, found, -⟩ := kept _ _ (Array.getElem?_eq_getElem bound)
    have inside := (Array.getElem?_eq_some_iff.mp found).1
    rw [← Array.length_toList, locals, List.length_cons] at inside
    rw [List.length_map, List.length_take]
    omega
  · rw [ownShape, Shape.take, locals, header.size, List.map_cons, List.take_succ_cons, Manner.entry]
    congr 2
    · rw [Local.slot, ← content callee, widened.name]
    · rw [← List.map_take, List.map_map]
      refine List.map_congr_left fun binding member => ?_
      obtain ⟨i, inside, at_⟩ := List.mem_take_iff_getElem.mp member
      have ordinary := parameter i binding (by omega) (List.getElem?_eq_some_iff.mpr ⟨_, at_⟩)
      simp [Local.slot, ordinary, Role.content]

theorem Headed.body (header : Headed before headed) (silent : before.offset = 0)
    (runs : Runs headed finished) : Body before finished.emitReturn := by
  have phrase : Phrase finished finished.emitReturn := emitReturn_eq finished ▸ emitBytes_phrase runs.ready _
  have later := (header.later.trans runs.later).trans phrase.later
  have level := Fact.level.stable phrase runs.level
  have suits (callee : Value) := (level.suits callee).earlier phrase.later.locals phrase.size
  have segment {tags : List Role}
      (tagged : List.Forall₂ (Tagged finished.emitReturn.enclosing) finished.emitReturn.scope.captures.toList tags)
      (callee : Value) :=
    runs.segment _ _ ((holds_finish tagged).earlier phrase.later runs.ready.sound (Nat.le_refl _)) (suits callee)
  have start : headed.offset = 0 := header.silent.trans silent
  have manner : finished.emitReturn.scope.kind.manner = before.scope.kind.manner :=
    congrArg FunctionKind.manner ((phrase.kind.trans runs.kind).trans header.kind)
  have verified (tags : List Role)
      (tagged : List.Forall₂ (Tagged finished.emitReturn.enclosing) finished.emitReturn.scope.captures.toList tags) :
      Verified finished.emitReturn.scope.finish before.scope.kind.manner tags := by
    obtain ⟨isCaptured, arguments, count, own⟩ := header.ownShape_take (runs.later.trans phrase.later).locals
    refine (verified_iff _ _ _).mpr ⟨tagged.length_eq ▸ Array.length_toList, isCaptured, arguments, ?_, fun callee => ?_⟩
    · rw [count, ← runs.arity, ← phrase.arity]
      rfl
    · have block := (segment tagged callee).before_block (emitReturn_block runs.level (holds_finish tagged) (suits callee))
      rwa [own callee, start, manner] at block
  refine ⟨later.tokens, (phrase.classes.trans runs.classes).trans header.classes, later.enclosing, phrase.ready.sound,
    verified, ?_⟩
  obtain ⟨tags, tagged⟩ := exists_tags fun capture member =>
    phrase.ready.sound.2.2.1 capture (Array.mem_toList_iff.mp member)
  have ends := emitReturn_ends (holds_finish tagged) rfl (start ▸ (segment tagged .nil).decodes)
  exact .intro (verified tags tagged) ends phrase.ready.tables.nested

/-- The parameters of a function, up to its body. -/
def functionHead : Parse Unit := do
  update (·.beginScope)
  expect .leftParen .leftParenAfterFunctionName
  if !(← check .rightParen) then whileProgress parameter
  expect .rightParen .rightParenAfterParameters
  expect .leftBrace .leftBraceBeforeFunctionBody

theorem functionHead_headed :
    functionHead.Ensures fun before _ after => Ready before →
      (∃ kind name, kind ≠ FunctionKind.script ∧ before.scope = .enter kind name) → Headed before after := by
  intro before _ after done clean
  have done := update_bind_ok done
  obtain ⟨_, opened, opens, done⟩ := bind_ok done
  obtain ⟨-, rfl⟩ := expect_ok opens
  have listed : ∃ listed, (do if !(← check .rightParen) then whileProgress parameter : Parse Unit)
      { before.beginScope with cursor := before.cursor.advance } = .ok () listed ∧
      (do
        expect .rightParen .rightParenAfterParameters
        expect .leftBrace .leftBraceBeforeFunctionBody : Parse Unit) listed = .ok () after := by
    obtain ⟨empty, same, checked, done⟩ := bind_ok done
    cases empty with
    | true => exact ⟨same, bind_intro checked rfl, done⟩
    | false =>
      obtain ⟨_, listed, list_done, done⟩ := bind_ok done
      exact ⟨listed, bind_intro checked list_done, done⟩
  obtain ⟨listed, list_done, done⟩ := listed
  obtain ⟨_, closed, closes, enters⟩ := bind_ok done
  obtain ⟨-, rfl⟩ := expect_ok closes
  obtain ⟨-, rfl⟩ := expect_ok enters
  obtain ⟨clean, lists⟩ := parameters_ensures before _ _ _ list_done clean
  refine ⟨clean, fun ready opened => ?_⟩
  obtain ⟨kind, name, -, opened⟩ := opened
  have headed := lists ((Headed.enter ready opened).moved (advance_tokens before.cursor))
  exact (headed.moved (advance_tokens listed.cursor)).moved (advance_tokens listed.cursor.advance)

theorem wholeFunctionBody_ok {after : Compilation} (done : wholeFunctionBody inner before = .ok () after) :
    ∃ entered finished, functionHead before = .ok () entered ∧ block inner entered = .ok () finished ∧
      after = finished.emitReturn := by
  have done := update_bind_ok done
  obtain ⟨_, opened, opens, done⟩ := bind_ok done
  obtain ⟨empty, same, checked, done⟩ := bind_ok done
  cases empty with
  | true =>
    obtain ⟨_, closed, closes, done⟩ := bind_ok done
    obtain ⟨_, entered, enters, done⟩ := bind_ok done
    obtain ⟨_, finished, finishes, done⟩ := bind_ok done
    exact ⟨entered, finished, bind_intro rfl (bind_intro opens (bind_intro checked (bind_intro closes enters))), finishes,
      update_ok done⟩
  | false =>
    obtain ⟨_, listed, lists, done⟩ := bind_ok done
    obtain ⟨_, closed, closes, done⟩ := bind_ok done
    obtain ⟨_, entered, enters, done⟩ := bind_ok done
    obtain ⟨_, finished, finishes, done⟩ := bind_ok done
    exact ⟨entered, finished, bind_intro rfl (bind_intro opens (bind_intro checked
      (bind_intro lists (bind_intro closes enters)))), finishes, update_ok done⟩

theorem enter_offset (opened : ∃ kind name, kind ≠ FunctionKind.script ∧ before.scope = .enter kind name) :
    before.offset = 0 := by
  obtain ⟨kind, name, -, opened⟩ := opened
  rw [Compilation.offset, opened]
  rfl

theorem wholeFunctionBody_bodied (compiles : inner.Compiles) : Bodied (wholeFunctionBody inner) := by
  intro before _ after done clean
  obtain ⟨entered, finished, enters, finishes, rfl⟩ := wholeFunctionBody_ok done
  rw [emitReturn_eq, emitBytes_errors] at clean
  obtain ⟨clean, runs⟩ := block_running compiles _ _ _ finishes clean
  obtain ⟨clean, headed⟩ := functionHead_headed _ _ _ enters clean
  refine ⟨clean, fun ready opened => ?_⟩
  have headed := headed ready opened
  exact headed.body (enter_offset opened) (runs headed.ready headed.level)

theorem nested_bodied {phrase : StackScript.Phrase} {body : Parse Unit} (bodied : Bodied body) :
    Bodied (nested phrase body) := by
  intro before _ after done clean
  obtain ⟨finished, compiled, rfl⟩ := nested_ok done
  obtain ⟨clean, bodies⟩ := bodied _ _ _ compiled clean
  refine ⟨clean, fun ready opened => ?_⟩
  obtain ⟨tokens, classes, enclosing, sound, verified, done⟩ := bodies (deeper_phrase ready).ready opened
  exact ⟨tokens, classes, enclosing, sound, verified, done⟩

theorem within_compiles (budget : Nat) : (Inner.within budget).Compiles := by
  induction budget with
  | zero =>
    have statement : Turning false .level (statement 0) 0 0 := .failed nofun
    exact ⟨(expression_turning 0).1, statement, fun _ _ _ done => nomatch done⟩
  | succ budget compiles =>
    exact ⟨(expression_turning (budget + 1)).1, nested_turning (wholeStatement_turning compiles),
      nested_bodied (wholeFunctionBody_bodied compiles)⟩

theorem programSuffix_running : Running programSuffix := by
  refine (read_turning _).running.bind fun _ => .ite (fun _ => (Turning.pure _).running) fun _ => ?_
  exact (declaration_running (within_compiles maxNesting)).bind fun _ => (Turning.pure _).running

theorem declarations_running : Running (whileProgress programSuffix) :=
  whileProgress_running programSuffix_running

theorem declaration_ok (inner : Inner) (before : Compilation) : ∃ after, declaration inner before = .ok () after := by
  unfold declaration
  cases declarationOrFail inner before with
  | ok _ after => exact ⟨after, rfl⟩
  | error error after => exact ⟨_, rfl⟩

theorem programSuffix_ok (before : Compilation) : ∃ more after, programSuffix before = .ok more after := by
  by_cases atEnd : before.cursor.isAtEnd = true
  · exact ⟨false, before, bind_intro rfl (by rw [if_pos atEnd]; rfl)⟩
  · obtain ⟨after, declared⟩ := declaration_ok (.within maxNesting) before
    exact ⟨true, after, bind_intro rfl (by rw [if_neg atEnd]; exact bind_intro declared rfl)⟩

theorem repeatUpTo_ok {again : Parse Bool} (step : ∀ before, ∃ more after, again before = .ok more after) (bound : Nat)
    (before : Compilation) : ∃ after, repeatUpTo again bound before = .ok () after := by
  induction bound generalizing before with
  | zero => exact ⟨before, rfl⟩
  | succ bound ih =>
    obtain ⟨more, between, once⟩ := step before
    cases more with
    | false => exact ⟨between, bind_intro once rfl⟩
    | true =>
      obtain ⟨after, rest⟩ := ih between
      exact ⟨after, bind_intro once rest⟩

theorem finalState_eq (tokens : Array Token) :
    ∃ finished, whileProgress programSuffix (.start tokens) = .ok () finished ∧
      finalState tokens = finished.emitReturn := by
  obtain ⟨finished, finishes⟩ := repeatUpTo_ok programSuffix_ok _ (.start tokens)
  have whole : program (.start tokens) = .ok () finished.emitReturn := bind_intro finishes rfl
  exact ⟨finished, finishes, by rw [finalState, whole]⟩

/-- No name in the text is empty or a word of the language that variables are named after. -/
def WellNamed (tokens : Array Token) : Prop :=
  ∀ token ∈ tokens, token.kind = .identifier → token.lexeme ≠ "" ∧ Role.ofName token.lexeme = .ordinary

theorem start_ready (named : WellNamed tokens) : Ready (.start tokens) := by
  refine ⟨?_, ⟨show 1 ≤ maxLocals by decide, Nat.zero_le _, nofun, trivial⟩, nofun, .first, nofun⟩
  have tokens_eq : (Compilation.start tokens).cursor.tokens = tokens ∨
      (Compilation.start tokens).cursor.tokens = tokens.push (Cursor.closing tokens) := by
    simp only [Compilation.start, Cursor.ofTokens]
    split
    · exact .inl rfl
    · exact .inr rfl
  rcases tokens_eq with same | closed
  · rw [same]
    exact named
  · rw [closed]
    intro token member isName
    rcases Array.mem_push.mp member with old | rfl
    · exact named token old isName
    · rw [Cursor.closing_kind] at isName
      cases isName

theorem start_level (tokens : Array Token) : Level (.start tokens) := by
  have only {i : Nat} {binding : Local} (found : (Compilation.start tokens).scope.locals[i]? = some binding) :
      binding = ⟨"", some 0, false⟩ :=
    Array.mem_singleton.mp (Array.mem_of_getElem? found)
  refine ⟨fun i binding found => ?_, Nat.one_pos, fun _ => ⟨rfl, rfl, fun binding found => ?_⟩, nofun⟩
  · cases only found
    exact ⟨0, rfl, Nat.le_refl _⟩
  · cases only found
    rfl

theorem script_suits (level : Level state) (outermost : state.scope.depth = 0) (script : Proto) :
    Suits false state.scope.locals ⟨[⟨.function script, false⟩], none⟩ := by
  obtain ⟨-, single, unnamed⟩ := level.outermost outermost
  refine ⟨⟨by simp, fun i binding found readable named => ?_⟩, ⟨rfl, fun slot member => ?_⟩,
    (fun _ => single.symm), fun i slot proto inside found => ?_⟩
  · have inside := (Array.getElem?_eq_some_iff.mp found).1
    have first : i = 0 := by omega
    rw [first] at found
    exact absurd (unnamed binding found) named
  · rw [List.mem_singleton.mp member]
    exact .inr (.inr ⟨rfl, script, rfl⟩)
  · rw [List.getElem?_eq_none (Nat.succ_le_of_lt inside)] at found
    cases found

theorem script_captures (ready : Ready state) (outermost : state.enclosing = []) : state.scope.captures.toList = [] := by
  rw [List.eq_nil_iff_forall_not_mem]
  intro capture member
  obtain ⟨isSuper, tagged⟩ := ready.sound.2.2.1 capture (Array.mem_toList_iff.mp member)
  rw [outermost] at tagged
  cases tagged

theorem Runs.sealedScript (runs : Runs (.start tokens) finished) :
    SealedScript finished.emitReturn.scope.finish := by
  have phrase : Phrase finished finished.emitReturn := emitReturn_eq finished ▸ emitBytes_phrase runs.ready _
  have level := Fact.level.stable phrase runs.level
  have outermost : finished.emitReturn.scope.depth = 0 := phrase.depth.trans runs.depth
  obtain ⟨enclosing, -⟩ := level.outermost outermost
  have tagged : List.Forall₂ (Tagged finished.emitReturn.enclosing) finished.emitReturn.scope.captures.toList [] := by
    rw [script_captures phrase.ready enclosing]
    exact .nil
  have manner : finished.emitReturn.scope.kind.manner = .function :=
    congrArg FunctionKind.manner (phrase.kind.trans runs.kind)
  have holds {start stop : Nat} := manner ▸ @holds_finish finished.emitReturn [] start stop tagged
  have suits := (script_suits level outermost finished.emitReturn.scope.finish).earlier phrase.later.locals phrase.size
  have segment := runs.segment _ _ (holds.earlier phrase.later runs.ready.sound (Nat.le_refl _)) suits
  exact ⟨⟨phrase.arity.trans runs.arity, segment.before_block (emitReturn_block runs.level holds suits)⟩,
    Array.toList_eq_nil_iff.mp (script_captures phrase.ready enclosing), emitReturn_ends holds rfl segment.decodes,
    phrase.ready.tables.nested⟩

end Compile

theorem compile_ok (compiled : compile tokens = .ok script) :
    ∃ finished, Compile.Parse.whileProgress Compile.programSuffix (.start tokens) = .ok () finished ∧
      finished.errors = #[] ∧ script = finished.emitReturn.scope.finish := by
  obtain ⟨finished, finishes, final⟩ := Compile.finalState_eq tokens
  simp only [compile, final] at compiled
  split at compiled
  · next clean =>
    cases compiled
    rw [Array.isEmpty_iff, Compile.emitReturn_eq, Compile.emitBytes_errors] at clean
    exact ⟨finished, finishes, clean, rfl⟩
  · cases compiled

theorem compile_sealed (named : Compile.WellNamed tokens)
    (compiled : compile tokens = .ok script) : SealedScript script := by
  obtain ⟨finished, finishes, clean, rfl⟩ := compile_ok compiled
  obtain ⟨-, runs⟩ := Compile.declarations_running _ _ _ finishes clean
  exact (runs (Compile.start_ready named) (Compile.start_level tokens)).sealedScript

end StackScript
