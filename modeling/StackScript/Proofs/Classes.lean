import StackScript.Proofs.ClassCode

/-!
Classes. Between the declaration of a class and the end of its body nothing is run that could give its variable another
value, so reading the variable gives the class. A superclass stays in the slot of a variable `super` around the body.
-/

namespace StackScript

def Slot.ofClass : Slot := ⟨.class, false⟩

/-- Of the first, more is known than of the second; as to captures they are the same. -/
structure Slot.Sharper (a b : Slot) : Prop where
  content : a.content.Within b.content
  isCaptured : a.isCaptured = b.isCaptured

theorem Slot.Sharper.refl (slot : Slot) : slot.Sharper slot :=
  ⟨.refl _, rfl⟩

theorem Slot.Sharper.within {a b : Slot} (sharper : a.Sharper b) : a.Within b :=
  ⟨sharper.content, fun captured => sharper.isCaptured ▸ captured⟩

theorem Slot.Sharper.copies {a b : Slot} (sharper : a.Sharper b) (copies : b.content.copy?.isSome = true) :
    a.content.copy?.isSome = true := by
  rcases a with ⟨known, _⟩
  rcases b with ⟨needed, _⟩
  cases sharper.content with
  | refl => exact copies
  | parent | «class» | closure | self => rfl

namespace Compile

open Parse

variable {name : String} {before after state bound declared : Compilation} {inner : Inner} {entry : Nat}

/-- Reading the name of the class gives the class: its slot holds it, or the global of that name does. -/
def ClassAt (state : Compilation) (name : String) (shape : Shape) : Prop :=
  (∃ slot isCaptured, state.scope.Binds name slot ∧ shape.slots[slot]? = some ⟨.class, isCaptured⟩) ∨
    ¬ state.scope.Declares name ∧ (¬ ∃ scope ∈ state.enclosing, scope.Declares name) ∧ shape.known = some name

namespace ClassAt

variable {shape : Shape}

theorem phrase (held : ClassAt before name shape) (phrase : Phrase before after) : ClassAt after name shape := by
  rcases held with ⟨slot, isCaptured, binds, slot_at⟩ | ⟨own, around, known⟩
  · exact .inl ⟨slot, isCaptured, binds.kept phrase.later.locals phrase.size, slot_at⟩
  · refine .inr ⟨?_, ?_, known⟩
    · rwa [FunctionScope.declares_kept phrase.later.locals phrase.size]
    · rwa [declares_widened phrase.later.enclosing]

theorem append (held : ClassAt state name shape) (more : List Slot) :
    ClassAt state name ⟨shape.slots ++ more, shape.known⟩ := by
  rcases held with ⟨slot, isCaptured, binds, slot_at⟩ | global
  · refine .inl ⟨slot, isCaptured, binds, ?_⟩
    rw [List.getElem?_append_left (List.getElem?_eq_some_iff.mp slot_at).1, slot_at]
  · exact .inr global

theorem of_eq (held : ClassAt before name shape) (locals : after.scope.locals = before.scope.locals)
    (enclosing : after.enclosing = before.enclosing) : ClassAt after name shape := by
  rcases held with ⟨slot, isCaptured, binds, slot_at⟩ | ⟨own, around, known⟩
  · exact .inl ⟨slot, isCaptured, ⟨locals ▸ binds.found, locals ▸ binds.innermost⟩, slot_at⟩
  · refine .inr ⟨?_, enclosing ▸ around, known⟩
    rwa [FunctionScope.Declares, locals]

theorem grown {other : String} {own : Option Nat} (held : ClassAt before name shape) (grown : Grown before after other own)
    (apart : other ≠ name) : ClassAt after name shape := by
  obtain ⟨newest, newest_at, rfl, -⟩ := grown.newest
  have old {i : Nat} {binding : Local} (found : after.scope.locals[i]? = some binding) (same : binding.name = name) :
      ∃ earlier, before.scope.locals[i]? = some earlier ∧ earlier.name = name := by
    have inside := (Array.getElem?_eq_some_iff.mp found).1
    by_cases below : i < before.scope.locals.size
    · obtain ⟨earlier, found, widened⟩ := earlier_local grown.later.locals below found
      exact ⟨earlier, found, widened.name.symm.trans same⟩
    · have last : i = before.scope.locals.size := by
        have := grown.size
        omega
      rw [last] at found
      cases found.symm.trans newest_at
      exact absurd same apart
  rcases held with ⟨slot, isCaptured, ⟨⟨binding, found, same, readable⟩, innermost⟩, slot_at⟩ | ⟨own, around, known⟩
  · obtain ⟨later, found, widened⟩ := grown.later.locals slot binding found
    refine .inl ⟨slot, isCaptured, ⟨⟨later, found, widened.name.trans same, widened.depth ▸ readable⟩, ?_⟩, slot_at⟩
    intro i binding above found same
    obtain ⟨earlier, found, same⟩ := old found same
    exact innermost i earlier above found same
  · refine .inr ⟨?_, ?_, known⟩
    · rintro ⟨binding, member, same⟩
      obtain ⟨i, inside, at_⟩ := Array.mem_iff_getElem.mp member
      obtain ⟨earlier, found, same⟩ := old (at_ ▸ Array.getElem?_eq_getElem inside) same
      exact own ⟨earlier, Array.mem_of_getElem? found, same⟩
    · rwa [declares_widened grown.later.enclosing]

theorem gives {access : Access} (held : ClassAt state name shape) (reached : Reaches state name access) :
    Gives name shape .class access := by
  rcases held with ⟨slot, isCaptured, binds, slot_at⟩ | ⟨own, around, known⟩
  · cases access with
    | «local» index =>
      cases binds.unique reached
      exact ⟨_, slot_at, rfl⟩
    | upvalue index => exact absurd binds.declares reached.2.1
    | global entry => exact absurd binds.declares reached.2.2.1
  · cases access with
    | «local» index => exact absurd reached.declares own
    | upvalue index => exact absurd reached.2.2 around
    | global entry => exact .inr ⟨rfl, known⟩

end ClassAt

/-- Inside the declaration of a class, the code between two states turns the slots on top into others. -/
structure Leads (name : String) (before after : Compilation) (taken left : List Slot) : Prop
    extends Phrase before after where
  segment : ∀ context kept known, Holds context after before.offset after.offset → Fits after.scope.locals kept →
    ClassAt before name ⟨kept, known⟩ →
    Segment context before.offset after.offset ⟨kept ++ taken, known⟩ ⟨kept ++ left, known⟩

namespace Leads

variable {first second third : Compilation} {a b c : List Slot}

theorem refl (ready : Ready state) : Leads name state state a a :=
  ⟨.refl ready, fun _ _ _ _ _ _ => .refl _ _ _⟩

theorem trans (one : Leads name first second a b) (two : Leads name second third b c) : Leads name first third a c := by
  refine ⟨one.toPhrase.trans two.toPhrase, fun context kept known holds fits held => ?_⟩
  have lower := one.later.offset
  have upper := two.later.offset
  have earlier := (holds.narrow (Nat.le_refl _) upper).earlier two.later one.ready.sound (Nat.le_refl _)
  exact (one.segment context kept known earlier (fits.earlier two.later.locals) held).trans
    (two.segment context kept known (holds.narrow lower (Nat.le_refl _)) fits (held.phrase one.toPhrase))

theorem silent (phrase : Phrase first second) (silent : second.offset = first.offset) : Leads name first second a a :=
  ⟨phrase, fun _ _ _ _ _ _ => silent ▸ .refl _ _ _⟩

end Leads

theorem Closes.leads {manner : Manner} (closes : Closes manner before after) (name : String) (below : List Slot) :
    Leads name before after below (below ++ [⟨.closure manner, false⟩]) := by
  refine ⟨closes.toPhrase, fun context kept known holds fits _ => ?_⟩
  rw [← List.append_assoc]
  exact closes.segment context _ _ known holds (fits.append _).grounded ((fits.append _).append _) (.refl _)

theorem emitBytes_leads {bytes : List UInt8} {taken left : List Slot} (ready : Ready state)
    (accepts : ∀ context kept known place, Covers context (emitBytes state bytes) → kept ≠ [] →
      (∀ i byte, bytes[i]? = some byte → context.chunk.code[place + i]? = some byte) →
      Accepts context (.at (place + bytes.length) ⟨kept ++ left, known⟩) place (place + bytes.length)
        ⟨kept ++ taken, known⟩) : Leads name state (emitBytes state bytes) taken left := by
  refine ⟨emitBytes_phrase ready bytes, fun context kept known holds fits _ => .inr ?_⟩
  rw [emitBytes_offset] at holds ⊢
  refine Block.single (accepts context kept known _ holds.toCovers fits.grounded fun i byte found => ?_)
  exact holds.emitted (Nat.le_refl _) (Nat.le_refl _) found

theorem manner_ofMethod (name : String) :
    (if name = "init" then FunctionKind.initializer else .method).manner = .ofMethod name := by
  unfold Manner.ofMethod
  split <;> rfl

theorem expectName_peek {what : Expectation} (done : expectName what before = .ok name after) :
    name = before.cursor.peek.lexeme := by
  obtain ⟨_, between, expected, done⟩ := bind_ok done
  cases done
  obtain ⟨found, rfl⟩ := expect_ok expected
  have more : before.cursor.isAtEnd = false := by simp [Cursor.isAtEnd, found]
  exact congrArg Token.lexeme (advance_previous more)

theorem method_leads (bodied : Bodied inner.functionBody) (name : String) :
    (method inner).Ensures fun before _ after => Ready before → Leads name before after [.ofClass] [.ofClass] ∧
      ∃ proto, after.scope.chunk.functions.back? = some proto ∧
        Gains (·.AddsMethods · [(before.cursor.peek.lexeme, proto)] ·) before.scope.chunk after.scope.chunk := by
  intro before _ after done clean
  obtain ⟨_, moved, expected, done⟩ := bind_ok done
  obtain ⟨token, member, isName, rfl, rfl, -⟩ := expectName_ok expected
  obtain ⟨entry, named', made, done⟩ := bind_ok done
  obtain ⟨_, closed, compiled, done⟩ := bind_ok done
  cases done
  obtain ⟨clean, closes⟩ := function_closes bodied (by split <;> decide) _ _ _ compiled clean
  refine ⟨makeString_errors made ▸ clean, fun ready => ?_⟩
  have moved := moved_phrase ready (advance_tokens before.cursor)
  obtain ⟨phrase, silent, names⟩ := makeString_phrase moved.ready made
  have closes := manner_ofMethod token.lexeme ▸ closes phrase.ready
  obtain ⟨named, small⟩ := (Fact.names entry token.lexeme).stable closes.toPhrase names
  have named {chunk : Chunk Proto} (tables : TablesKept (emitBytes closed (bytesWith .method entry)).scope.chunk chunk) :
      chunk.Names entry token.lexeme := tables.strings _ _ ((emitBytes_later closed _).tables.strings _ _ named)
  refine ⟨(Leads.silent (moved.trans phrase) silent).trans ((closes.leads name [.ofClass]).trans ?_), ?_⟩
  · refine @emitBytes_leads _ _ (bytesWith .method entry) _ _ closes.ready ?_
    intro context kept known place covers grounded bytes
    exact .method (bytes 0 _ rfl) (operand?_of_bytes small (bytes 1 _ rfl) (bytes 2 _ rfl)) (named covers.tables) grounded
      ⟨rfl, .refl _⟩
  · obtain ⟨proto, newest, closing⟩ := closes.closing
    refine ⟨proto, (congrArg Array.back? (emitBytes_functions closed (bytesWith .method entry))).trans newest, ?_⟩
    have closing : Gains (·.Closing · proto ·) named'.scope.chunk closed.scope.chunk := .of_later closes.later closing
    have adds : Gains (fun whole place stop => stop = place + 3 ∧ whole.OpAt place .method ∧
        whole.operand? (place + 1) = some entry ∧ whole.string? entry = some token.lexeme)
        closed.scope.chunk (emitBytes closed (bytesWith .method entry)).scope.chunk :=
      .emits _ _ fun whole place tables bytes => ⟨rfl, bytes 0 _ rfl,
        operand?_of_bytes small (bytes 1 _ rfl) (bytes 2 _ rfl), (named tables).reads⟩
    rw [← expectName_peek expected]
    refine Gains.before_silent (moved.trans phrase).later silent (closing.join adds fun whole start middle stop one two => ?_)
    obtain ⟨rfl, op_at, operand, named⟩ := two
    exact .cons one op_at operand named (.nil _)

theorem methodSuffix_leads (bodied : Bodied inner.functionBody) (name : String) :
    (methodSuffix inner).Ensures fun before _ after => Ready before → Leads name before after [.ofClass] [.ofClass] := by
  intro before more after done clean
  have done := read_ok done
  have done := read_ok done
  split at done
  · cases done
    exact ⟨clean, .refl⟩
  · obtain ⟨_, between, compiled, done⟩ := bind_ok done
    cases done
    exact (method_leads bodied name _ _ _ compiled clean).imp_right fun leads ready => (leads ready).1

theorem methods_lead (bodied : Bodied inner.functionBody) (name : String) :
    (whileProgress (methodSuffix inner)).Ensures fun before _ after =>
      Ready before → Leads name before after [.ofClass] [.ofClass] := by
  refine Ensures.whileProgress (methodSuffix_leads bodied name) (fun _ ready => .refl ready) fun one two ready => ?_
  have leads := one ready
  exact leads.trans (two leads.ready)

theorem readClass_segment (ready : Ready before) (named : name ≠ "") (done : readVariable name before = .ok () after) :
    Phrase before after ∧ ∀ context slots known, Holds context after before.offset after.offset →
      ClassAt before name ⟨slots, known⟩ →
      Segment context before.offset after.offset ⟨slots, known⟩ ⟨slots ++ [.ofClass], known⟩ := by
  obtain ⟨access, phrase, reached, reads⟩ := readVariable_reads ready named done
  refine ⟨phrase, fun context slots known holds held => ?_⟩
  exact reads context ⟨slots, known⟩ _ _ holds ((held.phrase phrase).gives reached) (.refl _)

theorem classMethods_lead (bodied : Bodied inner.functionBody) (name : String) : Parse.Ensures (do
      readVariable name
      expect .leftBrace .leftBraceBeforeClassBody
      whileProgress (methodSuffix inner)
      expect .rightBrace .rightBraceAfterClassBody
      emit .pop) fun before _ after => Ready before → name ≠ "" → Leads name before after [] [] := by
  intro before _ after done clean
  obtain ⟨_, pushed, reads, done⟩ := bind_ok done
  obtain ⟨_, opened, opens, done⟩ := bind_ok done
  obtain ⟨_, added, adds, done⟩ := bind_ok done
  obtain ⟨_, closed, closes, done⟩ := bind_ok done
  cases done
  obtain ⟨-, rfl⟩ := expect_ok opens
  obtain ⟨-, rfl⟩ := expect_ok closes
  obtain ⟨clean, methods⟩ := methods_lead bodied name _ _ _ adds clean
  refine ⟨readVariable_errors reads ▸ clean, fun ready named => ?_⟩
  obtain ⟨phrase, pushes⟩ := readClass_segment ready named reads
  have reads : Leads name before pushed [] [.ofClass] := by
    refine ⟨phrase, fun context kept known holds _ held => ?_⟩
    rw [List.append_nil]
    exact pushes context kept known holds held
  have opened := moved_phrase reads.ready (advance_tokens pushed.cursor)
  have methods := methods opened.ready
  have closed := moved_phrase methods.ready (advance_tokens added.cursor)
  refine reads.trans ((Leads.silent opened rfl).trans (methods.trans ((Leads.silent closed rfl).trans ?_)))
  refine @emitBytes_leads _ _ [Opcode.pop.toByte] _ _ closed.ready ?_
  intro context kept known place covers grounded bytes
  rw [List.append_nil]
  exact .pop (bytes 0 _ rfl) rfl grounded ⟨rfl, .refl _⟩

theorem Fits.below {before after : Array Local} {kept above : List Slot} (fits : Fits after (kept ++ above))
    (locals : LocalsKept before after) (size : before.size ≤ kept.length) (grounded : kept ≠ []) : Fits before kept := by
  refine ⟨grounded, fun i binding found readable named => ?_⟩
  have inside := (Array.getElem?_eq_some_iff.mp found).1
  obtain ⟨slot, slot_at, meaning⟩ := (fits.earlier locals).named i binding found readable named
  rw [List.getElem?_append_left (by omega)] at slot_at
  exact ⟨slot, slot_at, meaning⟩

theorem Fits.sharper {locals : Array Local} {sharp slots : List Slot} (fits : Fits locals slots)
    (sharper : List.Forall₂ Slot.Sharper sharp slots) : Fits locals sharp := by
  refine ⟨fun empty => ?_, fun i binding found readable named => ?_⟩
  · rw [empty, List.forall₂_nil_left_iff] at sharper
    exact fits.grounded sharper
  · obtain ⟨slot, slot_at, role, copies, captured⟩ := fits.named i binding found readable named
    obtain ⟨inside, rfl⟩ := List.getElem?_eq_some_iff.mp slot_at
    have inside' : i < sharp.length := sharper.length_eq ▸ inside
    have own : sharp[i].Sharper slots[i] := sharper.get inside' inside
    exact ⟨sharp[i], List.getElem?_eq_getElem inside', own.within.role_eq.trans role, own.copies copies,
      fun flagged => own.isCaptured.trans (captured flagged)⟩

theorem beginScope_later (state : Compilation) : Later state state.beginScope :=
  ⟨rfl, widened_refl _, .refl _, .refl _, .refl _, Nat.le_refl _, fun _ _ => rfl, rfl⟩

/-- A scope has been entered in which `super` is the superclass of the class of the given name. -/
structure Inherits (name : String) (before after : Compilation) : Prop where
  later : Later before after
  ready : Ready after
  kind : after.scope.kind = before.scope.kind
  arity : after.scope.arity = before.scope.arity
  depth : after.scope.depth = before.scope.depth + 1
  size : after.scope.locals.size = before.scope.locals.size + 1
  newest : ∃ binding, after.scope.locals[before.scope.locals.size]? = some binding ∧ binding.name = "super" ∧
    binding.depth = some (before.scope.depth + 1)
  held : ∀ shape, ClassAt before name shape → ClassAt after name shape
  segment : ∀ context kept isCaptured known, Holds context after before.offset after.offset → kept ≠ [] →
    Fits after.scope.locals (kept ++ [⟨.superclass, isCaptured⟩]) → before.scope.locals.size ≤ kept.length →
    ClassAt before name ⟨kept, known⟩ →
    Segment context before.offset after.offset ⟨kept, known⟩ ⟨kept ++ [⟨.superclass, isCaptured⟩], known⟩

theorem superclassClause_ok (done : superclassClause name before = .ok () after) :
    ∃ token ∈ before.cursor.tokens, token.kind = .identifier ∧ ∃ pushed inherited,
      readVariable token.lexeme { before with cursor := before.cursor.advance } = .ok () pushed ∧
      pushed.scope.locals.size ≠ maxLocals ∧
      readVariable name (withLocal pushed.beginScope "super").markInitialized = .ok () inherited ∧
      after = (emitBytes inherited [Opcode.inherit.toByte]).markSuperclass := by
  obtain ⟨superclass, moved, expected, done⟩ := bind_ok done
  obtain ⟨token, member, isName, rfl, rfl, -⟩ := expectName_ok expected
  obtain ⟨_, pushed, reads, done⟩ := bind_ok done
  refine ⟨token, member, isName, pushed, ?_⟩
  dsimp only at done
  split at done
  · obtain ⟨_, _, failed, -⟩ := bind_ok done
    cases failed
  · have done := update_bind_ok done
    obtain ⟨_, grown, grows, done⟩ := bind_ok done
    obtain ⟨room, rfl⟩ := addLocal_ok grows
    have done := update_bind_ok done
    obtain ⟨_, inherited, inherits, done⟩ := bind_ok done
    cases done
    exact ⟨inherited, reads, room, inherits, rfl⟩

theorem superclassClause_inherits (name : String) :
    (superclassClause name).Ensures fun before _ after => Ready before → name ≠ "" → name ≠ "super" →
      Inherits name before after ∧ after.classes = before.classes.modifyHead (fun _ => ⟨true⟩) ∧
        Gains Chunk.Inheriting before.scope.chunk after.scope.chunk := by
  intro before _ after done clean
  obtain ⟨token, member, isName, pushed, inherited, reads, room, inherits, rfl⟩ := superclassClause_ok done
  refine ⟨?_, fun ready named ordinary => ?_⟩
  · have started := readVariable_errors reads
    have entered := readVariable_errors inherits
    rw [Grown.markInitialized_errors] at entered
    rw [← show pushed.errors = before.errors from started, ← show inherited.errors = pushed.errors from entered]
    exact clean
  -- The superclass is pushed and becomes the local `super` of a scope of its own; the class is pushed on top of it.
  have moved := moved_phrase ready (advance_tokens before.cursor)
  have spelled := (ready.names token member isName).1
  obtain ⟨access, phrase, reached, pushes⟩ := readVariable_reads moved.ready spelled reads
  have opened : Ready pushed.beginScope := ⟨phrase.ready.names, phrase.ready.sound, phrase.ready.supers, phrase.ready.tables⟩
  have entered := (moved.trans phrase).later.trans (beginScope_later pushed)
  have added := Grown.withLocal opened (Nat.lt_of_le_of_ne phrase.ready.sound.1 room) "super"
  have marked := added.markInitialized (Nat.succ_pos _)
  obtain ⟨phrase', pushes'⟩ := readClass_segment marked.ready named inherits
  have emitted := emitBytes_phrase phrase'.ready [Opcode.inherit.toByte]
  have grown := (marked.phrase phrase').phrase emitted
  have silent : (withLocal pushed.beginScope "super").markInitialized.offset = pushed.offset :=
    Grown.markInitialized_offset _
  have held {shape : Shape} (held : ClassAt before name shape) :
      ClassAt (withLocal pushed.beginScope "super").markInitialized name shape := by
    have inside : ClassAt pushed.beginScope name shape := (held.phrase (moved.trans phrase)).of_eq rfl rfl
    exact inside.grown marked ordinary.symm
  have size : pushed.scope.locals.size = before.scope.locals.size := (moved.trans phrase).size
  have depth : pushed.scope.depth = before.scope.depth := (moved.trans phrase).depth
  obtain ⟨newest, newest_at, super, deep⟩ := grown.newest
  have later := entered.trans grown.later
  refine ⟨⟨⟨later.tokens, later.enclosing, later.locals, later.captures, later.tables, later.offset, later.code, later.kind⟩,
    ⟨grown.ready.names, grown.ready.sound, fun _ => .inl ⟨newest, Array.mem_of_getElem? newest_at, super⟩,
      grown.ready.tables⟩,
    grown.kind.trans (moved.trans phrase).kind, grown.arity.trans (moved.trans phrase).arity,
    grown.depth.trans (congrArg (· + 1) depth), grown.size.trans (congrArg (· + 1) size),
    ⟨newest, size ▸ newest_at, super, deep.trans (congrArg (some <| · + 1) depth)⟩,
    fun shape at_ => (((held at_).phrase phrase').phrase emitted).of_eq rfl rfl, ?_⟩,
    congrArg (List.modifyHead _) (grown.classes.trans (moved.trans phrase).classes), ?_⟩
  rotate_left
  · have second := Gains.before_silent ((beginScope_later pushed).trans marked.later) silent
      (readVariable_gains marked.ready named inherits)
    have inherits : Gains (fun whole place stop => whole.OpAt place .inherit ∧ stop = place + 1) inherited.scope.chunk
        (emitBytes inherited [Opcode.inherit.toByte]).scope.chunk := .emits _ _ fun _ _ _ bytes => ⟨bytes 0 _ rfl, rfl⟩
    have both : Gains Chunk.Inheriting pushed.scope.chunk _ := second.join inherits fun _ _ place _ one two => ⟨place, one, two⟩
    refine (readVariable_gains moved.ready spelled reads).join both ?_
    rintro whole start middle stop one ⟨place, two, op_at⟩
    exact ⟨place, one.trans two, op_at⟩
  -- Three stretches of code behind each other: the superclass, the class, and the instruction that inherits.
  intro context kept isCaptured known holds grounded fits enough at_
  have holds : Holds context (emitBytes inherited [Opcode.inherit.toByte]) before.offset (inherited.offset + 1) := by
    rw [← show _ = inherited.offset + 1 from emitBytes_offset inherited [Opcode.inherit.toByte]]
    exact ⟨⟨holds.tables, holds.upvalue, holds.closes, holds.manner⟩, holds.code⟩
  have lower : before.offset ≤ pushed.offset := (moved.trans phrase).later.offset
  have upper : pushed.offset ≤ inherited.offset := silent ▸ phrase'.later.offset
  have first := (holds.narrow (Nat.le_refl _) (Nat.le_succ_of_le upper)).earlier ((beginScope_later pushed).trans grown.later)
    phrase.ready.sound (Nat.le_refl _)
  have second := (holds.narrow (silent ▸ lower) (Nat.le_succ _)).earlier emitted.later phrase'.ready.sound (Nat.le_refl _)
  have fits := fits.below (beginScope_later pushed |>.trans grown.later).locals (size ▸ enough) grounded
  obtain ⟨content, isValue, gives⟩ := @gives_value token.lexeme access pushed ⟨kept, known⟩ spelled fits reached
  refine (pushes context _ content .value first gives isValue).trans ?_
  rw [← silent, show (emitBytes inherited [Opcode.inherit.toByte]).markSuperclass.offset = inherited.offset + 1 from
    emitBytes_offset inherited [Opcode.inherit.toByte]]
  refine (pushes' context _ known second ((held at_).append [.plain])).trans (.inr (.single ?_))
  rw [List.append_assoc]
  have op_at : context.chunk.OpAt inherited.offset .inherit :=
    holds.emitted (Nat.le_trans lower upper) (Nat.le_refl _) (i := 0) rfl
  exact .inherit op_at grounded ⟨rfl, .refl _⟩

theorem Inherits.leads {first second third : Compilation} (one : Inherits name first second) (two : Leads name second third [] []) :
    Inherits name first third := by
  obtain ⟨newest, newest_at, super, deep⟩ := one.newest
  obtain ⟨later, later_at, widened⟩ := two.later.locals _ newest newest_at
  refine ⟨one.later.trans two.later, two.ready, two.kind.trans one.kind, two.arity.trans one.arity,
    two.depth.trans one.depth, two.size.trans one.size,
    ⟨later, later_at, widened.name.trans super, widened.depth.trans deep⟩,
    fun shape held => (one.held shape held).phrase two.toPhrase, ?_⟩
  intro context kept isCaptured known holds grounded fits enough held
  have lower := one.later.offset
  have upper := two.later.offset
  have earlier := (holds.narrow (Nat.le_refl _) upper).earlier two.later one.ready.sound (Nat.le_refl _)
  refine (one.segment context kept isCaptured known earlier grounded (fits.earlier two.later.locals) enough held).trans ?_
  have segment := two.segment context _ known (holds.narrow lower (Nat.le_refl _)) fits ((one.held _ held).append _)
  rwa [List.append_nil] at segment

theorem classBody_ensures (bodied : Bodied inner.functionBody) (name : String) :
    (classBody inner name).Ensures fun before _ after => Ready before → name ≠ "" → name ≠ "super" →
      Leads name before after [] [] ∨
        Inherits name before after ∧ after.classes = before.classes.modifyHead fun _ => ⟨true⟩ := by
  intro before _ after done clean
  obtain ⟨given, moved, accepts, done⟩ := bind_ok done
  obtain ⟨cursor, tokens, rfl⟩ := accept_ok accepts
  cases given with
  | false =>
    obtain ⟨clean, leads⟩ := classMethods_lead bodied name _ _ _ done clean
    refine ⟨clean, fun ready named ordinary => .inl ?_⟩
    have moved := moved_phrase ready tokens
    exact (Leads.silent moved rfl).trans (leads moved.ready named)
  | true =>
    obtain ⟨_, inherited, clause, done⟩ := bind_ok done
    obtain ⟨clean, leads⟩ := classMethods_lead bodied name _ _ _ done clean
    obtain ⟨clean, inherits⟩ := superclassClause_inherits name _ _ _ clause clean
    refine ⟨clean, fun ready named ordinary => .inr ?_⟩
    have moved := moved_phrase ready tokens
    obtain ⟨inherits, classes, -⟩ := inherits moved.ready named ordinary
    have leads := leads inherits.ready named
    have inherits := inherits.leads leads
    have later := moved.later.trans inherits.later
    exact ⟨⟨later, inherits.ready, inherits.kind, inherits.arity, inherits.depth, inherits.size, inherits.newest,
      fun shape held => inherits.held shape (held.phrase moved),
      fun context kept isCaptured known holds grounded fits enough held =>
        inherits.segment context kept isCaptured known holds grounded fits enough (held.phrase moved)⟩,
      leads.classes.trans classes⟩

theorem inClass_ensures (bodied : Bodied inner.functionBody) (name : String) :
    (inClass (classBody inner name)).Ensures fun before inherits after => Ready before → name ≠ "" → name ≠ "super" →
      if inherits then Inherits name before after ∧ after.classes = before.classes else Leads name before after [] [] := by
  intro before inherits after done clean
  unfold inClass at done
  split at done
  · cases done
  · next finished compiled =>
    cases done
    obtain ⟨clean, body⟩ := classBody_ensures bodied name _ _ _ compiled clean
    refine ⟨clean, fun ready named ordinary => ?_⟩
    have inside : Ready { before with classes := ⟨false⟩ :: before.classes } := ⟨ready.names, ready.sound, nofun, ready.tables⟩
    rcases body inside named ordinary with leads | ⟨inherits, classes⟩
    · have later := leads.later
      rw [if_neg (by simp [leads.classes])]
      refine ⟨⟨⟨later.tokens, later.enclosing, later.locals, later.captures, later.tables, later.offset, later.code, later.kind⟩,
        ⟨leads.ready.names, leads.ready.sound, fun head => ?_, leads.ready.tables⟩, congrArg List.tail leads.classes, leads.kind, leads.depth,
        leads.arity, leads.size⟩, fun context kept known holds fits held => ?_⟩
      · rw [leads.classes] at head
        rw [FunctionScope.declares_kept later.locals leads.size, declares_widened later.enclosing]
        exact ready.supers head
      · exact leads.segment context kept known ⟨⟨holds.tables, holds.upvalue, holds.closes, holds.manner⟩, holds.code⟩ fits
          (held.of_eq rfl rfl)
    · have later := inherits.later
      obtain ⟨newest, newest_at, super, deep⟩ := inherits.newest
      rw [if_pos (by simp [classes])]
      refine ⟨⟨⟨later.tokens, later.enclosing, later.locals, later.captures, later.tables, later.offset, later.code, later.kind⟩,
        ⟨inherits.ready.names, inherits.ready.sound, fun _ => .inl ⟨newest, Array.mem_of_getElem? newest_at, super⟩,
          inherits.ready.tables⟩,
        inherits.kind, inherits.arity, inherits.depth, inherits.size, ⟨newest, newest_at, super, deep⟩,
        fun shape held => (inherits.held shape (held.of_eq rfl rfl)).of_eq rfl rfl, ?_⟩, congrArg List.tail classes⟩
      intro context kept isCaptured known holds grounded fits enough held
      exact inherits.segment context kept isCaptured known ⟨⟨holds.tables, holds.upvalue, holds.closes, holds.manner⟩, holds.code⟩
        grounded fits enough (held.of_eq rfl rfl)

/-- A class has been made and bound to its name. -/
structure Introduces (name : String) (before after : Compilation) : Prop extends Declared before after where
  block : ∀ context shape, Holds context after before.offset after.offset → Suits false after.scope.locals shape →
    ∃ sharp : Shape, List.Forall₂ Slot.Sharper sharp.slots shape.slots ∧ ClassAt after name sharp ∧
      Block context before.offset after.offset (.at before.offset (shape.take before.scope.locals.size))
        (.at after.offset sharp)

theorem introduces_global (ready : Ready state) (level : Level state) (outermost : state.scope.depth = 0) (spelled : name ≠ "")
    (names : (Fact.names entry name).holds state) :
    Introduces name state (emitBytes state (bytesWith .newClass entry ++ bytesWith .defineGlobal entry)) := by
  have phrase := emitBytes_phrase ready (bytesWith .newClass entry ++ bytesWith .defineGlobal entry)
  have level' := Fact.level.stable phrase level
  obtain ⟨script, single, unnamed⟩ := level'.outermost (phrase.depth.trans outermost)
  refine ⟨phrase.declared level, fun context shape holds suits => ?_⟩
  obtain ⟨slots, known⟩ := shape
  cases suits.settled.known
  obtain ⟨named, small⟩ := (Fact.names entry name).stable phrase names
  have named := holds.tables.strings _ _ named
  rw [emitBytes_offset] at holds ⊢
  have byte {i : Nat} {byte : UInt8} := @Holds.emitted state context _ _ _ holds (Nat.le_refl _) (Nat.le_refl _) i byte
  have first : Block context state.offset (state.offset + 3) (.at state.offset ⟨slots, none⟩)
      (.at (state.offset + 3) ⟨slots ++ [.ofClass], none⟩) :=
    .single (.newClass (byte (i := 0) rfl) (operand?_of_bytes small (byte (i := 1) rfl) (byte (i := 2) rfl))
      named ⟨rfl, .refl _⟩)
  have second : Block context (state.offset + 3) (state.offset + 3 + 3)
      (.at (state.offset + 3) ⟨slots ++ [.ofClass], none⟩) (.at (state.offset + 3 + 3) ⟨slots, some name⟩) :=
    .single (.defineGlobal (byte (i := 3) rfl) (operand?_of_bytes small (byte (i := 4) rfl) (byte (i := 5) rfl))
      named .class (.inr ⟨rfl, rfl⟩) suits.fits.grounded ⟨rfl, .refl _⟩)
  refine ⟨⟨slots, some name⟩, List.forall₂_same.mpr fun slot _ => .refl slot, .inr ⟨?_, by simp [script], rfl⟩, ?_⟩
  · rintro ⟨binding, member, rfl⟩
    obtain ⟨i, inside, at_⟩ := Array.mem_iff_getElem.mp member
    have first : i = 0 := by omega
    refine spelled (unnamed binding ?_)
    rw [← first, Array.getElem?_eq_getElem inside, at_]
  · rw [Shape.take, List.take_of_length_le (Nat.le_of_eq ((suits.exact rfl).trans phrase.size))]
    exact first.seq second

theorem introduces_local (ready : Ready state) (level : Level state) (deep : 0 < state.scope.depth)
    (room : state.scope.locals.size ≠ maxLocals) (spelled : name ≠ "") (ordinary : Role.ofName name = .ordinary)
    (names : (Fact.names entry name).holds state) :
    Introduces name state (emitBytes (withLocal state name) (bytesWith .newClass entry)).markInitialized := by
  have added := Grown.withLocal ready (Nat.lt_of_le_of_ne ready.sound.1 room) name
  have emitted := emitBytes_phrase added.ready (bytesWith .newClass entry)
  have grown := (added.phrase emitted).markInitialized deep
  refine ⟨grown.declared level deep, fun context shape holds suits => ?_⟩
  obtain ⟨kept, isCaptured, length, taken, rfl⟩ := grown.slots_eq spelled ordinary suits
  obtain ⟨newest, newest_at, same, depth⟩ := grown.newest
  have holds := holds.unmarked
  rw [Grown.markInitialized_offset, emitBytes_offset] at holds ⊢
  have byte {i : Nat} {byte : UInt8} :=
    @Holds.emitted (withLocal state name) context _ _ _ holds (Nat.le_refl _) (Nat.le_refl _) i byte
  obtain ⟨named, small⟩ := names
  have named := holds.tables.strings _ _ (emitted.later.tables.strings _ _ named)
  refine ⟨⟨kept ++ [⟨.class, isCaptured⟩], none⟩, ?_, .inl ⟨state.scope.locals.size, isCaptured, ⟨?_, ?_⟩, ?_⟩, ?_⟩
  · exact List.rel_append (List.forall₂_same.mpr fun slot _ => .refl slot) (.cons ⟨.class, rfl⟩ .nil)
  · exact ⟨newest, newest_at, same, by rw [depth]; rfl⟩
  · intro i binding above found
    have inside := (Array.getElem?_eq_some_iff.mp found).1
    have := grown.size
    omega
  · rw [← length, List.getElem?_concat_length]
  · rw [taken]
    refine .single (.newClass (byte (i := 0) rfl)
      (operand?_of_bytes small (byte (i := 1) rfl) (byte (i := 2) rfl)) named ⟨rfl, ?_⟩)
    have newest : Slot.Within ⟨.class, false⟩ ⟨.class, isCaptured⟩ := ⟨.refl _, fun never => absurd never Bool.false_ne_true⟩
    exact ⟨List.rel_append (Shape.slots_within_refl _) (.cons newest .nil), .inr rfl⟩

theorem Introduces.runs (introduces : Introduces name before bound) (leads : Leads name bound after [] []) :
    Runs before after := by
  refine ⟨introduces.toDeclared.trans (leads.toPhrase.declared introduces.level), fun context shape holds suits => ?_⟩
  have lower := introduces.later.offset
  have upper := leads.later.offset
  have earlier := (holds.narrow (Nat.le_refl _) upper).earlier leads.later introduces.ready.sound (Nat.le_refl _)
  obtain ⟨sharp, sharper, held, block⟩ :=
    introduces.block context shape earlier (suits.earlier leads.later.locals leads.size)
  have body := leads.segment context sharp.slots sharp.known (holds.narrow lower (Nat.le_refl _))
    (suits.fits.sharper sharper) held
  simp only [List.append_nil] at body
  have within : sharp.Within shape := ⟨sharper.imp fun _ _ => Slot.Sharper.within, .inl suits.settled.known⟩
  exact .inr ((body.after_block block).within (.refl _) within)

theorem Inherits.inside (inherits : Inherits name before after) (classes : after.classes = before.classes) :
    Inside before after := by
  refine ⟨inherits.later, inherits.ready, classes, inherits.kind, inherits.arity, inherits.depth,
    by rw [inherits.size]; omega, fun i binding above found => ?_⟩
  have inside := (Array.getElem?_eq_some_iff.mp found).1
  have last : i = before.scope.locals.size := by
    have := inherits.size
    omega
  obtain ⟨newest, newest_at, -, deep⟩ := inherits.newest
  rw [last] at found
  cases found.symm.trans newest_at
  exact deep

theorem Inherits.slots_eq (inherits : Inherits name before after) {shape : Shape} (suits : Suits false after.scope.locals shape) :
    ∃ isCaptured, shape.slots = (shape.take before.scope.locals.size).slots ++ [⟨.superclass, isCaptured⟩] := by
  obtain ⟨newest, newest_at, super, deep⟩ := inherits.newest
  obtain ⟨⟨content, isCaptured⟩, slot_at, role, -⟩ :=
    suits.fits.named _ newest newest_at (by rw [deep]; rfl) (by rw [super]; decide)
  have isSuperclass : content = .superclass := Content.eq_superclass (by rw [super] at role; exact role)
  have length : shape.slots.length ≤ before.scope.locals.size + 1 := Nat.le_of_eq ((suits.exact rfl).trans inherits.size)
  refine ⟨isCaptured, ?_⟩
  conv_lhs => rw [← List.take_of_length_le length, List.take_add_one, slot_at, isSuperclass]
  rfl

theorem Introduces.runs_inherits {inner : Compilation} (introduces : Introduces name before bound)
    (inherits : Inherits name bound inner) (classes : inner.classes = bound.classes) : Runs before inner.endScope := by
  have inside := inherits.inside classes
  have phrase := inside.endScope_phrase introduces.ready introduces.level
  refine ⟨introduces.toDeclared.trans (phrase.declared introduces.level), fun context shape holds suits => ?_⟩
  have lower := introduces.later.offset
  have upper := phrase.later.offset
  have earlier := (holds.narrow (Nat.le_refl _) upper).earlier phrase.later introduces.ready.sound (Nat.le_refl _)
  obtain ⟨sharp, sharper, held, block⟩ := introduces.block context shape earlier (suits.earlier phrase.later.locals phrase.size)
  obtain ⟨full, taken, suits', holds', closes⟩ :=
    inside.endScope_segment introduces.ready introduces.level (holds.narrow lower (Nat.le_refl _)) suits
  obtain ⟨isCaptured, full_eq⟩ := inherits.slots_eq suits'
  rw [taken] at full_eq
  have sharper' : List.Forall₂ Slot.Sharper (sharp.slots ++ [⟨.superclass, isCaptured⟩]) full.slots := by
    rw [full_eq]
    exact List.rel_append sharper (.cons (.refl _) .nil)
  have enough : bound.scope.locals.size ≤ sharp.slots.length :=
    Nat.le_of_eq (by rw [sharper.length_eq, suits.exact rfl, phrase.size])
  have body := inherits.segment context sharp.slots isCaptured sharp.known holds'
    (suits.fits.sharper sharper).grounded (suits'.fits.sharper sharper') enough held
  have within : Shape.Within ⟨sharp.slots ++ [⟨.superclass, isCaptured⟩], sharp.known⟩ full :=
    ⟨sharper'.imp fun _ _ => Slot.Sharper.within, .inl suits'.settled.known⟩
  exact .inr (closes.after_block ((body.after_block block).within (.refl _) within))

theorem defineClass_introduces (ready : Ready state) (level : Level state)
    (declares : declareVariable state = .ok () declared) (spelled : state.cursor.previous.lexeme ≠ "")
    (ordinary : Role.ofName state.cursor.previous.lexeme = .ordinary)
    (names : (Fact.names entry state.cursor.previous.lexeme).holds state) : Introduces state.cursor.previous.lexeme state
      ((declared.emitWith .newClass entry).defineVariable (declared.globalName? entry)) := by
  rcases declareVariable_ok declares with ⟨outermost, rfl⟩ | ⟨deep, room, rfl⟩
  · rw [Compilation.globalName?, if_neg (by rw [outermost]; decide)]
    have defined : (declared.emitWith .newClass entry).defineVariable (some entry) =
        emitBytes declared (bytesWith .newClass entry ++ bytesWith .defineGlobal entry) := by
      rw [emitBytes_append]
      rfl
    rw [defined]
    exact introduces_global ready level outermost spelled names
  · rw [Compilation.globalName?, if_pos (show (withLocal state state.cursor.previous.lexeme).scope.depth > 0 from deep)]
    exact introduces_local ready level deep room spelled ordinary names

theorem defineClass_gains (entry : Nat) (declares : declareVariable state = .ok () declared) :
    Gains (fun whole start stop => whole.OpAt start .newClass ∧ whole.Idles (start + 3) stop) state.scope.chunk
      ((declared.emitWith .newClass entry).defineVariable (declared.globalName? entry)).scope.chunk := by
  rcases declareVariable_ok declares with ⟨outermost, rfl⟩ | ⟨deep, -, rfl⟩
  · rw [Compilation.globalName?, if_neg (by rw [outermost]; decide)]
    exact .emits _ (bytesWith .newClass entry ++ bytesWith .defineGlobal entry) fun whole place _ bytes => ⟨bytes 0 _ rfl,
      .cons (bytes 3 _ rfl) rfl (Chunk.next?_of_opAt (bytes 3 _ rfl) rfl (Chunk.lt_of_getElem? (bytes 5 _ rfl))) (.nil _)⟩
  · rw [Compilation.globalName?, if_pos (show (withLocal state state.cursor.previous.lexeme).scope.depth > 0 from deep)]
    have same (state : Compilation) : state.markInitialized.scope.chunk = state.scope.chunk := by
      unfold Compilation.markInitialized
      split <;> rfl
    rw [Compilation.defineVariable, same]
    exact .emits (withLocal state _) (bytesWith .newClass entry) fun whole place _ bytes => ⟨bytes 0 _ rfl, .nil _⟩

theorem classDeclaration_running (bodied : Bodied inner.functionBody) : Running (classDeclaration inner) := by
  intro before _ after done clean
  obtain ⟨name, moved, expected, done⟩ := bind_ok done
  obtain ⟨token, member, isName, rfl, rfl, previous⟩ := expectName_ok expected
  obtain ⟨entry, named, made, done⟩ := bind_ok done
  obtain ⟨_, declared, declares, done⟩ := bind_ok done
  have done := update_bind_ok done
  have done := update_bind_ok done
  obtain ⟨inherits, finished, compiled, done⟩ := bind_ok done
  -- with a superclass, the scope that holds `super` ends behind the body
  have ends : finished.errors = #[] ∧ (inherits = false ∧ after = finished ∨ inherits = true ∧ after = finished.endScope) := by
    cases inherits with
    | false =>
      cases done
      exact ⟨clean, .inl ⟨rfl, rfl⟩⟩
    | true =>
      cases update_ok done
      exact ⟨endScope_errors finished ▸ clean, .inr ⟨rfl, rfl⟩⟩
  obtain ⟨clean, ends⟩ := ends
  obtain ⟨clean, body⟩ := inClass_ensures bodied token.lexeme _ _ _ compiled clean
  rw [defineVariable_errors] at clean
  have silent : declared.errors = named.errors := by
    rcases declareVariable_ok declares with ⟨-, rfl⟩ | ⟨-, -, rfl⟩ <;> rfl
  refine ⟨?_, fun ready level => ?_⟩
  · have made := makeString_errors made
    rw [← silent] at made
    exact made ▸ clean
  obtain ⟨spelled, ordinary⟩ := ready.names token member isName
  have moved := moved_phrase ready (advance_tokens before.cursor)
  obtain ⟨phrase, offset, names⟩ := makeString_phrase moved.ready made
  have started := moved.trans phrase
  have current : named.cursor.previous = token := by
    obtain ⟨-, -, -, rfl⟩ := makeString_ok made
    exact previous
  cases current
  have introduces := defineClass_introduces started.ready (Fact.level.stable started level) declares spelled ordinary names
  refine .after_silent started offset ?_ level
  have body := body introduces.ready spelled (Role.ne_super ordinary)
  rcases ends with ⟨rfl, rfl⟩ | ⟨rfl, rfl⟩
  · exact introduces.runs body
  · exact introduces.runs_inherits body.1 body.2

end Compile

end StackScript
