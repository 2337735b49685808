import StackScript.Proofs.Emission

/-!
Actions that compile phrases. Such an action turns some intermediate values on top of the stack into others: an
expression leaves one value, an operator takes two and leaves one, a statement leaves none. It does so in every shape
that has the locals in their slots; a statement also needs that nothing else is there (`loose` says that it does not
matter), since it may declare variables of its own.

The rules follow the way actions are put together. What an action was told by an earlier one, for instance which string
an operand refers to, is a fact that no phrase in between changes.
-/

namespace StackScript

variable {shape : Shape}

def Shape.pushes (shape : Shape) (count : Nat) : Shape :=
  { shape with slots := shape.slots ++ List.replicate count .plain }

theorem Shape.pushes_zero (shape : Shape) : shape.pushes 0 = shape := by
  simp [pushes]

theorem Shape.pushes_pushes (shape : Shape) (below above : Nat) :
    (shape.pushes below).pushes above = shape.pushes (below + above) := by
  simp [pushes, List.append_assoc]

theorem Shape.pushes_succ (shape : Shape) (count : Nat) : shape.pushes (count + 1) = (shape.pushes count).push .plain :=
  (shape.pushes_pushes count 1).symm

theorem Segment.leaves {context : Context} {start stop : Nat} {after : Shape}
    (segment : Segment context start stop (shape.pushes 0) (shape.pushes 1)) (less : (shape.pushes 1).Within after) :
    Segment context start stop shape after := by
  rw [Shape.pushes_zero] at segment
  rcases segment with ⟨-, same⟩ | block
  · have length := congrArg (·.slots.length) same
    simp [Shape.pushes] at length
  · exact .inr (block.within (.refl _) less)

theorem Shape.Settled.pushes (settled : shape.Settled) (count : Nat) : (shape.pushes count).Settled := by
  induction count with
  | zero => rwa [pushes_zero]
  | succ count ih => rw [pushes_succ]; exact ih.push

namespace Compile

variable {before after state : Compilation} {kind : Kind} {loose : Bool} {locals : Array Local} {again : Parse Bool}

/-- The shape is one that a phrase can start from. -/
structure Suits (loose : Bool) (locals : Array Local) (shape : Shape) : Prop where
  fits : Fits locals shape.slots
  settled : shape.Settled
  exact : loose = false → shape.slots.length = locals.size
  clear : Clear shape.slots

theorem Suits.earlier {before after : Array Local} (suits : Suits loose after shape) (kept : LocalsKept before after)
    (size : after.size = before.size) : Suits loose before shape :=
  ⟨suits.fits.earlier kept, suits.settled, fun strict => (suits.exact strict).trans size, suits.clear⟩

theorem Suits.loosen (suits : Suits loose locals shape) : Suits true locals shape :=
  ⟨suits.fits, suits.settled, nofun, suits.clear⟩

theorem Suits.pushes (suits : Suits true locals shape) (count : Nat) : Suits true locals (shape.pushes count) := by
  refine ⟨suits.fits.append _, suits.settled.pushes count, nofun, suits.clear.append fun slot member proto => ?_⟩
  rw [List.eq_of_mem_replicate member]
  nofun

theorem Suits.slot_value (suits : Suits loose locals shape) {i : Nat} {binding : Local} (found : locals[i]? = some binding)
    (readable : binding.depth.isSome = true) (named : binding.name ≠ "") (ordinary : Role.ofName binding.name = .ordinary) :
    ∃ isCaptured, shape.slots[i]? = some ⟨.value, isCaptured⟩ := by
  obtain ⟨⟨content, isCaptured⟩, slot_at, role, copies, -⟩ := suits.fits.named i binding found readable named
  rcases suits.settled.slots _ (List.mem_of_getElem? slot_at) with value | other | ⟨-, proto, function⟩
  · cases value
    exact ⟨isCaptured, slot_at⟩
  · exact absurd (role.trans ordinary) other
  · simp_all [Content.copy?]

/-- The code between two states turns `taken` intermediate values into `left` others. -/
structure Turns (loose : Bool) (before after : Compilation) (taken left : Nat) : Prop extends Phrase before after where
  segment : ∀ context shape, Holds context after before.offset after.offset → Suits loose after.scope.locals shape →
    Segment context before.offset after.offset (shape.pushes taken) (shape.pushes left)

namespace Turns

variable {first second third : Compilation} {a b c : Nat}

theorem refl (ready : Ready state) : Turns loose state state a a :=
  ⟨.refl ready, fun _ _ _ _ => .refl _ _ _⟩

theorem trans (one : Turns loose first second a b) (two : Turns loose second third b c) :
    Turns loose first third a c := by
  refine ⟨one.toPhrase.trans two.toPhrase, fun context shape holds suits => ?_⟩
  have lower := one.later.offset
  have upper := two.later.offset
  have earlier := (holds.narrow (Nat.le_refl _) upper).earlier two.later one.ready.sound (Nat.le_refl _)
  exact (one.segment context shape earlier (suits.earlier two.later.locals two.size)).trans
    (two.segment context shape (holds.narrow lower (Nat.le_refl _)) suits)

theorem loosen (turns : Turns true first second a b) : Turns loose first second a b :=
  ⟨turns.toPhrase, fun context shape holds suits => turns.segment context shape holds suits.loosen⟩

theorem raise (turns : Turns true first second a b) (count : Nat) : Turns true first second (count + a) (count + b) := by
  refine ⟨turns.toPhrase, fun context shape holds suits => ?_⟩
  rw [← Shape.pushes_pushes, ← Shape.pushes_pushes]
  exact turns.segment context _ holds (suits.pushes count)

end Turns

/-- Something known of a compilation that stays known over phrases. -/
structure Fact where
  holds : Compilation → Prop
  stable : ∀ {before after : Compilation}, Phrase before after → holds before → holds after

namespace Fact

def none : Fact := ⟨fun _ => True, fun _ => id⟩

def and (first second : Fact) : Fact :=
  ⟨fun state => first.holds state ∧ second.holds state, fun phrase => And.imp (first.stable phrase) (second.stable phrase)⟩

def Implies (stronger weaker : Fact) : Prop :=
  ∀ state, stronger.holds state → weaker.holds state

def names (entry : Nat) (text : String) : Fact :=
  ⟨fun state => state.scope.chunk.Names entry text ∧ entry ≤ maxOperand,
    fun phrase => And.imp_left (phrase.later.tables.strings entry text)⟩

end Fact

namespace Parse

variable {α β : Type} {next : α → Parse β} {result : β} {between : Compilation} {value : α} {change : Compilation → Compilation}
  {relation : Compilation → Compilation → Prop}

/-- The action, where it succeeds and no complaint is noted after it, had none noted before, and relates the states. -/
def Ensures (action : Parse α) (relation : Compilation → α → Compilation → Prop) : Prop :=
  ∀ before value after, action before = .ok value after → after.errors = #[] →
    before.errors = #[] ∧ relation before value after

theorem bind_ok {action : Parse α} (done : (action >>= next) before = .ok result after) :
    ∃ value between, action before = .ok value between ∧ next value between = .ok result after := by
  change EStateM.bind action next before = _ at done
  unfold EStateM.bind at done
  split at done
  · next value between first => exact ⟨value, between, first, done⟩
  · cases done

theorem bind_intro {action : Parse α}
    (first : action before = .ok value between) (second : next value between = .ok result after) :
    (action >>= next) before = .ok result after := by
  change EStateM.bind action next before = _
  rw [EStateM.bind, first]
  exact second

theorem bind_eq {action : Parse α}
    (first : action before = .ok value between) : (action >>= next) before = next value between := by
  change EStateM.bind action next before = _
  rw [EStateM.bind, first]

theorem read_ok {view : Compilation → α} (done : (read view >>= next) before = .ok result after) :
    next (view before) before = .ok result after :=
  done

theorem update_bind_ok {next : Unit → Parse β}
    (done : (update change >>= next) before = .ok result after) : next () (change before) = .ok result after :=
  done

theorem update_ok {result : Unit} (done : update change before = .ok result after) :
    after = change before := by
  cases done
  rfl

theorem Ensures.bind {action : Parse α} {first : Compilation → α → Compilation → Prop}
    {second : α → Compilation → β → Compilation → Prop} (one : action.Ensures first)
    (two : ∀ value, (next value).Ensures (second value)) :
    (action >>= next).Ensures fun before result after =>
      ∃ value between, first before value between ∧ second value between result after := by
  intro before result after done clean
  obtain ⟨value, between, done, done'⟩ := bind_ok done
  obtain ⟨clean, related'⟩ := two value between result after done' clean
  obtain ⟨clean, related⟩ := one before value between done clean
  exact ⟨clean, value, between, related, related'⟩

theorem Ensures.mono {action : Parse α} {first second : Compilation → α → Compilation → Prop}
    (ensures : action.Ensures first) (weaker : ∀ before value after, first before value after → second before value after) :
    action.Ensures second := by
  intro before value after done clean
  obtain ⟨clean, related⟩ := ensures before value after done clean
  exact ⟨clean, weaker _ _ _ related⟩

theorem Ensures.repeatUpTo
    (step : again.Ensures fun before _ after => relation before after) (refl : ∀ state, relation state state)
    (trans : ∀ {first second third}, relation first second → relation second third → relation first third) (bound : Nat) :
    (repeatUpTo again bound).Ensures fun before _ after => relation before after := by
  induction bound with
  | zero =>
    intro before _ after done clean
    cases done
    exact ⟨clean, refl _⟩
  | succ bound ih =>
    intro before _ after done clean
    obtain ⟨more, between, once, done⟩ := bind_ok done
    cases more with
    | false =>
      cases done
      exact step _ _ _ once clean
    | true =>
      obtain ⟨clean, rest⟩ := ih _ _ _ done clean
      obtain ⟨clean, first⟩ := step _ _ _ once clean
      exact ⟨clean, trans first rest⟩

theorem Ensures.whileProgress
    (step : again.Ensures fun before _ after => relation before after) (refl : ∀ state, relation state state)
    (trans : ∀ {first second third}, relation first second → relation second third → relation first third) :
    (whileProgress again).Ensures fun before _ after => relation before after := by
  intro before _ after done clean
  exact Ensures.repeatUpTo step refl trans _ _ _ _ (read_ok done) clean

end Parse

open Parse

/-- The action compiles a phrase that turns `taken` intermediate values into `left` others, given a fact. -/
def Turning {α : Type} (loose : Bool) (fact : Fact) (action : Parse α) (taken left : Nat) : Prop :=
  action.Ensures fun before _ after => Ready before → fact.holds before → Turns loose before after taken left

namespace Turning

variable {α β : Type} {fact : Fact} {action : Parse α} {next : α → Parse β} {a b c : Nat}

theorem bind (first : Turning loose fact action a b) (second : ∀ value, Turning loose fact (next value) b c) :
    Turning loose fact (action >>= next) a c := by
  refine (Ensures.bind first second).mono ?_
  rintro before result after ⟨value, between, one, two⟩ ready known
  have turns := one ready known
  exact turns.trans (two turns.ready (fact.stable turns.toPhrase known))

theorem pure (value : α) : Turning loose fact (pure value) a a := by
  intro before result after done clean
  cases done
  exact ⟨clean, fun ready _ => .refl ready⟩

theorem loosen (turning : Turning true fact action a b) : Turning loose fact action a b :=
  turning.mono fun _ _ _ turns ready known => (turns ready known).loosen

theorem raise (turning : Turning true fact action a b) (count : Nat) :
    Turning true fact action (count + a) (count + b) :=
  turning.mono fun _ _ _ turns ready known => (turns ready known).raise count

theorem known {stronger : Fact} (turning : Turning loose fact action a b)
    (implies : stronger.Implies fact) : Turning loose stronger action a b :=
  turning.mono fun _ _ _ turns ready known => turns ready (implies _ known)

theorem ite {condition : Prop} [Decidable condition] {other : Parse α} (yes : condition → Turning loose fact action a b)
    (no : ¬ condition → Turning loose fact other a b) :
    Turning loose fact (if condition then action else other) a b := by
  split
  · next holds => exact yes holds
  · next fails => exact no fails

theorem quiet (moves : ∀ before value after, action before = .ok value after →
      ∃ cursor : Cursor, cursor.tokens = before.cursor.tokens ∧ after = { before with cursor }) :
    Turning loose fact action a a := by
  intro before value after done clean
  obtain ⟨cursor, tokens, rfl⟩ := moves before value after done
  exact ⟨clean, fun ready _ => ⟨moved_phrase ready tokens, fun _ _ _ _ => .refl _ _ _⟩⟩

theorem failed (fails : ∀ before value after, action before ≠ .ok value after) : Turning loose fact action a b :=
  fun before value after done => absurd done (fails before value after)

end Turning

theorem advance_tokens (cursor : Cursor) : cursor.advance.tokens = cursor.tokens := by
  unfold Cursor.advance
  split <;> rfl

section Rules

variable {α : Type} {fact : Fact} {a b c : Nat} {given : Bool} {phrase : StackScript.Phrase} {body : Parse Unit} {op : Opcode}
  {text : String}

theorem read_turning (view : Compilation → α) : Turning loose fact (read view) a a :=
  .quiet fun before _ _ done => by cases done; exact ⟨before.cursor, rfl, rfl⟩

theorem advance_turning : Turning loose fact advance a a :=
  .quiet fun before _ _ done => by cases done; exact ⟨_, advance_tokens _, rfl⟩

theorem accept_ok (done : accept kind before = .ok given after) :
    ∃ cursor : Cursor, cursor.tokens = before.cursor.tokens ∧ after = { before with cursor } := by
  unfold accept at done
  split at done <;> cases done
  · exact ⟨_, advance_tokens _, rfl⟩
  · exact ⟨before.cursor, rfl, rfl⟩

theorem accept_check (done : accept kind before = .ok given after) : given = before.cursor.check kind := by
  unfold accept at done
  split at done
  · next found =>
    cases done
    exact found.symm
  · next other =>
    cases done
    exact (eq_false_of_ne_true other).symm

theorem accept_false (done : accept kind before = .ok false after) : after = before := by
  unfold accept at done
  split at done <;> cases done
  rfl

theorem accept_true (done : accept kind before = .ok true after) :
    before.cursor.peek.kind = kind ∧ after = { before with cursor := before.cursor.advance } := by
  unfold accept at done
  split at done
  · next found =>
    cases done
    exact ⟨by simpa [Cursor.check] using found, rfl⟩
  · cases done

theorem accept_bind {β : Type} (kind : Kind) (next : Bool → Parse β) (state : Compilation) :
    (accept kind >>= next) state =
      if state.cursor.peek.kind = kind then next true { state with cursor := state.cursor.advance } else next false state := by
  by_cases found : state.cursor.peek.kind = kind
  · rw [if_pos found]
    exact bind_eq (by rw [accept, if_pos (by simpa [Cursor.check] using found)])
  · rw [if_neg found]
    exact bind_eq (by rw [accept, if_neg (by simpa [Cursor.check] using found)])

theorem accept_turning (kind : Kind) : Turning loose fact (accept kind) a a :=
  .quiet fun _ _ _ => accept_ok

theorem expect_ok {what : Expectation} (done : expect kind what before = .ok () after) :
    before.cursor.peek.kind = kind ∧ after = { before with cursor := before.cursor.advance } := by
  by_cases found : before.cursor.check kind = true
  · simp only [expect, Cursor.expect, found, if_true] at done
    cases done
    exact ⟨by simpa [Cursor.check] using found, rfl⟩
  · simp only [expect, Cursor.expect, found, Bool.false_eq_true, if_false] at done
    cases done

theorem expect_turning (kind : Kind) (what : Expectation) : Turning loose fact (expect kind what) a a :=
  .quiet fun _ _ _ done => ⟨_, advance_tokens _, (expect_ok done).2⟩

theorem failHere_turning (complaint : Complaint) : Turning loose fact (failHere (α := α) complaint) a b :=
  .failed nofun

theorem failBehind_turning (complaint : Complaint) : Turning loose fact (failBehind (α := α) complaint) a b :=
  .failed nofun

theorem nested_ok (done : nested phrase body before = .ok () after) :
    ∃ finished, body before.deeper = .ok () finished ∧ after = finished.shallower := by
  unfold nested at done
  split at done
  · cases done
  · split at done
    · next finished compiled =>
      cases done
      exact ⟨finished, compiled, rfl⟩
    · cases done

theorem deeper_phrase (ready : Ready state) : Phrase state state.deeper :=
  ⟨⟨rfl, widened_refl _, .refl _, .refl _, .refl _, Nat.le_refl _, fun _ _ => rfl, rfl⟩,
    ⟨ready.names, ready.sound, ready.supers, ready.tables⟩, rfl, rfl, rfl, rfl, rfl⟩

theorem shallower_phrase (ready : Ready state) : Phrase state state.shallower :=
  ⟨⟨rfl, widened_refl _, .refl _, .refl _, .refl _, Nat.le_refl _, fun _ _ => rfl, rfl⟩,
    ⟨ready.names, ready.sound, ready.supers, ready.tables⟩, rfl, rfl, rfl, rfl, rfl⟩

theorem nested_turning (turning : Turning loose fact body a b) :
    Turning loose fact (nested phrase body) a b := by
  intro before _ after done clean
  obtain ⟨finished, compiled, rfl⟩ := nested_ok done
  obtain ⟨clean, turns⟩ := turning _ _ _ compiled clean
  refine ⟨clean, fun ready known => ?_⟩
  have enters := deeper_phrase ready
  have turns := turns enters.ready (fact.stable enters known)
  have leaves := shallower_phrase turns.ready
  refine ⟨(enters.trans turns.toPhrase).trans leaves, fun context shape holds suits => ?_⟩
  exact turns.segment context shape (holds.earlier leaves.later turns.ready.sound (Nat.le_refl _)) suits

theorem whileProgress_turning (turning : Turning loose fact again a a) : Turning loose fact (whileProgress again) a a := by
  refine Ensures.whileProgress turning (fun _ ready _ => .refl ready) fun one two ready known => ?_
  have turns := one ready known
  exact turns.trans (two turns.ready (fact.stable turns.toPhrase known))

theorem emitBytes_turning {action : Parse α} (bytes : List UInt8)
    (emits : ∀ state, ∃ value, action state = .ok value (emitBytes state bytes))
    (accepts : ∀ state context shape place, Ready state → fact.holds state → Covers context state →
      Suits true state.scope.locals shape →
      (∀ i byte, bytes[i]? = some byte → context.chunk.code[place + i]? = some byte) →
      Accepts context (.at (place + bytes.length) (shape.pushes b)) place (place + bytes.length) (shape.pushes a)) :
    Turning loose fact action a b := by
  intro before value after done clean
  obtain ⟨result, emitted⟩ := emits before
  cases emitted.symm.trans done
  refine ⟨emitBytes_errors before bytes ▸ clean, fun ready known => ?_⟩
  have phrase := emitBytes_phrase ready bytes
  refine ⟨phrase, fun context shape holds suits => .inr ?_⟩
  rw [emitBytes_offset] at holds ⊢
  refine Block.single (accepts _ context shape _ phrase.ready (fact.stable phrase known) holds.toCovers suits.loosen ?_)
  intro i byte found
  exact holds.emitted (Nat.le_refl _) (Nat.le_refl _) found

theorem emit_turning
    (accepts : ∀ context (shape : Shape) place, context.chunk.OpAt place op → shape.slots ≠ [] → shape.Settled →
      Accepts context (.at (place + 1) (shape.pushes b)) place (place + 1) (shape.pushes a)) :
    Turning loose fact (emit op) a b := by
  refine emitBytes_turning [op.toByte] (fun _ => ⟨_, rfl⟩) ?_
  intro state context shape place _ _ _ suits bytes
  exact accepts context shape place (bytes 0 _ rfl) suits.fits.grounded suits.settled

theorem emitWith_turning {operand : Nat}
    (small : ∀ state, Ready state → fact.holds state → operand ≤ maxOperand)
    (accepts : ∀ state context shape place, fact.holds state → Covers context state →
      Suits true state.scope.locals shape → context.chunk.OpAt place op →
      context.chunk.operand? (place + 1) = some operand →
      Accepts context (.at (place + 3) (shape.pushes b)) place (place + 3) (shape.pushes a)) :
    Turning loose fact (emitWith op operand) a b := by
  refine emitBytes_turning (bytesWith op operand) (fun _ => ⟨_, rfl⟩) ?_
  intro state context shape place ready known covers suits bytes
  exact accepts state context shape place known covers suits (bytes 0 _ rfl)
    (operand?_of_bytes (small state ready known) (bytes 1 _ rfl) (bytes 2 _ rfl))

theorem makeString_ok {entry : Nat} (made : makeString text before = .ok entry after) :
    Chunk.isStorable text = true ∧ entry = before.scope.chunk.strings.size ∧ entry ≤ maxOperand ∧
      after = { before with scope := { before.scope with chunk := before.scope.chunk.addString text } } := by
  rw [makeString_eq] at made
  split at made
  · next storable =>
    obtain ⟨_, _, size, made⟩ := bind_ok made
    cases size
    obtain ⟨_, _, added, made⟩ := bind_ok made
    cases added
    split at made
    · cases made
    · cases made
      exact ⟨storable, rfl, by omega, rfl⟩
  · cases made

theorem makeConstant_ok {value : Value} {index : Nat} (made : makeConstant value before = .ok index after) :
    index = before.scope.chunk.constants.size ∧ index ≤ maxConstantIndex ∧
      after = { before with scope := { before.scope with chunk := before.scope.chunk.addConstant value } } := by
  obtain ⟨_, _, size, made⟩ := bind_ok made
  cases size
  obtain ⟨_, _, added, made⟩ := bind_ok made
  cases added
  split at made
  · cases made
  · cases made
    exact ⟨rfl, by omega, rfl⟩

theorem makeString_bind {next : Nat → Parse α}
    (turning : ∀ entry, Turning loose (fact.and (.names entry text)) (next entry) a b) :
    Turning loose fact (makeString text >>= next) a b := by
  intro before value after done clean
  obtain ⟨entry, between, made, done⟩ := bind_ok done
  obtain ⟨storable, entry_eq, small, rfl⟩ := makeString_ok made
  obtain ⟨clean, turns⟩ := turning entry _ value after done clean
  refine ⟨clean, fun ready known => ?_⟩
  have phrase := addString_phrase ready storable
  have named : Chunk.Names (before.scope.chunk.addString text) entry text := by
    rw [entry_eq]
    exact Chunk.names_addString ready.tables.ended storable
  have turns := turns phrase.ready ⟨fact.stable phrase known, named, small⟩
  exact ⟨phrase.trans turns.toPhrase, turns.segment⟩

end Rules

end Compile

end StackScript
