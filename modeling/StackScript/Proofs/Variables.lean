import StackScript.Compile.Expression
import StackScript.Proofs.Phrases

/-!
Variables in code. A name that is resolved refers to a slot of its function, to a captured variable or to a global, and
it keeps referring to that over the phrases that follow. Reading a variable pushes a value, or the class that the
variable is known to hold.
-/

namespace StackScript

variable {name : String} {content : Content}

theorem Shape.push_within (shape : Shape) (isValue : content.Within .value) :
    (shape.push ⟨content, false⟩).Within (shape.pushes 1) :=
  ⟨List.rel_append (slots_within_refl _) (.cons ⟨isValue, id⟩ .nil), .inr rfl⟩

theorem Content.copy?_within {copied : Content} (copies : content.copy? = some copied) : copied.Within .value := by
  cases content with
  | value | closure | self => cases copies; exact .refl _
  | superclass | parent => cases copies; exact .parent
  | «class» => cases copies; exact .class
  | function => cases copies
  | receiver => cases copies; exact .self _

theorem Role.copy_within (role : Role) : role.copy.Within .value := by
  cases role with
  | superclass => exact .parent
  | ordinary | receiver => exact .refl _

namespace Compile

open Parse

variable {before after : Compilation} {access : Access}

namespace Parse.Access

def getter : Access → Opcode
  | .local _ => .getLocal
  | .upvalue _ => .getUpvalue
  | .global _ => .getGlobal

def setter : Access → Opcode
  | .local _ => .setLocal
  | .upvalue _ => .setUpvalue
  | .global _ => .setGlobal

def operand : Access → Nat
  | .local slot => slot
  | .upvalue index => index
  | .global entry => entry

end Parse.Access

theorem namedVariable_eq (expression : Parse Unit) (name : String) (canAssign : Bool) :
    namedVariable expression name canAssign = (do
      let access ← resolve name
      if ← pure canAssign <&&> accept .equal then
        expression
        emitWith access.setter access.operand
      else
        emitWith access.getter access.operand) := by
  unfold namedVariable
  congr 1
  funext access
  cases access <;> rfl

def Reaches (state : Compilation) (name : String) : Access → Prop
  | .local slot => state.scope.Binds name slot
  | .upvalue index => (∃ capture, state.scope.captures[index]? = some capture ∧
      Tagged state.enclosing capture (.ofName name)) ∧ ¬ state.scope.Declares name ∧
      ∃ scope ∈ state.enclosing, scope.Declares name
  | .global entry => state.scope.chunk.Names entry name ∧ entry ≤ maxOperand ∧
      ¬ state.scope.Declares name ∧ ¬ ∃ scope ∈ state.enclosing, scope.Declares name

def Fact.reaches (name : String) (access : Access) : Fact where
  holds state := Reaches state name access
  stable {before after} phrase reached := by
    cases access with
    | «local» slot => exact FunctionScope.Binds.kept phrase.later.locals phrase.size reached
    | upvalue index =>
      obtain ⟨⟨capture, found, tagged⟩, own, around⟩ := reached
      refine ⟨⟨capture, phrase.later.captures _ _ found, tagged.widened phrase.later.enclosing⟩, ?_, ?_⟩
      · rwa [FunctionScope.declares_kept phrase.later.locals phrase.size]
      · rwa [declares_widened phrase.later.enclosing]
    | global entry =>
      obtain ⟨named, small, own, around⟩ := reached
      refine ⟨phrase.later.tables.strings _ _ named, small, ?_, ?_⟩
      · rwa [FunctionScope.declares_kept phrase.later.locals phrase.size]
      · rwa [declares_widened phrase.later.enclosing]

def Fact.hasSuper : Fact where
  holds state := state.scope.Declares "super" ∨ ∃ scope ∈ state.enclosing, scope.Declares "super"
  stable {before after} phrase declared := by
    rwa [FunctionScope.declares_kept phrase.later.locals phrase.size, declares_widened phrase.later.enclosing]

theorem resolveCapture_ok {index : Option Nat} (ready : Ready before) (named : name ≠ "")
    (done : resolveCapture name before = .ok index after) : Phrase before after ∧ after.offset = before.offset ∧
      (after.scope.Declares name ↔ before.scope.Declares name) ∧
      (∀ found, index = some found → (∃ capture, after.scope.captures[found]? = some capture ∧
        Tagged after.enclosing capture (.ofName name)) ∧ ∃ scope ∈ after.enclosing, scope.Declares name) ∧
      (index = none → ¬ ∃ scope ∈ after.enclosing, scope.Declares name) := by
  simp only [resolveCapture] at done
  split at done
  · next found =>
    cases done
    obtain ⟨threaded, meaning⟩ := thread_ok named ready.sound found
    obtain ⟨captures, inner_eq, extended⟩ := threaded.inner
    have phrase : Phrase before { before with
        scope := (thread name before.scope before.enclosing).inner
        enclosing := (thread name before.scope before.enclosing).outers } := by
      refine ⟨⟨rfl, threaded.outers, ?_, ?_, ?_, ?_, ?_, ?_⟩,
        ⟨ready.names, threaded.sound, ?_, by rw [inner_eq]; exact ready.tables⟩, rfl, ?_, ?_, ?_, ?_⟩
      case refine_7 =>
        simp only [declares_widened threaded.outers, inner_eq]
        exact ready.supers
      all_goals simp only [Compilation.offset, inner_eq]
      · exact .refl _
      · exact extended
      · exact .refl _
      · exact Nat.le_refl _
      · exact fun _ _ => trivial
    refine ⟨phrase, by simp only [Compilation.offset, inner_eq], by simp only [inner_eq]; rfl, ?_, ?_⟩
    · rintro found rfl
      rw [declares_widened threaded.outers]
      exact meaning
    · rintro rfl
      rw [declares_widened threaded.outers]
      exact meaning
  · cases done

theorem resolveCapture_errors {index : Option Nat} (done : resolveCapture name before = .ok index after) :
    after.errors = before.errors := by
  simp only [resolveCapture] at done
  split at done <;> cases done
  rfl

theorem resolve_errors (done : resolve name before = .ok access after) : after.errors = before.errors := by
  have done := read_ok done
  cases bound : before.scope.slotOf? name with
  | error complaint =>
    simp only [bound] at done
    cases done
  | ok slot =>
    simp only [bound] at done
    cases slot with
    | some slot =>
      cases done
      rfl
    | none =>
      obtain ⟨index, between, captured, done⟩ := bind_ok done
      rw [← resolveCapture_errors captured]
      cases index with
      | some index =>
        cases done
        rfl
      | none =>
        obtain ⟨entry, _, made, done⟩ := bind_ok done
        cases done
        obtain ⟨-, -, -, rfl⟩ := makeString_ok made
        rfl

theorem resolve_ok (ready : Ready before) (named : name ≠ "") (done : resolve name before = .ok access after) :
    Phrase before after ∧ after.offset = before.offset ∧ Reaches after name access := by
  have done := read_ok done
  cases bound : before.scope.slotOf? name with
  | error complaint =>
    simp only [bound] at done
    cases done
  | ok slot =>
    simp only [bound] at done
    cases slot with
    | some slot =>
      cases done
      exact ⟨.refl ready, rfl, FunctionScope.binds_of_slotOf? bound⟩
    | none =>
      have own := FunctionScope.not_declares_of_slotOf? bound
      obtain ⟨index, between, captured, done⟩ := bind_ok done
      obtain ⟨phrase, offset, same, reached, missing⟩ := resolveCapture_ok ready named captured
      cases index with
      | some index =>
        cases done
        obtain ⟨captured, around⟩ := reached index rfl
        exact ⟨phrase, offset, captured, fun declared => own (same.mp declared), around⟩
      | none =>
        obtain ⟨entry, _, made, done⟩ := bind_ok done
        cases done
        obtain ⟨storable, rfl, small, rfl⟩ := makeString_ok made
        exact ⟨phrase.trans (addString_phrase phrase.ready storable), offset,
          Chunk.names_addString phrase.ready.tables.ended storable, small,
          fun declared => own (same.mp declared), missing rfl⟩

theorem Reaches.operand_le {state : Compilation} (ready : Ready state) (reached : Reaches state name access) :
    access.operand ≤ maxOperand := by
  obtain ⟨few_locals, few_captures, -⟩ := ready.sound
  simp only [maxLocals, maxCaptures] at few_locals few_captures
  cases access with
  | «local» slot =>
    obtain ⟨binding, found, -⟩ := reached.found
    have := (Array.getElem?_eq_some_iff.mp found).1
    simp only [Access.operand, maxOperand]
    omega
  | upvalue index =>
    obtain ⟨⟨capture, found, -⟩, -⟩ := reached
    have := (Array.getElem?_eq_some_iff.mp found).1
    simp only [Access.operand, maxOperand]
    omega
  | global entry => exact reached.2.1

def Gives (name : String) (shape : Shape) (content : Content) : Access → Prop
  | .local index => ∃ slot, shape.slots[index]? = some slot ∧ slot.content.copy? = some content
  | .upvalue _ => content = (Role.ofName name).copy
  | .global _ => content = .value ∨ content = .class ∧ shape.known = some name

section Accepts

variable {state : Compilation} {context : Context} {shape : Shape} {place : Nat}

theorem Covers.tag (covers : Covers context state) {index : Nat} (reached : Reaches state name (.upvalue index)) :
    context.upvalues[index]? = some (.ofName name) := by
  obtain ⟨⟨capture, found, tagged⟩, -⟩ := reached
  obtain ⟨role, tag_at, tagged'⟩ := covers.upvalue index capture found
  cases tagged.unique tagged'
  exact tag_at

theorem getter_accepts {reach : Points} (covers : Covers context state) (reached : Reaches state name access)
    (gives : Gives name shape content access) (op_at : context.chunk.OpAt place access.getter)
    (operand : context.chunk.operand? (place + 1) = some access.operand) (goes : reach (place + 3) (shape.push ⟨content, false⟩)) :
    Accepts context reach place (place + 3) shape := by
  cases access with
  | «local» index =>
    obtain ⟨slot, found, copies⟩ := gives
    exact .getLocal op_at operand found copies goes
  | upvalue index =>
    cases gives
    exact .getUpvalue op_at operand (covers.tag reached) goes
  | global entry => exact .getGlobal op_at operand (covers.tables.strings _ _ reached.1) gives goes

theorem gives_value (named : name ≠ "") (fits : Fits state.scope.locals shape.slots)
    (reached : Reaches state name access) : ∃ content : Content, content.Within .value ∧ Gives name shape content access := by
  cases access with
  | «local» index =>
    obtain ⟨binding, found, rfl, readable⟩ := reached.found
    obtain ⟨slot, slot_at, -, copies, -⟩ := fits.named index binding found readable named
    obtain ⟨content, copied⟩ := Option.isSome_iff_exists.mp copies
    exact ⟨content, Content.copy?_within copied, slot, slot_at, copied⟩
  | upvalue index => exact ⟨_, Role.copy_within _, rfl⟩
  | global entry => exact ⟨.value, .refl _, .inl rfl⟩

theorem setter_accepts (named : name ≠ "") (ordinary : Role.ofName name = .ordinary) (covers : Covers context state)
    (suits : Suits true state.scope.locals shape) (reached : Reaches state name access)
    (op_at : context.chunk.OpAt place access.setter)
    (operand : context.chunk.operand? (place + 1) = some access.operand) :
    Accepts context (.at (place + 3) (shape.pushes 1)) place (place + 3) (shape.pushes 1) := by
  cases access with
  | «local» index =>
    obtain ⟨binding, found, rfl, readable⟩ := reached.found
    obtain ⟨isCaptured, slot_at⟩ := suits.slot_value found readable named ordinary
    exact .setLocal op_at operand slot_at ⟨rfl, .refl _⟩
  | upvalue index =>
    exact .setUpvalue op_at operand ((covers.tag reached).trans (congrArg some ordinary)) (suits.settled.pushes 1)
      ⟨rfl, .refl _⟩
  | global entry =>
    rcases shape with ⟨slots, known⟩
    cases suits.settled.known
    exact .setGlobal op_at operand (covers.tables.strings _ _ reached.1) ⟨rfl, .refl _⟩

end Accepts

section Rules

variable {α : Type} {loose : Bool} {fact : Fact} {a b : Nat}

theorem Turns.after_silent {first second third : Compilation} (phrase : Phrase first second)
    (silent : second.offset = first.offset) (turns : Turns loose second third a b) : Turns loose first third a b := by
  refine ⟨phrase.trans turns.toPhrase, ?_⟩
  rw [← silent]
  exact turns.segment

section

variable (named : ∀ state, fact.holds state → name ≠ "")
include named

theorem resolve_bind {next : Access → Parse α}
    (turning : ∀ access, Turning loose (fact.and (.reaches name access)) (next access) a b) :
    Turning loose fact (resolve name >>= next) a b := by
  intro before value after done clean
  obtain ⟨access, between, resolved, done⟩ := bind_ok done
  obtain ⟨clean, turns⟩ := turning access between value after done clean
  refine ⟨resolve_errors resolved ▸ clean, fun ready known => ?_⟩
  obtain ⟨phrase, silent, reached⟩ := resolve_ok ready (named _ known) resolved
  exact .after_silent phrase silent (turns phrase.ready ⟨fact.stable phrase known, reached⟩)

omit named in
theorem acceptIf_bind {allowed : Bool} {kind : Kind} {next : Bool → Parse α}
    (yes : allowed = true → Turning loose fact (next true) a b) (no : Turning loose fact (next false) a b) :
    Turning loose fact ((pure allowed <&&> accept kind) >>= next) a b := by
  cases allowed with
  | false => exact no
  | true =>
    refine (accept_turning kind).bind fun accepted => ?_
    cases accepted
    · exact no
    · exact yes rfl

theorem getter_turning :
    Turning true (fact.and (.reaches name access)) (emitWith access.getter access.operand) 0 1 := by
  refine emitWith_turning (fun _ ready known => Reaches.operand_le ready known.2) ?_
  intro state context shape place known covers suits op_at operand
  obtain ⟨content, isValue, gives⟩ := gives_value (named _ known.1) suits.fits known.2
  rw [Shape.pushes_zero]
  exact getter_accepts covers known.2 gives op_at operand ⟨rfl, shape.push_within isValue⟩

theorem setter_turning (ordinary : ∀ state, fact.holds state → Role.ofName name = .ordinary) :
    Turning true (fact.and (.reaches name access)) (emitWith access.setter access.operand) 1 1 := by
  refine emitWith_turning (fun _ ready known => Reaches.operand_le ready known.2) ?_
  intro state context shape place known covers suits op_at operand
  exact setter_accepts (named _ known.1) (ordinary _ known.1) covers suits known.2 op_at operand

theorem namedVariable_turning {expression : Parse Unit} {canAssign : Bool}
    (assigned : canAssign = true → Turning true .none expression 0 1 ∧ ∀ state, fact.holds state → Role.ofName name = .ordinary) :
    Turning true fact (namedVariable expression name canAssign) 0 1 := by
  rw [namedVariable_eq]
  refine resolve_bind named fun access => acceptIf_bind (fun allowed => ?_) (getter_turning named)
  obtain ⟨inner, ordinary⟩ := assigned allowed
  exact (inner.known fun _ _ => trivial).bind fun _ => setter_turning named ordinary

theorem readVariable_turning :
    Turning true fact (readVariable name) 0 1 :=
  namedVariable_turning named nofun

end

theorem readVariable_ok (done : readVariable name before = .ok () after) :
    ∃ access between, resolve name before = .ok access between ∧
      after = emitBytes between (bytesWith access.getter access.operand) := by
  rw [readVariable, namedVariable_eq] at done
  obtain ⟨access, between, resolved, done⟩ := bind_ok done
  obtain ⟨accepted, between', none, done⟩ := bind_ok done
  cases none
  cases done
  exact ⟨access, between, resolved, rfl⟩

theorem readVariable_errors (done : readVariable name before = .ok () after) : after.errors = before.errors := by
  obtain ⟨access, between, resolved, rfl⟩ := readVariable_ok done
  rw [emitBytes_errors, resolve_errors resolved]

theorem readVariable_reads (ready : Ready before) (named : name ≠ "") (done : readVariable name before = .ok () after) :
    ∃ access, Phrase before after ∧ Reaches after name access ∧
      ∀ context shape content result, Holds context after before.offset after.offset →
        Gives name shape content access → content.Within result →
        Segment context before.offset after.offset shape (shape.push ⟨result, false⟩) := by
  obtain ⟨access, between, resolved, rfl⟩ := readVariable_ok done
  obtain ⟨phrase, silent, reached⟩ := resolve_ok ready named resolved
  have emitted := emitBytes_phrase phrase.ready (bytesWith access.getter access.operand)
  have reached' := (Fact.reaches name access).stable emitted reached
  refine ⟨access, phrase.trans emitted, reached', fun context shape content result holds gives less => .inr ?_⟩
  rw [emitBytes_offset, ← silent] at holds ⊢
  have byte {i : Nat} {byte : UInt8} := @Holds.emitted between context _ _ _ holds (Nat.le_refl _) (Nat.le_refl _) i byte
  refine Block.single ?_
  exact getter_accepts holds.toCovers reached' gives (byte (i := 0) rfl)
    (operand?_of_bytes (Reaches.operand_le phrase.ready reached) (byte (i := 1) rfl) (byte (i := 2) rfl))
    ⟨rfl, List.rel_append (Shape.slots_within_refl _) (.cons ⟨less, id⟩ .nil), .inr rfl⟩

end Rules

end Compile

end StackScript
