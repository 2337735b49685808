import StackScript.Proofs.Declarations

/-!
Functions. The code of a function is verified on its own, for whatever its captures refer to; where it is closed over,
each capture refers to a slot or an upvalue of the function around, which is tagged in the same way.
-/

namespace StackScript.Compile

open Parse

variable {state : Compilation} {capture : Capture}

/-- The body of a function has been compiled: the functions around it are wider, and its code is verified. -/
structure Body (before after : Compilation) : Prop where
  tokens : after.cursor.tokens = before.cursor.tokens
  classes : after.classes = before.classes
  enclosing : List.Forall₂ FunctionScope.Widened before.enclosing after.enclosing
  sound : Sound (after.scope :: after.enclosing)
  verified : ∀ tags, List.Forall₂ (Tagged after.enclosing) after.scope.captures.toList tags →
    Verified after.scope.finish before.scope.kind.manner tags
  done : Sealed after.scope.finish

def Bodied (body : Parse Unit) : Prop :=
  body.Ensures fun before _ after => Ready before →
    (∃ kind name, kind ≠ FunctionKind.script ∧ before.scope = .enter kind name) → Body before after

/-- A closure is left on the stack. Where a variable of that slot captures itself, the slot may be captured. -/
structure Closes (manner : Manner) (before after : Compilation) : Prop extends Phrase before after where
  segment : ∀ context kept result known, Holds context after before.offset after.offset → kept ≠ [] →
    Fits after.scope.locals (kept ++ [result]) → (Content.closure manner).Within result.content →
    Segment context before.offset after.offset ⟨kept, known⟩ ⟨kept ++ [result], known⟩
  closing : ∃ proto, after.scope.chunk.functions.back? = some proto ∧
    ∀ chunk, Bears chunk after before.offset after.offset → chunk.Closing before.offset proto after.offset

def captureBytes (capture : Capture) : List UInt8 :=
  [if capture.isLocal then 1 else 0, (Chunk.bytesOf capture.index).1, (Chunk.bytesOf capture.index).2]

theorem captureBytes_getElem? {captures : List Capture} {i j : Nat} (small : j < 3) (found : captures[i]? = some capture) :
    (captures.flatMap captureBytes)[3 * i + j]? = (captureBytes capture)[j]? := by
  induction captures generalizing i with
  | nil => cases found
  | cons first rest ih =>
    rw [List.flatMap_cons]
    cases i with
    | zero =>
      cases found
      rw [Nat.mul_zero, Nat.zero_add, List.getElem?_append_left (by simpa [captureBytes] using small)]
    | succ i =>
      rw [List.getElem?_append_right (by simp [captureBytes]; omega), ← ih found]
      congr 1
      simp only [captureBytes, List.length_cons, List.length_nil]
      omega

theorem captureBytes_length (captures : List Capture) : (captures.flatMap captureBytes).length = 3 * captures.length := by
  induction captures with
  | nil => rfl
  | cons first rest ih =>
    rw [List.flatMap_cons, List.length_append, ih, List.length_cons]
    simp only [captureBytes, List.length_cons, List.length_nil]
    omega

theorem exists_tags {outers : List FunctionScope} {captures : List Capture}
    (tagged : ∀ capture ∈ captures, ∃ role, Tagged outers capture role) :
    ∃ tags, List.Forall₂ (Tagged outers) captures tags := by
  induction captures with
  | nil => exact ⟨[], .nil⟩
  | cons first rest ih =>
    obtain ⟨tag, head⟩ := tagged first List.mem_cons_self
    obtain ⟨tags, tail⟩ := ih fun capture member => tagged capture (List.mem_cons_of_mem _ member)
    exact ⟨tag :: tags, .cons head tail⟩

theorem Tagged.captures {context : Context} {slots : List Slot} {role : Role}
    (tagged : Tagged (state.scope :: state.enclosing) capture role) (covers : Covers context state)
    (fits : Fits state.scope.locals slots) : Captures context slots capture role := by
  cases tagged with
  | slot found readable named captured =>
    obtain ⟨slot, slot_at, tag, copies, flagged⟩ := fits.named _ _ found readable named
    exact ⟨slot, slot_at, flagged captured, tag, copies⟩
  | upvalue found around =>
    obtain ⟨tag, tag_at, meant⟩ := covers.upvalue _ _ found
    cases meant.unique around
    exact tag_at

theorem Tagged.index_le {scope : FunctionScope} {outers : List FunctionScope} {role : Role}
    (tagged : Tagged (scope :: outers) capture role) (sound : Sound (scope :: outers)) : capture.index ≤ maxOperand := by
  obtain ⟨few_locals, few_captures, -⟩ := sound
  simp only [maxLocals, maxCaptures] at few_locals few_captures
  cases tagged with
  | slot found | upvalue found =>
    have := (Array.getElem?_eq_some_iff.mp found).1
    simp only [maxOperand]
    omega

def closureBytes (index : Nat) (proto : Proto) : List UInt8 :=
  bytesWith .function index ++ (bytesWith .closure proto.captures.size ++ proto.captures.toList.flatMap captureBytes)

theorem Bears.closing {chunk : Chunk Proto} {index start : Nat} {proto : Proto} (start_eq : start = state.offset)
    (found : state.scope.chunk.functions[index]? = some proto) (small : index ≤ maxOperand)
    (few : proto.captures.size ≤ maxCaptures) (near : ∀ capture ∈ proto.captures, capture.index ≤ maxOperand)
    (bears : Bears chunk (emitBytes state (closureBytes index proto)) start
      (emitBytes state (closureBytes index proto)).offset) :
    chunk.Closing start proto (emitBytes state (closureBytes index proto)).offset := by
  subst start_eq
  have few' : proto.captures.size ≤ maxOperand := Nat.le_trans few (by decide)
  have code {i : Nat} {byte : UInt8} (byte_at : (closureBytes index proto)[i]? = some byte) :
      chunk.code[state.offset + i]? = some byte :=
    bears.emitted (Nat.le_refl _) (Nat.le_of_eq (emitBytes_offset _ _).symm) byte_at
  have kept : chunk.functions[index]? = some proto :=
    bears.tables.functions _ _ ((congrArg (·[index]?) (emitBytes_functions _ _)).trans found)
  refine ⟨⟨code (i := 0) rfl, index, operand?_of_bytes small (code (i := 1) rfl) (code (i := 2) rfl), kept⟩,
    ⟨code (i := 3) rfl, operand?_of_bytes few' (code (i := 4) rfl) (code (i := 5) rfl), fun i capture at_ => ?_⟩, ?_⟩
  · have inline {j : Nat} {byte : UInt8} (small : j < 3) (byte_at : (captureBytes capture)[j]? = some byte) :
        chunk.code[state.offset + (3 * i + j + 6)]? = some byte :=
      code ((captureBytes_getElem? small (by simpa using at_)).trans byte_at)
    have here : state.offset + 3 + 3 + 3 * i = state.offset + (3 * i + 0 + 6) := by omega
    have next : state.offset + 3 + 4 + 3 * i = state.offset + (3 * i + 1 + 6) := by omega
    rw [here, next]
    exact ⟨inline (j := 0) (by decide) rfl, operand?_of_bytes (near _ (Array.mem_of_getElem? at_))
      (inline (j := 1) (by decide) rfl) (inline (j := 2) (by decide) rfl)⟩
  · rw [emitBytes_offset]
    simp only [closureBytes, List.length_append, captureBytes_length, Array.length_toList]
    simp only [bytesWith, List.length_cons, List.length_nil]
    omega

theorem closure_segment {context : Context} {kept : List Slot} {result : Slot} {known : Option String} {proto : Proto}
    {manner : Manner} {tags : List Role} {place stop : Nat} (covers : Covers context state) (grounded : kept ≠ [])
    (closing : context.chunk.Closing place proto stop)
    (tagged : List.Forall₂ (Tagged (state.scope :: state.enclosing)) proto.captures.toList tags)
    (verified : Verified proto manner tags) (fits : Fits state.scope.locals (kept ++ [result]))
    (made : (Content.closure manner).Within result.content) :
    Segment context place stop ⟨kept, known⟩ ⟨kept ++ [result], known⟩ := by
  obtain ⟨⟨op_at, index, operand, found⟩, made_at, rfl⟩ := closing
  have first : Block context place (place + 3) (.at place ⟨kept, known⟩)
      (.at (place + 3) ⟨kept ++ [⟨.function proto, false⟩], known⟩) :=
    .single (.function op_at operand found made_at ⟨rfl, .refl _⟩)
  have second : Block context (place + 3) (place + 3 + 3 + 3 * proto.captures.size)
      (.at (place + 3) ⟨kept ++ [⟨.function proto, false⟩], known⟩)
      (.at (place + 3 + 3 + 3 * proto.captures.size) ⟨kept ++ [result], known⟩) :=
    .single (.closure made_at grounded (tagged.imp fun _ _ tag => tag.captures covers fits)
      (covers.closes _ (Array.mem_of_getElem? found) manner tags verified) made ⟨rfl, .refl _⟩)
  exact .inr (first.seq second)

theorem emitCaptures_eq (state : Compilation) (captures : Array Capture) :
    captures.foldl (fun (state : Compilation) capture =>
      (state.emitByte (if capture.isLocal then 1 else 0)).emitOperand capture.index) state =
      emitBytes state (captures.toList.flatMap captureBytes) := by
  rw [← Array.foldl_toList]
  generalize captures.toList = captures
  induction captures generalizing state with
  | nil => rfl
  | cons first rest ih =>
    rw [List.flatMap_cons, emitBytes_append, List.foldl_cons, ih]
    rfl

theorem function_ok {body : Parse Unit} {kind : FunctionKind} {before after : Compilation}
    (done : function body kind before = .ok () after) :
    ∃ finished, body (before.openFunction kind before.cursor.previous.lexeme) = .ok () finished ∧
      let outer := finished.closeFunction
      let chunk := outer.scope.chunk.addFunction finished.scope.finish
      outer.scope.chunk.functions.size ≤ maxOperand ∧
        after = emitBytes { outer with scope := { outer.scope with chunk } }
          (closureBytes outer.scope.chunk.functions.size finished.scope.finish) := by
  simp only [function] at done
  split at done
  · cases done
  · next finished compiled =>
    split at done
    · cases done
    · next small =>
      cases done
      refine ⟨finished, compiled, Nat.le_of_not_gt small, ?_⟩
      rw [emitCaptures_eq, closureBytes, emitBytes_append, emitBytes_append]
      rfl

theorem closeFunction_errors (state : Compilation) : state.closeFunction.errors = state.errors := by
  unfold Compilation.closeFunction
  split <;> rfl

theorem Ready.openFunction (ready : Ready state) (kind : FunctionKind) (name : String) :
    Ready (state.openFunction kind name) := by
  refine ⟨ready.names, ⟨by simp [Compilation.openFunction, FunctionScope.enter, maxLocals], Nat.zero_le _, nofun,
    ready.sound⟩, fun head => .inr ?_, .first, nofun⟩
  rcases ready.supers head with own | ⟨scope, member, declared⟩
  · exact ⟨state.scope, List.mem_cons_self, own⟩
  · exact ⟨scope, List.mem_cons_of_mem _ member, declared⟩

theorem function_closes {body : Parse Unit} (bodied : Bodied body) {kind : FunctionKind} (notScript : kind ≠ .script) :
    (function body kind).Ensures fun before _ after => Ready before → Closes kind.manner before after := by
  intro before _ after done clean
  obtain ⟨finished, compiled, small, rfl⟩ := function_ok done
  rw [emitBytes_errors] at clean
  obtain ⟨clean, body⟩ := bodied _ _ _ compiled (closeFunction_errors finished ▸ clean)
  refine ⟨clean, fun ready => ?_⟩
  have body := body (ready.openFunction kind _) ⟨kind, _, notScript, rfl⟩
  obtain ⟨outer, further, widened, wider, enclosing⟩ := List.forall₂_cons_left_iff.mp body.enclosing
  have closed : finished.closeFunction = { finished with scope := outer, enclosing := further } := by
    simp only [Compilation.closeFunction, enclosing]
  have sound := body.sound
  rw [enclosing] at sound
  rw [closed] at small ⊢
  -- The scope of the function is gone. Of those around it only captures are new.
  have around : Phrase before { finished with scope := outer, enclosing := further } := by
    refine ⟨⟨body.tokens, wider, widened.locals, widened.captures, ?_, ?_, fun i _ => ?_, widened.kind⟩,
      ⟨?_, sound.2.2.2, fun head => ?_, widened.chunk ▸ ready.tables⟩, body.classes, widened.kind, widened.depth, widened.arity, widened.size⟩
    · exact widened.chunk ▸ .refl _
    · exact Nat.le_of_eq (congrArg (·.code.size) widened.chunk.symm)
    · exact congrArg (·.code[i]?) widened.chunk
    · exact body.tokens ▸ ready.names
    · rw [declares_widened wider, FunctionScope.declares_kept widened.locals widened.size]
      exact ready.supers (body.classes ▸ head)
  have added := addFunction_phrase around.ready body.done
  have emitted := emitBytes_phrase added.ready (closureBytes outer.chunk.functions.size finished.scope.finish)
  have later := added.trans emitted
  have start : before.offset = Compilation.offset { finished with scope := outer, enclosing := further } :=
    congrArg (·.code.size) widened.chunk.symm
  obtain ⟨tags, tagged⟩ := exists_tags fun capture member => sound.2.2.1 capture (Array.mem_toList_iff.mp member)
  have near : ∀ capture ∈ finished.scope.captures, capture.index ≤ maxOperand := by
    intro capture member
    obtain ⟨tag, tagged⟩ := sound.2.2.1 capture member
    exact tagged.index_le sound.2.2.2
  have added_at : (outer.chunk.addFunction finished.scope.finish).functions[outer.chunk.functions.size]? =
      some finished.scope.finish := by simp [Chunk.addFunction]
  have closing := fun chunk => @Bears.closing
    { finished with scope := { outer with chunk := outer.chunk.addFunction finished.scope.finish }, enclosing := further }
    chunk _ _ finished.scope.finish start added_at small sound.2.1 near
  refine ⟨(around.trans added).trans emitted, fun context kept result known holds grounded fits made => ?_,
    finished.scope.finish, ?_, closing⟩
  · exact closure_segment (holds.toCovers.earlier later.later around.ready.sound) grounded (closing _ holds.bears) tagged
      (body.verified tags (enclosing ▸ tagged)) (fits.earlier later.later.locals) made
  · rw [emitBytes_functions]
    simp [Chunk.addFunction]

theorem Closes.turns {manner : Manner} {before after : Compilation} (closes : Closes manner before after) : Turns true before after 0 1 := by
  refine ⟨closes.toPhrase, fun context shape holds suits => ?_⟩
  rw [Shape.pushes_zero]
  exact closes.segment context shape.slots .plain shape.known holds suits.fits.grounded (suits.fits.append _) (.closure _)

theorem markInitialized_outermost (outermost : state.scope.depth = 0) : state.markInitialized = state := by
  simp only [Compilation.markInitialized, outermost, if_true]

theorem funDeclaration_running {inner : Inner} (bodied : Bodied inner.functionBody) : Running (funDeclaration inner) := by
  intro before _ after done final
  obtain ⟨global?, started, parsed, done⟩ := bind_ok done
  obtain ⟨token, member, isName, -, cases_⟩ := parseVariable_ok parsed
  have done := update_bind_ok done
  obtain ⟨_, closed, compiled, done⟩ := bind_ok done
  cases update_ok done
  obtain ⟨clean, closes⟩ := function_closes bodied (by decide) _ _ _ compiled
    (defineVariable_errors closed global? ▸ final)
  rw [Grown.markInitialized_errors] at clean
  rcases cases_ with ⟨entry, outermost, rfl, made⟩ | ⟨deep, room, rfl, rfl⟩
  · refine ⟨makeString_errors made ▸ clean, fun ready level => ?_⟩
    have moved := moved_phrase ready (advance_tokens before.cursor)
    obtain ⟨phrase, silent, named⟩ := makeString_phrase moved.ready made
    rw [markInitialized_outermost ((moved.trans phrase).depth.trans outermost)] at closes
    exact (closes phrase.ready).turns.defines level (moved.trans phrase) silent named final
  · refine ⟨clean, fun ready level => ?_⟩
    have moved := moved_phrase ready (advance_tokens before.cursor)
    have level' := Fact.level.stable moved level
    obtain ⟨named, ordinary⟩ := ready.names token member isName
    have grown := Grown.withLocal moved.ready (Nat.lt_of_le_of_ne moved.ready.sound.1 room) token.lexeme
    have grown := grown.markInitialized deep
    have closes := closes grown.ready
    have grown := grown.phrase closes.toPhrase
    refine .after_silent moved rfl (show Runs _ closed.markInitialized from ?_) level
    refine (grown.markInitialized deep).runs level' deep named ordinary fun context kept isCaptured holds suits length => ?_
    rw [Grown.markInitialized_offset] at holds ⊢
    have segment := closes.segment context kept ⟨.value, isCaptured⟩ none
    rw [Grown.markInitialized_offset] at segment
    have grounded : kept ≠ [] := List.ne_nil_of_length_pos (length ▸ level'.nonempty)
    exact segment holds.unmarked grounded (suits.fits.earlier (grown.kept_markInitialized deep)) (.closure _)

end StackScript.Compile
