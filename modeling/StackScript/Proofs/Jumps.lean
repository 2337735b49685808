import StackScript.Proofs.Phrases

/-!
Jumps. A jump is emitted before its distance is known and patched when the place it leads to is reached. What is
emitted in between is not touched by the patch.
-/

namespace StackScript.Compile

open Parse

variable {place target : Nat} {before after : Compilation} {context : Context}

theorem emitJump_ok {op : Opcode} (done : emitJump op before = .ok place after) :
    after = emitBytes before (bytesWith op maxOperand) ∧ place = before.offset + 1 := by
  cases done
  refine ⟨rfl, ?_⟩
  change (emitBytes before (bytesWith op maxOperand)).offset - 2 = _
  rw [emitBytes_offset]
  rfl

theorem emitLoop_ok (done : emitLoop target before = .ok () after) :
    after = emitBytes before (bytesWith .loop (before.offset + 1 - target + 2)) ∧
      before.offset + 1 - target + 2 ≤ maxOperand := by
  obtain ⟨_, between, emitted, done⟩ := bind_ok done
  cases emitted
  have done := read_ok done
  have offset : (before.emit .loop).offset = before.offset + 1 := emitBytes_offset before [_]
  simp only [offset] at done
  split at done
  · cases done
  · cases done
    exact ⟨rfl, by omega⟩

theorem writeAt_writeAt_getElem? (chunk : Chunk Proto) (place i : Nat) (high low : UInt8) (inside : place + 1 < chunk.code.size) :
    ((chunk.writeAt place high).writeAt (place + 1) low).code[i]? =
      if i = place then some high else if i = place + 1 then some low else chunk.code[i]? := by
  simp only [Chunk.writeAt, Array.getElem?_setIfInBounds, Array.size_setIfInBounds]
  grind

theorem patchJump_ok (done : patchJump place before = .ok () after) (inside : place + 2 ≤ before.offset) :
    Patched place (before.offset - place - 2) before after := by
  have done := read_ok done
  split at done
  · cases done
  · next near =>
    cases done
    have inside : place + 1 < before.scope.chunk.code.size := inside
    have bytes := writeAt_writeAt_getElem? before.scope.chunk place
    refine ⟨rfl, rfl, rfl, rfl, rfl, rfl, rfl, rfl, ⟨.refl _, .refl _, fun _ _ named => ⟨named.starts, named.reads⟩⟩,
      fun stocked => ⟨stocked.ended, stocked.nested⟩, ?_, ?_, ?_⟩
    · simp [Compilation.offset, Chunk.writeAt]
    · intro i first second
      rw [bytes i _ _ inside, if_neg first, if_neg second]
    · refine operand?_of_bytes (by omega) ?_ ?_
      · exact (bytes place _ _ inside).trans (if_pos rfl)
      · exact (bytes (place + 1) _ _ inside).trans ((if_neg (by omega)).trans (if_pos rfl))

theorem patchJump_errors (done : patchJump place before = .ok () after) : after.errors = before.errors := by
  have done := read_ok done
  split at done <;> cases done
  rfl

section Holds

variable {state : Compilation} {value start stop : Nat} {op : Opcode}

theorem Holds.operand (holds : Holds context after start stop) (patched : Patched place value before after)
    (lower : start ≤ place) (upper : place + 2 ≤ stop) : context.chunk.operand? place = some value := by
  have same : context.chunk.operand? place = after.scope.chunk.operand? place := by
    simp only [Chunk.operand?, holds.code place (by omega) (by omega), holds.code (place + 1) (by omega) (by omega)]
  rw [same, patched.operand]

theorem Holds.opcode (holds : Holds context (emitBytes state (bytesWith op value)) start stop) (lower : start ≤ state.offset)
    (upper : state.offset < stop) : context.chunk.OpAt state.offset op := by
  have size := emitBytes_offset state (bytesWith op value)
  have narrow : Holds context (emitBytes state (bytesWith op value)) state.offset (state.offset + 1) :=
    holds.narrow lower upper
  rw [Chunk.OpAt, narrow.code _ (Nat.le_refl _) (by omega), emitBytes_code,
    Array.getElem?_append_right (by simp [Compilation.offset])]
  simp [Compilation.offset, bytesWith]

end Holds

theorem jumpIfFalse_block (shape : Shape) {slot : Slot} {distance : Nat} (op_at : context.chunk.OpAt place .jumpIfFalse)
    (operand : context.chunk.operand? (place + 1) = some distance) (lands : place + 3 + distance = target) :
    Block context place (place + 3) (.at place (shape.push slot)) fun there found =>
      Points.at (place + 3) (shape.push slot) there found ∨ Points.at target (shape.push slot) there found :=
  .single (.jumpIfFalse op_at operand (.inl ⟨rfl, .refl _⟩) (.inr ⟨lands, .refl _⟩))

theorem jump_block (shape : Shape) {distance : Nat} (op_at : context.chunk.OpAt place .jump)
    (operand : context.chunk.operand? (place + 1) = some distance) (lands : place + 3 + distance = target) :
    Block context place (place + 3) (.at place shape) (.at target shape) :=
  .single (.jump op_at operand ⟨lands, .refl _⟩)

end StackScript.Compile
