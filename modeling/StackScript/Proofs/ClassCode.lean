import StackScript.Proofs.Functions

/-!
What the code of a class declaration consists of. It makes a class, binds it, may inherit, makes a closure for each method
and adds it to the class, in the order of the text. Apart from that it only reads variables and drops values, so nothing of
the user's own is run in between.
-/

namespace StackScript

namespace Chunk

/-- From a place to another the code only reads variables, binds a global or drops values. -/
inductive Idles (chunk : Chunk Proto) : Nat → Nat → Prop where
  | nil (place : Nat) : chunk.Idles place place
  | cons {place next stop : Nat} {op : Opcode} (op_at : chunk.OpAt place op) (idle : op.isIdle = true)
      (whole : chunk.next? place = some next) (more : chunk.Idles next stop) : chunk.Idles place stop

theorem Idles.trans {chunk : Chunk Proto} {start middle stop : Nat} (one : chunk.Idles start middle)
    (two : chunk.Idles middle stop) : chunk.Idles start stop := by
  induction one with
  | nil => exact two
  | cons op_at idle whole _ ih => exact .cons op_at idle whole (ih two)

theorem Idles.drops {chunk : Chunk Proto} (ops : List Opcode) (drops : ∀ op ∈ ops, op = .pop ∨ op = .closeUpvalue) {place : Nat}
    (bytes : ∀ i op, ops[i]? = some op → chunk.OpAt (place + i) op) : chunk.Idles place (place + ops.length) := by
  induction ops generalizing place with
  | nil => exact .nil _
  | cons op ops ih =>
    have op_at : chunk.OpAt place op := bytes 0 op rfl
    have rest := ih (fun op member => drops op (List.mem_cons_of_mem _ member)) fun i op found =>
      Nat.add_right_comm place 1 i ▸ bytes (i + 1) op found
    rw [Nat.add_right_comm] at rest
    have inside := Chunk.lt_of_getElem? op_at
    rcases drops op List.mem_cons_self with rfl | rfl <;>
      exact .cons op_at rfl (next?_of_opAt op_at rfl inside) rest

def Inheriting (chunk : Chunk Proto) (start stop : Nat) : Prop :=
  ∃ place, chunk.Idles start place ∧ chunk.OpAt place .inherit ∧ stop = place + 1

/-- A class is made and bound to its variable, which is then read. -/
inductive Founds (chunk : Chunk Proto) (start : Nat) : (inherits : Bool) → Nat → Prop where
  | alone {stop : Nat} (makes : chunk.OpAt start .newClass) (binds : chunk.Idles (start + 3) stop) :
      chunk.Founds start false stop
  | inheriting {middle stop : Nat} (makes : chunk.OpAt start .newClass) (inherits : chunk.Inheriting (start + 3) middle)
      (reads : chunk.Idles middle stop) : chunk.Founds start true stop

/-- Closures of the functions are made, and each is added to a class as a method. -/
inductive AddsMethods (chunk : Chunk Proto) : Nat → List (String × Proto) → Nat → Prop where
  | nil (place : Nat) : chunk.AddsMethods place [] place
  | cons {place middle stop entry : Nat} {name : String} {proto : Proto} {methods : List (String × Proto)}
      (closing : chunk.Closing place proto middle) (op_at : chunk.OpAt middle .method)
      (operand : chunk.operand? (middle + 1) = some entry) (named : chunk.string? entry = some name)
      (more : chunk.AddsMethods (middle + 3) methods stop) : chunk.AddsMethods place ((name, proto) :: methods) stop

def DeclaresClass (chunk : Chunk Proto) (start : Nat) (inherits : Bool) (methods : List (String × Proto)) (stop : Nat) : Prop :=
  ∃ head last, chunk.Founds start inherits head ∧ chunk.AddsMethods head methods last ∧ chunk.Idles last stop

end Chunk

namespace Compile

open Parse

/-- Code of some sort is appended to a chunk: every chunk with the same bytes there, and with the entries of its tables, has
code of that sort. -/
structure Gains (code : Chunk Proto → Nat → Nat → Prop) (before after : Chunk Proto) : Prop where
  tables : TablesKept before after
  size : before.code.size ≤ after.code.size
  kept : ∀ i < before.code.size, after.code[i]? = before.code[i]?
  spells : ∀ whole, TablesKept after whole →
    (∀ i, before.code.size ≤ i → i < after.code.size → whole.code[i]? = after.code[i]?) →
    code whole before.code.size after.code.size

namespace Gains

variable {one two both : Chunk Proto → Nat → Nat → Prop} {first second third : Chunk Proto} {before after : Compilation}

theorem join (gains : Gains one first second) (more : Gains two second third)
    (joins : ∀ whole start middle stop, one whole start middle → two whole middle stop → both whole start stop) :
    Gains both first third := by
  have lower := gains.size
  have upper := more.size
  refine ⟨gains.tables.trans more.tables, Nat.le_trans lower upper, fun i inside => ?_, fun whole tables same => ?_⟩
  · exact (more.kept i (by omega)).trans (gains.kept i inside)
  · refine joins whole _ _ _ (gains.spells whole (more.tables.trans tables) fun i above below => ?_) ?_
    · exact (same i above (by omega)).trans (more.kept i below)
    · exact more.spells whole tables fun i above below => same i (by omega) below

theorem of_later (later : Later before after)
    (spells : ∀ whole, Bears whole after before.offset after.offset → one whole before.offset after.offset) :
    Gains one before.scope.chunk after.scope.chunk :=
  ⟨later.tables, later.offset, later.code, fun whole tables same => spells whole ⟨tables, same⟩⟩

theorem before_silent (later : Later before after) (silent : after.offset = before.offset)
    (gains : Gains one after.scope.chunk third) : Gains one before.scope.chunk third := by
  have size : after.scope.chunk.code.size = before.scope.chunk.code.size := silent
  refine ⟨later.tables.trans gains.tables, size ▸ gains.size, fun i inside => ?_, size ▸ gains.spells⟩
  exact (gains.kept i (size.symm ▸ inside)).trans (later.code i inside)

theorem emits (state : Compilation) (bytes : List UInt8)
    (spells : ∀ whole place, TablesKept (emitBytes state bytes).scope.chunk whole →
      (∀ i byte, bytes[i]? = some byte → whole.code[place + i]? = some byte) → one whole place (place + bytes.length)) :
    Gains one state.scope.chunk (emitBytes state bytes).scope.chunk := by
  refine of_later (emitBytes_later state bytes) fun whole bears => ?_
  rw [emitBytes_offset] at bears ⊢
  exact spells whole _ bears.tables fun i byte => bears.emitted (Nat.le_refl _) (Nat.le_refl _)

end Gains

theorem readVariable_gains {name : String} {before after : Compilation} (ready : Ready before) (named : name ≠ "")
    (done : readVariable name before = .ok () after) : Gains Chunk.Idles before.scope.chunk after.scope.chunk := by
  obtain ⟨access, between, resolved, rfl⟩ := readVariable_ok done
  obtain ⟨phrase, silent, -⟩ := resolve_ok ready named resolved
  refine .before_silent phrase.later silent (.emits _ _ fun whole place _ bytes => ?_)
  have inside := Chunk.lt_of_getElem? (bytes 2 _ rfl)
  cases access <;> exact .cons (bytes 0 _ rfl) rfl (Chunk.next?_of_opAt (bytes 0 _ rfl) rfl inside) (.nil _)

theorem endScope_gains (state : Compilation) : Gains Chunk.Idles state.scope.chunk state.endScope.scope.chunk := by
  let leaving := state.scope.locals.toList.reverse.takeWhile (·.isDeeperThan (state.scope.depth - 1))
  let ops := leaving.map fun binding => if binding.isCaptured then Opcode.closeUpvalue else .pop
  have same : state.endScope.scope.chunk = (emitBytes state (ops.map Opcode.toByte)).scope.chunk := by
    simp only [Compilation.endScope, emitBytes, ops, List.map_map, List.foldl_map]
    rfl
  rw [same]
  refine .emits _ _ fun whole place _ bytes => ?_
  rw [List.length_map]
  refine .drops ops (fun op member => ?_) fun i op found => bytes i _ (by rw [List.getElem?_map, found]; rfl)
  obtain ⟨binding, -, rfl⟩ := List.mem_map.mp member
  split
  · exact .inr rfl
  · exact .inl rfl

end Compile

end StackScript
