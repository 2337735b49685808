import StackScript.Proofs.RunSafety

/-!
The open upvalues during a run. Between two steps they are exactly those that the list visits, from the highest slot
down, and their slots are on the stack. Whatever an instruction takes off the stack, no upvalue that was there before
stays open in a slot that is gone, and when the machine halts none is open at all.
-/

namespace StackScript

variable {State : Type} {ledger : Ledger} {frame : Frame} {below kept : List Slot} {known : Option String} {reach : Points}
  {machine after : Machine State}

/-- The open upvalues are those on the list, in the order of their slots, which are on the stack. -/
def OpenListed (machine : Machine State) : Prop :=
  ∃ entries, OpenChain machine.heap machine.openUpvalues entries ∧ Descending entries ∧
    (∀ ref slot, (ref, slot) ∈ entries → slot < machine.stack.size) ∧
    ∀ ref slot next, machine.heap.get? ref = some (.upvalue ⟨.open slot, next⟩) → (ref, slot) ∈ entries

theorem Typed.openListed {layout : List Slot} (typed : Typed ledger layout known machine) : OpenListed machine := by
  obtain ⟨entries, upvalues⟩ := typed.upvalues
  refine ⟨entries, upvalues.chain, upvalues.descending, fun ref slot member => ?_, upvalues.complete⟩
  rw [typed.stack.size]
  exact upvalues.inside member

structure Idle (machine : Machine State) : Prop where
  stack : machine.stack = #[]
  frames : machine.frames = #[]
  openUpvalues : machine.openUpvalues = none
  closed : ∀ ref upvalue, machine.heap.get? ref = some (.upvalue upvalue) → ∃ value, upvalue.location = .closed value

theorem Resting.idle (resting : Resting machine) : Idle machine := by
  refine ⟨resting.stack, resting.frames, resting.openUpvalues, ?_⟩
  rintro ref ⟨location, next⟩ found
  cases location with
  | «open» slot => exact absurd found (resting.allClosed ref slot next)
  | closed value => exact ⟨value, rfl⟩

theorem Typed.openBelow_of_free {gone : List Slot} (typed : Typed ledger (below ++ (kept ++ gone)) known machine)
    (free : ∀ slot ∈ gone, slot.isCaptured = false) : machine.heap.OpenBelow (machine.stack.size - gone.length) := by
  have size := typed.stack.size
  rw [← List.append_assoc, List.length_append] at size
  obtain ⟨entries, upvalues⟩ := typed.split.upvalues
  rw [size, Nat.add_sub_cancel]
  exact fun ref index next found => (upvalues.shorten free).inside (upvalues.complete ref index next found)

theorem Typed.openBelow {shape : Shape} (typed : Typed ledger (below ++ shape.slots) shape.known machine) :
    machine.heap.OpenBelow machine.stack.size := by
  rw [typed.stack.size]
  exact typed.toRooted.openBelow

theorem Accepts.openBelow {manner : Manner} {tags : List Role} {next : Nat} {shape : Shape} {op : Opcode}
    (accepted : Accepts (.within frame.function manner tags) reach frame.ip next shape) (op_at : frame.function.chunk.OpAt frame.ip op)
    (other : op.closes = false) (typed : Typed ledger (below ++ shape.slots) shape.known machine) :
    machine.heap.OpenBelow (op.lowest frame machine.stack.size) := by
  cases accepted with
  | literal isLiteral op_at' =>
    cases op_at.unique op_at'
    cases op <;> first | exact typed.openBelow | cases isLiteral
  | binary isBinary op_at' =>
    cases op_at.unique op_at'
    have lower := typed.openBelow_of_free (by simp [Slot.plain])
    cases op <;> first | exact lower | cases isBinary
  | unary isUnary op_at' =>
    cases op_at.unique op_at'
    have lower := typed.openBelow_of_free (by simp [Slot.plain])
    cases op <;> first | exact lower | cases isUnary
  | constant op_at' | string op_at' | function op_at' | getLocal op_at' | setLocal op_at' | getGlobal op_at' | setGlobal op_at'
  | getUpvalue op_at' | setUpvalue op_at' | jump op_at' | jumpIfFalse op_at' | loop op_at'
  | newClass op_at' => exact op_at.unique op_at' ▸ typed.openBelow
  | closure made_at => exact op_at.unique made_at.op_at ▸ typed.openBelow_of_free (by simp)
  | pop op_at' free => exact op_at.unique op_at' ▸ typed.openBelow_of_free (by simpa using free)
  | defineGlobal op_at' | superInvoke op_at' => exact op_at.unique op_at' ▸ typed.openBelow_of_free (by simp)
  | getProperty op_at' | print op_at' | setProperty op_at'
  | getSuper op_at' => exact op_at.unique op_at' ▸ typed.openBelow_of_free (by simp [Slot.plain])
  | inherit op_at' =>
    refine op_at.unique op_at' ▸ Heap.OpenBelow.mono (typed.openBelow_of_free (by simp [Slot.plain])) ?_
    exact Nat.sub_le_sub_left (Nat.le_succ 1) _
  | method op_at' =>
    refine op_at.unique op_at' ▸ Heap.OpenBelow.mono (typed.openBelow_of_free (by simp)) ?_
    exact Nat.sub_le_sub_left (Nat.le_succ 1) _
  | call op_at' operand =>
    have lower := typed.openBelow_of_free (by simp [Slot.plain])
    rw [List.length_replicate] at lower
    cases op_at.unique op_at'
    rwa [Opcode.lowest, Opcode.lowest.argc, show frame.function.chunk.code[frame.ip + 1]? = _ from operand]
  | invoke op_at' _ _ count =>
    have lower := typed.openBelow_of_free (by simp [Slot.plain])
    rw [List.length_replicate] at lower
    cases op_at.unique op_at'
    rwa [Opcode.lowest, Opcode.lowest.argc, show frame.function.chunk.code[frame.ip + 3]? = _ from count]
  | closeUpvalue op_at' | «return» op_at' =>
    cases op_at.unique op_at'
    cases other

theorem Sound.cycle_openBelow (sound : Sound machine) : ∃ frame op, machine.frames.back? = some frame ∧
    frame.function.chunk.OpAt frame.ip op ∧ ∀ flow after, Exec.cycle machine = .ok flow after →
      ∀ ref object slot next, machine.heap.get? ref = some object →
        after.heap.get? ref = some (.upvalue ⟨.open slot, next⟩) → slot < op.lowest frame machine.stack.size := by
  obtain ⟨frame, op, innermost, op_at, yields⟩ := sound.cycle
  refine ⟨frame, op, innermost, op_at, fun flow after stepped ref object slot next before found => ?_⟩
  rw [Exec.Yields, stepped] at yields
  cases closing : op.closes with
  | true => exact yields.closes closing ref slot next found
  | false =>
    obtain ⟨ledger, rest, frame', below, shape, call, calls, poised⟩ := sound.poised
    rw [poised.frames, Array.back?_push] at innermost
    cases innermost
    obtain ⟨shapes, wider, next', -, accepted, -, typed⟩ := poised.accepted
    obtain ⟨later, found', becomes⟩ := yields.evolves ref object before
    cases found.symm.trans found'
    have lower := accepted.openBelow op_at closing typed
    cases becomes with
    | refl => exact lower ref slot next before
    | upvalue older _ same =>
      obtain ⟨location, next⟩ := older
      cases same slot rfl
      exact lower ref slot next before

/-- The open upvalues are listed between any two steps of a run, none is left behind on the part of the stack that a
step takes away, and a run that halts leaves nothing open. -/
theorem open_upvalues_listed {source : String} {script : Proto} (compiled : compileSource source = .ok script)
    (config : Config) :
    (∀ machine : Machine State, Reached script (.fresh config) machine →
      OpenListed machine ∧
      ∃ frame op, machine.frames.back? = some frame ∧ frame.function.chunk.OpAt frame.ip op ∧
        ∀ flow after, Exec.cycle machine = .ok flow after →
          (∀ ref object slot next, machine.heap.get? ref = some object →
            after.heap.get? ref = some (.upvalue ⟨.open slot, next⟩) → slot < op.lowest frame machine.stack.size) ∧
          (flow = .halted → Idle after)) ∧
      ∀ fuel (after : Machine State), Exec.interpret fuel script (.fresh config) = .ok .halted after → Idle after := by
  have verified := compileSource_verified compiled
  have halts {machine after : Machine State} (reached : Reached script (.fresh config) machine)
      (halted : Exec.cycle machine = .ok .halted after) : Idle after := by
    obtain ⟨_, _, -, -, yields⟩ := (reached.sound (Machine.fresh_resting config) verified).cycle
    rw [Exec.Yields, halted] at yields
    exact Resting.idle yields.leaves
  refine ⟨fun machine reached => ⟨?_, ?_⟩, fun fuel after halted => ?_⟩
  · obtain ⟨_, _, _, _, _, _, _, poised⟩ := (reached.sound (Machine.fresh_resting config) verified).poised
    exact poised.typed.openListed
  · obtain ⟨frame, op, innermost, op_at, lower⟩ :=
      (reached.sound (Machine.fresh_resting config) verified).cycle_openBelow
    refine ⟨frame, op, innermost, op_at, fun flow after stepped => ⟨lower flow after stepped, ?_⟩⟩
    rintro rfl
    exact halts reached stepped
  · obtain ⟨last, reached, halted⟩ := Reached.of_halted halted
    exact halts reached halted

/-- A variable that a closure keeps beyond its scope: its upvalue is listed while it is open, and closed in the end. -/
theorem open_upvalues_listed_kept : ∃ script, ∃ during after : Machine Unit,
    compileSource "var g; { var a = nil; fun f() { return a; } g = f; } print g();" = .ok script ∧
      Exec.interpret 8 script (.fresh {}) = .ok .running during ∧ during.openUpvalues = some 3 ∧ OpenListed during ∧
      Exec.interpret 100 script (.fresh {}) = .ok .halted after ∧
      after.heap.fetchUpvalue 3 = .ok ⟨.closed .nil, none⟩ ∧ Idle after := by
  obtain ⟨script, compiled⟩ := @exists_script "var g; { var a = nil; fun f() { return a; } g = f; } print g();"
    (by decide +kernel)
  have runs : ((.fresh {} : Machine Unit).interpretSource 8
      "var g; { var a = nil; fun f() { return a; } g = f; } print g();").1.result? = some (.ok .running) := by decide +kernel
  have halts : ((.fresh {} : Machine Unit).interpretSource 100
      "var g; { var a = nil; fun f() { return a; } g = f; } print g();").1.result? = some (.ok .halted) := by decide +kernel
  have opened : ((.fresh {} : Machine Unit).interpretSource 8
      "var g; { var a = nil; fun f() { return a; } g = f; } print g();").2.openUpvalues = some 3 := by decide +kernel
  have closed : ((.fresh {} : Machine Unit).interpretSource 100
      "var g; { var a = nil; fun f() { return a; } g = f; } print g();").2.heap.fetchUpvalue 3 =
      .ok ⟨.closed .nil, none⟩ := by decide +kernel
  rw [Machine.interpretSource_eq compiled] at runs halts opened closed
  have running := Machine.outcomeOf_ok runs
  have halted := Machine.outcomeOf_ok halts
  obtain ⟨steps, ends⟩ := @open_upvalues_listed Unit _ _ compiled {}
  exact ⟨script, _, _, compiled, running, opened, (steps _ (Reached.of_running running)).1, halted, closed,
    ends 100 _ halted⟩

end StackScript
