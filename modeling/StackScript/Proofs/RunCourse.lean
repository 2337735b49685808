import StackScript.Proofs.InstructionFormat
import StackScript.Proofs.RunSafety

/-!
Where a run of code from source texts comes to. Each frame stands at a place that its code leads to from the first instruction
on: behind an instruction that has been done, or where one has jumped to. There the code has an instruction, with a line of
its own.
-/

namespace StackScript

variable {State : Type} {span : Span}

/-- The frame runs a function from a source text, at a place that its code leads to. -/
structure Frame.OnCourse (frame : Frame) : Prop where
  origin : frame.function.FromSource
  reachable : frame.function.chunk.Reachable frame.ip

/-- Between two instructions: all frames are where their code leads. -/
structure Machine.OnCourse (machine : Machine State) : Prop where
  code : machine.FromSource
  running : machine.frames ≠ #[]
  frames : ∀ frame ∈ machine.frames, frame.OnCourse

/-- All functions come from source texts, on the heap and in frames. -/
structure Machine.Sourced (machine : Machine State) : Prop where
  code : machine.FromSource
  frames : ∀ frame ∈ machine.frames, frame.function.FromSource

namespace Exec

open Conduct

variable {α β : Type} {action : Exec State α} {next : α → Exec State β} {machine after : Machine State}

def sourcing : Conduct RuntimeError (Machine State) where
  goes before after := before.Sourced → after.Sourced
  fails _ _ _ := True
  refl _ := id
  trans one two := two ∘ one
  fails_after _ _ := trivial

theorem calling_within_sourcing : (calling span : Conduct _ (Machine State)).Within sourcing := by
  refine ⟨fun called sourced => ⟨called.code sourced.code, fun frame member => ?_⟩, fun _ => trivial⟩
  obtain ⟨more, frames, -, new⟩ := called.frames
  rw [frames] at member
  exact (Array.mem_append.mp member).elim (sourced.frames frame) (new sourced.code frame)

theorem sourcing_goes {before after : Machine State} (settled : before.Settled after) : sourcing.goes before after :=
  (@calling_within_sourcing State .nowhere).goes settled.called

instance : Roaming (sourcing : Conduct _ (Machine State)) where
  beside natives frames heap := sourcing_goes ((inferInstance : Quiet (settled .nowhere)).beside natives frames heap)
  adds machine upvalue := sourcing_goes ((inferInstance : Quiet (settled .nowhere)).adds machine upvalue)
  sets machine ref upvalue := sourcing_goes (setObject_settled (upvalue_known upvalue) ref machine)
  fails _ _ _ := trivial
  moves ip machine sourced := by
    refine ⟨⟨sourced.code.heap, sourced.code.natives⟩, fun frame member => ?_⟩
    obtain ⟨i, found⟩ := Array.mem_iff_getElem?.mp member
    rw [Array.getElem?_modify] at found
    split at found
    · obtain ⟨earlier, at_, rfl⟩ := Option.map_eq_some_iff.mp found
      exact sourced.frames earlier (Array.mem_of_getElem? at_)
    · exact sourced.frames frame (Array.mem_of_getElem? found)

theorem sourcing_bind {fact : α → Prop} (one : sourcing.Obeys action)
    (tells : ∀ machine value between, machine.Sourced → action machine = .ok value between → fact value)
    (two : ∀ value, fact value → sourcing.Obeys (next value)) : sourcing.Obeys (action >>= next) := by
  intro machine
  cases done : (action >>= next) machine with
  | error error after => exact trivial
  | ok value after =>
    intro sourced
    obtain ⟨first, between, goes, further⟩ := bind_ok done
    have left := one machine
    have right := two first (tells machine first between sourced goes) between
    rw [goes] at left
    rw [further] at right
    exact right (left sourced)

theorem closable_known {value : Value} {function : Proto} (sourced : machine.Sourced)
    (done : closable value span machine = .ok function after) : function.FromSource := by
  cases value with
  | number | bool | nil => cases done
  | object ref =>
    obtain ⟨object, between, fetched, done⟩ := bind_ok done
    cases found : machine.heap.get? ref with
    | none => simp [fetch, look, Heap.fetch, found] at fetched
    | some other =>
      cases (fetch_eq found).symm.trans fetched
      cases object with
      | function proto =>
        cases done
        exact sourced.code.heap ref _ found
      | string | closure | upvalue | «class» | «instance» | bound | native | host => cases done

theorem step_sourcing : sourcing.Obeys (step span : Exec State Flow) := by
  have fails {α : Type} (fault : Fault) : sourcing.Obeys (fail fault span : Exec State α) := fun _ => trivial
  have puts {object : Object} (known : object.FromSource) :
      sourcing.Obeys (alloc object >>= fun ref => push (.object ref) : Exec State Unit) :=
    Obeys.bind (fun machine => sourcing_goes (@alloc_settled State span object known machine)) fun ref => push_quiet _
  refine step_roaming calling_within_sourcing ?_ ?_ fun machine sourced => ?_
  · refine readOperand_roaming.bind fun index => sourcing_bind frame_quiet (fun machine frame after sourced done => ?_)
      fun frame (origin : frame.function.FromSource) => ?_
    · unfold Exec.frame at done
      split at done
      · next innermost =>
        cases done
        exact sourced.frames _ (Array.mem_of_back? innermost)
      · cases done
    · split
      · next found => exact puts (origin.nested (Array.mem_of_getElem? found))
      · exact fails _
  · refine readOperand_roaming.bind fun count => pop_quiet.bind fun value => ?_
    refine sourcing_bind (closable_quiet fails value) (fun _ _ _ => closable_known) fun function origin => ?_
    exact (captureAll_roaming count #[]).bind fun upvalues => puts origin
  · refine ⟨⟨sourced.code.heap, sourced.code.natives⟩, fun frame member => sourced.frames frame ?_⟩
    rw [← Array.mem_toList_iff] at member ⊢
    exact List.mem_of_mem_dropLast (Array.toList_pop ▸ member)

theorem Comes.onCourse {rest : Array Frame} {frame : Frame} (comes : Comes rest frame machine after)
    (outer : ∀ other ∈ rest, other.OnCourse) (here : frame.OnCourse) (sourced : after.Sourced) (running : after.frames ≠ #[]) :
    after.OnCourse := by
  obtain ⟨op, op_at, returns, goesOn⟩ := comes
  refine ⟨sourced.code, running, fun other member => ⟨sourced.frames other member, ?_⟩⟩
  by_cases isReturn : op = .return
  · exact (outer other (returns isReturn ▸ member)).reachable
  obtain ⟨target, more, frames, new, taken, stays⟩ := goesOn isReturn
  rw [frames] at member
  rcases Array.mem_append.mp member with old | started
  · rcases Array.mem_push.mp old with further | rfl
    · exact (outer other further).reachable
    · refine .step here.reachable ?_
      by_cases jumps : Taken op machine
      · exact (taken jumps).2
      · obtain ⟨op', op_at', whole, -⟩ := here.origin.whole here.reachable
        cases op_at.unique op_at'
        rw [stays jumps, instruction_next op_at]
        refine .on op_at ?_ whole
        cases op with
        | jump => exact absurd (.inl rfl) jumps
        | loop => exact absurd (.inr (.inl rfl)) jumps
        | «return» => exact absurd rfl isReturn
        | jumpIfFalse => exact .inr rfl
        | _ => exact .inl rfl
  · rw [new other started]
    exact .entry

end Exec

theorem Exec.cycle_ok {machine after : Machine State} {frame : Frame} {flow : Flow} (innermost : machine.frames.back? = some frame)
    (done : Exec.cycle machine = .ok flow after) :
    ∃ events, step (.onLine (frame.function.chunk.lineAt frame.ip)) { machine with events } = .ok flow after := by
  obtain ⟨events, cycle_eq⟩ := cycle_eq innermost
  rw [cycle_eq, anchoring] at done
  refine ⟨events, ?_⟩
  split at done
  · next stepped => exact stepped.trans done
  · cases done

theorem Machine.OnCourse.cycle {machine after : Machine State} (onCourse : machine.OnCourse)
    (done : Exec.cycle machine = .ok .running after) : after.OnCourse := by
  obtain ⟨rest, frame, frames⟩ := Array.exists_push_of_ne_empty onCourse.running
  have all (other : Frame) (member : other ∈ rest.push frame) : other.OnCourse := onCourse.frames other (frames ▸ member)
  obtain ⟨events, stepped⟩ := Exec.cycle_ok (by rw [frames, Array.back?_push]) done
  have sourced : ({ machine with events } : Machine State).Sourced :=
    ⟨⟨onCourse.code.heap, onCourse.code.natives⟩, fun other member => (onCourse.frames other member).origin⟩
  have gives := @Exec.step_gives State (.onLine (frame.function.chunk.lineAt frame.ip)) { machine with events } rest frame frames
  have keeps := @Exec.step_sourcing State (.onLine (frame.function.chunk.lineAt frame.ip)) { machine with events }
  rw [Exec.Gives, Exec.Yields, stepped] at gives
  rw [stepped] at keeps
  exact gives.1.onCourse (fun other member => all other (Array.mem_push_of_mem _ member)) (all frame Array.mem_push_self)
    (keeps sourced) (gives.2 rfl)

theorem Machine.FromSource.start {machine : Machine State} (code : machine.FromSource) {source : String} {script : Proto}
    (compiled : compileSource source = .ok script) :
    (Exec.start script).Yields machine (fun _ after => after.FromSource ∧ machine.config.maxFrames = 0)
      fun _ after => after.OnCourse := by
  have origin : script.FromSource := ⟨source, script, compiled, .self⟩
  have known : (Object.function script).FromSource := origin
  have arity : script.arity = 0 := (compileSource_verified compiled).1
  let started := (machine.clear.addObject (.function script)).push (.object machine.heap.size)
  have code : started.FromSource := ⟨code.heap.push known, code.natives⟩
  have slot : Exec.slotBelow 0 started = .ok 0 started := Exec.slotBelow_eq Nat.one_pos
  refine .afterwards rfl (.afterwards (Exec.alloc_eq _) (.afterwards rfl ?_))
  refine .ite_neg (by rw [arity]; exact fun differs => differs rfl) (.reading (.reading (.ite (fun full => ?_) fun _ => ?_)))
  · exact .failed rfl ⟨code, Nat.le_zero.mp full⟩
  · refine .afterwards slot (.of_ok rfl ⟨⟨code.heap, code.natives⟩, ?_, fun frame member => ?_⟩)
    · exact Array.push_ne_empty
    · rcases Array.mem_push.mp member with none | rfl
      · exact absurd none (Array.not_mem_empty _)
      · exact ⟨origin, .entry⟩

variable {script : Proto} {initial machine after : Machine State} {source : String}

theorem Reached.onCourse (reached : Reached script initial machine) (compiled : compileSource source = .ok script)
    (code : initial.FromSource) : machine.OnCourse := by
  induction reached with
  | start started =>
    have yields := code.start compiled
    rw [Exec.Yields, started] at yields
    exact yields
  | step _ stepped ih =>
    exact ih.cycle stepped
  | tick _ now ih => exact ⟨⟨ih.code.heap, ih.code.natives⟩, ih.running, ih.frames⟩

namespace Machine.FromSource

theorem fresh (config : Config) : (Machine.fresh config : Machine State).FromSource := by
  refine ⟨fun ref object found => ?_, fun body member args store origin => ?_⟩
  · change (({} : Heap).push _).get? ref = _ at found
    rw [Heap.get?_push] at found
    split at found
    · cases found
      trivial
    · cases found
  · have isClock : body = Machine.clock := Array.mem_singleton.mp member
    rw [isClock]
    exact origin

end Machine.FromSource

end StackScript
