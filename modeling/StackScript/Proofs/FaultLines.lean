import StackScript.Proofs.RunCourse
import StackScript.Proofs.StackActions

/-!
Faults are reported on the line of the instruction that raised them. Before an instruction is begun, its line is looked up in
the table of the function that is run, and a fault without a place is put there. In a run of code from source texts the table
has a line for every instruction that is begun. A fault that a native function reports on a line of its own stays as it is.
-/

namespace StackScript

variable {State : Type} {span : Span}
variable {machine after : Machine State} {frame : Frame} {error : RuntimeError}

/-- The native function that a call of the value comes down to, and the heap that it finds: a bound method is called as its
method, and a class as its initializer, once there is an instance. -/
def Heap.nativeFor? : (bound : Nat) → Heap → Value → Option (Native × Heap)
  | bound + 1, heap, .object ref =>
    match heap.get? ref with
    | some (.native native) => some (native, heap)
    | some (.bound method) => nativeFor? bound heap (.object method.method)
    | some (.class cls) => cls.methods["init"]?.bind (nativeFor? bound (heap.push (.instance ⟨ref, ∅⟩)))
    | _ => none
  | _, _, _ => none

namespace Machine

inductive Calls (machine : Machine State) (frame : Frame) : Value → List Value → Prop where
  | call {argc : UInt8} {below args : List Value} {callee : Value} (op_at : frame.function.chunk.OpAt frame.ip .call)
      (count : frame.function.chunk.code[frame.ip + 1]? = some argc) (stacked : machine.Stacks (below ++ callee :: args))
      (length : args.length = argc.toNat) : Calls machine frame callee args
  | field {argc : UInt8} {below args : List Value} {entry : Nat} {name : String} {ref : Ref} {inst : Instance} {field : Value}
      (op_at : frame.function.chunk.OpAt frame.ip .invoke) (operand : frame.function.chunk.operand? (frame.ip + 1) = some entry)
      (named : frame.function.chunk.string? entry = some name)
      (count : frame.function.chunk.code[frame.ip + 3]? = some argc)
      (stacked : machine.Stacks (below ++ .object ref :: args)) (length : args.length = argc.toNat)
      (found : machine.heap.get? ref = some (.instance inst)) (has : inst.fields[name]? = some field) :
      Calls machine frame field args
  | method {argc : UInt8} {below args : List Value} {entry : Nat} {name : String} {ref : Ref} {inst : Instance} {cls : Class}
      {method : Value} (op_at : frame.function.chunk.OpAt frame.ip .invoke)
      (operand : frame.function.chunk.operand? (frame.ip + 1) = some entry)
      (named : frame.function.chunk.string? entry = some name)
      (count : frame.function.chunk.code[frame.ip + 3]? = some argc)
      (stacked : machine.Stacks (below ++ .object ref :: args)) (length : args.length = argc.toNat)
      (found : machine.heap.get? ref = some (.instance inst)) (hasNone : inst.fields[name]? = none)
      (ofClass : machine.heap.get? inst.ofClass = some (.class cls)) (has : cls.methods[name]? = some method) :
      Calls machine frame method args
  | super {argc : UInt8} {below args : List Value} {entry : Nat} {name : String} {receiver : Value} {ref : Ref} {cls : Class}
      {method : Value} (op_at : frame.function.chunk.OpAt frame.ip .superInvoke)
      (operand : frame.function.chunk.operand? (frame.ip + 1) = some entry)
      (named : frame.function.chunk.string? entry = some name)
      (count : frame.function.chunk.code[frame.ip + 3]? = some argc)
      (stacked : machine.Stacks (below ++ receiver :: args ++ [.object ref])) (length : args.length = argc.toNat)
      (found : machine.heap.get? ref = some (.class cls)) (has : cls.methods[name]? = some method) :
      Calls machine frame method args

/-- The next instruction calls a native function, which reports the error. -/
inductive Reports (machine : Machine State) (frame : Frame) (error : RuntimeError) : Prop where
  | intro {callee : Value} {args : List Value} {native : Native} {heap : Heap} {index : Nat} {body : NativeBody State}
      {store : Store State} (calls : machine.Calls frame callee args)
      (leads : machine.heap.nativeFor? (machine.heap.size + 1) callee = some (native, heap))
      (fits : ∀ arity ∈ native.arity, arity = args.length) (listed : native.code = .listed index)
      (found : machine.natives[index]? = some body) (fails : body args { machine.store with heap } = .error error store)

end Machine

namespace Exec

variable {α β : Type} {action : Exec State α} {next : α → Exec State β} {below args : List Value} {callee held : Value}
  {native : Native} {heap : Heap} {index : Nat} {body : NativeBody State} {store : Store State}

def FailsWith (action : Exec State α) (machine : Machine State) (error : RuntimeError) : Prop :=
  ∃ after, action machine = .error error after

theorem FailsWith.afterwards {value : α} (done : action machine = .ok value after) (fails : (next value).FailsWith after error) :
    (action >>= next).FailsWith machine error := by
  obtain ⟨last, failed⟩ := fails
  exact ⟨last, (bind_eq done).trans failed⟩

theorem FailsWith.first (fails : action.FailsWith machine error) : (action >>= next).FailsWith machine error := by
  obtain ⟨last, failed⟩ := fails
  exact ⟨last, bind_error failed⟩

theorem FailsWith.reading {view : Machine State → α} (fails : (next (view machine)).FailsWith machine error) :
    (read view >>= next).FailsWith machine error := fails

theorem FailsWith.ite_neg {condition : Prop} [Decidable condition] {yes no : Exec State α} (other : ¬condition)
    (fails : no.FailsWith machine error) : (if condition then yes else no).FailsWith machine error := by
  rwa [if_neg other]

theorem callNative_reports (stacked : machine.Stacks (below ++ held :: args)) (fits : ∀ arity ∈ native.arity, arity = args.length)
    (listed : native.code = .listed index) (found : machine.natives[index]? = some body)
    (fails : body args machine.store = .error error store) : (callNative native args.length span).FailsWith machine error := by
  have runs : (runNative native.code args).FailsWith { machine with stack := below.toArray } error := by
    rw [listed]
    refine .reading ?_
    rw [found]
    exact ⟨{ machine with stack := below.toArray, store }, by simp only [onStore, fails]⟩
  have taken : (do
      let args ← takeAbove (← slotBelow args.length)
      push (← reportNative native.name (runNative native.code args)) : Exec State Unit).FailsWith machine error := by
    refine .afterwards (slotBelow_stacks stacked) (.afterwards (takeAbove_stacks stacked) (.first ?_))
    obtain ⟨after, failed⟩ := runs
    exact ⟨_, by simp only [reportNative, failed]; rfl⟩
  unfold callNative
  cases known : native.arity with
  | none => exact taken
  | some arity =>
    have count : arity = args.length := fits arity (known ▸ rfl)
    exact .ite_neg (not_not.mpr count.symm) taken

theorem callWithin_reports {bound : Nat} (leads : machine.heap.nativeFor? bound callee = some (native, heap))
    (stacked : machine.Stacks (below ++ held :: args)) (fits : ∀ arity ∈ native.arity, arity = args.length)
    (listed : native.code = .listed index) (found : machine.natives[index]? = some body)
    (fails : body args { machine.store with heap } = .error error store) :
    (callWithin span bound callee args.length).FailsWith machine error := by
  induction bound generalizing machine callee held with
  | zero => cases leads
  | succ bound ih =>
    cases callee with
    | number | bool | nil => cases leads
    | object ref =>
      unfold Heap.nativeFor? at leads
      unfold callWithin
      cases object_at : machine.heap.get? ref with
      | none =>
        rw [object_at] at leads
        cases leads
      | some object =>
        rw [object_at] at leads
        refine .afterwards (fetch_eq object_at) ?_
        cases object with
        | native called =>
          cases leads
          exact callNative_reports stacked fits listed found fails
        | bound method =>
          exact .afterwards (slotBelow_stacks stacked) (.afterwards rfl (ih leads (stacked.setSlot _) found fails))
        | «class» cls =>
          obtain ⟨initializer, has, leads⟩ := Option.bind_eq_some_iff.mp leads
          have grown : (machine.addObject (.instance ⟨ref, ∅⟩)).Stacks (below ++ held :: args) := stacked
          refine .afterwards (alloc_eq _) (.afterwards (slotBelow_stacks grown) (.afterwards rfl ?_))
          rw [has]
          exact ih leads (grown.setSlot _) found fails
        | string | function | closure | upvalue | «instance» | host => cases leads

theorem callValue_reports (leads : machine.heap.nativeFor? (machine.heap.size + 1) callee = some (native, heap))
    (stacked : machine.Stacks (below ++ held :: args)) (fits : ∀ arity ∈ native.arity, arity = args.length)
    (listed : native.code = .listed index) (found : machine.natives[index]? = some body)
    (fails : body args { machine.store with heap } = .error error store) :
    (callValue callee args.length span).FailsWith machine error :=
  .afterwards rfl (callWithin_reports leads stacked fits listed found fails)

theorem step_reports (reports : machine.Reports frame error) (rest : Array Frame) (events : Array Event) (span : Span) :
    (step span).FailsWith (({ machine with events } : Machine State).inFrame rest frame frame.ip) error := by
  obtain @⟨callee, args, native, heap, index, body, store, calls, leads, fits, listed, found, fails⟩ := reports
  let moved (ip : Nat) : Machine State := ({ machine with events } : Machine State).inFrame rest frame ip
  have calling (ip : Nat) {below : List Value} {held : Value} (stacked : (moved ip).Stacks (below ++ held :: args)) :
      (callValue callee args.length span).FailsWith (moved ip) error :=
    callValue_reports leads stacked fits listed found fails
  cases calls with
  | call op_at count stacked length =>
    refine .afterwards (readByte_inFrame op_at) (.first (.afterwards (readByte_inFrame count) ?_))
    rw [← length]
    have stacked : (moved (frame.ip + 1 + 1)).Stacks _ := stacked
    exact .afterwards (peek_stacks stacked) (calling _ stacked)
  | @field argc below _ entry name ref inst _ op_at operand named count stacked length object_at has =>
    refine .afterwards (readByte_inFrame op_at) (.first (.afterwards (readString_inFrame ⟨_, operand, named⟩) ?_))
    refine .afterwards (readByte_inFrame count) ?_
    rw [← length]
    have stacked : (moved (frame.ip + 1 + 2 + 1)).Stacks _ := stacked
    refine .afterwards (peek_stacks stacked) (.afterwards (fetch_eq object_at) ?_)
    dsimp only
    rw [has]
    refine .afterwards (slotBelow_stacks stacked) (.afterwards rfl ?_)
    exact callValue_reports leads (stacked.setSlot _) fits listed found fails
  | @method argc below _ entry name ref inst cls _ op_at operand named count stacked length object_at hasNone ofClass has =>
    refine .afterwards (readByte_inFrame op_at) (.first (.afterwards (readString_inFrame ⟨_, operand, named⟩) ?_))
    refine .afterwards (readByte_inFrame count) ?_
    rw [← length]
    have stacked : (moved (frame.ip + 1 + 2 + 1)).Stacks _ := stacked
    refine .afterwards (peek_stacks stacked) (.afterwards (fetch_eq object_at) ?_)
    dsimp only
    rw [hasNone]
    refine .afterwards (look_eq (Heap.fetchClass_eq ofClass)) ?_
    rw [has]
    exact calling _ stacked
  | @super argc below _ entry name receiver ref cls _ op_at operand named count stacked length class_at has =>
    refine .afterwards (readByte_inFrame op_at) (.first (.afterwards (readString_inFrame ⟨_, operand, named⟩) ?_))
    refine .afterwards (readByte_inFrame count) ?_
    rw [← length]
    let popped : Machine State := { moved (frame.ip + 1 + 2 + 1) with stack := (below ++ receiver :: args).toArray }
    have pops : popClass span (moved (frame.ip + 1 + 2 + 1)) = .ok ref popped := by
      have stacked : (moved (frame.ip + 1 + 2 + 1)).Stacks _ := stacked
      have class_at : popped.heap.get? ref = some (.class cls) := class_at
      have isClass : classOf (.object ref) .superclassNotClass span popped = .ok (ref, cls) popped := bind_eq (fetch_eq class_at)
      exact (bind_eq (pop_stacks stacked)).trans (bind_eq isClass)
    refine .afterwards pops (.afterwards (look_eq (Heap.fetchClass_eq class_at)) ?_)
    rw [has]
    have stacked : popped.Stacks (below ++ receiver :: args) := rfl
    exact callValue_reports leads stacked fits listed found fails

end Exec

theorem Exec.cycle_natives {flow : Flow} (innermost : machine.frames.back? = some frame)
    (done : Exec.cycle machine = .ok flow after) : after.natives = machine.natives := by
  obtain ⟨events, stepped⟩ := cycle_ok innermost done
  have placed := @step_placing State (.onLine (frame.function.chunk.lineAt frame.ip)) { machine with events }
  rw [stepped] at placed
  exact placed

theorem Exec.cycle_places (innermost : machine.frames.back? = some frame) (failed : Exec.cycle machine = .error error after) :
    error.span.line = frame.function.chunk.lineAt frame.ip ∨ error.span.line ≠ 0 ∧ Reported machine.natives error := by
  obtain ⟨events, cycle_eq⟩ := cycle_eq innermost
  have placed := @step_placing State (.onLine (frame.function.chunk.lineAt frame.ip)) { machine with events }
  rw [cycle_eq, anchoring] at failed
  cases stepped : step (.onLine (frame.function.chunk.lineAt frame.ip)) { machine with events } with
  | ok flow final =>
    rw [stepped] at failed
    cases failed
  | error raised final =>
    rw [stepped] at placed failed
    cases failed
    by_cases unplaced : raised.span.line = 0
    · left
      simp only [RuntimeError.anchored, if_pos unplaced]
      rfl
    · simp only [RuntimeError.anchored, if_neg unplaced]
      cases placed with
      | nowhere line => exact absurd line unplaced
      | here same => exact .inl (congrArg Span.line same)
      | reported reported => exact .inr ⟨unplaced, reported⟩

theorem Exec.cycle_reports (innermost : machine.frames.back? = some frame) (reports : machine.Reports frame error)
    (named : error.span.line ≠ 0) : Exec.cycle.FailsWith machine error := by
  obtain ⟨rest, frames⟩ := Array.back?_eq_some_iff.mp innermost
  obtain ⟨events, cycle_eq⟩ := cycle_eq innermost
  have self : ({ machine with events } : Machine State).inFrame rest frame frame.ip = { machine with events } :=
    Machine.inFrame_self frames
  obtain ⟨after, failed⟩ := step_reports reports rest events (.onLine (frame.function.chunk.lineAt frame.ip))
  rw [self] at failed
  refine ⟨after, ?_⟩
  rw [cycle_eq, anchoring, failed]
  simp only [RuntimeError.anchored, if_neg named]

theorem Reached.natives {source : String} {script : Proto} (compiled : compileSource source = .ok script)
    {initial : Machine State} (code : initial.FromSource) (reached : Reached script initial machine) :
    machine.natives = initial.natives := by
  induction reached with
  | @start machine started =>
    have origin : script.FromSource := ⟨source, script, compiled, .self⟩
    have starts : (Exec.placing .nowhere).Obeys (Exec.start script : Exec State Unit) := by
      refine Conduct.Obeys.bind (fun _ => rfl) fun _ => (Exec.alloc_placing _).bind fun ref => (Exec.push_quiet _).bind fun _ => ?_
      exact Conduct.Obeys.within (fun _ => Exec.callFunction_calling (fun _ => origin) none 0) Exec.calling_within_placing
    have allowed := starts initial
    rw [started] at allowed
    exact allowed
  | @step machine after reached stepped ih =>
    obtain ⟨rest, frame, frames⟩ := Array.exists_push_of_ne_empty (reached.onCourse compiled code).running
    have innermost : machine.frames.back? = some frame := by rw [frames, Array.back?_push]
    exact (Exec.cycle_natives innermost stepped).trans ih
  | tick _ _ ih => exact ih

/-- Runtime errors are reported on the line of the instruction that failed. Of any machine whose functions come from source
texts, a run that fails does so at an instruction of the innermost frame, which has a line in the table of its function; the
error is on this line if native functions leave the lines of their errors open, and what a native function reports on another
line is passed on. -/
theorem faults_on_failing_line {source : String} {script : Proto} (compiled : compileSource source = .ok script)
    {initial after : Machine State} (code : initial.FromSource) (room : 1 ≤ initial.config.maxFrames) {fuel : Nat}
    {error : RuntimeError} (failed : Exec.interpret fuel script initial = .error error after) :
    ∃ last failing frame, Reached script initial last ∧ Exec.cycle last = .error error failing ∧
      last.frames.back? = some frame ∧ 1 ≤ frame.function.chunk.lineAt frame.ip ∧
      ((∀ body ∈ initial.natives, ∀ args store reported final, body args store = .error reported final →
        reported.span.line = 0) → error.span.line = frame.function.chunk.lineAt frame.ip) ∧
      ∀ reported, last.Reports frame reported → reported.span.line ≠ 0 → error = reported := by
  obtain ⟨failing, rfl, early | ⟨last, reached, fails⟩⟩ := Reached.of_failed failed
  · have yields := code.start compiled
    rw [Exec.Yields, early] at yields
    have none : initial.config.maxFrames = 0 := yields.2
    omega
  · have onCourse := reached.onCourse compiled code
    obtain ⟨rest, frame, frames⟩ := Array.exists_push_of_ne_empty onCourse.running
    have innermost : last.frames.back? = some frame := by rw [frames, Array.back?_push]
    have here := onCourse.frames frame (frames ▸ Array.mem_push_self)
    refine ⟨last, failing, frame, reached, fails, innermost, here.origin.lineAt here.reachable, fun silent => ?_,
      fun reported reports line => ?_⟩
    · rcases Exec.cycle_places innermost fails with line | ⟨named, body, listed, args, store, final, reports⟩
      · exact line
      · rw [reached.natives compiled code] at listed
        exact absurd (silent body listed args store error final reports) named
    · obtain ⟨final, fails'⟩ := Exec.cycle_reports innermost reports line
      rw [fails] at fails'
      cases fails'
      rfl

/-- A call of what is no function, on the second line. -/
theorem faults_on_failing_line_call_nil : ∃ script error, ∃ after last : Machine Unit, ∃ frame,
    compileSource "1;\nnil();" = .ok script ∧ Exec.interpret 100 script (.fresh {}) = .error error after ∧
      Reached script (.fresh {}) last ∧ last.frames.back? = some frame ∧
      error.span.line = frame.function.chunk.lineAt frame.ip := by
  obtain ⟨script, compiled⟩ := @exists_script "1;\nnil();" (by decide +kernel)
  have fails : ((.fresh {} : Machine Unit).interpretSource 100 "1;\nnil();").1.result? = some (.error .notCallable) := by
    decide +kernel
  rw [Machine.interpretSource_eq compiled] at fails
  obtain ⟨error, failed, -⟩ := Machine.outcomeOf_error fails
  obtain ⟨last, -, frame, reached, -, innermost, -, line, -⟩ :=
    faults_on_failing_line compiled (.fresh {}) (by decide) failed
  refine ⟨script, error, _, last, frame, compiled, failed, reached, innermost,
    line fun body listed args store reported final reports => ?_⟩
  obtain rfl : body = Machine.clock := Array.mem_singleton.mp listed
  cases reports

end StackScript
