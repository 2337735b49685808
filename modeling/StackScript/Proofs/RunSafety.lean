import StackScript.Proofs.SourceCode
import StackScript.Proofs.StepSafety

/-!
Whole runs. The machines between the steps of a run are those that are reached from the start of a script by steps, while
time passes. For a source text that compiles, all of them are sound, so that a run only ever raises the faults that the
script is to blame for.
-/

namespace StackScript

variable {State : Type} {script : Proto} {initial machine after : Machine State} {ledger : Ledger} {known : Option String}
  {fuel : Nat} {flow : Flow} {error : RuntimeError} {op : Opcode} {fault : Fault}
  {result : EStateM.Result RuntimeError (Machine State) Flow}

/-- The machines between the steps of a run of the script, whatever the clock shows. -/
inductive Reached (script : Proto) (initial : Machine State) : Machine State → Prop where
  | start {machine : Machine State} (started : Exec.start script initial = .ok () machine) : Reached script initial machine
  | step {machine after : Machine State} (reached : Reached script initial machine)
      (stepped : Exec.cycle machine = .ok .running after) : Reached script initial after
  | tick {machine : Machine State} (reached : Reached script initial machine) (now : Float) :
      Reached script initial { machine with store := { machine.store with now } }

theorem Machine.fresh_resting (config : Config) : Resting (fresh config : Machine State) := by
  have only {ref : Ref} {object : Object} (found : (fresh config : Machine State).heap.get? ref = some object) :
      object = .native ⟨"clock", some 0, .listed 0⟩ := by
    change (({} : Heap).push _).get? ref = _ at found
    rw [Heap.get?_push] at found
    split at found
    · exact (Option.some.inj found).symm
    · cases found
  have clock_at : (fresh config : Machine State).heap.get? 0 = some (.native ⟨"clock", some 0, .listed 0⟩) := rfl
  refine ⟨rfl, ⟨fun _ => .ordinary, fun _ => .function⟩, ⟨⟨?_, ?_, nofun, rfl, [], .nil, .nil, nofun, ?_⟩, rfl, nofun⟩⟩
  · intro ref object found
    rw [only found]
    rfl
  · intro name value found
    have found : ((∅ : Table).insert "clock" (.object 0))[name]? = some value := found
    rw [Std.TreeMap.getElem?_insert] at found
    split at found
    · cases found
      exact Heap.isValue_of_get? clock_at rfl
    · simp at found
  · intro ref index next found
    cases only found

def Heap.AllClosed (heap : Heap) : Prop :=
  ∀ ref index next, heap.get? ref ≠ some (.upvalue ⟨.open index, next⟩)

theorem Typed.entries_nil (typed : Typed ledger [] known machine) :
    OpenOk ledger [] machine.heap machine.openUpvalues [] := by
  obtain ⟨entries, upvalues⟩ := typed.upvalues
  have empty : entries = [] := List.eq_nil_iff_forall_not_mem.mpr fun entry member =>
    absurd (upvalues.inside member) (Nat.not_lt_zero _)
  exact empty ▸ upvalues

theorem Resting.allClosed (resting : Resting machine) : machine.heap.AllClosed := by
  obtain ⟨ledger, typed⟩ := resting.typed
  exact fun ref index next found => nomatch typed.entries_nil.complete ref index next found

theorem Resting.openUpvalues (resting : Resting machine) : machine.openUpvalues = none := by
  obtain ⟨ledger, typed⟩ := resting.typed
  exact typed.entries_nil.chain.head

theorem Resting.stack (resting : Resting machine) : machine.stack = #[] := by
  obtain ⟨ledger, typed⟩ := resting.typed
  exact Array.size_eq_zero_iff.mp typed.stack.size

theorem Rooted.clear {layout : List Slot}
    (rooted : Rooted ledger layout known machine) (closed : machine.heap.AllClosed) : Resting machine.clear := by
  refine ⟨rfl, ledger, ⟨⟨rooted.heap, rooted.globals, nofun, rooted.natives, [], .nil, .nil, nofun, ?_⟩, rfl, nofun⟩⟩
  exact fun ref index next found => absurd found (closed ref index next)

theorem Resting.start (resting : Resting initial) (verified : VerifiedScript script) :
    (Exec.start script).Yields initial (fun fault after => fault = .stackOverflow ∧ Stranded initial.heap after)
      fun _ after => Sound after := by
  obtain ⟨ledger, typed⟩ := resting.typed
  obtain ⟨frames, ledger, typed⟩ := typed.toRooted.clear resting.allClosed
  obtain ⟨arity, shapes, covering⟩ := verified
  have holds : (Content.function script).Holds ledger (initial.heap.push (.function script)) (.object initial.heap.size) :=
    ⟨_, rfl, Heap.get?_push_self _ _⟩
  have typed : Typed ledger [⟨.function script, false⟩] none
      ((initial.clear.addObject (.function script)).push (.object initial.heap.size)) :=
    typed.pushNew (.function script) _ nofun trivial holds
  have slot : Exec.slotBelow 0 ((initial.clear.addObject (.function script)).push (.object initial.heap.size)) =
      .ok 0 ((initial.clear.addObject (.function script)).push (.object initial.heap.size)) :=
    Exec.slotBelow_eq Nat.one_pos
  refine .afterwards rfl (.afterwards (Exec.alloc_eq _) (.afterwards rfl ?_))
  refine .ite_neg (by rw [arity]; exact fun differs => differs rfl) (.reading (.reading (.ite (fun _ => ?_) fun _ => ?_)))
  · exact .failed rfl ⟨rfl, typed.stranded (.push nofun)⟩
  · refine .afterwards slot (.of_ok rfl ?_)
    refine ⟨[⟨.function, 0, .object initial.heap.size, []⟩], ledger, #[], _, [], ⟨[⟨.function script, false⟩], none⟩, rfl, .nil, rfl,
      ⟨shapes, ⟨⟨_, covering⟩, nofun, nofun, rfl⟩, ?_, fun isMethod => absurd rfl isMethod⟩, typed.congr rfl rfl rfl rfl rfl⟩
    exact covering.entered 0 _ ⟨rfl, .refl _⟩

namespace Exec

theorem interpret_ok (ran : interpret fuel script initial = .ok flow after) :
    ∃ machine, start script initial = .ok () machine ∧ run fuel machine = .ok flow after := by
  unfold interpret aborting at ran
  cases started : start script initial with
  | error error failing =>
    rw [bind_error started] at ran
    cases ran
  | ok _ machine =>
    rw [bind_eq started] at ran
    cases done : run fuel machine with
    | ok flow final =>
      rw [done] at ran
      cases ran
      exact ⟨machine, rfl, done⟩
    | error error failing =>
      rw [done] at ran
      cases ran

theorem interpret_error (failed : interpret fuel script initial = .error error after) :
    ∃ failing, after = failing.abort error ∧ (start script initial = .error error failing ∨
      ∃ machine, start script initial = .ok () machine ∧ run fuel machine = .error error failing) := by
  unfold interpret aborting at failed
  cases started : start script initial with
  | error early failing =>
    rw [bind_error started] at failed
    cases failed
    exact ⟨failing, rfl, .inl rfl⟩
  | ok _ machine =>
    rw [bind_eq started] at failed
    cases done : run fuel machine with
    | ok flow final =>
      rw [done] at failed
      cases failed
    | error late failing =>
      rw [done] at failed
      cases failed
      exact ⟨failing, rfl, .inr ⟨machine, rfl, done⟩⟩

end Exec

namespace Reached

theorem sound (resting : Resting initial) (verified : VerifiedScript script) (reached : Reached script initial machine) :
    Sound machine := by
  induction reached with
  | start started =>
    have yields := resting.start verified
    rw [Exec.Yields, started] at yields
    exact yields
  | step _ stepped ih =>
    obtain ⟨_, _, -, -, yields⟩ := ih.cycle
    rw [Exec.Yields, stepped] at yields
    exact yields.leaves
  | tick _ now ih => exact ih.withTime now

theorem run (reached : Reached script initial machine) (fuel : Nat) :
    (∀ after, Exec.run fuel machine = .ok .running after → Reached script initial after) ∧
      (∀ after, Exec.run fuel machine = .ok .halted after →
        ∃ last, Reached script initial last ∧ Exec.cycle last = .ok .halted after) ∧
      ∀ error after, Exec.run fuel machine = .error error after →
        ∃ last, Reached script initial last ∧ Exec.cycle last = .error error after := by
  induction fuel generalizing machine with
  | zero =>
    refine ⟨fun after ran => ?_, nofun, nofun⟩
    cases ran
    exact reached
  | succ fuel ih =>
    cases stepped : Exec.cycle machine with
    | ok flow between =>
      rw [show Exec.run (fuel + 1) machine = _ from Exec.bind_eq stepped]
      cases flow with
      | running => exact ih (reached.step stepped)
      | halted =>
        refine ⟨nofun, fun after ran => ?_, nofun⟩
        cases ran
        exact ⟨machine, reached, stepped⟩
    | error error between =>
      rw [show Exec.run (fuel + 1) machine = .error error between from Exec.bind_error stepped]
      refine ⟨nofun, nofun, fun _ after ran => ?_⟩
      cases ran
      exact ⟨machine, reached, stepped⟩

theorem of_running (ran : Exec.interpret fuel script initial = .ok .running after) :
    Reached script initial after := by
  obtain ⟨machine, started, ran⟩ := Exec.interpret_ok ran
  exact ((Reached.start started).run fuel).1 after ran

theorem of_halted (halted : Exec.interpret fuel script initial = .ok .halted after) :
    ∃ last, Reached script initial last ∧ Exec.cycle last = .ok .halted after := by
  obtain ⟨machine, started, ran⟩ := Exec.interpret_ok halted
  exact ((Reached.start started).run fuel).2.1 after ran

theorem of_failed
    (failed : Exec.interpret fuel script initial = .error error after) :
    ∃ failing, after = failing.abort error ∧ (Exec.start script initial = .error error failing ∨
      ∃ last, Reached script initial last ∧ Exec.cycle last = .error error failing) := by
  obtain ⟨failing, aborted, early | ⟨machine, started, ran⟩⟩ := Exec.interpret_error failed
  · exact ⟨failing, aborted, .inl early⟩
  · exact ⟨failing, aborted, .inr (((Reached.start started).run fuel).2.2 error failing ran)⟩

end Reached

/-- The faults that a script can be to blame for. -/
def Fault.IsOfScript : Fault → Prop
  | .undefinedVariable _ | .undefinedProperty _ | .notCallable | .wrongArity _ _ | .stackOverflow => True
  | .type .operandNotNumber | .type .operandsNotNumbers | .type .operandsNotAddable => True
  | .type .methodsNeedInstance | .type .propertiesNeedInstance | .type .fieldsNeedInstance => True
  | .type .superclassNotClass => True
  | _ => False

theorem Opcode.MayRaise.isOfScript (raises : op.MayRaise fault) : fault.IsOfScript := by
  unfold Opcode.MayRaise at raises
  split at raises <;> trivial

theorem Opcode.MayRaise.inherits (raises : op.MayRaise (.type .superclassNotClass)) : op = .inherit := by
  cases op <;> first | rfl | exact raises.elim

/-- Compiled code never goes wrong. A step of its run raises only faults that its instruction may raise, and a whole run
raises only those that the script is to blame for. -/
theorem compiled_code_safe {source : String} {script : Proto} (compiled : compileSource source = .ok script)
    (config : Config) :
    (∀ machine : Machine State, Reached script (.fresh config) machine →
      ∃ frame op, machine.frames.back? = some frame ∧ frame.function.chunk.OpAt frame.ip op ∧
        ∀ error after, Exec.cycle machine = .error error after →
          op.MayRaise error.fault ∧ error.fault.IsOfScript ∧ (error.fault = .type .superclassNotClass → op = .inherit)) ∧
      ∀ fuel error (after : Machine State),
        Exec.interpret fuel script (.fresh config) = .error error after → error.fault.IsOfScript := by
  have verified := compileSource_verified compiled
  have steps {machine : Machine State} (reached : Reached script (.fresh config) machine) :
      ∃ frame op, machine.frames.back? = some frame ∧ frame.function.chunk.OpAt frame.ip op ∧
        ∀ error after, Exec.cycle machine = .error error after → op.MayRaise error.fault := by
    obtain ⟨frame, op, innermost, op_at, yields⟩ := (reached.sound (Machine.fresh_resting config) verified).cycle
    refine ⟨frame, op, innermost, op_at, fun error after failed => ?_⟩
    rw [Exec.Yields, failed] at yields
    exact yields.1
  refine ⟨fun machine reached => ?_, fun fuel error after failed => ?_⟩
  · obtain ⟨frame, op, innermost, op_at, raises⟩ := steps reached
    refine ⟨frame, op, innermost, op_at, fun error after failed => ?_⟩
    have raises := raises error after failed
    exact ⟨raises, raises.isOfScript, fun same => (same ▸ raises).inherits⟩
  · obtain ⟨failing, -, early | ⟨last, reached, late⟩⟩ := Reached.of_failed failed
    · have resting : Resting (.fresh config : Machine State) := Machine.fresh_resting config
      have yields := resting.start verified
      rw [Exec.Yields, early] at yields
      rw [yields.1]
      trivial
    · obtain ⟨_, _, -, -, raises⟩ := steps reached
      exact (raises error failing late).isOfScript

/-- How far a source text got, or the fault that it failed with while it ran. -/
def Machine.Outcome.result? : Machine.Outcome → Option (Except Fault Flow)
  | .running => some (.ok .running)
  | .finished => some (.ok .halted)
  | .failed (.runtime error) => some (.error error.fault)
  | .failed _ => none

theorem Machine.interpretSource_eq {source : String} (compiled : compileSource source = .ok script) (fuel : Nat) :
    machine.interpretSource fuel source = outcomeOf (Exec.interpret fuel script machine) := by
  simp only [interpretSource, compiled]

theorem Machine.outcomeOf_error
    (failed : (outcomeOf result).1.result? = some (.error fault)) :
    ∃ error, result = .error error (outcomeOf result).2 ∧ error.fault = fault := by
  cases result with
  | ok flow after => cases flow <;> cases failed
  | error error after =>
    cases failed
    exact ⟨error, rfl, rfl⟩

theorem Machine.outcomeOf_ok
    (ran : (outcomeOf result).1.result? = some (.ok flow)) : result = .ok flow (outcomeOf result).2 := by
  cases result with
  | ok flow after => cases flow <;> cases ran <;> rfl
  | error error after => cases ran

/-- A method that the superclass does not have: the fault is the script's. -/
theorem compiled_code_safe_missing_method : ∃ script error, ∃ after : Machine Unit,
    compileSource "class A {} class B < A { m() { return super.m(); } } B().m();" = .ok script ∧
      Exec.interpret 100 script (.fresh {}) = .error error after ∧ error.fault = .undefinedProperty "m" ∧
      error.fault.IsOfScript := by
  obtain ⟨script, compiled⟩ := @exists_script "class A {} class B < A { m() { return super.m(); } } B().m();"
    (by decide +kernel)
  have fails : ((.fresh {} : Machine Unit).interpretSource 100
      "class A {} class B < A { m() { return super.m(); } } B().m();").1.result? =
      some (.error (.undefinedProperty "m")) := by decide +kernel
  rw [Machine.interpretSource_eq compiled] at fails
  obtain ⟨error, failed, fault⟩ := Machine.outcomeOf_error fails
  exact ⟨script, error, _, compiled, failed, fault, (compiled_code_safe compiled {}).2 100 error _ failed⟩

end StackScript
