import StackScript.Proofs.GuidedSteps
import StackScript.Proofs.RunSafety

/-!
Sessions. An embedding program makes natives and host objects known to a machine and runs source texts on it one after the
other; some of them fail half-way. At every moment the heap is in order, and steps only ever append to it, apart from
changes inside classes, instances and upvalues.
-/

namespace StackScript

variable {State : Type} {classes : Ref → Option Class} {frozen : Frozen} {rest : Array Frame} {frame : Frame}
  {below : List Value} {shape : Shape} {before machine after : Machine State}

theorem Moves.guides (moves : Moves classes rest frame below before .running after) (outer : Waiting rest frame.base)
    (base : below.length = frame.base) (room : rest.size < before.config.maxFrames) (same : after.config = before.config) :
    ∃ rest' frame' shape', Guides classes rest' frame' shape' after := by
  rw [← same] at room
  cases moves with
  | proceeds guided proceeds =>
    cases proceeds with
    | on goes ripe frames stacked shown making =>
      exact ⟨_, _, _, frames, outer, room, ⟨_, _, _, guided.move _, goes.1⟩, ⟨_, _, stacked, base, shown⟩, making, ripe⟩
    | writes goes ripe frames _ _ stacked lower shown making =>
      exact ⟨_, _, _, frames, outer, room, ⟨_, _, _, guided.move _, goes.1⟩, ⟨_, _, stacked, lower.trans base, shown⟩, making, ripe⟩
    | @calls ip kept low own function closure goes plain grounded vetted count room' frames stacked lower =>
      obtain ⟨manner, tags, shapes, slots, callee, meets, size, free⟩ := vetted.guided closure (below.length + kept.length)
      refine ⟨_, _, ⟨slots, none⟩, frames, ?_, ?_, ⟨manner, tags, shapes, callee, meets⟩, ⟨_, own, stacked, ?_, ?_⟩,
        (fun _ _ never => by cases never), (Clear.of_plain free).ripe⟩
      · rw [base]
        exact .push outer (guided.move ip) plain grounded goes.1
      · rw [Array.size_push, same]
        exact room'
      · rw [List.length_append, lower]
      · exact .of_plain (count.trans size.symm) free
  | @returns result _ waits frames _ stacked =>
    -- The frame below goes on with the result on top of what it kept.
    generalize frame.base = height at outer base
    cases outer with
    | none => exact absurd rfl waits
    | @push rest caller kept manner tags shapes outer guided plain grounded meets =>
      rw [Array.size_push] at room
      refine ⟨rest, caller, ⟨kept ++ [.plain], none⟩, frames, outer, Nat.lt_of_succ_lt room, ⟨manner, tags, shapes, guided, meets⟩,
        ⟨below.take caller.base, below.drop caller.base ++ [result], ?_, ?_, .of_plain ?_ plain.append⟩,
        (fun _ _ never => by cases never), (Clear.of_plain plain.append).ripe⟩
      · rwa [← List.append_assoc, List.take_append_drop]
      · rw [List.length_take]
        omega
      · simp only [List.length_append, List.length_drop, List.length_singleton]
        omega

/-- Either no code is being run, or its shapes guide it. -/
def Conducted (classes : Ref → Option Class) (machine : Machine State) : Prop :=
  machine.frames = #[] ∨ ∃ rest frame shape, Guides classes rest frame shape machine

/-- Something has happened beside a run. The stacks are the same, and no global has become a frozen class. -/
structure Machine.Aside (classes : Ref → Option Class) (before after : Machine State) : Prop extends before.Beside after where
  leads : before.Leads ⟨classes, none⟩ after
  globals : ∀ (name : String) ref, after.globals[name]? = some (.object ref) →
    before.globals[name]? = some (.object ref) ∨ classes ref = none

namespace Machine.Aside

theorem refl (sane : machine.Sane ⟨classes, none⟩) : machine.Aside classes machine :=
  ⟨.refl machine, .refl sane, fun _ _ => .inl⟩

theorem trans {between : Machine State} (one : machine.Aside classes between) (two : between.Aside classes after) :
    machine.Aside classes after := by
  refine ⟨one.toBeside.trans two.toBeside, one.leads.trans two.leads, fun name ref found => ?_⟩
  rcases two.globals name ref found with old | free
  · exact one.globals name ref old
  · exact .inr free

theorem of_same (sane : machine.Sane ⟨classes, none⟩) (beside : machine.Beside after) (heap : after.heap = machine.heap)
    (globals : after.globals = machine.globals) (natives : after.natives = machine.natives)
    (config : after.config = machine.config) : machine.Aside classes after := by
  refine ⟨beside, sane.restack heap globals natives config ?_, fun name ref found => ?_⟩
  · rw [beside.stack]
    exact sane.stack
  · rw [globals] at found
    exact .inl found

theorem define {between : Machine State} {object : Object} (leads : machine.Leads ⟨classes, none⟩ between)
    (beside : machine.Beside between) (globals : between.globals = machine.globals)
    (heap : between.heap = machine.heap.push object) (keeps : machine.heap.Keeps classes) (name : String) :
    machine.Aside classes (between.setGlobal name (.object machine.heap.size)) := by
  have has : between.heap.Has (.object machine.heap.size) := by
    rw [heap]
    exact Heap.has_object (Heap.get?_push_self _ _)
  have defined := leads.sane.setGlobal name has fun _ never => by cases never
  refine ⟨⟨beside.stack, beside.frames⟩, leads.trans defined, fun other ref found => ?_⟩
  have found : (between.globals.insert name (.object machine.heap.size))[other]? = some (.object ref) := found
  rw [Std.TreeMap.getElem?_insert, globals] at found
  split at found
  · cases found
    exact .inr keeps.new
  · exact .inl found

end Machine.Aside

theorem Guides.aside (guides : Guides classes rest frame shape machine) (aside : machine.Aside classes after) :
    Guides classes rest frame shape after := by
  obtain ⟨below, own, stacked, base, shown⟩ := guides.stack
  refine ⟨aside.frames.trans guides.frames, guides.outer, aside.leads.config ▸ guides.room, guides.code,
    ⟨below, own, aside.stack.trans stacked, base, shown.mono aside.leads.evolves⟩, fun name ref known found => ?_, guides.ripe⟩
  rcases aside.globals name ref found with old | free
  · exact guides.making name ref known old
  · exact free

theorem Conducted.aside (conducted : Conducted classes machine) (aside : machine.Aside classes after) :
    Conducted classes after := by
  rcases conducted with idle | ⟨rest, frame, shape, guides⟩
  · exact .inl (aside.frames.trans idle)
  · exact .inr ⟨rest, frame, shape, guides.aside aside⟩

open Exec

theorem anchoring_upholds {α : Type} {action : Exec State α} {post : α → Machine State → Prop}
    (upholds : action.Upholds frozen machine post) (span : Span) : (anchoring span action).Upholds frozen machine post :=
  Yields.anchoring upholds span

theorem Machine.Sane.trace (sane : machine.Sane ⟨classes, none⟩) (frame : Frame) : machine.Aside classes (machine.trace frame) := by
  obtain ⟨events, traced⟩ := machine.trace_eq frame
  rw [traced]
  exact .of_same sane ⟨rfl, rfl⟩ rfl rfl rfl rfl

theorem Guides.cycle (guides : Guides classes rest frame shape machine) (sane : machine.Sane ⟨classes, none⟩) :
    ∃ below own, machine.Stacks (below ++ own) ∧ below.length = frame.base ∧
      Exec.cycle.Upholds ⟨classes, none⟩ machine (Moves classes rest frame below (machine.trace frame)) := by
  have traced := sane.trace frame
  obtain ⟨below, own, stacked, base, moves⟩ := (guides.aside traced).moves traced.leads.sane
  refine ⟨below, own, traced.stack.symm.trans stacked, base, ?_⟩
  refine .looking (frame_eq (by rw [guides.frames, Array.back?_push])) (.after_ok rfl traced.leads ?_)
  exact anchoring_upholds (moves _) _

theorem Conducted.cycle (conducted : Conducted classes machine) (sane : machine.Sane ⟨classes, none⟩) :
    Exec.cycle.Upholds ⟨classes, none⟩ machine fun _ => Conducted classes := by
  rcases conducted with idle | ⟨rest, frame, shape, guides⟩
  · have noFrame : Exec.frame machine = .error Exec.noFrame machine := by simp only [Exec.frame, idle]; rfl
    exact .after_error noFrame (.refl sane)
  · obtain ⟨below, own, -, base, upholds⟩ := guides.cycle sane
    refine upholds.mono fun flow after leads moves => ?_
    cases flow with
    | running =>
      have traced : (machine.trace frame).config = machine.config := (sane.trace frame).leads.config
      exact .inr (moves.guides guides.outer base (traced ▸ guides.room) (leads.config.trans traced.symm))
    | halted =>
      cases moves with
      | halts _ frames _ => exact .inl frames

theorem Machine.Sane.start (sane : machine.Sane ⟨classes, none⟩) {script : Proto} (vetted : Vetted script) :
    (Exec.start script).Upholds ⟨classes, none⟩ machine fun _ => Conducted classes := by
  have cleared : machine.Leads ⟨classes, none⟩ machine.clear := sane.restack rfl rfl rfl rfl nofun
  have added : machine.clear.Leads ⟨classes, none⟩ (machine.clear.addObject (.function script)) := cleared.sane.addObject trivial vetted
  have pushed := added.sane.push (Heap.has_object (Heap.get?_push_self machine.heap (.function script)))
  have stacked : ((machine.clear.addObject (.function script)).push (.object machine.heap.size)).Stacks
      ([] ++ .object machine.heap.size :: []) := rfl
  refine .after_ok rfl cleared (.after_ok (alloc_eq _) added (.after_ok rfl pushed ?_))
  refine (callFunction_upholds pushed.sane stacked vetted none .nowhere).mono fun _ after leads calls => ?_
  cases calls with
  | returned frames _ => exact .inl frames
  | @entered function closure own vetted count room frames stacked =>
    obtain ⟨manner, tags, shapes, slots, guided, meets, size, free⟩ := vetted.guided closure 0
    have room : 0 < after.config.maxFrames := leads.config ▸ room
    exact .inr ⟨#[], _, ⟨slots, none⟩, frames, .none, room, ⟨manner, tags, shapes, guided, meets⟩,
      ⟨[], own, stacked, rfl, .of_plain (count.trans size.symm) free⟩, (fun _ _ never => by cases never), (Clear.of_plain free).ripe⟩

/-- The machines that an embedding program has between two steps. It may make natives, host classes and host objects known,
put host objects into globals, ask for events, and start a source text, whether an earlier one has ended or not; meanwhile time
passes. A source text that does not compile leaves the machine alone, and one that fails clears the stacks. -/
inductive Session : Machine State → Prop where
  | fresh (config : Config) : Session (.fresh config)
  | native {machine : Machine State} (session : Session machine) (name : String) (arity : Option Nat) {body : NativeBody State}
      (proper : body.Proper) : Session (machine.defineNative name arity body)
  | register {machine : Machine State} (session : Session machine) (cls : Host.HostClass State) :
      Session (machine.register cls)
  | object {machine : Machine State} (session : Session machine) (tag : Host.Tag) (state : State) :
      Session (machine.newObject tag state).2
  | expose {machine after : Machine State} {handle : Host.Handle} {value : Value} (session : Session machine)
      (wrapped : Machine.wrap handle machine = .ok value after) (name : String) : Session (after.setGlobal name value)
  | observe {machine : Machine State} (session : Session machine) (isObserved : Bool) : Session { machine with isObserved }
  | tick {machine : Machine State} (session : Session machine) (now : Float) :
      Session { machine with store := { machine.store with now } }
  | rejected {machine : Machine State} {source : String} {failure : Failure} (session : Session machine)
      (fails : compileSource source = .error failure) : Session (machine.reportAll failure.events)
  | start {machine after : Machine State} {source : String} {script : Proto} (session : Session machine)
      (compiled : compileSource source = .ok script) (started : Exec.start script machine = .ok () after) : Session after
  | stillborn {machine after : Machine State} {source : String} {script : Proto} {error : RuntimeError} (session : Session machine)
      (compiled : compileSource source = .ok script) (failed : Exec.start script machine = .error error after) :
      Session (after.abort error)
  | step {machine after : Machine State} {flow : Flow} (session : Session machine)
      (stepped : Exec.cycle machine = .ok flow after) : Session after
  | fault {machine after : Machine State} {error : RuntimeError} (session : Session machine)
      (failed : Exec.cycle machine = .error error after) : Session (after.abort error)

theorem Machine.clock_proper : (Machine.clock : NativeBody State).Proper :=
  fun _ _ sane _ => ⟨⟨#[], by simp⟩, sane, nofun⟩

section

variable (sane : machine.Sane ⟨classes, none⟩)
include sane

theorem Machine.Sane.tick (now : Float) :
    machine.Aside classes { machine with store := { machine.store with now } } :=
  .of_same sane ⟨rfl, rfl⟩ rfl rfl rfl rfl

theorem Machine.Sane.report (event : Event) :
    machine.Aside classes (machine.report event) := by
  unfold Machine.report
  split
  · exact .of_same sane ⟨rfl, rfl⟩ rfl rfl rfl rfl
  · exact .refl sane

theorem Machine.Sane.reportAll (events : List Event) :
    machine.Aside classes (machine.reportAll events) := by
  induction events generalizing machine with
  | nil => exact .refl sane
  | cons event events ih =>
    have reported := sane.report event
    exact reported.trans (ih reported.leads.sane)

theorem Machine.Sane.abort (error : RuntimeError) :
    machine.Leads ⟨classes, none⟩ (machine.abort error) ∧ Conducted classes (machine.abort error) := by
  have reported := sane.report ⟨.debug, "runtime error", [("error", error.text), ("frames", toString machine.frames.size)]⟩
  have cleared : Machine.Leads ⟨classes, none⟩ _ (machine.abort error) :=
    reported.leads.sane.restack rfl rfl rfl rfl fun _ member => absurd member (Array.not_mem_empty _)
  exact ⟨reported.leads.trans cleared, .inl rfl⟩

theorem Machine.Sane.native (name : String) (arity : Option Nat) {body : NativeBody State}
    (proper : body.Proper) : machine.Aside classes (machine.defineNative name arity body) := by
  have intact : (Object.native ⟨name, arity, .listed machine.natives.size⟩).Intact machine.heap := trivial
  have added := sane.addObject intact trivial
  have listed : machine.Leads ⟨classes, none⟩ (machine.addNative name arity body).2 := by
    refine ⟨added.evolves, ⟨added.sane.stack, added.sane.globals, added.sane.heap, fun other member => ?_, added.sane.classes,
      added.sane.making⟩, rfl⟩
    rcases Array.mem_push.mp member with old | rfl
    · exact sane.natives other old
    · exact proper
  exact .define listed ⟨rfl, rfl⟩ rfl rfl sane.classes name

theorem Machine.Sane.wrap {handle : Host.Handle} {value : Value}
    (wrapped : Machine.wrap handle machine = .ok value after) (name : String) :
    machine.Aside classes (after.setGlobal name value) := by
  have registered : read (·.hosts.contains handle.tag.id) machine = .ok _ machine := rfl
  rw [Machine.wrap, bind_eq registered] at wrapped
  split at wrapped
  · cases wrapped
    have intact : (Object.host handle).Intact machine.heap := trivial
    exact .define (sane.addObject intact trivial) ⟨rfl, rfl⟩ rfl rfl sane.classes name
  · cases wrapped

end

theorem Session.sane (session : Session machine) : machine.Sane .nothing ∧ Conducted (fun _ => none) machine := by
  induction session with
  | fresh config =>
    have empty : ({ config } : Machine State).Sane .nothing :=
      ⟨nofun, by simp, nofun, nofun, fun _ _ never => (by cases never), fun _ _ never => by cases never⟩
    exact ⟨(empty.native "clock" (some 0) Machine.clock_proper).leads.sane, .inl rfl⟩
  | native _ name arity proper ih =>
    have defined := ih.1.native name arity proper
    exact ⟨defined.leads.sane, ih.2.aside defined⟩
  | @register machine _ cls ih =>
    have registered : machine.Aside (fun _ => none) { machine with hosts := (machine.hosts.register cls).1 } :=
      .of_same ih.1 ⟨rfl, rfl⟩ rfl rfl rfl rfl
    have reported := registered.trans (registered.leads.sane.reportAll (machine.hosts.register cls).2)
    exact ⟨reported.leads.sane, ih.2.aside reported⟩
  | @object machine _ tag state ih =>
    have made : machine.Aside (fun _ => none) (machine.newObject tag state).2 := .of_same ih.1 ⟨rfl, rfl⟩ rfl rfl rfl rfl
    exact ⟨made.leads.sane, ih.2.aside made⟩
  | expose _ wrapped name ih =>
    have exposed := ih.1.wrap wrapped name
    exact ⟨exposed.leads.sane, ih.2.aside exposed⟩
  | @observe machine _ isObserved ih =>
    have observed : machine.Aside (fun _ => none) { machine with isObserved } := .of_same ih.1 ⟨rfl, rfl⟩ rfl rfl rfl rfl
    exact ⟨observed.leads.sane, ih.2.aside observed⟩
  | @tick machine _ now ih =>
    have ticked := ih.1.tick now
    exact ⟨ticked.leads.sane, ih.2.aside ticked⟩
  | @rejected machine _ failure _ _ ih =>
    have reported := ih.1.reportAll failure.events
    exact ⟨reported.leads.sane, ih.2.aside reported⟩
  | start _ compiled started ih =>
    obtain ⟨leads, conducted⟩ := (ih.1.start (compileSource_sealed compiled).vetted).of_ok started
    exact ⟨leads.sane, conducted⟩
  | @stillborn _ _ _ _ error _ compiled failed ih =>
    have aborted := ((ih.1.start (compileSource_sealed compiled).vetted).of_error failed).sane.abort error
    exact ⟨aborted.1.sane, aborted.2⟩
  | step _ stepped ih =>
    obtain ⟨leads, conducted⟩ := (ih.2.cycle ih.1).of_ok stepped
    exact ⟨leads.sane, conducted⟩
  | @fault _ _ error _ failed ih =>
    have aborted := ((ih.2.cycle ih.1).of_error failed).sane.abort error
    exact ⟨aborted.1.sane, aborted.2⟩

theorem Session.run (session : Session machine) (fuel : Nat) :
    (∀ flow after, Exec.run fuel machine = .ok flow after → Session after) ∧
      ∀ error after, Exec.run fuel machine = .error error after → Session (after.abort error) := by
  induction fuel generalizing machine with
  | zero =>
    refine ⟨fun flow after ran => ?_, fun error after ran => ?_⟩ <;> cases ran
    exact session
  | succ fuel ih =>
    cases stepped : Exec.cycle machine with
    | ok flow between =>
      rw [show Exec.run (fuel + 1) machine = _ from bind_eq stepped]
      cases flow with
      | running => exact ih (session.step stepped)
      | halted =>
        refine ⟨fun flow after ran => ?_, fun error after ran => ?_⟩ <;> cases ran
        exact session.step stepped
    | error error between =>
      rw [show Exec.run (fuel + 1) machine = .error error between from bind_error stepped]
      refine ⟨fun flow after ran => ?_, fun error after ran => ?_⟩ <;> cases ran
      exact session.fault stepped

theorem Session.interpretSource (session : Session machine) (fuel : Nat) (source : String) :
    Session (machine.interpretSource fuel source).2 := by
  unfold Machine.interpretSource
  cases compiled : compileSource source with
  | error failure => exact session.rejected compiled
  | ok script =>
    cases ran : Exec.interpret fuel script machine with
    | ok flow after =>
      obtain ⟨between, started, ran'⟩ := Exec.interpret_ok ran
      have further := ((session.start compiled started).run fuel).1 flow after ran'
      cases flow <;> simpa only [ran, Machine.outcomeOf] using further
    | error error after =>
      obtain ⟨failing, rfl, early | ⟨between, started, late⟩⟩ := Exec.interpret_error ran
      · simpa only [ran, Machine.outcomeOf] using session.stillborn compiled early
      · simpa only [ran, Machine.outcomeOf] using ((session.start compiled started).run fuel).2 error failing late

/-- In every state of a session nothing dangles and every object refers to objects of the right sort; a step, whether it
fails or not, only appends objects and leaves strings, functions, closures, bound methods, natives and host objects as they
are, and the other objects of the same kind. -/
theorem session_heap_intact (session : Session machine) :
    machine.Intact ∧ Exec.cycle.Yields machine (fun _ after => machine.heap.Evolves after.heap)
      fun _ after => machine.heap.Evolves after.heap := by
  obtain ⟨sane, conducted⟩ := session.sane
  refine ⟨sane.intact, Yields.mono (conducted.cycle sane) (fun _ _ leads => leads.evolves) ?_⟩
  exact fun _ _ ⟨leads, _⟩ => leads.evolves

/-- A run that fails between a class and its use leaves the machine in order, also for the next run. -/
theorem session_heap_intact_after_failure :
    let failed := ((.fresh {} : Machine Unit).interpretSource 50 "class A { m() { return this; } } var f = A().m; nope;").2
    let machine := (failed.interpretSource 10 "class B < A { n() { return super.m; } } print B().n();").2
    machine.Intact ∧ Exec.cycle.Yields machine (fun _ after => machine.heap.Evolves after.heap)
      fun _ after => machine.heap.Evolves after.heap :=
  session_heap_intact (((Session.fresh {}).interpretSource _ _).interpretSource _ _)

end StackScript
