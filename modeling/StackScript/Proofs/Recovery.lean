import StackScript.Proofs.OpenUpvalues

/-!
What a run that fails leaves behind. The stacks are cleared, but no upvalue is closed: a captured variable whose scope
the fault cut short stays open, and reading it later finds whatever lies in its slot by then. Variables whose scopes had
ended keep their values. So nothing is lost exactly if the list of open upvalues was empty when the run failed.
-/

namespace StackScript

variable {State : Type} {machine after : Machine State}

theorem Machine.abort_eq (error : RuntimeError) (machine : Machine State) :
    ∃ events, machine.abort error = { machine.clear with events } := by
  unfold Machine.abort Machine.report
  split
  · exact ⟨_, rfl⟩
  · exact ⟨_, rfl⟩

theorem Resting.withEvents (resting : Resting machine) (events : Array Event) : Resting { machine with events } := by
  obtain ⟨frames, ledger, typed⟩ := resting
  exact ⟨frames, ledger, typed.congr rfl rfl rfl rfl rfl⟩

theorem OpenListed.allClosed_iff (listed : OpenListed machine) :
    machine.heap.AllClosed ↔ machine.openUpvalues = none := by
  obtain ⟨entries, chain, -, -, complete⟩ := listed
  constructor
  · intro closed
    cases entries with
    | nil => exact chain.head
    | cons entry entries =>
      obtain ⟨next, found⟩ := chain.found List.mem_cons_self
      exact absurd found (closed entry.1 entry.2 next)
  · intro empty ref slot next found
    rw [empty] at chain
    cases chain
    cases complete ref slot next found

theorem Heap.SameUpvalues.allClosed_iff {before after : Heap} (same : before.SameUpvalues after) :
    after.AllClosed ↔ before.AllClosed :=
  ⟨fun closed ref slot next found => closed ref slot next ((same ref _).mpr found),
    fun closed ref slot next found => closed ref slot next ((same ref _).mp found)⟩

theorem Stranded.abort {before : Heap} (stranded : Stranded before machine) (error : RuntimeError) :
    before.SameUpvalues (machine.abort error).heap ∧ (before.AllClosed → Resting (machine.abort error)) := by
  obtain ⟨events, aborted⟩ := machine.abort_eq error
  obtain ⟨ledger, layout, rooted⟩ := stranded.rooted
  rw [aborted]
  refine ⟨stranded.upvalues, fun closed => ?_⟩
  exact (rooted.clear (stranded.upvalues.allClosed_iff.mpr closed)).withEvents events

/-- A run that fails leaves the upvalues as the failing step found them. None is left open exactly if no captured variable
was in scope, and then the machine is as good as new; a variable that is left open later reads whatever lies in its slot,
and one that is closed keeps its value. -/
theorem failed_run_keeps_upvalues {source : String} {script : Proto} (compiled : compileSource source = .ok script)
    {initial : Machine State} (resting : Resting initial) {fuel : Nat} {error : RuntimeError}
    (failed : Exec.interpret fuel script initial = .error error after) :
    ∃ last failing, after = failing.abort error ∧
      (last = initial ∧ Exec.start script last = .error error failing ∨
        Reached script initial last ∧ Exec.cycle last = .error error failing) ∧
      last.heap.SameUpvalues after.heap ∧
      (after.heap.AllClosed ↔ last.openUpvalues = none) ∧
      (last.openUpvalues = none → Resting after) ∧
      ∀ (ref : Ref) (later : Machine State), later.heap.get? ref = after.heap.get? ref →
        (∀ slot next, after.heap.get? ref = some (.upvalue ⟨.open slot, next⟩) →
          Exec.readUpvalue ref later = match later.stack[slot]? with
            | some value => .ok value later
            | none => .error ⟨.access (.slotOffStack slot), .nowhere⟩ later) ∧
        ∀ value next, after.heap.get? ref = some (.upvalue ⟨.closed value, next⟩) →
          Exec.readUpvalue ref later = .ok value later := by
  have verified := compileSource_verified compiled
  obtain ⟨failing, rfl, how⟩ := Reached.of_failed failed
  -- Wherever it failed, the upvalues and what is known of them come from the last machine before.
  have last : ∃ last, (last = initial ∧ Exec.start script last = .error error failing ∨
      Reached script initial last ∧ Exec.cycle last = .error error failing) ∧
      OpenListed last ∧ Stranded last.heap failing := by
    rcases how with early | ⟨last, reached, late⟩
    · have yields := resting.start verified
      rw [Exec.Yields, early] at yields
      obtain ⟨ledger, typed⟩ := resting.typed
      exact ⟨initial, .inl ⟨rfl, early⟩, typed.openListed, yields.2⟩
    · have sound := reached.sound resting verified
      obtain ⟨_, _, -, -, yields⟩ := sound.cycle
      rw [Exec.Yields, late] at yields
      obtain ⟨_, _, _, _, _, _, _, poised⟩ := sound.poised
      exact ⟨last, .inr ⟨reached, late⟩, poised.typed.openListed, yields.2⟩
  obtain ⟨last, failed, listed, stranded⟩ := last
  obtain ⟨same, rests⟩ := stranded.abort error
  refine ⟨last, failing, rfl, failed, same, same.allClosed_iff.trans listed.allClosed_iff, ?_, ?_⟩
  · exact fun empty => rests (listed.allClosed_iff.mpr empty)
  · intro ref later kept
    refine ⟨fun slot next found => ?_, fun value next found => ?_⟩
    · exact Exec.readUpvalue_open (kept.trans found)
    · exact Exec.readUpvalue_closed (kept.trans found)

/-- The fault of an undefined variable strikes while a captured one is in scope: its upvalue stays open. -/
theorem failed_run_keeps_upvalues_cut_short : ∃ script error, ∃ after last : Machine Unit,
    compileSource "var g; { var a = true; fun f() { return a; } g = f; nope; }" = .ok script ∧
      Exec.interpret 100 script (.fresh {}) = .error error after ∧
      after.heap.fetchUpvalue 3 = .ok ⟨.open 1, none⟩ ∧ ¬after.heap.AllClosed ∧
      Reached script (.fresh {}) last ∧ last.openUpvalues ≠ none ∧ last.heap.SameUpvalues after.heap := by
  obtain ⟨script, compiled⟩ := @exists_script "var g; { var a = true; fun f() { return a; } g = f; nope; }"
    (by decide +kernel)
  have fails : ((.fresh {} : Machine Unit).interpretSource 100
      "var g; { var a = true; fun f() { return a; } g = f; nope; }").1.result? =
      some (.error (.undefinedVariable "nope")) := by decide +kernel
  have opened : ((.fresh {} : Machine Unit).interpretSource 100
      "var g; { var a = true; fun f() { return a; } g = f; nope; }").2.heap.fetchUpvalue 3 = .ok ⟨.open 1, none⟩ := by
    decide +kernel
  rw [Machine.interpretSource_eq compiled] at fails opened
  obtain ⟨error, failed, -⟩ := Machine.outcomeOf_error fails
  obtain ⟨last, failing, -, how, same, closed, -⟩ := failed_run_keeps_upvalues compiled (Machine.fresh_resting {}) failed
  have left_open : ¬Heap.AllClosed (Machine.outcomeOf (Exec.interpret 100 script (.fresh {} : Machine Unit))).2.heap :=
    fun none_open => none_open 3 1 none (Heap.get?_of_fetchUpvalue opened)
  have listed : last.openUpvalues ≠ none := fun empty => left_open (closed.mpr empty)
  rcases how with ⟨rfl, -⟩ | ⟨reached, -⟩
  · exact absurd rfl listed
  · exact ⟨script, error, _, last, compiled, failed, opened, left_open, reached, listed, same⟩

end StackScript
