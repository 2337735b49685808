import StackScript.Proofs.PhraseConduct

/-!
What declarations do to the scopes of the compiler, whether they go through or fail. An error can escape from any depth, and
everything on its way is left in good order: the functions around, the classes, and the nesting. Locals may be left behind,
but only new ones, so that forgetting these brings back the scope as it was.
-/

namespace StackScript.Compile

open Parse Reading Conduct

variable {before between after state : Compilation} {own : Option Nat}
variable {broken : Compilation → Prop} {i : Nat} {binding : Local} {body : Parse Unit}

/-- No local belongs to a scope further in than the current one. -/
def Compilation.Neat (state : Compilation) : Prop :=
  ∀ (i : Nat) (binding : Local), state.scope.locals[i]? = some binding → ∀ depth ∈ binding.depth, depth ≤ state.scope.depth

/-- The functions around, the classes and the nesting are as before. -/
structure Surrounded (before after : Compilation) : Prop where
  enclosing : List.Forall₂ FunctionScope.Widened before.enclosing after.enclosing
  classes : after.classes = before.classes
  nesting : after.nesting = before.nesting

structure Spared (before after : Compilation) : Prop extends Surrounded before after where
  locals : LocalsKept before.scope.locals after.scope.locals

structure BrokenOff (before after : Compilation) : Prop extends Spared before after where
  depth : after.scope.depth = before.scope.depth

structure Steady (before after : Compilation) : Prop extends BrokenOff before after where
  size : after.scope.locals.size = before.scope.locals.size

/-- The other locals belong to the current scope. -/
structure Enlarged (before after : Compilation) : Prop extends BrokenOff before after where
  fresh : ∀ (i : Nat) (binding : Local), before.scope.locals.size ≤ i → after.scope.locals[i]? = some binding →
    binding.depth = some before.scope.depth

structure Adds (own : Option Nat) (before after : Compilation) : Prop extends BrokenOff before after where
  size : after.scope.locals.size = before.scope.locals.size + 1
  newest : ∃ binding, after.scope.locals[before.scope.locals.size]? = some binding ∧ binding.depth = own

theorem LocalsKept.size_le {before after : Array Local} (kept : LocalsKept before after) : before.size ≤ after.size := by
  rcases Nat.eq_zero_or_pos before.size with empty | some
  · omega
  · obtain ⟨later, found, -⟩ := kept (before.size - 1) before[before.size - 1] (Array.getElem?_eq_getElem _)
    have inside := (Array.getElem?_eq_some_iff.mp found).1
    omega

theorem LocalsKept.shrink {before after : Array Local} (kept : LocalsKept before after) {count : Nat}
    (enough : before.size ≤ count) : LocalsKept before (after.shrink count) := by
  intro i binding found
  have inside := (Array.getElem?_eq_some_iff.mp found).1
  rw [shrink_getElem? _ (by omega)]
  exact kept i binding found

section Relations

theorem Surrounded.refl (state : Compilation) : Surrounded state state := ⟨widened_refl _, rfl, rfl⟩

theorem Surrounded.trans (one : Surrounded before between) (two : Surrounded between after) : Surrounded before after :=
  ⟨widened_trans one.enclosing two.enclosing, two.classes.trans one.classes, two.nesting.trans one.nesting⟩

theorem Spared.trans (one : Spared before between) (two : Spared between after) : Spared before after :=
  ⟨one.toSurrounded.trans two.toSurrounded, one.locals.trans two.locals⟩

theorem BrokenOff.refl (state : Compilation) : BrokenOff state state := ⟨⟨.refl state, .refl _⟩, rfl⟩

theorem BrokenOff.trans (one : BrokenOff before between) (two : BrokenOff between after) : BrokenOff before after :=
  ⟨one.toSpared.trans two.toSpared, two.depth.trans one.depth⟩

theorem Steady.refl (state : Compilation) : Steady state state := ⟨.refl state, rfl⟩

theorem Steady.trans (one : Steady before between) (two : Steady between after) : Steady before after :=
  ⟨one.toBrokenOff.trans two.toBrokenOff, two.size.trans one.size⟩

theorem Steady.enlarged (steady : Steady before after) : Enlarged before after := by
  refine ⟨steady.toBrokenOff, fun i binding above found => ?_⟩
  have inside := (Array.getElem?_eq_some_iff.mp found).1
  rw [steady.size] at inside
  omega

theorem Enlarged.trans (one : Enlarged before between) (two : Enlarged between after) : Enlarged before after := by
  refine ⟨one.toBrokenOff.trans two.toBrokenOff, fun i binding above found => ?_⟩
  by_cases inside : i < between.scope.locals.size
  · obtain ⟨earlier, found, widened⟩ := earlier_local two.locals inside found
    rw [widened.depth]
    exact one.fresh i earlier above found
  · rw [two.fresh i binding (Nat.le_of_not_lt inside) found, one.depth]

theorem Enlarged.neat (enlarged : Enlarged before after) (neat : before.Neat) : after.Neat := by
  intro i binding found depth at_depth
  rw [enlarged.depth]
  by_cases inside : i < before.scope.locals.size
  · obtain ⟨earlier, found, widened⟩ := earlier_local enlarged.locals inside found
    exact neat i earlier found depth (widened.depth ▸ at_depth)
  · rw [enlarged.fresh i binding (Nat.le_of_not_lt inside) found] at at_depth
    cases at_depth
    exact Nat.le_refl _

theorem Steady.neat (steady : Steady before after) (neat : before.Neat) : after.Neat := steady.enlarged.neat neat

theorem Adds.newest_only (adds : Adds own before after) (above : before.scope.locals.size ≤ i)
    (found : after.scope.locals[i]? = some binding) : binding.depth = own := by
  have inside := (Array.getElem?_eq_some_iff.mp found).1
  obtain ⟨newest, newest_at, depth⟩ := adds.newest
  obtain rfl : i = before.scope.locals.size := by
    rw [adds.size] at inside
    omega
  cases found.symm.trans newest_at
  exact depth

theorem Adds.enlarged (adds : Adds (some before.scope.depth) before after) : Enlarged before after :=
  ⟨adds.toBrokenOff, fun _ _ above found => adds.newest_only above found⟩

theorem Adds.neat (adds : Adds own before after) (neat : before.Neat) (shallow : ∀ depth ∈ own, depth ≤ before.scope.depth) :
    after.Neat := by
  intro i binding found depth at_depth
  rw [adds.depth]
  by_cases inside : i < before.scope.locals.size
  · obtain ⟨earlier, found, widened⟩ := earlier_local adds.locals inside found
    exact neat i earlier found depth (widened.depth ▸ at_depth)
  · rw [adds.newest_only (Nat.le_of_not_lt inside) found] at at_depth
    exact shallow depth at_depth

theorem Adds.steady (adds : Adds own before between) (steady : Steady between after) : Adds own before after := by
  obtain ⟨newest, found, depth⟩ := adds.newest
  obtain ⟨later, found, widened⟩ := steady.locals _ newest found
  exact ⟨adds.toBrokenOff.trans steady.toBrokenOff, steady.size.trans adds.size, later, found, widened.depth.trans depth⟩

theorem Steady.adds (steady : Steady before between) (adds : Adds own between after) : Adds own before after := by
  refine ⟨steady.toBrokenOff.trans adds.toBrokenOff, steady.size ▸ adds.size, ?_⟩
  rw [← steady.size]
  exact adds.newest

end Relations

/-- What phrases do that declare nothing. -/
def keeping : Conduct CompileError Compilation where
  goes before after := before.Neat → Steady before after
  fails before _ after := before.Neat → BrokenOff before after
  refl state _ := .refl state
  trans one two neat := (one neat).trans (two ((one neat).neat neat))
  fails_after one two neat := (one neat).toBrokenOff.trans (two ((one neat).neat neat))

/-- What phrases do that declare variables of the current scope. -/
def declaring : Conduct CompileError Compilation where
  goes before after := before.Neat → Enlarged before after
  fails before _ after := before.Neat → BrokenOff before after
  refl state _ := (Steady.refl state).enlarged
  trans one two neat := (one neat).trans (two ((one neat).neat neat))
  fails_after one two neat := (one neat).toBrokenOff.trans (two ((one neat).neat neat))

/-- What the body of a function does, whose own scope is dropped in the end. -/
def enclosed : Conduct CompileError Compilation where
  goes before after := before.Neat → Surrounded before after ∧ after.Neat
  fails before _ after := before.Neat → Surrounded before after
  refl state neat := ⟨.refl state, neat⟩
  trans one two neat := ⟨(one neat).1.trans (two (one neat).2).1, (two (one neat).2).2⟩
  fails_after one two neat := (one neat).1.trans (two (one neat).2)

theorem keeping_within_declaring : keeping.Within declaring :=
  ⟨fun goes neat => (goes neat).enlarged, fun fails => fails⟩

theorem declaring_within_enclosed : declaring.Within enclosed :=
  ⟨fun goes neat => ⟨(goes neat).toSurrounded, (goes neat).neat neat⟩, fun fails neat => (fails neat).toSurrounded⟩

section Closed

theorem resolveCapture_keeping (name : String) : keeping.Obeys (resolveCapture name) := by
  have steady (state : Compilation) : Steady state (state.threaded name) := by
    obtain ⟨widened, wider⟩ := thread_widened name state.scope state.enclosing
    exact ⟨⟨⟨⟨wider, rfl, rfl⟩, widened.locals⟩, widened.depth⟩, widened.size⟩
  exact resolveCapture_obeys (fun state _ => steady state) fun state _ _ => (steady state).toBrokenOff

theorem Surrounded.shallower (surrounded : Surrounded before.deeper after) : Surrounded before after.shallower := by
  refine ⟨surrounded.enclosing, surrounded.classes, ?_⟩
  change after.nesting - 1 = before.nesting
  rw [surrounded.nesting]
  rfl

theorem BrokenOff.shallower (broken : BrokenOff before.deeper after) : BrokenOff before after.shallower :=
  ⟨⟨broken.toSurrounded.shallower, broken.locals⟩, broken.depth⟩

theorem recoded_keeping (state : Compilation) (chunk : Chunk Proto) : keeping.goes state (state.recoded chunk) :=
  fun _ => ⟨⟨⟨⟨widened_refl _, rfl, rfl⟩, .refl _⟩, rfl⟩, rfl⟩

instance keeping_closed : keeping.Closed where
  toWrites := .of_recode (fun state _ _ => .refl state) (fun state chunk _ => recoded_keeping state chunk) resolveCapture_keeping
  here _ state _ := .refl state
  behind _ state _ := .refl state
  advance _ _ := ⟨⟨⟨⟨widened_refl _, rfl, rfl⟩, .refl _⟩, rfl⟩, rfl⟩

instance : keeping.Deepens where
  shallower goes neat := ⟨(goes neat).toBrokenOff.shallower, (goes neat).size⟩
  escape fails neat := (fails neat).shallower

instance declaring_closed : declaring.Closed := keeping_closed.within keeping_within_declaring

instance enclosed_closed : enclosed.Closed := declaring_closed.within declaring_within_enclosed

instance : enclosed.Deepens where
  shallower goes neat := ⟨(goes neat).1.shallower, (goes neat).2⟩
  escape fails neat := (fails neat).shallower

end Closed

section Scopes

theorem Compilation.Neat.beginScope (neat : state.Neat) : state.beginScope.Neat :=
  fun i binding found depth at_depth => Nat.le_succ_of_le (neat i binding found depth at_depth)

theorem emitBytes_recoded (state : Compilation) (bytes : List UInt8) :
    ∃ chunk, emitBytes state bytes = { state with scope := { state.scope with chunk } } := by
  induction bytes generalizing state with
  | nil => exact ⟨state.scope.chunk, rfl⟩
  | cons byte bytes ih =>
    obtain ⟨chunk, emitted⟩ := ih (state.emitByte byte)
    exact ⟨chunk, emitted⟩

def Compilation.leaving (state : Compilation) : List Local :=
  state.scope.locals.toList.reverse.takeWhile (·.isDeeperThan (state.scope.depth - 1))

theorem endScope_recoded (state : Compilation) : ∃ chunk, state.endScope =
    let locals := state.scope.locals.shrink (state.scope.locals.size - state.leaving.length)
    { state with scope := { state.scope with chunk, depth := state.scope.depth - 1, locals } } := by
  have ended : state.endScope =
      let popped := emitBytes state (closing state.leaving)
      let locals := state.scope.locals.shrink (state.scope.locals.size - state.leaving.length)
      { popped with scope := { popped.scope with depth := state.scope.depth - 1, locals } } := by
    unfold emitBytes closing
    rw [List.foldl_map]
    rfl
  obtain ⟨chunk, emitted⟩ := emitBytes_recoded state (closing state.leaving)
  rw [emitted] at ended
  exact ⟨chunk, ended⟩

theorem lt_of_not_deeper {locals : List Local} {depth : Nat} (found : locals[i]? = some binding)
    (stays : binding.isDeeperThan depth = false) :
    i < locals.length - (locals.reverse.takeWhile (·.isDeeperThan depth)).length := by
  obtain ⟨inside, found⟩ := List.getElem?_eq_some_iff.mp found
  by_contra popped
  have counted : locals.length - 1 - i < (locals.reverse.takeWhile (·.isDeeperThan depth)).length := by omega
  have same := (List.takeWhile_prefix (·.isDeeperThan depth) (l := locals.reverse)).getElem counted
  have deeper := List.all_eq_true.mp List.all_takeWhile _ (List.getElem_mem counted)
  have index : locals.length - 1 - (locals.length - 1 - i) = i := by omega
  simp only [same, List.getElem_reverse, index, found, stays] at deeper
  cases deeper

theorem Compilation.Neat.isDeeperThan (neat : before.Neat) (found : before.scope.locals[i]? = some binding) :
    binding.isDeeperThan before.scope.depth = false := by
  unfold Local.isDeeperThan
  cases at_depth : binding.depth with
  | none => rfl
  | some depth => simpa using neat i binding found depth at_depth

theorem endScope_brokenOff (broken : BrokenOff before.beginScope after) (neat : before.Neat) :
    BrokenOff before after.endScope := by
  obtain ⟨chunk, ended⟩ := endScope_recoded after
  have depth : after.scope.depth - 1 = before.scope.depth := by
    rw [broken.depth]
    rfl
  rw [ended]
  refine ⟨⟨⟨broken.enclosing, broken.classes, broken.nesting⟩, fun i binding found => ?_⟩, depth⟩
  obtain ⟨later, later_at, widened⟩ := broken.locals i binding found
  have stays : later.isDeeperThan (after.scope.depth - 1) = false := by
    rw [depth, Local.isDeeperThan, widened.depth]
    exact neat.isDeeperThan found
  have kept := lt_of_not_deeper (Array.getElem?_toList.trans later_at) stays
  rw [Array.length_toList] at kept
  exact ⟨later, (shrink_getElem? _ kept).trans later_at, widened⟩

theorem endScope_steady (enlarged : Enlarged before.beginScope after) (neat : before.Neat) : Steady before after.endScope := by
  refine ⟨endScope_brokenOff enlarged.toBrokenOff neat, ?_⟩
  rw [endScope_eq enlarged.depth enlarged.locals.size_le (fun i binding below found => ?_) fun i binding above found => ?_]
  · exact (Array.size_shrink ..).trans (Nat.min_eq_left enlarged.locals.size_le)
  · obtain ⟨earlier, found, widened⟩ := earlier_local enlarged.locals below found
    rw [Local.isDeeperThan, widened.depth]
    exact neat.isDeeperThan found
  · rw [Local.isDeeperThan, enlarged.fresh i binding above found]
    simp [Compilation.beginScope]

theorem inScope_keeping (obeys : declaring.Obeys body) : keeping.Obeys (inScope body) := by
  rw [inScope_eq]
  exact obeys.wrapped (fun goes neat => endScope_steady (goes neat.beginScope) neat)
    fun fails neat => endScope_brokenOff (fails neat.beginScope) neat

end Scopes

section Functions

variable {kind : FunctionKind} {name : String}

theorem Compilation.Neat.enter (entered : state.scope = .enter kind name) : state.Neat := by
  intro i binding found depth at_depth
  rw [entered] at found ⊢
  have single : (FunctionScope.enter kind name).locals.size = 1 := by cases kind <;> rfl
  have inside := (Array.getElem?_eq_some_iff.mp found).1
  obtain rfl : i = 0 := by omega
  cases kind <;> cases found <;> cases at_depth <;> exact Nat.le_refl _

theorem closeFunction_steady
    (surrounded : Surrounded (before.openFunction kind name) after) : Steady before after.closeFunction := by
  obtain ⟨enclosing, classes, nesting⟩ := surrounded
  unfold Compilation.closeFunction
  cases around : after.enclosing with
  | nil =>
    rw [around] at enclosing
    cases enclosing
  | cons outer further =>
    rw [around] at enclosing
    cases enclosing with
    | cons widened wider => exact ⟨⟨⟨⟨wider, classes, nesting⟩, widened.locals⟩, widened.depth⟩, widened.size⟩

theorem function_keeping (obeys : enclosed.Obeys body) (kind : FunctionKind) :
    keeping.Obeys (function body kind) := by
  rw [function_eq]
  refine obeys.wrapped (fun {before after _} goes => ?_) fun {before after _} fails _ => ?_
  · have steady : keeping.goes before after.closeFunction := fun _ => closeFunction_steady (goes (.enter rfl)).1
    exact (leaveFunction_allows recoded_keeping after).after steady
  · exact (closeFunction_steady (fails (.enter rfl))).toBrokenOff

end Functions

section Declarations

variable {α β : Type} {action : Parse α} {next : α → Parse β} {done : β → Compilation → Prop}

/-- The state after the action is as said, where it goes through and where it fails. -/
def Leaves (action : Parse α) (state : Compilation) (done : α → Compilation → Prop) (broken : Compilation → Prop) : Prop :=
  match action state with
  | .ok value after => done value after
  | .error _ after => broken after

theorem Leaves.bind (leaves : Leaves action state (fun value between => Leaves (next value) between done broken) broken) :
    Leaves (action >>= next) state done broken := by
  change Leaves (EStateM.bind action next) state done broken
  unfold Leaves EStateM.bind at *
  cases performed : action state with
  | ok value between | error error between =>
    rw [performed] at leaves
    exact leaves

theorem Leaves.mono {done done' : α → Compilation → Prop} {broken' : Compilation → Prop}
    (leaves : Leaves action state done broken) (goes : ∀ value after, done value after → done' value after)
    (fails : ∀ after, broken after → broken' after) : Leaves action state done' broken' := by
  unfold Leaves at *
  cases performed : action state with
  | ok value after =>
    rw [performed] at leaves
    exact goes value after leaves
  | error error after =>
    rw [performed] at leaves
    exact fails after leaves

theorem Leaves.of_obeys (obeys : keeping.Obeys action) (neat : state.Neat) :
    Leaves action state (fun _ => Steady state) (BrokenOff state) := by
  have allowed := obeys state
  unfold Leaves
  cases performed : action state with
  | ok value after | error error after =>
    rw [performed] at allowed
    exact allowed neat

theorem Leaves.wrapped {enter leave : Compilation → Compilation} {body : Parse α} {exit : α → Parse β}
    (leaves : Leaves body (enter state) (fun value after => Leaves (exit value) after done broken)
      fun after => broken (leave after)) : Leaves (wrapped enter leave body exit) state done broken := by
  unfold Leaves Reading.wrapped at *
  cases performed : body (enter state) with
  | ok value after | error error after =>
    rw [performed] at leaves
    exact leaves

theorem Leaves.first (obeys : keeping.Obeys action) (neat : state.Neat)
    (breaks : ∀ between, BrokenOff state between → broken between)
    (continues : ∀ value between, Steady state between → between.Neat → Leaves (next value) between done broken) :
    Leaves (action >>= next) state done broken :=
  .bind ((Leaves.of_obeys obeys neat).mono (fun value between steady => continues value between steady (steady.neat neat)) breaks)

theorem Leaves.accepting {kind : Kind} {next : Bool → Parse β}
    (yes : state.cursor.check kind = true → Leaves (next true) { state with cursor := state.cursor.advance } done broken)
    (no : state.cursor.check kind = false → Leaves (next false) state done broken) :
    Leaves (accept kind >>= next) state done broken := by
  refine .bind ?_
  unfold accept
  by_cases found : state.cursor.check kind = true
  · simp only [Leaves, if_pos found]
    exact yes found
  · simp only [Leaves, if_neg found]
    exact no (Bool.eq_false_iff.mpr found)

theorem declaring_of_leaves (leaves : ∀ state, state.Neat → Leaves action state (fun _ => Enlarged state) (BrokenOff state)) :
    declaring.Obeys action := by
  intro state
  cases performed : action state with
  | ok value after | error error after =>
    intro neat
    have left := leaves state neat
    rw [Leaves, performed] at left
    exact left

/-- A variable has been declared. A local has the given depth; of a global there is nothing to see in the scope. -/
structure Introduced (own : Option Nat) (before after : Compilation) : Prop where
  outermost : before.scope.depth = 0 → Steady before after
  inScope : before.scope.depth ≠ 0 → Adds own before after

namespace Introduced

theorem brokenOff (introduced : Introduced own before after) : BrokenOff before after := by
  by_cases outermost : before.scope.depth = 0
  · exact (introduced.outermost outermost).toBrokenOff
  · exact (introduced.inScope outermost).toBrokenOff

theorem neat (introduced : Introduced own before after) (neat : before.Neat)
    (shallow : ∀ depth ∈ own, depth ≤ before.scope.depth) : after.Neat := by
  by_cases outermost : before.scope.depth = 0
  · exact (introduced.outermost outermost).neat neat
  · exact (introduced.inScope outermost).neat neat shallow

theorem steady (introduced : Introduced own before between) (steady : Steady between after) : Introduced own before after :=
  ⟨fun outermost => (introduced.outermost outermost).trans steady, fun inScope => (introduced.inScope inScope).steady steady⟩

theorem behind (introduced : Introduced own between after) (steady : Steady before between) : Introduced own before after :=
  ⟨fun outermost => steady.trans (introduced.outermost (steady.depth.trans outermost)),
    fun inScope => steady.adds (introduced.inScope (steady.depth ▸ inScope))⟩

theorem enlarged (introduced : Introduced (some before.scope.depth) before after) : Enlarged before after := by
  by_cases outermost : before.scope.depth = 0
  · exact (introduced.outermost outermost).enlarged
  · exact (introduced.inScope outermost).enlarged

theorem markInitialized (introduced : Introduced own before after) :
    Introduced (some before.scope.depth) before after.markInitialized := by
  refine ⟨fun outermost => ?_, fun inScope => ?_⟩
  · have steady := introduced.outermost outermost
    rw [markInitialized_outermost (steady.depth.trans outermost)]
    exact steady
  · obtain ⟨broken, size, binding, found, -⟩ := introduced.inScope inScope
    have last : after.scope.locals.size - 1 = before.scope.locals.size := by
      rw [size, Nat.add_sub_cancel]
    rw [Grown.markInitialized_eq (broken.depth ▸ inScope), last, broken.depth]
    refine ⟨⟨⟨⟨broken.enclosing, broken.classes, broken.nesting⟩, fun i earlier found => ?_⟩, broken.depth⟩,
      Array.size_modify.trans size, { binding with depth := some before.scope.depth }, ?_, rfl⟩
    · have inside := (Array.getElem?_eq_some_iff.mp found).1
      obtain ⟨later, found, widened⟩ := broken.locals i earlier found
      exact ⟨later, by rw [Array.getElem?_modify, if_neg (by omega), found], widened⟩
    · rw [Array.getElem?_modify, if_pos rfl, found]
      rfl

theorem defineVariable (introduced : Introduced own before after) (neat : after.Neat) {global? : Option Nat}
    (isLocal : before.scope.depth ≠ 0 → global? = none) :
    Introduced (some before.scope.depth) before (after.defineVariable global?) := by
  cases global? with
  | none => exact introduced.markInitialized
  | some name =>
    have outermost : before.scope.depth = 0 := by
      by_contra inScope
      cases isLocal inScope
    have emitted : keeping.goes after (after.emitWith .defineGlobal name) :=
      emitBytes_goes (bytesWith .defineGlobal name) after
    exact ⟨fun _ => (introduced.outermost outermost).trans (emitted neat), fun inScope => absurd outermost inScope⟩

end Introduced

theorem addLocal_leaves (name : String) (state : Compilation) :
    Leaves (addLocal name) state (fun _ => Adds none state) (BrokenOff state) := by
  refine .bind ?_
  change Leaves (if state.scope.locals.size = maxLocals then _ else _) state _ _
  split
  · exact .refl state
  · refine ⟨⟨⟨⟨widened_refl _, rfl, rfl⟩, fun i binding found => ?_⟩, rfl⟩, Array.size_push .., ⟨name, none, false⟩, ?_, rfl⟩
    · have inside := (Array.getElem?_eq_some_iff.mp found).1
      exact ⟨binding, (Array.getElem?_push_lt inside).trans (Array.getElem?_eq_getElem inside ▸ found), rfl, rfl, id⟩
    · exact Array.getElem?_push_size

theorem declareVariable_leaves (state : Compilation) :
    Leaves declareVariable state (fun _ => Introduced none state) (BrokenOff state) := by
  refine .bind ?_
  change Leaves (if state.scope.depth = 0 then _ else _) state _ _
  split
  · next outermost => exact ⟨fun _ => .refl state, fun inScope => absurd outermost inScope⟩
  · next inScope =>
    refine .bind (.bind ?_)
    change Leaves (if declaresName state.scope _ then _ else _) state _ _
    split
    · exact .refl state
    · refine (addLocal_leaves _ state).mono (fun _ after adds => ?_) fun _ => id
      exact ⟨fun outermost => absurd outermost inScope, fun _ => adds⟩

theorem parseVariable_leaves (neat : state.Neat) (what : Expectation) : Leaves (parseVariable what) state
    (fun global? after => Introduced none state after ∧ (state.scope.depth ≠ 0 → global? = none)) (BrokenOff state) := by
  refine .first (expectName_obeys what) neat (fun _ => id) fun name named steady neat => ?_
  refine .bind ((declareVariable_leaves named).mono (fun _ declared introduced => ?_) fun _ => steady.toBrokenOff.trans)
  have neat : declared.Neat := introduced.neat neat (by simp)
  have introduced := introduced.behind steady
  have depth := introduced.brokenOff.depth
  refine .bind ?_
  change Leaves (if declared.scope.depth > 0 then _ else _) declared _ _
  split
  · exact ⟨introduced, fun _ => rfl⟩
  · next outermost =>
    refine .first (makeString_obeys name) neat (fun _ => introduced.brokenOff.trans) fun entry after steady _ => ?_
    exact ⟨introduced.steady steady, fun inScope => absurd (depth ▸ Nat.pos_of_ne_zero inScope) outermost⟩

variable {inner : Inner}

theorem varDeclaration_leaves (expression : keeping.Obeys inner.expression) (neat : state.Neat) :
    Leaves (varDeclaration inner) state (fun _ => Introduced (some state.scope.depth) state) (BrokenOff state) := by
  refine .bind ((parseVariable_leaves neat .variableName).mono (fun global? named parsed => ?_) fun _ => id)
  obtain ⟨introduced, isLocal⟩ := parsed
  have defines {initializer : Parse Unit} (obeys : keeping.Obeys initializer) {passed : Compilation}
      (introduced : Introduced none state passed) (neat : passed.Neat) : Leaves (do
        initializer
        expect .semicolon .semicolonAfterVariable
        update (·.defineVariable global?)) passed (fun _ => Introduced (some state.scope.depth) state) (BrokenOff state) := by
    refine .first obeys neat (fun _ => introduced.brokenOff.trans) fun _ valued steady neat => ?_
    have introduced := introduced.steady steady
    refine .first (expect_obeys _ _) neat (fun _ => introduced.brokenOff.trans) fun _ ended steady neat => ?_
    exact (introduced.steady steady).defineVariable neat isLocal
  have neat : named.Neat := introduced.neat neat (by simp)
  refine .first (accept_obeys .equal) neat (fun _ => introduced.brokenOff.trans) fun given passed steady neat => ?_
  have introduced := introduced.steady steady
  split
  · exact defines expression introduced neat
  · exact defines (emit_obeys _) introduced neat

theorem funDeclaration_leaves (functionBody : enclosed.Obeys inner.functionBody) (neat : state.Neat) :
    Leaves (funDeclaration inner) state (fun _ => Introduced (some state.scope.depth) state) (BrokenOff state) := by
  refine .bind ((parseVariable_leaves neat .functionName).mono (fun global? named parsed => ?_) fun _ => id)
  obtain ⟨introduced, isLocal⟩ := parsed
  have introduced := introduced.markInitialized
  have neat : named.markInitialized.Neat := introduced.neat neat (by simp)
  refine .bind ?_
  refine .first (function_keeping functionBody .function) neat (fun _ => introduced.brokenOff.trans) fun _ after steady neat => ?_
  exact (introduced.steady steady).defineVariable neat isLocal

theorem method_keeping (functionBody : enclosed.Obeys inner.functionBody) : keeping.Obeys (method inner) := by
  refine (expectName_obeys _).bind fun name => (makeString_obeys name).bind fun entry => ?_
  exact (function_keeping functionBody _).bind fun _ => emitWith_obeys _ _

end Declarations

section Classes

variable {inner : Inner}

def Compilation.enterClass (state : Compilation) : Compilation :=
  { state with classes := ⟨false⟩ :: state.classes }

def Compilation.leaveClass (state : Compilation) : Compilation :=
  { state with classes := state.classes.tail }

theorem BrokenOff.leaveClass (broken : BrokenOff before after) : BrokenOff before.leaveClass after.leaveClass :=
  ⟨⟨⟨broken.enclosing, congrArg List.tail broken.classes, broken.nesting⟩, broken.locals⟩, broken.depth⟩

theorem Steady.leaveClass (steady : Steady before after) : Steady before.leaveClass after.leaveClass :=
  ⟨steady.toBrokenOff.leaveClass, steady.size⟩

theorem Steady.beginScope (steady : Steady before after) : Steady before.beginScope after.beginScope :=
  ⟨⟨⟨⟨steady.enclosing, steady.classes, steady.nesting⟩, steady.locals⟩, congrArg (· + 1) steady.depth⟩, steady.size⟩

theorem Spared.of_beginScope (spared : Spared before.beginScope after) : Spared before after :=
  ⟨⟨spared.enclosing, spared.classes, spared.nesting⟩, spared.locals⟩

theorem superclassClause_leaves (className : String) (neat : state.Neat) : Leaves (superclassClause className) state
    (fun _ after => ∃ body, Enlarged state.beginScope body ∧ after = body.markSuperclass) (Spared state) := by
  refine .first (expectName_obeys _) neat (fun _ => BrokenOff.toSpared) fun superclass named steady neat => ?_
  refine .first (readVariable_obeys _) neat (fun _ broken => (steady.toBrokenOff.trans broken).toSpared)
    fun _ read steady' neat => ?_
  have steady := steady.trans steady'
  split
  · exact steady.toSpared
  · refine .bind (.bind ((addLocal_leaves "super" read.beginScope).mono (fun _ added adds => ?_) fun _ broken => ?_))
    · have introduced : Introduced none read.beginScope added :=
        ⟨fun outermost => absurd outermost (Nat.succ_ne_zero _), fun _ => adds⟩
      have inside := introduced.markInitialized.enlarged
      have enlarged := steady.beginScope.enlarged.trans inside
      refine .bind (.first (readVariable_obeys className) (inside.neat neat.beginScope)
        (fun _ broken => (enlarged.toBrokenOff.trans broken).toSpared.of_beginScope) fun _ named steady neat => ?_)
      have enlarged := enlarged.trans steady.enlarged
      refine .first (emit_obeys .inherit) neat
        (fun _ broken => (enlarged.toBrokenOff.trans broken).toSpared.of_beginScope) fun _ inherited steady _ => ?_
      exact ⟨inherited, enlarged.trans steady.enlarged, rfl⟩
    · exact (steady.beginScope.toBrokenOff.trans broken).toSpared.of_beginScope

theorem methodSuffix_keeping (functionBody : enclosed.Obeys inner.functionBody) : keeping.Obeys (methodSuffix inner) := by
  refine (Obeys.read _).bind fun _ => (Obeys.read _).bind fun _ => .ite (.pure false) ?_
  exact (method_keeping functionBody).bind fun _ => .pure true

theorem methods_keeping (functionBody : enclosed.Obeys inner.functionBody) (className : String) : keeping.Obeys (do
    readVariable className
    expect .leftBrace .leftBraceBeforeClassBody
    whileProgress (methodSuffix inner)
    expect .rightBrace .rightBraceAfterClassBody
    emit .pop) := by
  refine (readVariable_obeys _).bind fun _ => (expect_obeys _ _).bind fun _ => ?_
  refine (methodSuffix_keeping functionBody).whileProgress.bind fun _ => (expect_obeys _ _).bind fun _ => ?_
  exact emit_obeys _

/-- What the body of a class leaves of the state in front of it. -/
def Bodies (before after : Compilation) : Prop :=
  after.classes = ⟨false⟩ :: before.classes ∧ Steady before after.leaveClass ∨
    after.classes = ⟨true⟩ :: before.classes ∧ Enlarged before.beginScope after.leaveClass

theorem classBody_leaves (functionBody : enclosed.Obeys inner.functionBody) (className : String) (neat : state.Neat) :
    Leaves (classBody inner className) state.enterClass (fun _ => Bodies state) fun after => Spared state after.leaveClass := by
  have inside : state.enterClass.Neat := neat
  have methods := methods_keeping functionBody className
  refine .first (accept_obeys .less) inside (fun _ broken => broken.leaveClass.toSpared)
    fun given passed steady inside => ?_
  split
  · refine .bind ((superclassClause_leaves className inside).mono (fun _ inherited clause => ?_) fun after spared => ?_)
    · obtain ⟨body, enlarged, rfl⟩ := clause
      have classes : body.classes = ⟨false⟩ :: state.classes := enlarged.classes.trans steady.classes
      have enlarged := steady.beginScope.enlarged.trans enlarged
      have marked : body.markSuperclass.classes = ⟨true⟩ :: state.classes := congrArg (List.modifyHead _) classes
      have opened : Enlarged state.beginScope body.markSuperclass.leaveClass :=
        ⟨⟨⟨⟨enlarged.enclosing, congrArg List.tail marked, enlarged.nesting⟩, enlarged.locals⟩, enlarged.depth⟩, enlarged.fresh⟩
      have neat : body.markSuperclass.Neat := opened.neat neat.beginScope
      refine (Leaves.of_obeys methods neat).mono (fun _ after steady => .inr ⟨?_, ?_⟩) fun after broken => ?_
      · exact steady.classes.trans marked
      · exact opened.trans steady.leaveClass.enlarged
      · exact (opened.toBrokenOff.trans broken.leaveClass).toSpared.of_beginScope
    · have spared := steady.toSpared.trans spared
      exact ⟨⟨spared.enclosing, congrArg List.tail spared.classes, spared.nesting⟩, spared.locals⟩
  · refine (Leaves.of_obeys methods inside).mono (fun _ after steady' => .inl ?_) fun after broken => ?_
    · have steady := steady.trans steady'
      exact ⟨steady.classes, steady.leaveClass⟩
    · exact (steady.toBrokenOff.trans broken).leaveClass.toSpared

theorem inClass_leaves (functionBody : enclosed.Obeys inner.functionBody) (className : String) (neat : state.Neat) :
    Leaves (do if ← inClass (classBody inner className) then update (·.endScope)) state (fun _ => Steady state)
      (Spared state) := by
  rw [inClass_eq]
  refine .bind (.wrapped ((classBody_leaves functionBody className neat).mono (fun _ after body => ?_) fun _ => id))
  change Leaves (if after.classes.head?.any (·.hasSuperclass) then update (·.endScope) else pure ()) after.leaveClass _ _
  rcases body with ⟨classes, steady⟩ | ⟨classes, enlarged⟩
  · rw [classes]
    exact steady
  · rw [classes]
    exact endScope_steady enlarged neat

theorem classDeclaration_leaves (functionBody : enclosed.Obeys inner.functionBody) (neat : state.Neat) :
    Leaves (classDeclaration inner) state (fun _ => Introduced (some state.scope.depth) state) (Spared state) := by
  refine .first (expectName_obeys _) neat (fun _ => BrokenOff.toSpared) fun name named steady neat' => ?_
  refine .first (makeString_obeys name) neat' (fun _ broken => (steady.toBrokenOff.trans broken).toSpared)
    fun entry stored steady' _ => ?_
  have steady := steady.trans steady'
  refine .bind ((declareVariable_leaves stored).mono (fun _ declared introduced => ?_)
    fun _ broken => (steady.toBrokenOff.trans broken).toSpared)
  have introduced := introduced.behind steady
  refine .first (emitWith_obeys _ _) (introduced.neat neat (by simp))
    (fun _ broken => (introduced.brokenOff.trans broken).toSpared) fun _ made steady neat' => .bind ?_
  have introduced := introduced.steady steady
  have isLocal : state.scope.depth ≠ 0 → made.globalName? entry = none := by
    intro inScope
    exact if_pos (introduced.brokenOff.depth ▸ Nat.pos_of_ne_zero inScope)
  have introduced := introduced.defineVariable neat' isLocal
  refine (inClass_leaves functionBody name (introduced.neat neat (by simp))).mono (fun _ _ => introduced.steady) fun _ => ?_
  exact introduced.brokenOff.toSpared.trans

end Classes

section Statements

variable {inner : Inner}

structure Keeping (inner : Inner) : Prop where
  expression : keeping.Obeys inner.expression
  statement : keeping.Obeys inner.statement
  functionBody : enclosed.Obeys inner.functionBody

def Compilation.declares (state : Compilation) : Bool :=
  state.cursor.check (.keyword .class) || state.cursor.check (.keyword .fun) || state.cursor.check (.keyword .var)

/-- What a declaration or a statement leaves that goes through. -/
structure Completed (before after : Compilation) : Prop where
  declares : before.declares = true → Introduced (some before.scope.depth) before after
  otherwise : before.declares = false → Steady before after

theorem Completed.enlarged (completed : Completed before after) : Enlarged before after := by
  cases declares : before.declares with
  | true => exact (completed.declares declares).enlarged
  | false => exact (completed.otherwise declares).enlarged

section

variable (phrases : Keeping inner)
include phrases

theorem declarationOrFail_leaves (neat : state.Neat) :
    Leaves (declarationOrFail inner) state (fun _ => Completed state) (Spared state) := by
  let next : Compilation := { state with cursor := state.cursor.advance }
  have passed : Steady state next := ⟨⟨⟨⟨widened_refl _, rfl, rfl⟩, .refl _⟩, rfl⟩, rfl⟩
  have introduces {after : Compilation} (declares : state.declares = true)
      (introduced : Introduced (some state.scope.depth) next after) : Completed state after :=
    ⟨fun _ => introduced.behind passed, fun other => absurd declares (Bool.eq_false_iff.mp other)⟩
  refine .accepting (fun isClass => ?_) fun noClass => .accepting (fun isFun => ?_) fun noFun =>
    .accepting (fun isVar => ?_) fun noVar => ?_
  · refine (classDeclaration_leaves phrases.functionBody (passed.neat neat)).mono (fun _ _ => introduces ?_)
      fun _ => passed.toSpared.trans
    simp [Compilation.declares, isClass]
  · refine (funDeclaration_leaves phrases.functionBody (passed.neat neat)).mono (fun _ _ => introduces ?_)
      fun _ broken => (passed.toBrokenOff.trans broken).toSpared
    simp [Compilation.declares, isFun]
  · refine (varDeclaration_leaves phrases.expression (passed.neat neat)).mono (fun _ _ => introduces ?_)
      fun _ broken => (passed.toBrokenOff.trans broken).toSpared
    simp [Compilation.declares, isVar]
  · have none : state.declares = false := by simp [Compilation.declares, noClass, noFun, noVar]
    refine (Leaves.of_obeys phrases.statement neat).mono (fun _ _ steady => ?_) fun _ => BrokenOff.toSpared
    exact ⟨fun declares => absurd declares (Bool.eq_false_iff.mp none), fun _ => steady⟩

omit phrases in
theorem recover_steady (spared : Spared before after) (error : CompileError) :
    Steady before (after.recover error before.scope.depth before.scope.locals.size) :=
  ⟨⟨⟨⟨spared.enclosing, spared.classes, spared.nesting⟩, spared.locals.shrink (Nat.le_refl _)⟩, rfl⟩,
    (Array.size_shrink ..).trans (Nat.min_eq_left spared.locals.size_le)⟩

theorem declaration_declaring : declaring.Obeys (declaration inner) := by
  intro state
  unfold declaration
  cases performed : declarationOrFail inner state with
  | ok _ after =>
    intro neat
    have left := declarationOrFail_leaves phrases neat
    rw [Leaves, performed] at left
    exact left.enlarged
  | error error after =>
    intro neat
    have left := declarationOrFail_leaves phrases neat
    rw [Leaves, performed] at left
    exact (recover_steady left error).enlarged

theorem blockSuffix_declaring : declaring.Obeys (blockSuffix inner) := by
  refine (Obeys.read _).bind fun _ => (Obeys.read _).bind fun _ => .ite (.pure false) ?_
  exact (declaration_declaring phrases).bind fun _ => .pure true

theorem block_declaring : declaring.Obeys (block inner) :=
  (blockSuffix_declaring phrases).whileProgress.bind fun _ => expect_obeys _ _

theorem varDeclaration_declaring : declaring.Obeys (varDeclaration inner) :=
  declaring_of_leaves fun _ neat =>
    (varDeclaration_leaves phrases.expression neat).mono (fun _ _ => Introduced.enlarged) fun _ => id

theorem wholeStatement_keeping : keeping.Obeys (wholeStatement inner) := by
  refine wholeStatement_obeys phrases.expression phrases.statement (inScope_keeping ?_)
    (inScope_keeping (block_declaring phrases))
  exact forClauses_obeys (phrases.expression.within keeping_within_declaring)
    (phrases.statement.within keeping_within_declaring) (varDeclaration_declaring phrases)

omit phrases in
theorem parameter_declaring : declaring.Obeys parameter := by
  refine (Obeys.read _).bind fun _ => .ite (failHere_obeys _) (.bind (.update fun state _ => ?_) fun _ => ?_)
  · exact ⟨⟨⟨⟨widened_refl _, rfl, rfl⟩, .refl _⟩, rfl⟩, (Steady.refl state).enlarged.fresh⟩
  · refine declaring_of_leaves fun state neat => .bind ((parseVariable_leaves neat _).mono (fun global? named parsed => ?_)
      fun _ => id)
    have defined := parsed.1.defineVariable (parsed.1.neat neat (by simp)) parsed.2
    have accepts := Leaves.of_obeys (accept_obeys .comma) (defined.neat neat (by simp))
    exact .bind (accepts.mono (fun _ _ steady => defined.enlarged.trans steady.enlarged) fun _ => defined.brokenOff.trans)

theorem wholeFunctionBody_enclosed : enclosed.Obeys (wholeFunctionBody inner) := by
  have expecting (kind : Kind) (what : Expectation) : enclosed.Obeys (expect kind what) := expect_obeys kind what
  have begins : enclosed.Obeys (update (·.beginScope)) :=
    .update fun state neat => ⟨⟨widened_refl _, rfl, rfl⟩, neat.beginScope⟩
  have blocks : enclosed.Obeys (block inner) := (block_declaring phrases).within declaring_within_enclosed
  have parameters : enclosed.Obeys (whileProgress parameter) := parameter_declaring.whileProgress.within declaring_within_enclosed
  have rest : enclosed.Obeys (do
      expect .rightParen .rightParenAfterParameters
      expect .leftBrace .leftBraceBeforeFunctionBody
      block inner
      update (·.emitReturn)) :=
    (expecting _ _).bind fun _ => (expecting _ _).bind fun _ => blocks.bind fun _ => emitReturn_obeys
  refine begins.bind fun _ => (expecting _ _).bind fun _ => (Obeys.read _).bind fun _ => .ite ?_ rest
  exact parameters.bind fun _ => rest

end

theorem within_keeping (budget : Nat) : Keeping (.within budget) := by
  induction budget with
  | zero =>
    exact ⟨(expressions_obey 0).1, failHere_obeys _, failHere_obeys _⟩
  | succ budget ih =>
    exact ⟨(expressions_obey (budget + 1)).1,
      nested_obeys (wholeStatement_keeping ih) _,
      nested_obeys (wholeFunctionBody_enclosed ih) _⟩

end Statements

end StackScript.Compile
