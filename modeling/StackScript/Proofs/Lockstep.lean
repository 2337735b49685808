import StackScript.Proofs.PhraseConduct

/-!
Two compilations side by side. They are in step if they are paired. An action follows another one if both go on from paired
states to paired states, with the same result, or both fail, and break off in states that correspond. If every small action
follows itself, then every phrase of the grammar does, given those one level further in.
-/

namespace StackScript.Compile

open Parse Reading Conduct

/-- A way of pairing compilations, and of pairing those that an error has broken off. -/
structure Lockstep where
  paired : Compilation → Compilation → Prop
  broken : CompileError → CompileError → Compilation → Compilation → Prop

namespace Lockstep

variable {step : Lockstep} {α β : Type} {action action' : Parse α} {next next' : α → Parse β} {known : Nat → Prop}

inductive Outcome (step : Lockstep) {α : Type} :
    EStateM.Result CompileError Compilation α → EStateM.Result CompileError Compilation α → Prop where
  | done {value : α} {left right : Compilation} (paired : step.paired left right) : Outcome step (.ok value left) (.ok value right)
  | failed {error error' : CompileError} {left right : Compilation} (broken : step.broken error error' left right) :
      Outcome step (.error error left) (.error error' right)

def Follows (step : Lockstep) {α : Type} (action action' : Parse α) : Prop :=
  ∀ left right, step.paired left right → step.Outcome (action left) (action' right)

theorem Follows.bind (one : step.Follows action action') (two : ∀ value, step.Follows (next value) (next' value)) :
    step.Follows (action >>= next) (action' >>= next') := by
  intro left right paired
  have first := one left right paired
  cases done : action left <;> cases done' : action' right <;> rw [done, done'] at first <;> cases first
  case ok.ok.done paired =>
    rw [bind_eq done, bind_eq done']
    exact two _ _ _ paired
  case error.error.failed broken =>
    rw [bind_error done, bind_error done']
    exact .failed broken

theorem Outcome.wrapped {inside : Lockstep} {enter leave : Compilation → Compilation} {exit : α → Parse β} {left right : Compilation}
    (follows : inside.Follows action action') (entered : inside.paired (enter left) (enter right))
    (exits : ∀ value {left right}, inside.paired left right → step.Outcome (exit value left) (exit value right))
    (leaves : ∀ {error error' left right}, inside.broken error error' left right → step.broken error error' (leave left) (leave right)) :
    step.Outcome (wrapped enter leave action exit left) (wrapped enter leave action' exit right) := by
  have outcome := follows _ _ entered
  unfold Reading.wrapped
  cases done : action (enter left) <;> cases done' : action' (enter right) <;> rw [done, done'] at outcome <;> cases outcome
  case ok.ok.done paired => exact exits _ paired
  case error.error.failed broken => exact .failed (leaves broken)

/-- Actions that follow each other, however the locals stand. -/
abbrev stock (step : Lockstep) : Stock := ⟨True, fun _ action action' _ => step.Follows action action'⟩

/-- Every small action keeps paired compilations paired, and so does going on behind a scope, a class or a declaration that an
error has broken off. -/
class Closed (step : Lockstep) : Prop where
  small : ∀ {α : Type} {mode : Mode} {known : Nat → Prop} (action : Act α), action.Proper True mode known →
    step.Follows action.run action.run
  sight : ∀ {left right}, step.paired left right → Sight left right
  reclass : ∀ {left right} (classes : List ClassScope), step.paired left right →
    step.paired { left with classes } { right with classes }
  endScope : ∀ {error error' left right}, step.broken error error' left right → step.broken error error' left.endScope right.endScope
  leaveClass : ∀ {error error' left right}, step.broken error error' left right →
    step.broken error error' { left with classes := left.classes.tail } { right with classes := right.classes.tail }
  recover : ∀ {error error' left right} (depth locals : Nat), step.broken error error' left right →
    step.paired (left.recover error depth locals) (right.recover error' depth locals)

variable [closed : step.Closed]

theorem follows_of_shifts {mode : Mode} {after : α → Mode} (shifts : step.stock.Shifts known mode action action' after) :
    step.Follows action action' := by
  induction shifts with
  | given follows => exact follows
  | yield value => exact fun _ _ paired => .done paired
  | small action proper => exact closed.small action proper
  | bind _ _ one two => exact one.bind two
  | settle _ _ ih => exact ih

theorem built_follows {after : α → Mode} (shifts : step.stock.Shifts (fun _ => True) .settled action action' after) : step.Follows action action' :=
  follows_of_shifts shifts

theorem failHere_follows (complaint : Complaint) : step.Follows (failHere complaint : Parse α) (failHere complaint) :=
  built_follows (.small (.failHere complaint) trivial)

theorem nested_follows {body body' : Parse Unit} (phrase : StackScript.Phrase)
    (within : ∀ {left right}, step.paired left right → left.nesting < maxNesting → ∃ inside : Lockstep, inside.Follows body body' ∧
      inside.paired left.deeper right.deeper ∧ (∀ {left right}, inside.paired left right → step.paired left.shallower right.shallower) ∧
      ∀ {error error' left right}, inside.broken error error' left right → step.broken error error' left.shallower right.shallower) :
    step.Follows (nested phrase body) (nested phrase body') := by
  intro left right paired
  rw [nested_eq, nested_eq, ← (closed.sight paired).nesting]
  split
  · exact failHere_follows _ _ _ paired
  · next room =>
    obtain ⟨inside, follows, entered, exits, leaves⟩ := within paired (Nat.lt_of_not_ge room)
    exact .wrapped follows entered (fun _ _ _ paired => .done (exits paired)) leaves

theorem inScope_follows {body body' : Parse Unit} (inside : step.Follows body body') :
    step.Follows (inScope body) (inScope body') := by
  have small (action : Act Unit) (proper : action.Proper True .settled fun _ => True) {left right : Compilation}
      (paired : step.paired left right) : step.Outcome (action.run left) (action.run right) := closed.small action proper _ _ paired
  rw [inScope_eq, inScope_eq]
  refine fun left right paired => .wrapped inside ?_ (fun _ => small .endScope ⟨trivial, Mode.noConfusion⟩) closed.endScope
  cases small .beginScope ⟨trivial, Mode.noConfusion⟩ paired with
  | done paired => exact paired

theorem inClass_follows {body body' : Parse Unit} (inside : step.Follows body body') :
    step.Follows (inClass body) (inClass body') := by
  rw [inClass_eq, inClass_eq]
  refine fun left right paired => .wrapped inside ?_ (fun _ {left right} paired => ?_) closed.leaveClass
  · rw [← (closed.sight paired).classes]
    exact closed.reclass (⟨false⟩ :: left.classes) paired
  · change step.Outcome (.ok (left.classes.head?.any (·.hasSuperclass)) { left with classes := left.classes.tail })
      (.ok (right.classes.head?.any (·.hasSuperclass)) { right with classes := right.classes.tail })
    rw [← (closed.sight paired).classes]
    exact .done (closed.reclass left.classes.tail paired)

instance : step.stock.Closed := ⟨trivial, follows_of_shifts, inScope_follows, inClass_follows⟩

theorem declaration_follows {inner inner' : Inner} (follows : step.Follows (declarationOrFail inner) (declarationOrFail inner')) :
    step.Follows (declaration inner) (declaration inner') := by
  intro left right paired
  have outcome := follows left right paired
  have sight := closed.sight paired
  unfold declaration
  rw [← sight.depth, ← sight.locals]
  cases done : declarationOrFail inner left <;> cases done' : declarationOrFail inner' right <;> rw [done, done'] at outcome <;>
    cases outcome
  case ok.ok.done paired => exact .done paired
  case error.error.failed broken => exact .done (closed.recover _ _ broken)

end Lockstep

section Alone

variable {α : Type} {holding : Compilation → Prop}

def staying (holding : Compilation → Prop) : Conduct CompileError Compilation :=
  .alike (fun before after => holding before → holding after) (fun _ => id) fun one two holds => two (one holds)

/-- Two compilations that do the same, of which something holds. -/
def alone (holding : Compilation → Prop) : Lockstep :=
  ⟨fun left right => left = right ∧ holding left, fun error error' left right => error = error' ∧ left = right ∧ holding left⟩

theorem alone_follows {action : Parse α} (obeys : (staying holding).Obeys action) : (alone holding).Follows action action := by
  rintro state _ ⟨rfl, holds⟩
  have kept := obeys state
  cases done : action state with
  | ok value after =>
    rw [done] at kept
    exact .done ⟨rfl, kept holds⟩
  | error error after =>
    rw [done] at kept
    exact .failed ⟨rfl, rfl, kept holds⟩

end Alone

end StackScript.Compile
