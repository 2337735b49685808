import StackScript.Proofs.ClosureTyping
import StackScript.Proofs.IntactHeap

/-!
Actions on a machine that is in order. Whatever comes of an action, the machine it leaves is in order again; where it goes
through, it is also said what it does to the stacks. Only two actions ask for more: a closure has to be made of a function
with as many captures as are read, and what is made a method has to be a closure.
-/

namespace StackScript

variable {State α β : Type} {frozen : Frozen}
variable {error : RuntimeError} {ref : Ref} {machine : Machine State} {value : α}

namespace Exec

theorem look_error {view : Machine State → Except RuntimeError α} (seen : view machine = .error error) :
    look view machine = .error error machine := by
  simp only [look, seen]

theorem fetch_none (missing : machine.heap.get? ref = none) :
    fetch ref machine = .error (.unplaced (.access (.noObject ref))) machine := by
  simp only [fetch, look, Heap.fetch, missing]

/-- The action leaves the machine in order, and `post` holds if it goes through. -/
def Upholds (frozen : Frozen) (action : Exec State α) (machine : Machine State) (post : α → Machine State → Prop) : Prop :=
  action.Yields machine (fun _ => machine.Leads frozen) fun value after => machine.Leads frozen after ∧ post value after

namespace Upholds

variable {action : Exec State α} {next : α → Exec State β} {between after : Machine State} {post : β → Machine State → Prop}

theorem done {post : α → Machine State → Prop} (goes : action machine = .ok value after) (leads : machine.Leads frozen after)
    (holds : post value after) : action.Upholds frozen machine post :=
  .of_ok goes ⟨leads, holds⟩

theorem failed {post : α → Machine State → Prop} (fails : action machine = .error error after) (leads : machine.Leads frozen after) :
    action.Upholds frozen machine post := by
  rw [Upholds, Yields, fails]
  exact leads

theorem fail {post : α → Machine State → Prop} {fault : Fault} {span : Span} (sane : machine.Sane frozen) :
    (Exec.fail fault span : Exec State α).Upholds frozen machine post :=
  .failed rfl (.refl sane)

theorem of_ok {post : α → Machine State → Prop} (upholds : action.Upholds frozen machine post) (goes : action machine = .ok value after) :
    machine.Leads frozen after ∧ post value after := by
  rw [Upholds, Yields, goes] at upholds
  exact upholds

theorem of_error {post : α → Machine State → Prop} (upholds : action.Upholds frozen machine post)
    (fails : action machine = .error error after) : machine.Leads frozen after := by
  rw [Upholds, Yields, fails] at upholds
  exact upholds

theorem mono {post post' : α → Machine State → Prop} (upholds : action.Upholds frozen machine post)
    (weaker : ∀ value after, machine.Leads frozen after → post value after → post' value after) : action.Upholds frozen machine post' :=
  Yields.mono upholds (fun _ _ => id) fun value after ⟨leads, holds⟩ => ⟨leads, weaker value after leads holds⟩

theorem settle {post : α → Machine State → Prop} (upholds : action.Upholds frozen machine post) :
    action.Upholds ⟨frozen.classes, none⟩ machine post :=
  Yields.mono upholds (fun _ _ => .settle) fun _ _ ⟨leads, holds⟩ => ⟨leads.settle, holds⟩

theorem from_ {post : α → Machine State → Prop} (leads : machine.Leads frozen between) (upholds : action.Upholds frozen between post) :
    action.Yields between (fun _ => machine.Leads frozen) fun value after => machine.Leads frozen after ∧ post value after :=
  Yields.mono upholds (fun _ _ => leads.trans) fun _ _ ⟨further, holds⟩ => ⟨leads.trans further, holds⟩

theorem bind {first : α → Machine State → Prop} (upholds : action.Upholds frozen machine first)
    (rest : ∀ value after, machine.Leads frozen after → first value after → (next value).Upholds frozen after post) :
    (action >>= next).Upholds frozen machine post :=
  Yields.bind (Yields.mono upholds (fun _ _ => id) fun value after ⟨leads, holds⟩ => from_ leads (rest value after leads holds))

theorem after_ok (goes : action machine = .ok value between) (leads : machine.Leads frozen between)
    (rest : (next value).Upholds frozen between post) : (action >>= next).Upholds frozen machine post :=
  .afterwards goes (from_ leads rest)

theorem after_error (fails : action machine = .error error after) (leads : machine.Leads frozen after) :
    (action >>= next).Upholds frozen machine post :=
  .failed (bind_error fails) leads

theorem looking (goes : action machine = .ok value machine) (rest : (next value).Upholds frozen machine post) :
    (action >>= next).Upholds frozen machine post :=
  .afterwards goes rest

theorem reading {view : Machine State → α} (rest : ∀ value, view machine = value → (next value).Upholds frozen machine post) :
    (read view >>= next).Upholds frozen machine post :=
  looking rfl (rest _ rfl)

theorem look {view : Machine State → Except RuntimeError α} (sane : machine.Sane frozen)
    (rest : ∀ value, view machine = .ok value → (next value).Upholds frozen machine post) : (look view >>= next).Upholds frozen machine post := by
  cases seen : view machine with
  | ok value => exact looking (look_eq seen) (rest value seen)
  | error error => exact after_error (look_error seen) (.refl sane)

theorem fetch {next : Object → Exec State β} (sane : machine.Sane frozen)
    (rest : ∀ object, machine.heap.get? ref = some object → (next object).Upholds frozen machine post) :
    (fetch ref >>= next).Upholds frozen machine post := by
  refine .look sane fun object fetched => rest object ?_
  unfold Heap.fetch at fetched
  split at fetched
  · next found =>
    cases fetched
    exact found
  · cases fetched

end Upholds

end Exec

namespace Machine

structure Beside (before after : Machine State) : Prop where
  stack : after.stack = before.stack
  frames : after.frames = before.frames

theorem Beside.refl (machine : Machine State) : machine.Beside machine :=
  ⟨rfl, rfl⟩

theorem Beside.trans {between after : Machine State} (one : machine.Beside between) (two : between.Beside after) :
    machine.Beside after :=
  ⟨two.stack.trans one.stack, two.frames.trans one.frames⟩

end Machine

section Upvalues

open Exec

theorem Exec.spotFrom_isUpvalue {heap : Heap} {slot bound : Nat} {previous current : Option Ref}
    (spotted : spotFrom heap slot bound previous current = .ok (.found ref)) : heap.IsUpvalue ref := by
  induction bound generalizing previous current with
  | zero => cases spotted
  | succ bound ih =>
    cases current with
    | none => cases spotted
    | some head =>
      simp only [spotFrom] at spotted
      cases fetched : heap.fetchUpvalue head with
      | error => simp [fetched, bind, Except.bind] at spotted
      | ok upvalue =>
        simp only [fetched, bind, Except.bind] at spotted
        split at spotted
        · cases spotted
        · split at spotted
          · cases spotted
            exact ⟨upvalue, Heap.get?_of_fetchUpvalue fetched⟩
          · split at spotted
            · cases spotted
            · exact ih spotted

section

variable (sane : machine.Sane frozen)
include sane

theorem Machine.Sane.setUpvalue {before after : Upvalue}
    (found : machine.heap.get? ref = some (.upvalue before))
    (same : ∀ slot, after.location = .open slot → before.location = .open slot)
    (has : ∀ value, after.location = .closed value → machine.heap.Has value) :
    machine.Leads frozen (machine.setObject ref (.upvalue after)) :=
  sane.setObject found (.upvalue before after same) has (sane.classes.free found fun _ other => by cases other)

theorem Machine.Sane.closed_has {upvalue : Upvalue} {value : Value}
    (found : machine.heap.get? ref = some (.upvalue upvalue)) (closed : upvalue.location = .closed value) :
    machine.heap.Has value :=
  (sane.heap ref _ found).1 value closed

theorem Exec.link_upholds (previous : Option Ref) (next : Ref) :
    (link previous next).Upholds frozen machine fun _ => machine.Beside := by
  cases previous with
  | none => exact .done rfl (sane.restack rfl rfl rfl rfl sane.stack) ⟨rfl, rfl⟩
  | some ref =>
    refine .look sane fun upvalue fetched => ?_
    have found := Heap.get?_of_fetchUpvalue fetched
    refine .done rfl (sane.setUpvalue found (fun _ => id) fun value closed => ?_) ⟨rfl, rfl⟩
    exact sane.closed_has found closed

theorem Exec.capture_upholds (slot : Nat) :
    (capture slot).Upholds frozen machine fun ref after => machine.Beside after ∧ after.heap.IsUpvalue ref := by
  refine .look sane fun spot spotted => ?_
  cases spot with
  | found ref => exact .done rfl (.refl sane) ⟨.refl machine, spotFrom_isUpvalue spotted⟩
  | between previous next =>
    have added : machine.Leads frozen (machine.addObject (.upvalue ⟨.open slot, next⟩)) := sane.addObject nofun trivial
    have isUpvalue : (machine.addObject (.upvalue ⟨.open slot, next⟩)).heap.IsUpvalue machine.heap.size :=
      ⟨_, Heap.get?_push_self _ _⟩
    refine .after_ok (alloc_eq _) added ?_
    refine .bind (link_upholds added.sane previous _) fun _ after leads beside => ?_
    exact .done rfl (.refl leads.sane) ⟨⟨beside.stack, beside.frames⟩, isUpvalue.mono leads.evolves⟩

theorem Exec.closeFrom_upholds (last bound : Nat) :
    (closeFrom last bound).Upholds frozen machine fun _ => machine.Beside := by
  induction bound generalizing machine with
  | zero => exact .done rfl (.refl sane) (.refl machine)
  | succ bound ih =>
    refine .reading fun start _ => ?_
    cases start with
    | none => exact .done rfl (.refl sane) (.refl machine)
    | some ref =>
      refine .look sane fun upvalue fetched => ?_
      have found := Heap.get?_of_fetchUpvalue fetched
      obtain ⟨location, next⟩ := upvalue
      cases location with
      | closed => exact .fail sane
      | «open» slot =>
        dsimp only
        split
        · exact .done rfl (.refl sane) (.refl machine)
        · refine .reading fun found held => ?_
          cases found with
          | none => exact .fail sane
          | some value =>
            have has : machine.heap.Has value := sane.stack value (Array.mem_of_getElem? held)
            have closed : machine.Leads frozen (machine.setObject ref (.upvalue ⟨.closed value, none⟩)) :=
              sane.setUpvalue found nofun fun other same => by cases same; exact has
            have moved : (machine.setObject ref (.upvalue ⟨.closed value, none⟩)).Leads frozen
                { machine.setObject ref (.upvalue ⟨.closed value, none⟩) with openUpvalues := next } :=
              closed.sane.restack rfl rfl rfl rfl closed.sane.stack
            exact .after_ok rfl (closed.trans moved)
              ((ih moved.sane).mono fun _ _ _ beside => ⟨beside.stack, beside.frames⟩)

theorem Exec.closeUpvalues_upholds (last : Nat) :
    (closeUpvalues last).Upholds frozen machine fun _ => machine.Beside :=
  .looking rfl (closeFrom_upholds sane last _)

theorem Exec.readUpvalue_upholds (ref : Ref) :
    (readUpvalue ref).Upholds frozen machine fun value after => after = machine ∧ machine.heap.Has value := by
  refine .look sane fun upvalue fetched => ?_
  have found := Heap.get?_of_fetchUpvalue fetched
  cases location : upvalue.location with
  | closed value => exact .done rfl (.refl sane) ⟨rfl, sane.closed_has found location⟩
  | «open» slot =>
    refine .reading fun found held => ?_
    cases found with
    | none => exact .fail sane
    | some value => exact .done rfl (.refl sane) ⟨rfl, sane.stack value (Array.mem_of_getElem? held)⟩

end

/-- What becomes of the stack when a captured variable gets another value. -/
def Heap.Writes (heap : Heap) (ref : Ref) (value : Value) (before after : Array Value) : Prop :=
  after = before ∨ ∃ slot next, heap.get? ref = some (.upvalue ⟨.open slot, next⟩) ∧ slot < before.size ∧
    after = before.setIfInBounds slot value

theorem Exec.writeUpvalue_upholds (sane : machine.Sane frozen) (ref : Ref) {value : Value} (has : machine.heap.Has value) :
    (writeUpvalue ref value).Upholds frozen machine fun _ after =>
      after.frames = machine.frames ∧ machine.heap.Writes ref value machine.stack after.stack := by
  refine .look sane fun upvalue fetched => ?_
  have found := Heap.get?_of_fetchUpvalue fetched
  obtain ⟨location, next⟩ := upvalue
  cases location with
  | closed old =>
    have written : machine.Leads frozen (machine.setObject ref (.upvalue ⟨.closed value, next⟩)) :=
      sane.setUpvalue found nofun fun other same => by cases same; exact has
    exact .done rfl written ⟨rfl, .inl rfl⟩
  | «open» slot =>
    refine .looking rfl ?_
    split
    · next inside => exact .done rfl (sane.setSlot slot has) ⟨rfl, .inr ⟨slot, next, found, inside, rfl⟩⟩
    · exact .fail sane

end Upvalues

end StackScript
