import StackScript.Proofs.Provenance

/-!
Actions of the machine, with respect to the code that it runs and the places of the faults that they raise. Most actions leave
the frames alone; a call may start new frames, at the first instruction of a function. Whatever an action does, a fault of it
has the place that the action was given, or no place, or was reported by a native function. This is so of every instruction.
-/

namespace StackScript

variable {State : Type}
variable {conduct : Conduct RuntimeError (Machine State)} {op : Opcode} {machine first second third : Machine State}

/-- Whether it succeeds or fails, the native function puts no function on the heap that comes from nowhere. -/
def NativeBody.KeepsOrigins (body : NativeBody State) : Prop :=
  ∀ args store, store.heap.FromSource →
    match body args store with
    | .ok _ after => after.heap.FromSource
    | .error _ after => after.heap.FromSource

/-- The functions on the heap come from source texts, and native functions leave it at that. -/
structure Machine.FromSource (machine : Machine State) : Prop where
  heap : machine.heap.FromSource
  natives : ∀ body ∈ machine.natives, NativeBody.KeepsOrigins body

def Reported (natives : Array (NativeBody State)) (error : RuntimeError) : Prop :=
  ∃ body ∈ natives, ∃ args store after, body args store = .error error after

/-- The error has no place or the given one, or a native function reports it. -/
inductive Placed (natives : Array (NativeBody State)) (span : Span) (error : RuntimeError) : Prop where
  | nowhere (line : error.span.line = 0)
  | here (span : error.span = span)
  | reported (reported : Reported natives error)

/-- The frames are the same, and the code on the heap still comes from source texts. -/
structure Machine.Settled (before after : Machine State) : Prop where
  natives : after.natives = before.natives
  frames : after.frames = before.frames
  code : before.FromSource → after.FromSource

/-- Frames may have been started, in functions from source texts. -/
structure Machine.Called (before after : Machine State) : Prop where
  natives : after.natives = before.natives
  frames : ∃ more, after.frames = before.frames ++ more ∧ (∀ frame ∈ more, frame.ip = 0) ∧
    (before.FromSource → ∀ frame ∈ more, frame.function.FromSource)
  code : before.FromSource → after.FromSource

theorem Machine.Settled.trans (one : first.Settled second) (two : second.Settled third) :
    first.Settled third :=
  ⟨two.natives.trans one.natives, two.frames.trans one.frames, two.code ∘ one.code⟩

theorem Machine.Settled.called {before after : Machine State} (settled : before.Settled after) : before.Called after :=
  ⟨settled.natives, ⟨#[], by rw [settled.frames, Array.append_empty], nofun, nofun⟩, settled.code⟩

theorem Machine.Called.trans (one : first.Called second) (two : second.Called third) :
    first.Called third := by
  obtain ⟨more, frames, first, new⟩ := one.frames
  obtain ⟨further, frames', first', new'⟩ := two.frames
  refine ⟨two.natives.trans one.natives, ⟨more ++ further, by rw [frames', frames, Array.append_assoc], ?_, ?_⟩, two.code ∘ one.code⟩
  · exact fun frame member => (Array.mem_append.mp member).elim (first frame) (first' frame)
  · exact fun origin frame member => (Array.mem_append.mp member).elim (new origin frame) (new' (one.code origin) frame)

namespace Exec

def settled (span : Span) : Conduct RuntimeError (Machine State) where
  goes := Machine.Settled
  fails before error _ := Placed before.natives span error
  refl _ := ⟨rfl, rfl, id⟩
  trans := Machine.Settled.trans
  fails_after one two := one.natives ▸ two

def calling (span : Span) : Conduct RuntimeError (Machine State) where
  goes := Machine.Called
  fails before error _ := Placed before.natives span error
  refl _ := Machine.Settled.called ⟨rfl, rfl, id⟩
  trans := Machine.Called.trans
  fails_after one two := one.natives ▸ two

def placing (span : Span) : Conduct RuntimeError (Machine State) where
  goes before after := after.natives = before.natives
  fails before error _ := Placed before.natives span error
  refl _ := rfl
  trans one two := two.trans one
  fails_after one two := one ▸ two

variable {span : Span} {α β : Type} {object : Object}

theorem settled_within_calling : (settled span : Conduct _ (Machine State)).Within (calling span) :=
  ⟨Machine.Settled.called, id⟩

theorem calling_within_placing : (calling span : Conduct _ (Machine State)).Within (placing span) :=
  ⟨Machine.Called.natives, id⟩

/-- A conduct that allows changes of the stack, the globals and the upvalues, and faults without a place. -/
class Quiet (conduct : Conduct RuntimeError (Machine State)) : Prop where
  beside : ∀ {before after : Machine State}, after.natives = before.natives → after.frames = before.frames →
    after.heap = before.heap → conduct.goes before after
  adds : ∀ (machine : Machine State) upvalue, conduct.goes machine (machine.addObject (.upvalue upvalue))
  sets : ∀ (machine : Machine State) ref upvalue, conduct.goes machine (machine.setObject ref (.upvalue upvalue))
  fails : ∀ (machine : Machine State) {error : RuntimeError}, error.span.line = 0 → conduct.fails machine error machine

open Conduct

theorem read_obeys (view : Machine State → α) : conduct.Obeys (read view) :=
  conduct.refl

theorem update_obeys {change : Machine State → Machine State} (goes : ∀ machine, conduct.goes machine (change machine)) :
    conduct.Obeys (update change) := goes

theorem allows_reading {view : Machine State → α} {next : α → Exec State β}
    (rest : conduct.Allows machine (next (view machine) machine)) : conduct.Allows machine ((read view >>= next) machine) := rest

section Quiet

variable [quiet : Quiet conduct]

theorem look_quiet {view : Machine State → Except RuntimeError α} (unplaced : ∀ machine, Unplaced (view machine)) :
    conduct.Obeys (look view) := by
  intro machine
  unfold look
  split
  · exact conduct.refl machine
  · next failed => exact quiet.fails machine (congrArg Span.line (unplaced machine _ failed))

theorem fail_nowhere (fault : Fault) : conduct.Obeys (fail fault .nowhere : Exec State α) :=
  fun machine => quiet.fails machine rfl

theorem fetch_quiet (ref : Ref) : conduct.Obeys (fetch ref : Exec State Object) :=
  look_quiet fun machine => machine.heap.fetch_unplaced ref

theorem push_quiet (value : Value) : conduct.Obeys (push value : Exec State Unit) := fun _ => quiet.beside rfl rfl rfl

theorem pop_quiet : conduct.Obeys (pop : Exec State Value) := by
  intro machine
  unfold pop
  split
  · exact quiet.beside rfl rfl rfl
  · exact quiet.fails machine rfl

theorem slotBelow_quiet (distance : Nat) : conduct.Obeys (slotBelow distance : Exec State Nat) := by
  intro machine
  unfold slotBelow
  split
  · exact conduct.refl machine
  · exact quiet.fails machine rfl

theorem slotValue_quiet (slot : Nat) : conduct.Obeys (slotValue slot : Exec State Value) := by
  intro machine
  unfold slotValue
  split
  · exact conduct.refl machine
  · exact quiet.fails machine rfl

theorem peek_quiet (distance : Nat) : conduct.Obeys (peek distance : Exec State Value) :=
  (slotBelow_quiet distance).bind slotValue_quiet

theorem takeAbove_quiet (slot : Nat) : conduct.Obeys (takeAbove slot : Exec State (List Value)) :=
  fun _ => quiet.beside rfl rfl rfl

theorem setSlot_quiet (slot : Nat) (value : Value) : conduct.Obeys (update (·.setSlot slot value) : Exec State Unit) :=
  fun _ => quiet.beside rfl rfl rfl

theorem setGlobal_quiet (name : String) (value : Value) : conduct.Obeys (update (·.setGlobal name value) : Exec State Unit) :=
  fun _ => quiet.beside rfl rfl rfl

theorem frame_quiet : conduct.Obeys (frame : Exec State Frame) := by
  intro machine
  unfold frame
  split
  · exact conduct.refl machine
  · exact quiet.fails machine rfl

theorem offStack_quiet (slot : Nat) : conduct.Obeys (offStack slot : Exec State α) := fail_nowhere _

theorem link_quiet (previous : Option Ref) (next : Ref) : conduct.Obeys (link previous next : Exec State Unit) := by
  unfold link
  cases previous with
  | none => exact fun _ => quiet.beside rfl rfl rfl
  | some ref =>
    refine (look_quiet fun machine => machine.heap.fetchUpvalue_unplaced ref).bind fun upvalue => ?_
    exact update_obeys fun machine => quiet.sets machine ref _

theorem capture_quiet (slot : Nat) : conduct.Obeys (capture slot : Exec State Ref) := by
  refine (look_quiet fun machine => spotFrom_unplaced machine.heap slot _ _ _).bind fun spot => ?_
  cases spot with
  | found ref => exact .pure ref
  | between previous next =>
    refine Obeys.bind (fun machine => ?_) fun ref => (link_quiet previous ref).bind fun _ => .pure ref
    exact quiet.adds machine _

theorem closeFrom_quiet (last bound : Nat) : conduct.Obeys (closeFrom last bound : Exec State Unit) := by
  induction bound with
  | zero => exact .pure ()
  | succ bound ih =>
    refine (read_obeys _).bind fun head => ?_
    cases head with
    | none => exact .pure ()
    | some ref =>
      refine (look_quiet fun machine => machine.heap.fetchUpvalue_unplaced ref).bind fun upvalue => ?_
      split
      · exact fail_nowhere _
      · refine .ite (.pure ()) ((read_obeys _).bind fun held => ?_)
        cases held with
        | none => exact offStack_quiet _
        | some value =>
          refine Obeys.bind (update_obeys fun machine => ?_) fun _ => ih
          exact conduct.trans (quiet.sets machine ref ⟨.closed value, none⟩) (quiet.beside rfl rfl rfl)

theorem closeUpvalues_quiet (last : Nat) : conduct.Obeys (closeUpvalues last : Exec State Unit) :=
  (read_obeys _).bind (closeFrom_quiet last)

theorem readUpvalue_quiet (ref : Ref) : conduct.Obeys (readUpvalue ref : Exec State Value) := by
  refine (look_quiet fun machine => machine.heap.fetchUpvalue_unplaced ref).bind fun upvalue => ?_
  split
  · exact .pure _
  · refine (read_obeys _).bind fun held => ?_
    cases held with
    | some value => exact .pure value
    | none => exact offStack_quiet _

theorem writeUpvalue_quiet (ref : Ref) (value : Value) : conduct.Obeys (writeUpvalue ref value : Exec State Unit) := by
  refine (look_quiet fun machine => machine.heap.fetchUpvalue_unplaced ref).bind fun upvalue => ?_
  split
  · exact update_obeys fun machine => quiet.sets machine ref _
  · exact (read_obeys _).bind fun _ => .ite (setSlot_quiet _ _) (offStack_quiet _)

theorem frameUpvalue_quiet (index : Nat) : conduct.Obeys (frameUpvalue index : Exec State Ref) := by
  refine frame_quiet.bind fun frame => ?_
  split
  · exact fail_nowhere _
  · next ref _ =>
    refine (look_quiet fun machine => machine.heap.fetchClosure_unplaced ref).bind fun closure => ?_
    split
    · exact .pure _
    · exact fail_nowhere _

end Quiet

theorem upvalue_known (upvalue : Upvalue) : (Object.upvalue upvalue).FromSource := trivial

theorem setObject_settled (known : object.FromSource) (ref : Ref) (machine : Machine State) :
    machine.Settled (machine.setObject ref object) :=
  ⟨rfl, rfl, fun origin => ⟨origin.heap.set known ref, origin.natives⟩⟩

instance : Quiet (settled span : Conduct _ (Machine State)) where
  beside natives frames heap := ⟨natives, frames, fun origin => ⟨heap ▸ origin.heap, natives ▸ origin.natives⟩⟩
  adds _ upvalue := ⟨rfl, rfl, fun origin => ⟨origin.heap.push (upvalue_known upvalue), origin.natives⟩⟩
  sets machine ref upvalue := setObject_settled (upvalue_known upvalue) ref machine
  fails _ _ unplaced := .nowhere unplaced

instance : Quiet (calling span : Conduct _ (Machine State)) where
  beside natives frames heap := Machine.Settled.called (Quiet.beside natives frames heap : (settled span).goes _ _)
  adds machine upvalue := Machine.Settled.called (Quiet.adds machine upvalue : (settled span).goes _ _)
  sets machine ref upvalue := Machine.Settled.called (Quiet.sets machine ref upvalue : (settled span).goes _ _)
  fails _ _ unplaced := .nowhere unplaced

instance : Quiet (placing span : Conduct _ (Machine State)) where
  beside natives _ _ := natives
  adds _ _ := rfl
  sets _ _ _ := rfl
  fails _ _ unplaced := .nowhere unplaced

theorem fail_settled (fault : Fault) : (settled span).Obeys (fail fault span : Exec State α) :=
  fun _ => .here rfl

theorem onStore_settled {action : OnStore State α} {post : α → Heap → Prop} (gains : ∀ store, action.Gains store post) :
    (settled span).Obeys (onStore action) := by
  intro machine
  have gained := gains machine.store
  unfold OnStore.Gains at gained
  unfold onStore
  cases done : action machine.store with
  | ok value store =>
    rw [done] at gained
    exact ⟨rfl, rfl, fun origin => ⟨gained.1.fromSource origin.heap, origin.natives⟩⟩
  | error error store =>
    rw [done] at gained
    exact .nowhere (congrArg Span.line gained.2)

theorem alloc_settled (known : object.FromSource) : (settled span).Obeys (alloc object : Exec State Ref) :=
  fun _ => ⟨rfl, rfl, fun origin => ⟨origin.heap.push known, origin.natives⟩⟩

theorem allocString_settled (text : String) : (settled span).Obeys (onStore (Store.allocString text) : Exec State Value) := by
  have known : (Object.string text).FromSource := trivial
  exact fun _ => ⟨rfl, rfl, fun origin => ⟨origin.heap.push known, origin.natives⟩⟩

section Calls

open Conduct

theorem native_settled {body : NativeBody State} (listed : body ∈ machine.natives) (args : List Value) :
    (settled span).Allows machine (onStore (body args) machine) := by
  have kept (origin : machine.FromSource) := origin.natives body listed args machine.store origin.heap
  unfold onStore
  cases done : body args machine.store with
  | ok value store =>
    rw [done] at kept
    exact ⟨rfl, rfl, fun origin => ⟨kept origin, origin.natives⟩⟩
  | error error store => exact .reported ⟨body, listed, args, machine.store, store, done⟩

theorem callMember_settled (object : Host.Handle) (name : String) (args : List Value) :
    (settled span).Obeys (callMember object name args : Exec State Value) :=
  (look_quiet fun machine => machine.hosts.lookup_unplaced object name).bind fun member =>
    onStore_settled (member.call_gains object args)

theorem runNative_settled (code : NativeCode) (args : List Value) : (settled span).Obeys (runNative code args : Exec State Value) := by
  cases code with
  | hostMethod receiver name => exact callMember_settled receiver name args
  | listed index =>
    intro machine
    refine allows_reading ?_
    cases found : machine.natives[index]? with
    | none => exact (settled span).refl machine
    | some body => exact native_settled (Array.mem_of_getElem? found) args

theorem reportNative_settled (name : String) {action : Exec State Value} (obeys : (settled span).Obeys action) :
    (settled span).Obeys (reportNative name action) := by
  intro machine
  have allowed := obeys machine
  unfold reportNative
  cases done : action machine with
  | ok value after | error error after =>
    rw [done] at allowed
    exact allowed

theorem callNative_settled (native : Native) (argc : Nat) : (settled span).Obeys (callNative native argc span : Exec State Unit) := by
  have runs : (settled span).Obeys (do
      let args ← takeAbove (← slotBelow argc)
      push (← reportNative native.name (runNative native.code args)) : Exec State Unit) := by
    refine (slotBelow_quiet argc).bind fun slot => (takeAbove_quiet slot).bind fun args => ?_
    exact (reportNative_settled native.name (runNative_settled native.code args)).bind push_quiet
  unfold callNative
  cases native.arity with
  | none => exact runs
  | some arity => exact .ite ((fail_settled _).bind fun _ => runs) runs

theorem callFunction_calling {function : Proto} (known : machine.FromSource → function.FromSource) (closure : Option Ref)
    (argc : Nat) : (calling span).Allows machine (callFunction function closure argc span machine) := by
  have starts (base : Nat) : machine.Called { machine with frames := machine.frames.push ⟨function, closure, 0, base⟩ } := by
    refine ⟨rfl, ⟨#[⟨function, closure, 0, base⟩], by simp, by simp, fun origin frame member => ?_⟩,
      fun origin => ⟨origin.heap, origin.natives⟩⟩
    rw [Array.mem_singleton.mp member]
    exact known origin
  have pushes : (calling span).Allows machine ((do
      let base ← slotBelow argc
      update fun machine => { machine with frames := machine.frames.push ⟨function, closure, 0, base⟩ } : Exec State Unit) machine) := by
    by_cases room : argc < machine.stack.size
    · rw [bind_eq (slotBelow_eq room)]
      exact starts _
    · rw [bind_error (show slotBelow argc machine = .error (.unplaced .stackUnderflow) machine by
        simp only [slotBelow, if_neg room])]
      exact .nowhere rfl
  unfold callFunction
  by_cases fits : argc = function.arity
  · rw [if_neg (not_not.mpr fits)]
    refine allows_reading (allows_reading ?_)
    split
    · exact .here rfl
    · exact pushes
  · rw [if_pos fits]
    exact .here rfl

theorem instance_known (inst : Instance) : (Object.instance inst).FromSource := trivial

theorem callWithin_calling (bound : Nat) (callee : Value) (argc : Nat) :
    (calling span).Obeys (callWithin span bound callee argc : Exec State Unit) := by
  induction bound generalizing callee with
  | zero => exact (fail_settled _).within settled_within_calling
  | succ bound ih =>
    cases callee with
    | number | bool | nil => exact (fail_settled _).within settled_within_calling
    | object ref =>
      intro machine
      unfold callWithin
      cases found : machine.heap.get? ref with
      | none =>
        rw [bind_error (show fetch ref machine = .error (.unplaced (.access (.noObject ref))) machine by
          simp only [fetch, look, Heap.fetch, found])]
        exact .nowhere rfl
      | some object =>
        rw [bind_eq (fetch_eq found)]
        cases object with
        | function proto => exact callFunction_calling (fun origin => origin.heap ref _ found) none argc
        | closure closure => exact callFunction_calling (fun origin => origin.heap ref _ found) (some ref) argc
        | native native => exact ((callNative_settled native argc).within settled_within_calling) machine
        | bound method =>
          refine Obeys.bind (slotBelow_quiet argc) (fun slot => ?_) machine
          exact (setSlot_quiet slot _).bind fun _ => ih _
        | «class» cls =>
          refine Obeys.bind ((alloc_settled (instance_known _)).within settled_within_calling) (fun inst => ?_) machine
          refine (slotBelow_quiet argc).bind fun slot => ?_
          refine (setSlot_quiet slot _).bind fun _ => ?_
          split
          · exact ih _
          · exact .ite ((fail_settled _).within settled_within_calling) (.pure ())
        | string | upvalue | «instance» | host => exact .here rfl

theorem callValue_calling (callee : Value) (argc : Nat) : (calling span).Obeys (callValue callee argc span : Exec State Unit) :=
  (read_obeys _).bind fun bound => callWithin_calling bound callee argc

theorem invokeFromClass_calling (cls : Ref) (name : String) (argc : Nat) :
    (calling span).Obeys (invokeFromClass cls name argc span : Exec State Unit) := by
  refine (look_quiet fun machine => machine.heap.fetchClass_unplaced cls).bind fun found => ?_
  split
  · exact callValue_calling _ argc
  · exact (fail_settled _).within settled_within_calling

theorem invokeHost_calling (object : Host.Handle) (name : String) (argc : Nat) :
    (calling span).Obeys (invokeHost object name argc span : Exec State Unit) := by
  refine (look_quiet fun machine => machine.hosts.lookup_unplaced object name).bind fun member => ?_
  refine (read_obeys _).bind fun size => ?_
  have rest : (calling span).Obeys (if member.isMethod then do
        let args ← takeAbove (size - 1 - argc)
        push (← onStore (member.call object args))
      else do
        let callee ← onStore (member.read object name)
        update (·.setSlot (size - 1 - argc) callee)
        callValue callee argc span : Exec State Unit) := by
    refine .ite ?_ ?_
    · refine Obeys.within ?_ settled_within_calling
      refine (takeAbove_quiet _).bind fun args => ?_
      exact (onStore_settled (member.call_gains object args)).bind push_quiet
    · refine Obeys.bind ((onStore_settled (member.read_gains object name)).within settled_within_calling) fun callee => ?_
      exact (setSlot_quiet _ _).bind fun _ => callValue_calling callee argc
  exact .ite (Obeys.bind ((fail_settled _).within settled_within_calling) fun _ => rest) rest

theorem invoke_calling (name : String) (argc : Nat) : (calling span).Obeys (invoke name argc span : Exec State Unit) := by
  have refused (fault : TypeFault) : (calling span).Obeys (fail (.type fault) span : Exec State Unit) :=
    (fail_settled _).within settled_within_calling
  refine (peek_quiet argc).bind fun receiver => ?_
  cases receiver with
  | number | bool | nil => exact refused _
  | object ref =>
    refine (fetch_quiet ref).bind fun object => ?_
    cases object with
    | «instance» inst =>
      dsimp only
      split
      · refine (slotBelow_quiet argc).bind fun slot => ?_
        exact (setSlot_quiet slot _).bind fun _ => callValue_calling _ argc
      · exact invokeFromClass_calling _ name argc
    | host handle => exact invokeHost_calling handle name argc
    | string | function | closure | upvalue | «class» | bound | native => exact refused _

end Calls

section Properties

open Conduct

theorem class_known (cls : Class) : (Object.class cls).FromSource := trivial

theorem bindMethod_settled (cls : Ref) (name : String) : (settled span).Obeys (bindMethod cls name span : Exec State Unit) := by
  have bound_known (bound : BoundMethod) : (Object.bound bound).FromSource := trivial
  refine (look_quiet fun machine => machine.heap.fetchClass_unplaced cls).bind fun found => ?_
  split
  · refine (peek_quiet 0).bind fun receiver => (alloc_settled (bound_known _)).bind fun bound => ?_
    exact pop_quiet.bind fun _ => push_quiet _
  · exact fail_settled _

theorem getProperty_settled (name : String) : (settled span).Obeys (getProperty name span : Exec State Unit) := by
  refine (peek_quiet 0).bind fun receiver => ?_
  cases receiver with
  | number | bool | nil => exact fail_settled _
  | object ref =>
    refine (fetch_quiet ref).bind fun object => ?_
    cases object with
    | «instance» inst =>
      dsimp only
      split
      · exact pop_quiet.bind fun _ => push_quiet _
      · exact bindMethod_settled _ name
    | host handle =>
      refine Obeys.bind ?_ fun value => pop_quiet.bind fun _ => push_quiet value
      exact (look_quiet fun machine => machine.hosts.lookup_unplaced handle name).bind fun member =>
        onStore_settled (member.read_gains handle name)
    | string | function | closure | upvalue | «class» | bound | native => exact fail_settled _

theorem setProperty_settled (name : String) : (settled span).Obeys (setProperty name span : Exec State Unit) := by
  refine (peek_quiet 0).bind fun value => (peek_quiet 1).bind fun receiver => ?_
  have leaves : (settled span).Obeys (do let _ ← pop; let _ ← pop; push value : Exec State Unit) :=
    pop_quiet.bind fun _ => pop_quiet.bind fun _ => push_quiet value
  cases receiver with
  | number | bool | nil => exact (fail_settled _).bind fun _ => leaves
  | object ref =>
    refine (fetch_quiet ref).bind fun object => ?_
    cases object with
    | «instance» inst => exact (update_obeys (setObject_settled (instance_known _) ref)).bind fun _ => leaves
    | host handle =>
      refine Obeys.bind ?_ fun _ => leaves
      exact (look_quiet fun machine => machine.hosts.lookup_unplaced handle name).bind fun member =>
        onStore_settled (member.write_gains handle name value)
    | string | function | closure | upvalue | «class» | bound | native => exact (fail_settled _).bind fun _ => leaves

theorem classOf_settled (value : Value) (otherwise : TypeFault) :
    (settled span).Obeys (classOf value otherwise span : Exec State (Ref × Class)) := by
  cases value with
  | number | bool | nil => exact fail_settled _
  | object ref =>
    refine (fetch_quiet ref).bind fun object => ?_
    split
    · exact .pure _
    · exact fail_settled _

theorem inherit_settled : (settled span).Obeys (inherit span : Exec State Unit) := by
  refine (peek_quiet 1).bind fun above => (classOf_settled above _).bind fun superclass => ?_
  refine (peek_quiet 0).bind fun below => (classOf_settled below _).bind fun found => ?_
  exact (update_obeys (setObject_settled (class_known _) _)).bind fun _ => pop_quiet.bind fun _ => .pure ()

theorem defineMethod_settled (name : String) : (settled span).Obeys (defineMethod name span : Exec State Unit) := by
  refine (peek_quiet 0).bind fun method => (peek_quiet 1).bind fun below => (classOf_settled below _).bind fun found => ?_
  exact (update_obeys (setObject_settled (class_known _) _)).bind fun _ => pop_quiet.bind fun _ => .pure ()

theorem popClass_settled : (settled span).Obeys (popClass span : Exec State Ref) :=
  pop_quiet.bind fun value => (classOf_settled value _).bind fun _ => .pure _

end Properties

section Operators

open Conduct

theorem onNumbers_settled (operate : Float → Float → Value) : (settled span).Obeys (onNumbers operate span : Exec State Unit) := by
  refine (peek_quiet 1).bind fun left => (peek_quiet 0).bind fun right => ?_
  split
  · exact pop_quiet.bind fun _ => pop_quiet.bind fun _ => push_quiet _
  · exact fail_settled _

theorem sum_settled (left right : Value) : (settled span).Obeys (sum left right span : Exec State Value) := by
  unfold sum
  split
  · exact .pure _
  · refine (read_obeys _).bind fun first => (read_obeys _).bind fun second => ?_
    split
    · exact allocString_settled _
    · exact fail_settled _

theorem add_settled : (settled span).Obeys (add span : Exec State Unit) := by
  refine (peek_quiet 0).bind fun right => (peek_quiet 1).bind fun left => (sum_settled left right).bind fun result => ?_
  exact pop_quiet.bind fun _ => pop_quiet.bind fun _ => push_quiet result

end Operators

end Exec

/-- The instruction may call, jump or return, or put a function on the heap. -/
def Opcode.isSpecial : Opcode → Bool
  | .function | .closure | .jump | .jumpIfFalse | .loop | .call | .invoke | .superInvoke | .return => true
  | _ => false

namespace Exec

open Conduct

variable {span : Span} {action : Exec State Unit}

/-- What most instructions do: they read an operand, if they have one, and then keep to the conduct. -/
inductive Ordinary (conduct : Conduct RuntimeError (Machine State)) (op : Opcode) : Exec State Unit → Prop where
  | bare {action : Exec State Unit} (obeys : conduct.Obeys action)
      (next : ∀ chunk offset, (Listing.operands chunk offset op).2 = offset + 1) : Ordinary conduct op action
  | wide {tail : Nat → Exec State Unit} (obeys : ∀ operand, conduct.Obeys (tail operand))
      (next : ∀ chunk offset, (Listing.operands chunk offset op).2 = offset + 3) : Ordinary conduct op (readOperand >>= tail)

theorem Ordinary.named [Quiet conduct] {tail : String → Exec State Unit} (obeys : ∀ name, conduct.Obeys (tail name))
    (next : ∀ chunk offset, (Listing.operands chunk offset op).2 = offset + 3) : Ordinary conduct op (readString >>= tail) := by
  unfold readString
  rw [bind_assoc]
  refine .wide (fun entry => Obeys.bind (frame_quiet.bind fun frame => ?_) obeys) next
  split
  · exact .pure _
  · exact fail_nowhere _

theorem Ordinary.within {wide : Conduct RuntimeError (Machine State)}
    (ordinary : Ordinary conduct op action) (within : conduct.Within wide) : Ordinary wide op action := by
  cases ordinary with
  | bare obeys next => exact .bare (obeys.within within) next
  | wide obeys next => exact .wide (fun operand => (obeys operand).within within) next

theorem perform_idle [Quiet conduct] (refuses : ∀ fault, conduct.Obeys (fail fault span : Exec State Unit))
    (idle : op.isIdle = true) : Ordinary conduct op (perform op span) := by
  cases op <;> cases idle
  case pop => exact .bare (pop_quiet.bind fun _ => .pure ()) fun _ _ => rfl
  case closeUpvalue =>
    have closes (size : Nat) : conduct.Obeys (do
        closeUpvalues (size - 1)
        let _ ← pop : Exec State Unit) := (closeUpvalues_quiet _).bind fun _ => pop_quiet.bind fun _ => .pure ()
    refine .bare ((read_obeys _).bind fun size => ?_) fun _ _ => rfl
    exact .ite ((refuses _).bind fun _ => closes size) (closes size)
  case getLocal => exact .wide (fun index => frame_quiet.bind fun frame => (slotValue_quiet _).bind push_quiet) fun _ _ => rfl
  case getUpvalue =>
    exact .wide (fun index => (frameUpvalue_quiet index).bind fun ref => (readUpvalue_quiet ref).bind push_quiet) fun _ _ => rfl
  case getGlobal =>
    refine .named (fun name => (read_obeys _).bind fun found => ?_) fun _ _ => rfl
    split
    · exact push_quiet _
    · exact refuses _
  case defineGlobal =>
    refine .named (fun name => (peek_quiet 0).bind fun value => (setGlobal_quiet name value).bind fun _ => ?_) fun _ _ => rfl
    exact pop_quiet.bind fun _ => .pure ()

theorem perform_ordinary (ordinary : op.isSpecial = false) : Ordinary (settled span) op (perform op span : Exec State Unit) := by
  cases op with
  | function | closure | jump | jumpIfFalse | loop | call | invoke | superInvoke | «return» => cases ordinary
  | pop | closeUpvalue | getLocal | getGlobal | getUpvalue | defineGlobal => exact perform_idle fail_settled rfl
  | pushNil | pushTrue | pushFalse => exact .bare (push_quiet _) fun _ _ => rfl
  | equal => exact .bare (pop_quiet.bind fun _ => pop_quiet.bind fun _ => push_quiet _) fun _ _ => rfl
  | greater | less | subtract | multiply | divide => exact .bare (onNumbers_settled _) fun _ _ => rfl
  | add => exact .bare add_settled fun _ _ => rfl
  | not => exact .bare (pop_quiet.bind fun _ => push_quiet _) fun _ _ => rfl
  | negate =>
    refine .bare (pop_quiet.bind fun value => ?_) fun _ _ => rfl
    split
    · exact push_quiet _
    · exact fail_settled _
  | print =>
    exact .bare (pop_quiet.bind fun _ => update_obeys fun _ => Quiet.beside rfl rfl rfl) fun _ _ => rfl
  | inherit => exact .bare inherit_settled fun _ _ => rfl
  | constant =>
    refine .wide (fun index => frame_quiet.bind fun frame => ?_) fun _ _ => rfl
    split
    · exact push_quiet _
    · exact fail_settled _
  | setLocal =>
    refine .wide (fun index => frame_quiet.bind fun frame => (peek_quiet 0).bind fun value => ?_) fun _ _ => rfl
    exact (read_obeys _).bind fun _ => .ite (setSlot_quiet _ _) (fail_settled _)
  | setUpvalue =>
    refine .wide (fun index => (frameUpvalue_quiet index).bind fun ref => ?_) fun _ _ => rfl
    exact (peek_quiet 0).bind fun value => writeUpvalue_quiet ref value
  | string =>
    exact .named (fun text => (allocString_settled text).bind push_quiet) fun _ _ => rfl
  | setGlobal =>
    refine .named (fun name => (peek_quiet 0).bind fun value => (read_obeys _).bind fun _ => ?_) fun _ _ => rfl
    exact .ite (setGlobal_quiet name value) (fail_settled _)
  | getProperty => exact .named getProperty_settled fun _ _ => rfl
  | setProperty => exact .named setProperty_settled fun _ _ => rfl
  | getSuper => exact .named (fun name => popClass_settled.bind fun cls => bindMethod_settled cls name) fun _ _ => rfl
  | newClass =>
    exact .named (fun name => (alloc_settled (class_known _)).bind fun ref => push_quiet _) fun _ _ => rfl
  | method => exact .named defineMethod_settled fun _ _ => rfl

section Moving

/-- A quiet conduct that also allows moving about in the code of a frame. -/
class Roaming (conduct : Conduct RuntimeError (Machine State)) : Prop extends Quiet conduct where
  moves : ∀ ip, conduct.Obeys (setIp ip : Exec State Unit)

variable [roaming : Roaming conduct]

theorem readByte_roaming : conduct.Obeys (readByte : Exec State UInt8) := by
  refine frame_quiet.bind fun frame => ?_
  split
  · exact (roaming.moves _).bind fun _ => .pure _
  · exact fail_nowhere _

theorem readOperand_roaming : conduct.Obeys (readOperand : Exec State Nat) := by
  refine frame_quiet.bind fun frame => ?_
  split
  · exact (roaming.moves _).bind fun _ => .pure _
  · exact fail_nowhere _

theorem readString_roaming : conduct.Obeys (readString : Exec State String) := by
  refine readOperand_roaming.bind fun entry => frame_quiet.bind fun frame => ?_
  split
  · exact .pure _
  · exact fail_nowhere _

theorem captureAll_roaming (count : Nat) (captured : Array Ref) :
    conduct.Obeys (captureAll count captured : Exec State (Array Ref)) := by
  induction count generalizing captured with
  | zero => exact .pure captured
  | succ count ih =>
    refine readByte_roaming.bind fun isLocal => readOperand_roaming.bind fun index => ?_
    split
    · exact frame_quiet.bind fun frame => (capture_quiet _).bind fun upvalue => ih _
    · exact (frameUpvalue_quiet index).bind fun upvalue => ih _

theorem Ordinary.roams (ordinary : Ordinary conduct op action) : conduct.Obeys action := by
  cases ordinary with
  | bare obeys _ => exact obeys
  | wide obeys _ => exact readOperand_roaming.bind obeys

theorem closable_quiet {conduct : Conduct RuntimeError (Machine State)} [Quiet conduct]
    (refuses : ∀ fault, conduct.Obeys (fail fault span : Exec State Proto)) (value : Value) :
    conduct.Obeys (closable value span : Exec State Proto) := by
  cases value with
  | number | bool | nil => exact refuses _
  | object ref =>
    refine (fetch_quiet ref).bind fun object => ?_
    split
    · exact .pure _
    · exact refuses _

theorem makeClosure_roaming (refuses : ∀ fault, conduct.Obeys (fail fault span : Exec State Proto))
    (adds : ∀ closure, conduct.Obeys (alloc (.closure closure) : Exec State Ref)) : conduct.Obeys (makeClosure span : Exec State Unit) := by
  refine readOperand_roaming.bind fun count => pop_quiet.bind fun value => (closable_quiet refuses value).bind fun function => ?_
  exact (captureAll_roaming count #[]).bind fun upvalues => (adds _).bind fun ref => push_quiet _

theorem perform_roaming (calls : (calling span).Within conduct) (function : conduct.Obeys (perform .function span : Exec State Unit))
    (closure : conduct.Obeys (makeClosure span : Exec State Unit)) (op : Opcode) : conduct.Obeys (perform op span : Exec State Unit) := by
  by_cases special : op.isSpecial = true
  · cases op with
    | function => exact function
    | closure => exact closure
    | jump => exact readOperand_roaming.bind fun distance => frame_quiet.bind fun frame => roaming.moves _
    | jumpIfFalse =>
      refine readOperand_roaming.bind fun distance => (peek_quiet 0).bind fun value => ?_
      exact .ite (frame_quiet.bind fun frame => roaming.moves _) (.pure ())
    | loop =>
      refine readOperand_roaming.bind fun distance => frame_quiet.bind fun frame => .ite (roaming.moves _) ?_
      exact ((fail_settled _).within settled_within_calling).within calls
    | call =>
      refine readByte_roaming.bind fun argc => (peek_quiet _).bind fun callee => ?_
      exact (callValue_calling callee _).within calls
    | invoke =>
      refine readString_roaming.bind fun name => readByte_roaming.bind fun argc => ?_
      exact (invoke_calling name _).within calls
    | superInvoke =>
      refine readString_roaming.bind fun name => readByte_roaming.bind fun argc => ?_
      refine Obeys.bind ((popClass_settled.within settled_within_calling).within calls) fun superclass => ?_
      exact (invokeFromClass_calling superclass name _).within calls
    | «return» => exact .pure ()
    | _ => cases special
  · exact (((perform_ordinary (eq_false_of_ne_true special)).within settled_within_calling).within calls).roams

theorem step_roaming (calls : (calling span).Within conduct) (function : conduct.Obeys (perform .function span : Exec State Unit))
    (closure : conduct.Obeys (makeClosure span : Exec State Unit))
    (drops : ∀ machine : Machine State, conduct.goes machine { machine with frames := machine.frames.pop }) :
    conduct.Obeys (step span : Exec State Flow) := by
  refine readByte_roaming.bind fun byte => ?_
  split
  · exact ((fail_settled _).within settled_within_calling).within calls
  · refine pop_quiet.bind fun result => frame_quiet.bind fun frame => Obeys.bind (update_obeys drops) fun _ => ?_
    refine (closeUpvalues_quiet _).bind fun _ => Obeys.bind (update_obeys fun _ => Quiet.beside rfl rfl rfl) fun _ => ?_
    exact (read_obeys _).bind fun _ => .ite (.pure _) ((push_quiet result).bind fun _ => .pure _)
  · exact (perform_roaming calls function closure _).bind fun _ => .pure _

end Moving

instance : Roaming (placing span : Conduct _ (Machine State)) where
  moves _ _ := rfl

theorem alloc_placing (object : Object) : (placing span).Obeys (alloc object : Exec State Ref) := fun _ => rfl

theorem step_placing : (placing span).Obeys (step span : Exec State Flow) := by
  have fails {α : Type} (fault : Fault) : (placing span).Obeys (fail fault span : Exec State α) := fun _ => .here rfl
  refine step_roaming calling_within_placing ?_ (makeClosure_roaming fails fun _ => alloc_placing _) fun _ => rfl
  refine readOperand_roaming.bind fun index => frame_quiet.bind fun frame => ?_
  split
  · exact (alloc_placing _).bind fun _ => push_quiet _
  · exact fails _

end Exec

end StackScript
