import StackScript.Machine.Run

/-!
Actions of the machine, as far as what they do is known beforehand. An action that goes through can be followed to the
next one; `Yields` says what holds where an action ends, whether it fails or not.
-/

namespace StackScript

variable {object : Object}

namespace Heap

variable {heap : Heap} {ref : Ref} {upvalue : Upvalue} {cls : Class} {closure : Closure}

theorem fetch_eq (found : heap.get? ref = some object) : heap.fetch ref = .ok object := by
  simp only [fetch, found]

theorem fetchUpvalue_eq (found : heap.get? ref = some (.upvalue upvalue)) :
    heap.fetchUpvalue ref = .ok upvalue := by
  simp only [fetchUpvalue, fetch_eq found]
  rfl

theorem fetchClass_eq (found : heap.get? ref = some (.class cls)) : heap.fetchClass ref = .ok cls := by
  simp only [fetchClass, fetch_eq found]
  rfl

theorem fetchClosure_eq (found : heap.get? ref = some (.closure closure)) :
    heap.fetchClosure ref = .ok closure := by
  simp only [fetchClosure, fetch_eq found]
  rfl

theorem get?_of_fetchUpvalue (fetched : heap.fetchUpvalue ref = .ok upvalue) :
    heap.get? ref = some (.upvalue upvalue) := by
  unfold fetchUpvalue fetch at fetched
  cases found : heap.get? ref with
  | none => simp [found, bind, Except.bind] at fetched
  | some object => cases object <;> simp_all [bind, Except.bind, pure, Except.pure]

theorem get?_of_fetchClass (fetched : heap.fetchClass ref = .ok cls) : heap.get? ref = some (.class cls) := by
  unfold fetchClass fetch at fetched
  cases found : heap.get? ref with
  | none => simp [found, bind, Except.bind] at fetched
  | some object => cases object <;> simp_all [bind, Except.bind, pure, Except.pure, wrongKind]

theorem get?_of_fetchClosure (fetched : heap.fetchClosure ref = .ok closure) :
    heap.get? ref = some (.closure closure) := by
  unfold fetchClosure fetch at fetched
  cases found : heap.get? ref with
  | none => simp [found, bind, Except.bind] at fetched
  | some object => cases object <;> simp_all [bind, Except.bind, pure, Except.pure, wrongKind]

end Heap

def Chunk.NameAt {Function : Type} (chunk : Chunk Function) (offset : Nat) (name : String) : Prop :=
  ∃ entry, chunk.operand? offset = some entry ∧ chunk.string? entry = some name

namespace Machine

def addObject {State : Type} (machine : Machine State) (object : Object) : Machine State :=
  { machine with store := { machine.store with heap := machine.heap.push object } }

/-- The machine in front of an offset of the code of a frame, above other frames. -/
def inFrame {State : Type} (machine : Machine State) (rest : Array Frame) (frame : Frame) (ip : Nat) : Machine State :=
  { machine with frames := rest.push { frame with ip } }

end Machine

namespace Exec

variable {State α β : Type} {machine after : Machine State} {action : Exec State α} {next : α → Exec State β} {value : α}
  {error : RuntimeError}

theorem bind_eq (first : action machine = .ok value after) : (action >>= next) machine = next value after := by
  change EStateM.bind action next machine = _
  rw [EStateM.bind, first]

theorem bind_error (first : action machine = .error error after) :
    (action >>= next) machine = .error error after := by
  change EStateM.bind action next machine = _
  rw [EStateM.bind, first]

theorem bind_ok {value : β} (done : (action >>= next) machine = .ok value after) :
    ∃ first between, action machine = .ok first between ∧ next first between = .ok value after := by
  change EStateM.bind action next machine = _ at done
  unfold EStateM.bind at done
  split at done
  · next first between goes => exact ⟨first, between, goes, done⟩
  · cases done

theorem look_eq {view : Machine State → Except RuntimeError α} (seen : view machine = .ok value) :
    look view machine = .ok value machine := by
  simp only [look, seen]

theorem fetch_eq {ref : Ref} (found : machine.heap.get? ref = some object) :
    fetch ref machine = .ok object machine :=
  look_eq (Heap.fetch_eq found)

theorem pop_eq {value : Value} (top : machine.stack.back? = some value) :
    pop machine = .ok value { machine with stack := machine.stack.pop } := by
  simp only [pop, top]

theorem slotBelow_eq {distance : Nat} (inside : distance < machine.stack.size) :
    slotBelow distance machine = .ok (machine.stack.size - 1 - distance) machine := by
  simp only [slotBelow, inside, if_true]

theorem slotValue_eq {slot : Nat} {value : Value} (found : machine.stack[slot]? = some value) :
    slotValue slot machine = .ok value machine := by
  simp only [slotValue, found]

theorem frame_eq {frame : Frame} (innermost : machine.frames.back? = some frame) :
    Exec.frame machine = .ok frame machine := by
  simp only [Exec.frame, innermost]

theorem alloc_eq (object : Object) : alloc object machine = .ok machine.heap.size (machine.addObject object) :=
  rfl

section Code

variable {rest : Array Frame} {frame : Frame} {ip : Nat}

theorem frame_inFrame : Exec.frame (machine.inFrame rest frame ip) =
    .ok { frame with ip } (machine.inFrame rest frame ip) :=
  frame_eq Array.back?_push

theorem setIp_inFrame (target : Nat) :
    setIp target (machine.inFrame rest frame ip) = .ok () (machine.inFrame rest frame target) := by
  have moved : (rest.push { frame with ip }).modify rest.size (fun frame => { frame with ip := target }) =
      rest.push { frame with ip := target } := by
    refine Array.ext_getElem? fun i => ?_
    rw [Array.getElem?_modify, Array.getElem?_push, Array.getElem?_push]
    split <;> split <;> simp_all
  simp only [setIp, update, Machine.inFrame, Array.size_push, Nat.add_sub_cancel, moved]

theorem readByte_inFrame {byte : UInt8} (found : frame.function.chunk.code[ip]? = some byte) :
    readByte (machine.inFrame rest frame ip) = .ok byte (machine.inFrame rest frame (ip + 1)) := by
  refine (bind_eq frame_inFrame).trans ?_
  simp only [found]
  exact bind_eq (setIp_inFrame _)

theorem readOperand_inFrame {operand : Nat} (found : frame.function.chunk.operand? ip = some operand) :
    readOperand (machine.inFrame rest frame ip) = .ok operand (machine.inFrame rest frame (ip + 2)) := by
  refine (bind_eq frame_inFrame).trans ?_
  simp only [found]
  exact bind_eq (setIp_inFrame _)

theorem readString_inFrame {text : String} (named : frame.function.chunk.NameAt ip text) :
    readString (machine.inFrame rest frame ip) = .ok text (machine.inFrame rest frame (ip + 2)) := by
  obtain ⟨entry, operand, found⟩ := named
  refine (bind_eq (readOperand_inFrame operand)).trans ((bind_eq frame_inFrame).trans ?_)
  simp only [found]
  rfl

end Code

def Yields (action : Exec State α) (machine : Machine State) (fails : Fault → Machine State → Prop)
    (post : α → Machine State → Prop) : Prop :=
  match action machine with
  | .ok value after => post value after
  | .error error after => fails error.fault after

section Yields

variable {fails : Fault → Machine State → Prop} {post : β → Machine State → Prop} {value : α} {condition : Prop}
  {yes no : Exec State β}

theorem Yields.of_ok {post : α → Machine State → Prop} (done : action machine = .ok value after) (holds : post value after) :
    action.Yields machine fails post := by
  rw [Yields, done]
  exact holds

theorem Yields.afterwards (done : action machine = .ok value after) (rest : (next value).Yields after fails post) :
    (action >>= next).Yields machine fails post := by
  rw [Yields, bind_eq done]
  exact rest

theorem Yields.reading {view : Machine State → α} (rest : (next (view machine)).Yields machine fails post) :
    (read view >>= next).Yields machine fails post :=
  rest

theorem Yields.ite_pos [Decidable condition] (holds : condition)
    (rest : yes.Yields machine fails post) : (if condition then yes else no).Yields machine fails post := by
  rwa [if_pos holds]

theorem Yields.ite_neg [Decidable condition] (fails_ : ¬condition)
    (rest : no.Yields machine fails post) : (if condition then yes else no).Yields machine fails post := by
  rwa [if_neg fails_]

theorem Yields.ite [Decidable condition]
    (pos : condition → yes.Yields machine fails post) (neg : ¬condition → no.Yields machine fails post) :
    (if condition then yes else no).Yields machine fails post := by
  split
  · exact pos ‹_›
  · exact neg ‹_›

theorem Yields.bind (first : action.Yields machine fails fun value after => (next value).Yields after fails post) :
    (action >>= next).Yields machine fails post := by
  unfold Yields at first ⊢
  change match EStateM.bind action next machine with | .ok value after => _ | .error error after => _
  rw [EStateM.bind]
  cases done : action machine with
  | ok value after | error error after =>
    rw [done] at first
    exact first

theorem Yields.mono {post post' : α → Machine State → Prop} {fails' : Fault → Machine State → Prop}
    (first : action.Yields machine fails post) (worse : ∀ fault after, fails fault after → fails' fault after)
    (weaker : ∀ value after, post value after → post' value after) : action.Yields machine fails' post' := by
  unfold Yields at first ⊢
  cases done : action machine with
  | ok value after =>
    rw [done] at first
    exact weaker value after first
  | error error after =>
    rw [done] at first
    exact worse error.fault after first

theorem Yields.failed (failed : action machine = .error error after)
    (holds : fails error.fault after) : (action >>= next).Yields machine fails post := by
  refine .bind ?_
  rw [Yields, failed]
  exact holds

theorem Yields.fail {post : α → Machine State → Prop} {fault : Fault} {span : Span} (holds : fails fault machine) :
    (Exec.fail fault span : Exec State α).Yields machine fails post :=
  holds

end Yields

end Exec

end StackScript
