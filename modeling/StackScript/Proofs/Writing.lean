import StackScript.Compile.Expression
import StackScript.Proofs.Conduct
import StackScript.Proofs.Phrases

/-!
How the compiler behaves where it passes no token. If a conduct allows for every single write, for looking up captured
variables, and for complaints about meaning and size, then all actions that write code and look names up keep to it.
-/

namespace StackScript

abbrev Compile.Compilation.recoded (state : Compile.Compilation) (chunk : Chunk Proto) : Compile.Compilation :=
  { state with scope := { state.scope with chunk } }

def Compile.Compilation.rescoped (state : Compile.Compilation) (locals : Array Compile.Local) (depth arity : Nat) :
    Compile.Compilation :=
  { state with scope := { state.scope with locals, depth, arity } }

abbrev Compile.Compilation.threaded (state : Compile.Compilation) (name : String) : Compile.Compilation :=
  let threading := Compile.thread name state.scope state.enclosing
  { state with scope := threading.inner, enclosing := threading.outers }

/-- Runs an action between two changes of the state, of which the second is made also where the action fails. -/
def Reading.wrapped {α β : Type} (enter leave : Compile.Compilation → Compile.Compilation) (body : Compile.Parse α)
    (exit : α → Compile.Parse β) : Compile.Parse β := fun state =>
  match body (enter state) with
  | .ok value after => exit value after
  | .error error after => .error error (leave after)

namespace Conduct

open Compile Parse

variable {α β : Type} {conduct wide : Conduct CompileError Compilation} {complaint : Complaint}

section Rules

variable {again : Parse Bool}

theorem Obeys.read (view : Compilation → α) : conduct.Obeys (Parse.read view) := conduct.refl

theorem Obeys.update {change : Compilation → Compilation} (goes : ∀ state, conduct.goes state (change state)) :
    conduct.Obeys (Parse.update change) := goes

theorem Obeys.look {view : Compilation → α} {next : α → Parse β} (two : ∀ state, conduct.Obeys (next (view state))) :
    conduct.Obeys (Parse.read view >>= next) :=
  fun state => two state state

theorem Obeys.repeatUpTo (obeys : conduct.Obeys again) (bound : Nat) :
    conduct.Obeys (repeatUpTo again bound) := by
  induction bound with
  | zero => exact .pure ()
  | succ bound ih => exact obeys.bind fun _ => .ite ih (.pure ())

theorem Obeys.whileProgress (obeys : conduct.Obeys again) : conduct.Obeys (whileProgress again) :=
  (Obeys.read _).bind obeys.repeatUpTo

theorem Obeys.wrapped {enter leave : Compilation → Compilation} {body : Parse α} {exit : α → Parse β}
    {inside : Conduct CompileError Compilation} (obeys : inside.Obeys body)
    (exits : ∀ {before after value}, inside.goes (enter before) after → conduct.Allows before (exit value after))
    (escapes : ∀ {before after error}, inside.fails (enter before) error after → conduct.fails before error (leave after)) :
    conduct.Obeys (Reading.wrapped enter leave body exit) := by
  intro state
  have within := obeys (enter state)
  unfold Reading.wrapped
  cases done : body (enter state) with
  | ok value after =>
    rw [done] at within
    exact exits within
  | error error after =>
    rw [done] at within
    exact escapes within

end Rules

/-- Single writes, looking up captured variables, and complaints about meaning or size keep to the conduct. -/
class Writes (conduct : Conduct CompileError Compilation) : Prop where
  refuse : ∀ {complaint : Complaint} state, complaint.isSyntactic = false →
    conduct.fails state (state.cursor.remarkBehind complaint) state
  byte : ∀ state byte, conduct.goes state (state.emitByte byte)
  patch : ∀ state offset byte, conduct.goes state (state.recoded (state.scope.chunk.writeAt offset byte))
  constant : ∀ state value, conduct.goes state (state.recoded (state.scope.chunk.addConstant value))
  string : ∀ state text, conduct.goes state (state.recoded (state.scope.chunk.addString text))
  capture : ∀ name, conduct.Obeys (resolveCapture name)

theorem Writes.of_recode (refuse : ∀ {complaint : Complaint} state, complaint.isSyntactic = false →
      conduct.fails state (state.cursor.remarkBehind complaint) state)
    (recode : ∀ state chunk, chunk.functions = state.scope.chunk.functions → conduct.goes state (state.recoded chunk))
    (capture : ∀ name, conduct.Obeys (resolveCapture name)) : conduct.Writes :=
  ⟨refuse, fun _ _ => recode _ _ rfl, fun _ _ _ => recode _ _ rfl, fun _ _ => recode _ _ rfl, fun _ _ => recode _ _ rfl, capture⟩

theorem Writes.within (writes : conduct.Writes) (within : conduct.Within wide) : wide.Writes where
  refuse state meaning := within.fails (writes.refuse state meaning)
  byte state byte := within.goes (writes.byte state byte)
  patch state offset byte := within.goes (writes.patch state offset byte)
  constant state value := within.goes (writes.constant state value)
  string state text := within.goes (writes.string state text)
  capture name := (writes.capture name).within within

section Meaning

variable {name : String} {inner : FunctionScope} {outers : List FunctionScope}

theorem slotOf?_context {scope : FunctionScope} (failed : scope.slotOf? name = .error complaint) :
    complaint.isSyntactic = false := by
  unfold FunctionScope.slotOf? at failed
  split at failed
  · cases failed
  · split at failed <;> cases failed
    rfl

theorem capture_context {capture : Capture}
    (failed : (Threading.capture inner outers capture).index = .error complaint) : complaint.isSyntactic = false := by
  unfold Threading.capture FunctionScope.addCapture at failed
  split at failed
  · cases failed
  · next refused =>
    cases failed
    split at refused
    · cases refused
    · split at refused <;> cases refused
      rfl

theorem thread_context
    (failed : (thread name inner outers).index = .error complaint) : complaint.isSyntactic = false := by
  induction outers generalizing inner with
  | nil => cases failed
  | cons outer further ih =>
    unfold thread at failed
    split at failed
    · next refused =>
      cases failed
      exact slotOf?_context refused
    · exact capture_context failed
    · dsimp only at failed
      split at failed
      · exact capture_context failed
      · cases failed
      · next refused =>
        cases failed
        exact ih refused

theorem resolveCapture_obeys (goes : ∀ state, conduct.goes state (state.threaded name))
    (refuse : ∀ {complaint : Complaint} state, complaint.isSyntactic = false →
      conduct.fails state (state.cursor.remarkBehind complaint) (state.threaded name)) : conduct.Obeys (resolveCapture name) := by
  intro state
  unfold resolveCapture
  dsimp only
  cases threaded : (thread name state.scope state.enclosing).index with
  | ok index => exact goes state
  | error complaint => exact refuse state (thread_context threaded)

end Meaning

section Actions

variable [writes : conduct.Writes]

theorem Obeys.refuse (meaning : complaint.isSyntactic = false) : conduct.Obeys (failBehind complaint : Parse α) :=
  fun state => writes.refuse state meaning

theorem emitBytes_goes (bytes : List UInt8) (state : Compilation) : conduct.goes state (emitBytes state bytes) := by
  induction bytes generalizing state with
  | nil => exact conduct.refl state
  | cons byte bytes ih => exact conduct.trans (writes.byte state byte) (ih (state.emitByte byte))

theorem emitByte_obeys (byte : UInt8) : conduct.Obeys (emitByte byte) := emitBytes_goes [byte]

theorem emit_obeys (op : Opcode) : conduct.Obeys (emit op) := emitBytes_goes [op.toByte]

theorem emitWith_obeys (op : Opcode) (operand : Nat) : conduct.Obeys (emitWith op operand) :=
  emitBytes_goes (bytesWith op operand)

theorem emitReturn_obeys : conduct.Obeys (update (·.emitReturn)) := by
  intro state
  change conduct.goes state state.emitReturn
  unfold Compilation.emitReturn
  split
  · exact emitBytes_goes (bytesWith .getLocal 0 ++ [Opcode.return.toByte]) state
  · exact emitBytes_goes [Opcode.pushNil.toByte, Opcode.return.toByte] state

theorem emitAll_obeys (ops : List Opcode) : conduct.Obeys (emitAll ops) := by
  induction ops with
  | nil => exact .pure ()
  | cons op ops ih => exact (emit_obeys op).bind fun _ => ih

theorem emitJump_obeys (op : Opcode) : conduct.Obeys (emitJump op) :=
  (emitWith_obeys op _).bind fun _ => .read _

theorem patchJump_obeys (jump : Nat) : conduct.Obeys (patchJump jump) := by
  refine (Obeys.read _).bind fun _ => .ite (.refuse rfl) (.update fun state => ?_)
  exact conduct.trans (writes.patch state _ _) (writes.patch _ _ _)

theorem emitLoop_obeys (mark : Nat) : conduct.Obeys (emitLoop mark) :=
  (emit_obeys .loop).bind fun _ => (Obeys.read _).bind fun _ => .ite (.refuse rfl) (emitBytes_goes [_, _])

theorem makeConstant_obeys (value : Value) : conduct.Obeys (makeConstant value) := by
  refine (Obeys.read _).bind fun _ => .bind (.update fun state => writes.constant state value) fun _ => ?_
  exact .ite (.refuse rfl) (.pure _)

theorem makeString_obeys (text : String) : conduct.Obeys (makeString text) := by
  rw [makeString_eq]
  refine .ite ((Obeys.read _).bind fun _ => .bind (.update fun state => writes.string state text) fun _ => ?_) (.refuse rfl)
  exact .ite (.refuse rfl) (.pure _)

theorem resolve_obeys (name : String) : conduct.Obeys (resolve name) := by
  refine .look fun state => ?_
  cases found : state.scope.slotOf? name with
  | error complaint => exact .refuse (slotOf?_context found)
  | ok slot =>
    cases slot with
    | some slot => exact .pure _
    | none =>
      refine (writes.capture name).bind fun index => ?_
      cases index with
      | some index => exact .pure _
      | none => exact (makeString_obeys name).bind fun _ => .pure _

theorem readVariable_obeys (name : String) : conduct.Obeys (readVariable name) := by
  refine (resolve_obeys name).bind fun access => ?_
  cases access <;> exact emitWith_obeys _ _

theorem thisExpression_obeys : conduct.Obeys thisExpression :=
  (Obeys.read _).bind fun _ => .ite (.refuse rfl) (readVariable_obeys _)

end Actions

/-- Declaring variables and entering scopes keeps to the conduct too. -/
class Rescopes (conduct : Conduct CompileError Compilation) : Prop extends conduct.Writes where
  rescope : ∀ state locals depth arity, conduct.goes state (state.rescoped locals depth arity)
  reclass : ∀ state classes, conduct.goes state { state with classes }

theorem Rescopes.within (rescopes : conduct.Rescopes) (within : conduct.Within wide) : wide.Rescopes where
  toWrites := rescopes.toWrites.within within
  rescope state locals depth arity := within.goes (rescopes.rescope state locals depth arity)
  reclass state classes := within.goes (rescopes.reclass state classes)

section Scopes

variable [rescopes : conduct.Rescopes]

theorem beginScope_obeys : conduct.Obeys (update (·.beginScope)) :=
  .update fun state => rescopes.rescope state _ _ _

theorem endScope_obeys : conduct.Obeys (update (·.endScope)) := by
  have pops (gone : List Local) (state : Compilation) : conduct.goes state (gone.foldl (fun (state : Compilation) binding =>
      state.emit (if binding.isCaptured then .closeUpvalue else .pop)) state) := by
    induction gone generalizing state with
    | nil => exact conduct.refl state
    | cons binding gone ih => exact conduct.trans (emit_obeys _ state) (ih _)
  exact .update fun state => conduct.trans (pops _ state) (rescopes.rescope _ _ _ _)

theorem markInitialized_obeys : conduct.Obeys (update (·.markInitialized)) := by
  refine .update fun state => ?_
  unfold Compilation.markInitialized
  split
  · exact conduct.refl state
  · exact rescopes.rescope state _ _ _

theorem defineVariable_obeys (global? : Compilation → Option Nat) :
    conduct.Obeys (update fun state => state.defineVariable (global? state)) := by
  refine .update fun state => ?_
  cases global? state with
  | none => exact markInitialized_obeys state
  | some entry => exact emitWith_obeys .defineGlobal entry state

theorem addLocal_obeys (name : String) : conduct.Obeys (addLocal name) :=
  (Obeys.read _).bind fun _ => .ite (.refuse rfl) (.update fun state => rescopes.rescope state _ _ _)

theorem declareVariable_obeys : conduct.Obeys declareVariable := by
  refine (Obeys.read _).bind fun _ => .ite (.pure ()) ((Obeys.read _).bind fun _ => (Obeys.read _).bind fun _ => ?_)
  exact .ite (.refuse rfl) (addLocal_obeys _)

end Scopes

end Conduct

end StackScript
