import StackScript.Machine.Upvalue

/-!
Calls. The callee lies below its arguments, and the frame of a call starts there: slot zero of a function is the
callee, or the receiver of a method. Calling a class puts a new instance there and runs its initializer; calling a
bound method puts the receiver there and calls the method. These two lead on to another call, and how far is
bounded by the size of the heap, which only a cycle exceeds.
-/

namespace StackScript.Exec

variable {State : Type}

def callFunction (function : Proto) (closure : Option Ref) (argc : Nat) (span : Span) : Exec State Unit := do
  if argc ≠ function.arity then fail (.wrongArity function.arity argc) span
  if (← read (·.frames.size)) ≥ (← read (·.config.maxFrames)) then fail .stackOverflow span
  let base ← slotBelow argc
  update fun machine => { machine with frames := machine.frames.push ⟨function, closure, 0, base⟩ }

def runNative (code : NativeCode) (args : List Value) : Exec State Value := do
  match code with
  | .listed index =>
    match ← read (·.natives[index]?) with
    | some body => onStore (body args)
    | none => return .nil
  | .hostMethod receiver name => callMember receiver name args

def reportNative (name : String) (action : Exec State Value) : Exec State Value := fun machine =>
  match action machine with
  | .ok value machine => .ok value machine
  | .error error machine =>
    .error error (machine.report ⟨.debug, "native call failed", [("error", error.text), ("native", name)]⟩)

def callNative (native : Native) (argc : Nat) (span : Span) : Exec State Unit := do
  match native.arity with
  | some arity => if argc ≠ arity then fail (.wrongArity arity argc) span
  | none => pure ()
  let args ← takeAbove (← slotBelow argc)
  push (← reportNative native.name (runNative native.code args))

def callWithin (span : Span) : (bound : Nat) → Value → (argc : Nat) → Exec State Unit
  | 0, _, _ => fail .stackOverflow span
  | bound + 1, .object ref, argc => do
    match ← fetch ref with
    | .function proto => callFunction proto none argc span
    | .closure closure => callFunction closure.function (some ref) argc span
    | .class cls =>
      let inst ← alloc (.instance ⟨ref, ∅⟩)
      let slot ← slotBelow argc
      update (·.setSlot slot (.object inst))
      match cls.methods["init"]? with
      | some initializer => callWithin span bound initializer argc
      | none => if argc ≠ 0 then fail (.wrongArity 0 argc) span
    | .native native => callNative native argc span
    | .bound method =>
      let slot ← slotBelow argc
      update (·.setSlot slot method.receiver)
      callWithin span bound (.object method.method) argc
    | _ => fail .notCallable span
  | _ + 1, _, _ => fail .notCallable span

def callValue (callee : Value) (argc : Nat) (span : Span) : Exec State Unit := do
  callWithin span (← read (·.heap.size + 1)) callee argc

def invokeFromClass (cls : Ref) (name : String) (argc : Nat) (span : Span) : Exec State Unit := do
  match (← look (·.heap.fetchClass cls)).methods[name]? with
  | some method => callValue method argc span
  | none => fail (.undefinedProperty name) span

/-- Calls a member of a host object. A method is run at once, anything else is read and called. -/
def invokeHost (object : Host.Handle) (name : String) (argc : Nat) (span : Span) : Exec State Unit := do
  let member ← look (·.hosts.lookup object name)
  let size ← read (·.stack.size)
  if size ≤ argc then fail .stackUnderflow span
  let slot := size - 1 - argc
  if member.isMethod then
    let args ← takeAbove slot
    push (← onStore (member.call object args))
  else
    let callee ← onStore (member.read object name)
    update (·.setSlot slot callee)
    callValue callee argc span

/-- Calls a property of the receiver. A field hides a method of the same name. -/
def invoke (name : String) (argc : Nat) (span : Span) : Exec State Unit := do
  match ← peek argc with
  | .object ref =>
    match ← fetch ref with
    | .instance inst =>
      match inst.fields[name]? with
      | some field =>
        let slot ← slotBelow argc
        update (·.setSlot slot field)
        callValue field argc span
      | none => invokeFromClass inst.ofClass name argc span
    | .host object => invokeHost object name argc span
    | _ => fail (.type .methodsNeedInstance) span
  | _ => fail (.type .methodsNeedInstance) span

end StackScript.Exec
