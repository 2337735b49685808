import StackScript.Machine.Call

/-!
Properties, methods and inheritance. A property of an instance is a field or, failing that, a method of its class
bound to it. Inheriting copies the methods that the superclass has at that moment.
-/

namespace StackScript.Exec

variable {State : Type}

/-- Puts the method of a class, bound to the receiver on top of the stack, in its place. -/
def bindMethod (cls : Ref) (name : String) (span : Span) : Exec State Unit := do
  match (← look (·.heap.fetchClass cls)).methods[name]? with
  | some (.object method) =>
    let receiver ← peek 0
    let bound ← alloc (.bound ⟨receiver, method⟩)
    let _ ← pop
    push (.object bound)
  | _ => fail (.undefinedProperty name) span

def getProperty (name : String) (span : Span) : Exec State Unit := do
  match ← peek 0 with
  | .object ref =>
    match ← fetch ref with
    | .instance inst =>
      match inst.fields[name]? with
      | some value =>
        let _ ← pop
        push value
      | none => bindMethod inst.ofClass name span
    | .host object =>
      let value ← readMember object name
      let _ ← pop
      push value
    | _ => fail (.type .propertiesNeedInstance) span
  | _ => fail (.type .propertiesNeedInstance) span

/-- Assigns the value on top of the stack to a property of the receiver below it, and leaves the value. A field
comes into being when it is first assigned to. -/
def setProperty (name : String) (span : Span) : Exec State Unit := do
  let value ← peek 0
  match ← peek 1 with
  | .object ref =>
    match ← fetch ref with
    | .instance inst =>
      update (·.setObject ref (.instance { inst with fields := inst.fields.insert name value }))
    | .host object => writeMember object name value
    | _ => fail (.type .fieldsNeedInstance) span
  | _ => fail (.type .fieldsNeedInstance) span
  let _ ← pop
  let _ ← pop
  push value

def classOf (value : Value) (otherwise : TypeFault) (span : Span) : Exec State (Ref × Class) := do
  match value with
  | .object ref =>
    match ← fetch ref with
    | .class cls => return (ref, cls)
    | _ => fail (.type otherwise) span
  | _ => fail (.type otherwise) span

/-- Methods of the superclass in front of those a class already has: the former win. -/
def inheritMethods (superclass own : Table) : Table :=
  superclass.foldl (fun methods name method => methods.insert name method) own

/-- Copies the methods of the superclass into the class on top of the stack, which is then popped. -/
def inherit (span : Span) : Exec State Unit := do
  let (_, superclass) ← classOf (← peek 1) .superclassNotClass span
  let (ref, cls) ← classOf (← peek 0) .inheritorNotClass span
  update (·.setObject ref (.class { cls with methods := inheritMethods superclass.methods cls.methods }))
  let _ ← pop

/-- Makes the closure on top of the stack a method of the class below it, and pops it. -/
def defineMethod (name : String) (span : Span) : Exec State Unit := do
  let method ← peek 0
  let (ref, cls) ← classOf (← peek 1) .methodOutsideClass span
  update (·.setObject ref (.class { cls with methods := cls.methods.insert name method }))
  let _ ← pop

/-- Takes the superclass that a `super` expression refers to from the stack. -/
def popClass (span : Span) : Exec State Ref := do
  return (← classOf (← pop) .superclassNotClass span).1

end StackScript.Exec
