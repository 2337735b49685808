import StackScript.Machine.State

/-!
Native functions for scripts to play with: some compute, some fail, and some spoil the heap behind the machine's
back.
-/

namespace StackScript.Sample

variable {State : Type}

def replaceOpen (change : Upvalue → Object) (heap : Heap) : Heap :=
  { objects := heap.objects.map fun object =>
      match object with
      | .upvalue ⟨.open slot, next⟩ => change ⟨.open slot, next⟩
      | _ => object }

def spoil (change : Upvalue → Object) : NativeBody State := fun _ store =>
  .ok .nil { store with heap := replaceOpen change store.heap }

def failing (fault : Fault) : NativeBody State := fun _ store =>
  .error (.unplaced fault) store

def difference : List Value → Value
  | [.number a, .number b] => .number (a - b)
  | _ => .nil

def areSame : List Value → Bool
  | [.object a, .object b] => a == b
  | [a, b] => a.equals b
  | _ => false

/-- The native function of a name. A name that is not known does nothing. -/
def nativeNamed : String → NativeBody State
  | "count" => fun args store => .ok (.number args.length.toFloat) store
  | "sub" => fun args store => .ok (difference args) store
  | "echo" => fun args store => .ok (args.headD .nil) store
  | "join" => fun args store => Store.allocString ("".intercalate (args.map store.heap.render)) store
  | "describe" => fun args store => Store.allocString (store.heap.describe (args.headD .nil)) store
  | "same" => fun args store => .ok (.bool (areSame args)) store
  | "fail" => failing (.code (.other "boom"))
  | "fail_at" => fun _ store => .error ⟨.type (.other "bad argument"), .onLine 77⟩ store
  | "fail_var" => failing (.undefinedVariable "ghost")
  | "fail_call" => failing .notCallable
  | "poison" => spoil fun upvalue => .upvalue { upvalue with location := .closed .nil }
  | "clobber" => spoil fun _ => .string "gone"
  | _ => fun _ store => .ok .nil store

end StackScript.Sample
