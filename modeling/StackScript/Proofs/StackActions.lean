import StackScript.Proofs.Actions

/-!
Actions on a stack that is known from some height up. The stack is written as a list from the bottom up: what lies below,
then the values that the action is about.
-/

namespace StackScript

namespace Machine

variable {State : Type} {machine : Machine State} {below above : List Value} {value : Value}

def Stacks (machine : Machine State) (values : List Value) : Prop :=
  machine.stack = values.toArray

theorem stacks_toList (machine : Machine State) : machine.Stacks machine.stack.toList :=
  (Array.toArray_toList).symm

theorem Stacks.size (stacked : machine.Stacks below) : machine.stack.size = below.length := by
  unfold Stacks at stacked
  simp [stacked]

theorem Stacks.push (stacked : machine.Stacks below) (value : Value) : (machine.push value).Stacks (below ++ [value]) := by
  unfold Stacks at *
  simp [Machine.push, stacked]

theorem Stacks.setSlot (stacked : machine.Stacks (below ++ value :: above)) (other : Value) :
    (machine.setSlot below.length other).Stacks (below ++ other :: above) := by
  unfold Stacks at *
  simp [Machine.setSlot, stacked]

theorem Stacks.truncate (stacked : machine.Stacks (below ++ above)) : (machine.truncate below.length).Stacks below := by
  unfold Stacks at *
  simp [Machine.truncate, stacked]

theorem Stacks.inFrame (stacked : machine.Stacks below) (rest : Array Frame) (frame : Frame) (ip : Nat) :
    (machine.inFrame rest frame ip).Stacks below :=
  stacked

end Machine

namespace Exec

variable {State : Type} {machine : Machine State} {below above : List Value} {value : Value}

theorem pop_stacks (stacked : machine.Stacks (below ++ [value])) :
    pop machine = .ok value { machine with stack := below.toArray } := by
  unfold Machine.Stacks at stacked
  have top : machine.stack.back? = some value := by simp [stacked]
  rw [pop_eq top]
  simp [stacked]

section

variable (stacked : machine.Stacks (below ++ value :: above))
include stacked

theorem slotBelow_stacks :
    slotBelow above.length machine = .ok below.length machine := by
  have size := stacked.size
  rw [List.length_append, List.length_cons] at size
  rw [slotBelow_eq (by omega), size]
  congr 1
  omega

theorem slotValue_stacks :
    slotValue below.length machine = .ok value machine := by
  unfold Machine.Stacks at stacked
  exact slotValue_eq (by simp [stacked])

theorem peek_stacks :
    peek above.length machine = .ok value machine :=
  (bind_eq (slotBelow_stacks stacked)).trans (slotValue_stacks stacked)

theorem takeAbove_stacks :
    takeAbove below.length machine = .ok above { machine with stack := below.toArray } := by
  have count : below.length + (above.length + 1) - (below.length + 1) = above.length := by omega
  unfold Machine.Stacks at stacked
  simp [takeAbove, Machine.truncate, stacked, count]

end

section Calls

variable {function : Proto} {closure : Option Ref} {span : Span}

theorem callFunction_arity {argc : Nat} (count : argc ≠ function.arity) :
    callFunction function closure argc span machine = .error ⟨.wrongArity function.arity argc, span⟩ machine := by
  simp only [callFunction, if_pos count]
  rfl

theorem callFunction_full (full : machine.frames.size ≥ machine.config.maxFrames) :
    callFunction function closure function.arity span machine = .error ⟨.stackOverflow, span⟩ machine := by
  simp only [callFunction, ne_eq, not_true_eq_false, if_false]
  refine (bind_eq rfl).trans ((bind_eq rfl).trans ?_)
  rw [if_pos full]
  rfl

theorem callWithin_closure {bound argc : Nat} {ref : Ref} {closure : Closure}
    (found : machine.heap.get? ref = some (.closure closure)) : callWithin span (bound + 1) (.object ref) argc machine =
      callFunction closure.function (some ref) argc span machine :=
  bind_eq (fetch_eq found)

end Calls

end Exec

end StackScript
