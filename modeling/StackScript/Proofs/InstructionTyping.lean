import StackScript.Proofs.FrameTyping

/-!
The instructions on values and variables, one by one: literals and constants, locals, globals and captured variables,
arithmetic, jumps, and what makes closures.
-/

namespace StackScript

variable {State : Type} {ledger : Ledger} {rest : Array Frame} {frame : Frame} {below kept : List Slot}
  {known : Option String} {reach : Points} {machine : Machine State} {here : Nat}
variable {shape : Shape} {index distance : Nat} {layout : List Slot} {op : Opcode} {name : String} {lower upper slot : Slot}
  {call : Activation} {shapes : Shapes}

theorem Typed.pushValue {value : Value} (typed : Typed ledger layout known machine) (isValue : machine.heap.IsValue value) :
    Typed ledger (layout ++ [.plain]) known (machine.push value) := by
  have holds : Content.value.Holds ledger machine.heap value := isValue
  exact typed.push holds false

theorem Typed.pushNew (object : Object) (content : Content) (typed : Typed ledger layout known machine)
    (settled : object.IsSettled) (fits : ObjectOk ledger (machine.heap.push object) machine.heap.size object)
    (holds : content.Holds ledger (machine.heap.push object) (.object machine.heap.size)) :
    Typed ledger (layout ++ [⟨content, false⟩]) known ((machine.addObject object).push (.object machine.heap.size)) :=
  (typed.addObject settled fits).push holds false

section

variable (typed : Typed ledger (layout ++ [lower, upper]) known machine)
include typed

theorem Typed.apart :
    Typed ledger (layout ++ [lower] ++ [upper]) known machine := by
  rwa [List.append_assoc]

theorem Typed.popTwo (lower_free : lower.isCaptured = false)
    (upper_free : upper.isCaptured = false) :
    ∃ left right, Exec.pop machine = .ok right { machine with stack := machine.stack.pop } ∧
      Exec.pop { machine with stack := machine.stack.pop } = .ok left { machine with stack := machine.stack.pop.pop } ∧
      Typed ledger layout known { machine with stack := machine.stack.pop.pop } := by
  obtain ⟨right, first, -, typed⟩ := typed.apart.pop upper_free
  obtain ⟨left, second, -, typed⟩ := typed.pop lower_free
  exact ⟨left, right, first, second, typed⟩

theorem Typed.peekTop :
    ∃ value, Exec.peek 0 machine = .ok value machine ∧ upper.content.Holds ledger machine.heap value :=
  typed.apart.peek

end

theorem Frame.Ok.frameUpvalue (ok : frame.Ok ledger machine.heap call shapes) {ip : Nat} {role : Role}
    (tagged : call.upvalues[index]? = some role) :
    ∃ ref, Exec.frameUpvalue index (machine.inFrame rest frame ip) = .ok ref (machine.inFrame rest frame ip) ∧
      ledger.Tags machine.heap ref role := by
  obtain ⟨ref, closure, upvalue, own, found, captured, tags⟩ := ok.upvalue index role tagged
  have looked : Exec.look (·.heap.fetchClosure ref) (machine.inFrame rest frame ip) =
      .ok closure (machine.inFrame rest frame ip) :=
    Exec.look_eq (Heap.fetchClosure_eq found)
  refine ⟨upvalue, (Exec.bind_eq Exec.frame_inFrame).trans ?_, tags⟩
  simp only [own]
  refine (Exec.bind_eq looked).trans ?_
  simp only [captured]
  rfl

theorem Heap.get?_push_self (heap : Heap) (object : Object) : (heap.push object).get? heap.size = some object := by
  rw [get?_push, if_pos rfl]

theorem Exec.sum_cases (left right : Value) (span : Span) (machine : Machine State) :
    (∃ z, Exec.sum left right span machine = .ok (.number z) machine) ∨
      (∃ text, Exec.sum left right span machine = .ok (.object machine.heap.size) (machine.addObject (.string text))) ∨
      Exec.sum left right span machine = .error ⟨.type .operandsNotAddable, span⟩ machine := by
  unfold Exec.sum
  split
  · exact .inl ⟨_, rfl⟩
  · refine .inr ?_
    cases one : machine.heap.text? left with
    | none =>
      have first : read (·.heap.text? left) machine = .ok none machine := congrArg (EStateM.Result.ok · machine) one
      exact .inr (bind_eq first)
    | some x =>
      have first : read (·.heap.text? left) machine = .ok (some x) machine := congrArg (EStateM.Result.ok · machine) one
      cases two : machine.heap.text? right with
      | none =>
        have second : read (·.heap.text? right) machine = .ok none machine := congrArg (EStateM.Result.ok · machine) two
        exact .inr ((bind_eq first).trans (bind_eq second))
      | some y =>
        have second : read (·.heap.text? right) machine = .ok (some y) machine :=
          congrArg (EStateM.Result.ok · machine) two
        exact .inl ⟨x ++ y, (bind_eq first).trans (bind_eq second)⟩

namespace Performs

open Exec

section

variable (typed : Typed ledger (below ++ shape.slots) shape.known machine)
include typed

theorem literal (isLiteral : op.isLiteral = true)
    (goes : reach (here + 1) (shape.push .plain)) : Performs ledger rest frame below reach machine here op := by
  have pushed {value : Value} (other : machine.heap.IsValue value) : Continues ledger rest frame below reach machine
      ((machine.inFrame rest frame (here + 1)).push value) :=
    .on goes (.refl _ _) rfl ((typed.inFrame _).pushValue other).join
  intro span
  cases op with
  | pushNil | pushTrue | pushFalse => exact .of_ok rfl (pushed nofun)
  | _ => cases isLiteral

section

variable (operand : frame.function.chunk.operand? (here + 1) = some index)
include operand

theorem constant {x : Float} (found : frame.function.chunk.constant? index = some (.number x))
    (goes : reach (here + 3) (shape.push .plain)) :
    Performs ledger rest frame below reach machine here .constant := by
  intro span
  refine .afterwards (readOperand_inFrame operand) (.afterwards frame_inFrame ?_)
  simp only [found]
  have isValue : machine.heap.IsValue (.number x) := nofun
  exact .of_ok rfl (.on goes (.refl _ _) rfl ((typed.inFrame _).pushValue isValue).join)

theorem function {proto : Proto} (found : frame.function.chunk.functions[index]? = some proto)
    (goes : reach (here + 3) (shape.push ⟨.function proto, false⟩)) :
    Performs ledger rest frame below reach machine here .function := by
  intro span
  refine .afterwards (readOperand_inFrame operand) (.afterwards frame_inFrame ?_)
  simp only [found]
  refine .of_ok rfl (.on goes (.of_evolves (.push _ _)) rfl ((typed.inFrame (here + 3)).pushNew (.function proto) _ nofun trivial ?_).join)
  exact ⟨_, rfl, Heap.get?_push_self _ _⟩

theorem getLocal {copied : Content} (base : frame.base = below.length) (found : shape.slots[index]? = some slot)
    (copies : slot.content.copy? = some copied)
    (goes : reach (here + 3) (shape.push ⟨copied, false⟩)) : Performs ledger rest frame below reach machine here .getLocal := by
  intro span
  have own : (below ++ shape.slots)[frame.base + index]? = some slot := by
    rw [base, List.getElem?_append_right (Nat.le_add_right _ _), Nat.add_sub_cancel_left, found]
  obtain ⟨value, at_, holds⟩ := typed.stack.value_at own
  refine .afterwards (readOperand_inFrame operand) (.afterwards frame_inFrame ?_)
  refine .afterwards (slotValue_eq at_) (.of_ok rfl ?_)
  exact .on goes (.refl _ _) rfl ((typed.inFrame _).push (holds.copy copies) false).join

theorem getUpvalue {role : Role} (ok : frame.Ok ledger machine.heap call shapes) (found : call.upvalues[index]? = some role)
    (goes : reach (here + 3) (shape.push ⟨role.copy, false⟩)) :
    Performs ledger rest frame below reach machine here .getUpvalue := by
  intro span
  obtain ⟨ref, fetched, tagged⟩ := ok.frameUpvalue found
  have typed : Typed ledger _ shape.known (machine.inFrame rest frame (here + 3)) := typed.inFrame _
  obtain ⟨value, done, holds⟩ := typed.readUpvalue tagged
  refine .afterwards (readOperand_inFrame operand) (.afterwards fetched (.afterwards done (.of_ok rfl ?_)))
  exact .on goes (.refl _ _) rfl (typed.push holds false).join

end

section

variable (named : frame.function.chunk.NameAt (here + 1) name)
include named

theorem string (goes : reach (here + 3) (shape.push .plain)) : Performs ledger rest frame below reach machine here .string := by
  intro span
  refine .afterwards (readString_inFrame named) (.of_ok rfl ?_)
  refine .on goes (.of_evolves (.push _ _)) rfl ((typed.inFrame (here + 3)).pushNew (.string name) .value nofun trivial ?_).join
  exact Heap.isValue_of_get? (Heap.get?_push_self _ _) rfl

theorem newClass
    (goes : reach (here + 3) (shape.push ⟨.class, false⟩)) : Performs ledger rest frame below reach machine here .newClass := by
  intro span
  refine .afterwards (readString_inFrame named) (.of_ok rfl ?_)
  refine .on goes (.of_evolves (.push _ _)) rfl ((typed.inFrame (here + 3)).pushNew (.class ⟨name, ∅⟩) _ nofun ?_ ?_).join
  · intro method value found
    exact absurd found (by simp)
  · exact ⟨_, _, rfl, Heap.get?_push_self _ _⟩

theorem getGlobal {content : Content} (holds : content = .value ∨ content = .class ∧ shape.known = some name)
    (goes : reach (here + 3) (shape.push ⟨content, false⟩)) :
    Performs ledger rest frame below reach machine here .getGlobal := by
  intro span
  refine .afterwards (readString_inFrame named) ?_
  have seen {value? : Option Value} (found : machine.global? name = value?) :
      read (·.global? name) (machine.inFrame rest frame (here + 3)) = .ok value? (machine.inFrame rest frame (here + 3)) :=
    congrArg (EStateM.Result.ok · _) found
  cases found : machine.global? name with
  | none => exact .afterwards (seen found) (.fail ⟨trivial, (typed.inFrame _).stranded (.refl _)⟩)
  | some value =>
    have held : content.Holds ledger machine.heap value := by
      rcases holds with rfl | ⟨rfl, known⟩
      · exact typed.globals name value found
      · obtain ⟨value', found', isClass⟩ := typed.known name known
        cases found.symm.trans found'
        exact isClass
    exact .afterwards (seen found) (.of_ok rfl (.on goes (.refl _ _) rfl ((typed.inFrame _).push held false).join))

end

theorem jump (operand : frame.function.chunk.operand? (here + 1) = some distance) (goes : reach (here + 3 + distance) shape) :
    Performs ledger rest frame below reach machine here .jump := by
  intro span
  refine .afterwards (readOperand_inFrame operand) (.afterwards frame_inFrame (.of_ok (setIp_inFrame _) ?_))
  exact .on goes (.refl _ _) rfl (typed.inFrame _)

theorem loop (operand : frame.function.chunk.operand? (here + 1) = some distance) (back : distance ≤ here + 3)
    (goes : reach (here + 3 - distance) shape) :
    Performs ledger rest frame below reach machine here .loop := by
  intro span
  refine .afterwards (readOperand_inFrame operand) (.afterwards frame_inFrame (.ite_pos back (.of_ok (setIp_inFrame _) ?_)))
  exact .on goes (.refl _ _) rfl (typed.inFrame _)

end

theorem pop (typed : Typed ledger (below ++ (kept ++ [slot])) known machine) (free : slot.isCaptured = false)
    (goes : reach (here + 1) ⟨kept, known⟩) : Performs ledger rest frame below reach machine here .pop := by
  intro span
  obtain ⟨value, popped, -, typed⟩ := (typed.inFrame (here + 1)).split.pop free
  exact .afterwards popped (.of_ok rfl (.on goes (.refl _ _) rfl typed))

section

variable (typed : Typed ledger (below ++ (kept ++ [.plain])) known machine)
include typed

theorem print (goes : reach (here + 1) ⟨kept, known⟩) : Performs ledger rest frame below reach machine here .print := by
  intro span
  obtain ⟨value, popped, -, typed⟩ := (typed.inFrame (here + 1)).split.pop rfl
  exact .afterwards popped (.of_ok rfl (.on goes (.refl _ _) rfl (typed.congr rfl rfl rfl rfl rfl)))

theorem setLocal {isCaptured : Bool} (base : frame.base = below.length)
    (operand : frame.function.chunk.operand? (here + 1) = some index) (found : kept[index]? = some ⟨.value, isCaptured⟩)
    (goes : reach (here + 3) ⟨kept ++ [.plain], known⟩) :
    Performs ledger rest frame below reach machine here .setLocal := by
  intro span
  have own : (below ++ (kept ++ [Slot.plain]))[frame.base + index]? = some ⟨.value, isCaptured⟩ := by
    rw [base, List.getElem?_append_right (Nat.le_add_right _ _), Nat.add_sub_cancel_left,
      List.getElem?_append_left (List.getElem?_eq_some_iff.mp found).1, found]
  have typed : Typed ledger _ known (machine.inFrame rest frame (here + 3)) := typed.inFrame _
  obtain ⟨value, peeked, holds⟩ := typed.split.peek
  have inside : frame.base + index < machine.stack.size := typed.stack.size ▸ (List.getElem?_eq_some_iff.mp own).1
  refine .afterwards (readOperand_inFrame operand) (.afterwards frame_inFrame (.afterwards peeked ?_))
  refine .reading (.ite_pos inside (.of_ok rfl ?_))
  exact .on goes (.refl _ _) rfl (typed.setSlot own holds)

theorem setUpvalue (ok : frame.Ok ledger machine.heap call shapes)
    (operand : frame.function.chunk.operand? (here + 1) = some index) (found : call.upvalues[index]? = some .ordinary)
    (outer : Shape.Settled ⟨below, none⟩) (settled : Shape.Settled ⟨kept ++ [.plain], known⟩)
    (goes : reach (here + 3) ⟨kept ++ [.plain], known⟩) :
    Performs ledger rest frame below reach machine here .setUpvalue := by
  intro span
  obtain ⟨ref, fetched, tagged⟩ := ok.frameUpvalue found
  have typed : Typed ledger _ known (machine.inFrame rest frame (here + 3)) := typed.inFrame _
  obtain ⟨value, peeked, holds⟩ := typed.split.peek
  obtain ⟨after, done, evolves, frames, typed⟩ := typed.writeUpvalue tagged
    (fun slot member => (List.mem_append.mp member).elim (outer.slots slot) (settled.slots slot)) holds
  refine .afterwards (readOperand_inFrame operand) (.afterwards fetched (.afterwards peeked (.of_ok done ?_)))
  exact .on goes (.of_evolves evolves) frames typed

theorem unary (isUnary : op.isUnary = true)
    (goes : reach (here + 1) ⟨kept ++ [.plain], known⟩) : Performs ledger rest frame below reach machine here op := by
  intro span
  have typed : Typed ledger _ known (machine.inFrame rest frame (here + 1)) := typed.split.inFrame _
  obtain ⟨value, popped, -, typed⟩ := typed.pop rfl
  have pushed {result : Value} (isValue : machine.heap.IsValue result) : Continues ledger rest frame below reach machine
      (Machine.push result { machine.inFrame rest frame (here + 1) with stack := machine.stack.pop }) :=
    .on goes (.refl _ _) rfl (typed.pushValue isValue).join
  cases op with
  | not => exact .afterwards popped (.of_ok rfl (pushed nofun))
  | negate =>
    refine .afterwards popped ?_
    cases value with
    | number x => exact .of_ok rfl (pushed nofun)
    | _ => exact .fail ⟨trivial, typed.stranded (.refl _)⟩
  | _ => cases isUnary

end

theorem defineGlobal {content : Content} {learned : Option String} (named : frame.function.chunk.NameAt (here + 1) name)
    (isValue : content.Within .value) (learns : learned = none ∨ learned = some name ∧ content = .class)
    (typed : Typed ledger (below ++ (kept ++ [⟨content, false⟩])) known machine) (goes : reach (here + 3) ⟨kept, learned⟩) :
    Performs ledger rest frame below reach machine here .defineGlobal := by
  intro span
  have typed : Typed ledger _ known (machine.inFrame rest frame (here + 3)) := typed.split.inFrame _
  obtain ⟨value, peeked, holds⟩ := typed.peek
  have typed := typed.setGlobal (holds.within isValue) (learns.imp id fun ⟨same, isClass⟩ => ⟨same, by rwa [isClass] at holds⟩)
  obtain ⟨_, popped, -, typed⟩ := typed.pop rfl
  refine .afterwards (readString_inFrame named) (.afterwards peeked (.afterwards rfl (.afterwards popped ?_)))
  exact .of_ok rfl (.on goes (.refl _ _) rfl typed)

theorem setGlobal (named : frame.function.chunk.NameAt (here + 1) name) (typed : Typed ledger (below ++ (kept ++ [.plain])) none machine)
    (goes : reach (here + 3) ⟨kept ++ [.plain], none⟩) : Performs ledger rest frame below reach machine here .setGlobal := by
  intro span
  have typed : Typed ledger _ none (machine.inFrame rest frame (here + 3)) := typed.split.inFrame _
  obtain ⟨value, peeked, holds⟩ := typed.peek
  refine .afterwards (readString_inFrame named) (.afterwards peeked (.reading ?_))
  refine .ite (fun _ => .of_ok rfl ?_) fun _ => .fail ⟨trivial, typed.stranded (.refl _)⟩
  exact .on goes (.refl _ _) rfl (typed.setGlobal holds (.inl rfl)).join

theorem jumpIfFalse (operand : frame.function.chunk.operand? (here + 1) = some distance)
    (typed : Typed ledger (below ++ (kept ++ [slot])) known machine) (goes : reach (here + 3) ⟨kept ++ [slot], known⟩)
    (jumps : reach (here + 3 + distance) ⟨kept ++ [slot], known⟩) :
    Performs ledger rest frame below reach machine here .jumpIfFalse := by
  intro span
  have at_ (ip : Nat) : Typed ledger _ known (machine.inFrame rest frame ip) := typed.inFrame ip
  obtain ⟨value, peeked, -⟩ := (at_ (here + 3)).split.peek
  refine .afterwards (readOperand_inFrame operand) (.afterwards peeked ?_)
  cases value.isFalsey with
  | true => exact .afterwards frame_inFrame (.of_ok (setIp_inFrame _) (.on jumps (.refl _ _) rfl (at_ _)))
  | false => exact .of_ok rfl (.on goes (.refl _ _) rfl (at_ _))

section

variable (typed : Typed ledger (below ++ (kept ++ [.plain, .plain])) known machine)
include typed

theorem onNumbers {operate : Float → Float → Value} (results : ∀ x y, machine.heap.IsValue (operate x y))
    (raises : op.MayRaise (.type .operandsNotNumbers))
    (goes : reach (here + 1) ⟨kept ++ [.plain], known⟩) (span : Span) :
    (Exec.onNumbers operate span).Yields (machine.inFrame rest frame (here + 1)) (Fails op machine)
      fun _ => Continues ledger rest frame below reach machine := by
  have typed : Typed ledger _ known (machine.inFrame rest frame (here + 1)) := typed.split.inFrame _
  obtain ⟨left, peeked, -⟩ := typed.peek
  obtain ⟨right, peeked', -⟩ := typed.peekTop
  obtain ⟨_, _, first, second, popped⟩ := typed.popTwo rfl rfl
  refine .afterwards peeked (.afterwards peeked' ?_)
  cases left with
  | number x =>
    cases right with
    | number y =>
      refine .afterwards first (.afterwards second (.of_ok rfl ?_))
      exact .on goes (.refl _ _) rfl (popped.pushValue (results x y)).join
    | _ => exact .fail ⟨raises, typed.stranded (.refl _)⟩
  | _ => exact .fail ⟨raises, typed.stranded (.refl _)⟩

theorem add (goes : reach (here + 1) ⟨kept ++ [.plain], known⟩) : Performs ledger rest frame below reach machine here .add := by
  intro span
  have typed : Typed ledger _ known (machine.inFrame rest frame (here + 1)) := typed.split.inFrame _
  obtain ⟨left, peeked, -⟩ := typed.peek
  obtain ⟨right, peeked', -⟩ := typed.peekTop
  refine .afterwards peeked' (.afterwards peeked ?_)
  rcases sum_cases left right span (machine.inFrame rest frame (here + 1)) with ⟨z, done⟩ | ⟨text, done⟩ | failed
  · obtain ⟨_, _, first, second, popped⟩ := typed.popTwo rfl rfl
    refine .afterwards done (.afterwards first (.afterwards second (.of_ok rfl ?_)))
    have isValue : machine.heap.IsValue (.number z) := nofun
    exact .on goes (.refl _ _) rfl (popped.pushValue isValue).join
  · have isValue : (machine.heap.push (.string text)).IsValue (.object machine.heap.size) :=
      Heap.isValue_of_get? (Heap.get?_push_self _ _) rfl
    have typed : Typed ledger _ known ((machine.inFrame rest frame (here + 1)).addObject (.string text)) :=
      typed.addObject nofun trivial
    obtain ⟨_, _, first, second, popped⟩ := typed.popTwo rfl rfl
    refine .afterwards done (.afterwards first (.afterwards second (.of_ok rfl ?_)))
    exact .on goes (.of_evolves (.push _ _)) rfl (popped.pushValue isValue).join
  · exact .failed failed ⟨trivial, typed.stranded (.refl _)⟩

theorem binary (isBinary : op.isBinary = true)
    (goes : reach (here + 1) ⟨kept ++ [.plain], known⟩) : Performs ledger rest frame below reach machine here op := by
  cases op with
  | equal =>
    intro span
    have typed : Typed ledger _ known (machine.inFrame rest frame (here + 1)) := typed.split.inFrame _
    obtain ⟨left, right, first, second, popped⟩ := typed.popTwo rfl rfl
    refine .afterwards first (.afterwards second (.of_ok rfl ?_))
    have isValue : machine.heap.IsValue (.bool (left.equals right)) := nofun
    exact .on goes (.refl _ _) rfl (popped.pushValue isValue).join
  | greater | less | subtract | multiply | divide => exact onNumbers typed (fun _ _ => nofun) trivial goes
  | add => exact add typed goes
  | _ => cases isBinary

end

end Performs

end StackScript
