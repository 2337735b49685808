import StackScript.Proofs.GuidedCode

/-!
Steps of guided code. Every accepted instruction leads on along the shapes, calls a vetted function or returns, and leaves
the machine in order; so does every step, whether it fails or not.
-/

namespace StackScript

variable {State α : Type} {frozen : Frozen} {classes : Ref → Option Class}
variable {index distance : Nat} {slot first second : Slot} {name : String} {low : List Value} {content : Content}
  {between : Machine State} {op : Opcode} {action : Exec State Unit} {isCaptured : Bool} {manner : Manner} {argc : UInt8}

namespace Exec.Upholds

variable {machine : Machine State} {rest : Array Frame} {frame : Frame} {ip : Nat} {post : α → Machine State → Prop}

theorem moved (sane : machine.Sane frozen) (ip ip' : Nat) : (machine.inFrame rest frame ip).Leads frozen (machine.inFrame rest frame ip') :=
  (sane.inFrame rest frame ip).sane.restack rfl rfl rfl rfl sane.stack

theorem operand {next : Nat → Exec State α} {operand : Nat} (sane : machine.Sane frozen)
    (found : frame.function.chunk.operand? ip = some operand) (rest_ : (next operand).Upholds frozen (machine.inFrame rest frame (ip + 2)) post) :
    (readOperand >>= next).Upholds frozen (machine.inFrame rest frame ip) post :=
  .after_ok (readOperand_inFrame found) (moved sane _ _) rest_

theorem text {next : String → Exec State α} {text : String} (sane : machine.Sane frozen)
    (named : frame.function.chunk.NameAt ip text)
    (rest_ : (next text).Upholds frozen (machine.inFrame rest frame (ip + 2)) post) :
    (readString >>= next).Upholds frozen (machine.inFrame rest frame ip) post :=
  .after_ok (readString_inFrame named) (moved sane _ _) rest_

theorem byte {next : UInt8 → Exec State α} {byte : UInt8} (sane : machine.Sane frozen)
    (found : frame.function.chunk.code[ip]? = some byte) (rest_ : (next byte).Upholds frozen (machine.inFrame rest frame (ip + 1)) post) :
    (readByte >>= next).Upholds frozen (machine.inFrame rest frame ip) post :=
  .after_ok (readByte_inFrame found) (moved sane _ _) rest_

end Exec.Upholds

/-- The machine is in order, the values of a frame lie above others, and no function waits for its closure. -/
structure Stands (classes : Ref → Option Class) (below own : List Value) (shape : Shape) (machine : Machine State) : Prop where
  sane : machine.Sane ⟨classes, shape.known⟩
  stacked : machine.Stacks (below ++ own)
  shown : Shown classes machine.heap own shape.slots
  clear : Clear shape.slots

namespace Shown

variable {machine : Machine State} {heap : Heap} {below own : List Value} {kept : List Slot}

theorem top (shown : Shown classes heap own (kept ++ [slot])) (stacked : machine.Stacks (below ++ own)) :
    ∃ low value, machine.Stacks (below ++ low ++ [value]) ∧ Shown classes heap low kept ∧
      slot.content.Shows classes heap kept.length value := by
  obtain ⟨low, above, rfl, lower, count, shows⟩ := shown.split
  obtain ⟨value, rfl⟩ := List.length_eq_one_iff.mp count
  exact ⟨low, value, by simpa using stacked, lower, shows 0 value slot rfl rfl⟩

theorem topTwo (shown : Shown classes heap own (kept ++ [first, second])) (stacked : machine.Stacks (below ++ own)) :
    ∃ low left right, machine.Stacks (below ++ low ++ [left, right]) ∧ Shown classes heap low kept ∧
      first.content.Shows classes heap kept.length left ∧ second.content.Shows classes heap (kept.length + 1) right := by
  obtain ⟨low, above, rfl, lower, count, shows⟩ := shown.split
  obtain ⟨left, right, rfl⟩ := List.length_eq_two.mp count
  exact ⟨low, left, right, by simpa using stacked, lower, shows 0 left first rfl rfl, shows 1 right second rfl rfl⟩

theorem topCall {argc : Nat} (shown : Shown classes heap own (kept ++ List.replicate (argc + 1) .plain))
    (stacked : machine.Stacks (below ++ own)) :
    ∃ low callee args, machine.Stacks (below ++ low ++ callee :: args) ∧ args.length = argc ∧ Shown classes heap low kept := by
  obtain ⟨low, above, rfl, lower, count, -⟩ := shown.split
  rw [List.length_replicate] at count
  obtain ⟨callee, args, rfl⟩ := List.exists_cons_of_length_eq_add_one count
  exact ⟨low, callee, args, by simpa using stacked, by simpa using count, lower⟩

end Shown

open Exec

/-- The operation of the instruction at an offset leads on, whether it fails or not. -/
def Guidance (frozen : Frozen) (rest : Array Frame) (frame : Frame) (reach : Points) (below : List Value) (machine : Machine State) (here : Nat)
    (op : Opcode) : Prop :=
  ∀ span, (perform op span).Upholds frozen (machine.inFrame rest frame (here + 1)) fun _ =>
    Proceeds frozen.classes rest frame reach below machine

namespace Guidance

variable {rest : Array Frame} {frame : Frame} {reach : Points} {below own : List Value} {machine : Machine State}
  {here next : Nat} {shape : Shape} {kept : List Slot} {known : Option String} {value left right : Value}

theorem frameUpvalue_upholds (sane : machine.Sane frozen) (index : Nat) :
    (frameUpvalue index).Upholds frozen (machine.inFrame rest frame next) fun ref after => after = machine.inFrame rest frame next ∧
      ∃ own closure, frame.closure = some own ∧ machine.heap.get? own = some (.closure closure) ∧
        closure.upvalues[index]? = some ref := by
  have moved := sane.inFrame rest frame next
  refine .looking frame_inFrame ?_
  cases own : frame.closure with
  | none => exact .fail moved.sane
  | some ref =>
    refine .look moved.sane fun closure fetched => ?_
    cases captured : closure.upvalues[index]? with
    | none => exact .fail moved.sane
    | some upvalue =>
      exact .done rfl (.refl moved.sane) ⟨rfl, ref, closure, rfl, Heap.get?_of_fetchClosure fetched, captured⟩

section

variable (stands : Stands classes below own shape machine)
include stands

theorem put_upholds (leads : machine.Leads ⟨classes, shape.known⟩ between)
    (beside : (machine.inFrame rest frame next).Beside between) (has : between.heap.Has value)
    (goes : reach next (shape.push ⟨content, false⟩)) (apart : ∀ proto, content ≠ .function proto)
    (shows : content.Shows classes between.heap shape.slots.length value) :
    (push value).Upholds ⟨classes, shape.known⟩ between fun _ => Proceeds classes rest frame reach below machine := by
  have stacked : between.Stacks (below ++ own) := beside.stack.trans stands.stacked
  have pushed := leads.sane.push has
  exact .done rfl pushed
    (.put (leads.trans pushed) ⟨beside.frames, stacked.push value⟩ stands.shown stands.clear goes apart shows)

theorem push_upholds (leads : machine.Leads ⟨classes, shape.known⟩ between)
    (beside : (machine.inFrame rest frame next).Beside between) (has : between.heap.Has value) (free : content.isFree = true)
    (goes : reach next (shape.push ⟨content, false⟩)) :
    (push value).Upholds ⟨classes, shape.known⟩ between fun _ => Proceeds classes rest frame reach below machine := by
  refine put_upholds stands leads beside has goes (fun proto same => ?_) (.of_free free)
  rw [same] at free
  cases free

theorem literal (isLiteral : op.isLiteral = true)
    (goes : reach (here + 1) (shape.push .plain)) : Guidance ⟨classes, shape.known⟩ rest frame reach below machine here op := by
  intro span
  cases op <;> cases isLiteral <;> exact push_upholds stands (stands.sane.inFrame _ _ _) ⟨rfl, rfl⟩ nofun rfl goes

theorem alloc_upholds {object : Object} (intact : object.Intact machine.heap)
    (vetted : object.IsVetted) (goes : reach next (shape.push ⟨content, false⟩)) (apart : ∀ proto, content ≠ .function proto)
    (shows : content.Shows classes (machine.heap.push object) shape.slots.length (.object machine.heap.size)) :
    (do push (.object (← alloc object)) : Exec State Unit).Upholds ⟨classes, shape.known⟩ (machine.inFrame rest frame next)
      fun _ => Proceeds classes rest frame reach below machine := by
  have moved := stands.sane.inFrame rest frame next
  have added := moved.sane.addObject intact vetted
  refine .after_ok (alloc_eq object) added (put_upholds stands (moved.trans added) ⟨rfl, rfl⟩ ?_ goes apart shows)
  exact Heap.has_object (Heap.get?_push_self _ _)

section

variable (named : frame.function.chunk.NameAt (here + 1) name)
include named

theorem string (goes : reach (here + 3) (shape.push .plain)) :
    Guidance ⟨classes, shape.known⟩ rest frame reach below machine here .string := by
  intro span
  have intact : (Object.string name).Intact machine.heap := trivial
  exact .text stands.sane named (alloc_upholds stands intact trivial goes (fun _ same => by cases same) trivial)

theorem newClass (goes : reach (here + 3) (shape.push ⟨.class, false⟩)) :
    Guidance ⟨classes, shape.known⟩ rest frame reach below machine here .newClass := by
  intro span
  refine .text stands.sane named
    (alloc_upholds stands (fun other method found => ?_) trivial goes (fun _ same => by cases same) fun ref same => ?_)
  · simp at found
  · cases same
    exact stands.sane.classes.new

theorem getGlobal (holds : content = .value ∨ content = .class ∧ shape.known = some name)
    (goes : reach (here + 3) (shape.push ⟨content, false⟩)) :
    Guidance ⟨classes, shape.known⟩ rest frame reach below machine here .getGlobal := by
  intro span
  refine .text stands.sane named (.reading fun found held => ?_)
  cases found with
  | none => exact .fail (stands.sane.inFrame _ _ _).sane
  | some value =>
    have moved := stands.sane.inFrame rest frame (here + 3)
    have has := stands.sane.globals name value held
    rcases holds with rfl | ⟨rfl, known⟩
    · exact push_upholds stands moved ⟨rfl, rfl⟩ has rfl goes
    · refine put_upholds stands moved ⟨rfl, rfl⟩ has goes (fun _ same => by cases same) fun ref same => ?_
      subst same
      exact stands.sane.making name ref known held

end

section

variable (operand : frame.function.chunk.operand? (here + 1) = some index)
include operand

theorem constant {x : Float} (found : frame.function.chunk.constant? index = some (.number x))
    (goes : reach (here + 3) (shape.push .plain)) :
    Guidance ⟨classes, shape.known⟩ rest frame reach below machine here .constant := by
  intro span
  refine .operand stands.sane operand (.looking frame_inFrame ?_)
  simp only [found]
  exact push_upholds stands (stands.sane.inFrame _ _ _) ⟨rfl, rfl⟩ nofun rfl goes

theorem function {proto : Proto} (found : frame.function.chunk.functions[index]? = some proto) (vetted : Vetted proto)
    (closed : frame.function.chunk.ClosureAt (here + 3) proto)
    (goes : reach (here + 3) (shape.push ⟨.function proto, false⟩)) :
    Guidance ⟨classes, shape.known⟩ rest frame reach below machine here .function := by
  intro span
  refine .operand stands.sane operand (.looking frame_inFrame ?_)
  simp only [found]
  have moved := stands.sane.inFrame rest frame (here + 3)
  have intact : (Object.function proto).Intact machine.heap := trivial
  have added := moved.sane.addObject intact vetted
  have new : (machine.heap.push (.function proto)).get? machine.heap.size = some (.function proto) := Heap.get?_push_self _ _
  have pushed := added.sane.push (Heap.has_object new)
  have shown : Shown classes (machine.heap.push (.function proto)) (own ++ [.object machine.heap.size])
      (shape.push ⟨.function proto, false⟩).slots :=
    (stands.shown.mono (.push _ _)).append fun _ => ⟨_, rfl, new⟩
  have stacked : ((machine.inFrame rest frame (here + 3)).addObject (.function proto)).Stacks (below ++ own) := stands.stacked
  refine .after_ok (alloc_eq _) added (.done rfl pushed (.on goes (stands.clear.ripe_function closed) rfl ?_ shown
    pushed.sane.making))
  rw [← List.append_assoc]
  exact stacked.push _

theorem getLocal {copied : Content} (base : below.length = frame.base)
    (found : shape.slots[index]? = some slot)
    (copies : slot.content.copy? = some copied)
    (goes : reach (here + 3) (shape.push ⟨copied, false⟩)) :
    Guidance ⟨classes, shape.known⟩ rest frame reach below machine here .getLocal := by
  intro span
  refine .operand stands.sane operand (.looking frame_inFrame ?_)
  have inside : index < own.length := by
    rw [stands.shown.count]
    exact (List.getElem?_eq_some_iff.mp found).1
  have held : machine.stack[frame.base + index]? = some own[index] := by
    have stacked := stands.stacked
    unfold Machine.Stacks at stacked
    simp [stacked, ← base, inside]
  have has := stands.sane.stack_has stands.stacked (List.mem_append_right below (List.getElem_mem inside))
  have shows := stands.shown.shows index own[index] slot (List.getElem?_eq_getElem inside) found
  have copy : (∀ proto, copied ≠ .function proto) ∧ copied.Shows classes machine.heap shape.slots.length own[index] := by
    cases content : slot.content <;> simp only [content, Content.copy?] at copies shows <;> cases copies
    case «class» => exact ⟨fun _ same => (by cases same), shows⟩
    all_goals exact ⟨fun _ same => (by cases same), trivial⟩
  exact .looking (slotValue_eq held) (put_upholds stands (stands.sane.inFrame _ _ _) ⟨rfl, rfl⟩ has goes copy.1 copy.2)

theorem getUpvalue (free : content.isFree = true)
    (goes : reach (here + 3) (shape.push ⟨content, false⟩)) :
    Guidance ⟨classes, shape.known⟩ rest frame reach below machine here .getUpvalue := by
  intro span
  have moved := stands.sane.inFrame rest frame (here + 3)
  refine .operand stands.sane operand (.bind (frameUpvalue_upholds stands.sane index) ?_)
  rintro ref _ - ⟨rfl, -⟩
  refine .bind (readUpvalue_upholds moved.sane ref) ?_
  rintro value _ - ⟨rfl, has⟩
  exact push_upholds stands moved ⟨rfl, rfl⟩ has free goes

end

theorem moves {target : Nat} (goes : reach target shape) :
    (setIp target).Upholds ⟨classes, shape.known⟩ (machine.inFrame rest frame next) fun _ => Proceeds classes rest frame reach below machine := by
  refine .done (setIp_inFrame target) (Upholds.moved stands.sane _ _) ?_
  exact .on goes stands.clear.ripe rfl stands.stacked stands.shown stands.sane.making

theorem jump (operand : frame.function.chunk.operand? (here + 1) = some distance) (goes : reach (here + 3 + distance) shape) :
    Guidance ⟨classes, shape.known⟩ rest frame reach below machine here .jump :=
  fun _ => .operand stands.sane operand (.looking frame_inFrame (moves stands goes))

theorem loop (operand : frame.function.chunk.operand? (here + 1) = some distance) (back : distance ≤ here + 3)
    (goes : reach (here + 3 - distance) shape) :
    Guidance ⟨classes, shape.known⟩ rest frame reach below machine here .loop := by
  intro span
  refine .operand stands.sane operand (.looking frame_inFrame ?_)
  rw [if_pos (show distance ≤ here + 1 + 2 from back)]
  exact moves stands goes

end

theorem setLocal (base : below.length = frame.base) (operand : frame.function.chunk.operand? (here + 1) = some index)
    (found : kept[index]? = some ⟨.value, isCaptured⟩) (stands : Stands classes below own ⟨kept ++ [.plain], known⟩ machine)
    (goes : reach (here + 3) ⟨kept ++ [.plain], known⟩) :
    Guidance ⟨classes, known⟩ rest frame reach below machine here .setLocal := by
  intro span
  obtain ⟨low, value, stacked, shown, -⟩ := stands.shown.top stands.stacked
  have moved := stands.sane.inFrame rest frame (here + 3)
  have stacked' := stacked.inFrame rest frame (here + 3)
  have inside : index < low.length := by
    rw [shown.count]
    exact (List.getElem?_eq_some_iff.mp found).1
  refine .operand stands.sane operand (.looking frame_inFrame (.looking (peek_stacks stacked') (.reading fun size sized => ?_)))
  have lower : frame.base + index < size := by
    rw [← sized, stacked'.size, ← base]
    simp only [List.length_append]
    omega
  rw [if_pos lower]
  have has := stands.sane.stack_has stacked (List.mem_append_right _ (List.mem_singleton.mpr rfl))
  have written := moved.sane.setSlot (frame.base + index) has
  have lays : Lays (machine.inFrame rest frame (here + 3)) (below ++ low.set index value ++ [value])
      ((machine.inFrame rest frame (here + 3)).setSlot (frame.base + index) value) := by
    refine ⟨rfl, ?_⟩
    unfold Machine.Stacks at *
    simp [Machine.setSlot, stacked', ← base, List.set_append_left _ _ inside]
  exact .done rfl written (.pushed (moved.trans written) lays (shown.set found rfl) stands.clear.left rfl goes)

theorem setUpvalue (frames : machine.frames = rest.push frame) (op_at : frame.function.chunk.OpAt frame.ip .setUpvalue)
    (operand : frame.function.chunk.operand? (frame.ip + 1) = some index) (settled : Shape.Settled ⟨kept ++ [.plain], known⟩)
    (stands : Stands classes below own ⟨kept ++ [.plain], known⟩ machine) (goes : reach (frame.ip + 3) ⟨kept ++ [.plain], known⟩) :
    Guidance ⟨classes, known⟩ rest frame reach below machine frame.ip .setUpvalue := by
  intro span
  obtain ⟨low, value, stacked, shown, -⟩ := stands.shown.top stands.stacked
  have moved := stands.sane.inFrame rest frame (frame.ip + 3)
  have has := stands.sane.stack_has stacked (List.mem_append_right _ (List.mem_singleton.mpr rfl))
  refine .operand stands.sane operand (.bind (frameUpvalue_upholds stands.sane index) ?_)
  rintro ref _ - ⟨rfl, self, closure, isSelf, found, captured⟩
  refine .looking (peek_stacks (stacked.inFrame _ _ _)) ((writeUpvalue_upholds moved.sane ref has).mono fun _ after leads written => ?_)
  obtain ⟨same, same_stack | ⟨slot, next, isOpen, inside, assigned⟩⟩ := written
  · have stacked : after.Stacks (below ++ low ++ [value]) := same_stack.trans stacked
    exact .pushed (moved.trans leads) ⟨same, stacked⟩ shown stands.clear.left rfl goes
  · have assigns : machine.Assigns slot :=
      ⟨frame, index, self, closure, ref, next, by rw [frames, Array.back?_push], op_at, operand, isSelf, found, captured, isOpen⟩
    have size : after.stack.toList.length = below.length + (kept ++ [Slot.plain]).length := by
      have size := stacked.size
      have same_size : after.stack.size = machine.stack.size := by
        rw [assigned]
        simp [Machine.inFrame]
      simp only [List.length_append, List.length_singleton, Array.length_toList, shown.count] at size ⊢
      omega
    have split : after.Stacks (after.stack.toList.take below.length ++ after.stack.toList.drop below.length) := by
      rw [List.take_append_drop]
      exact after.stacks_toList
    have count : (after.stack.toList.drop below.length).length = (kept ++ [Slot.plain]).length := by
      rw [List.length_drop, size, Nat.add_sub_cancel_left]
    refine .writes goes stands.clear.ripe same assigns (fun i other => ?_) split ?_ (.of_plain count (settled.plain stands.clear))
      leads.sane.making
    · rw [assigned, Array.getElem?_setIfInBounds_ne (Ne.symm other)]
      rfl
    · rw [List.length_take, size]
      exact Nat.min_eq_left (Nat.le_add_right _ _)

theorem pop_upholds (sane : between.Sane frozen) (beside : machine.Beside between) (stacked : machine.Stacks (low ++ [value])) :
    (do let _ ← Exec.pop : Exec State Unit).Upholds frozen between fun _ => Lays machine low := by
  have stacked : between.Stacks (low ++ [value]) := beside.stack.trans stacked
  have cut := sane.cut stacked
  exact .after_ok (pop_stacks stacked) cut (.done rfl (.refl cut.sane) ⟨beside.frames, rfl⟩)

theorem push_lays (sane : machine.Sane frozen) (stacked : machine.Stacks (low ++ own)) {result : Value}
    (plain : ∀ ref, result ≠ .object ref) :
    (push result).Upholds frozen { machine with stack := low.toArray } fun _ after => ∃ result, Lays machine (low ++ [result]) after :=
  .done rfl ((sane.cut stacked).sane.push fun ref same => absurd same (plain ref)) ⟨result, rfl, Machine.Stacks.push rfl result⟩

section

variable (stands : Stands classes below own ⟨kept ++ [slot], known⟩ machine)
include stands

theorem of_pop (goes : reach next ⟨kept, known⟩)
    (upholds : ∀ low value, (machine.inFrame rest frame next).Sane ⟨classes, known⟩ →
      (machine.inFrame rest frame next).Stacks (low ++ [value]) →
        action.Upholds ⟨classes, known⟩ (machine.inFrame rest frame next) fun _ => Lays (machine.inFrame rest frame next) low) :
    action.Upholds ⟨classes, known⟩ (machine.inFrame rest frame next) fun _ => Proceeds classes rest frame reach below machine := by
  obtain ⟨low, value, stacked, shown, -⟩ := stands.shown.top stands.stacked
  have moved := stands.sane.inFrame rest frame next
  refine (upholds (below ++ low) value moved.sane (stacked.inFrame _ _ _)).mono fun _ _ leads lays => ?_
  exact .left (moved.trans leads) lays shown stands.clear.left goes

theorem of_top (goes : reach next ⟨kept ++ [.plain], known⟩)
    (upholds : ∀ low value, (machine.inFrame rest frame next).Sane ⟨classes, known⟩ →
      (machine.inFrame rest frame next).Stacks (low ++ [value]) →
        action.Upholds ⟨classes, known⟩ (machine.inFrame rest frame next) fun _ after =>
          ∃ result, Lays (machine.inFrame rest frame next) (low ++ [result]) after) :
    action.Upholds ⟨classes, known⟩ (machine.inFrame rest frame next) fun _ => Proceeds classes rest frame reach below machine := by
  obtain ⟨low, value, stacked, shown, -⟩ := stands.shown.top stands.stacked
  have moved := stands.sane.inFrame rest frame next
  refine (upholds (below ++ low) value moved.sane (stacked.inFrame _ _ _)).mono fun _ _ leads ⟨_, lays⟩ => ?_
  exact .pushed (moved.trans leads) lays shown stands.clear.left rfl goes

theorem pop (goes : reach (here + 1) ⟨kept, known⟩) : Guidance ⟨classes, known⟩ rest frame reach below machine here .pop :=
  fun _ => of_pop stands goes fun _ _ sane stacked => pop_upholds sane (.refl _) stacked

theorem closeUpvalue (goes : reach (here + 1) ⟨kept, known⟩) :
    Guidance ⟨classes, known⟩ rest frame reach below machine here .closeUpvalue := by
  refine fun span => of_pop stands goes fun low value sane stacked => .reading fun size sized => ?_
  have size_pos : size ≠ 0 := by
    rw [← sized, stacked.size]
    simp
  rw [if_neg size_pos]
  exact .bind (closeUpvalues_upholds sane _) fun _ after leads beside => pop_upholds leads.sane beside stacked

theorem unary (isUnary : op.isUnary = true) (goes : reach (here + 1) ⟨kept ++ [.plain], known⟩) :
    Guidance ⟨classes, known⟩ rest frame reach below machine here op := by
  refine fun span => of_top stands goes fun low value sane stacked => ?_
  have cut := sane.cut stacked
  cases op <;> cases isUnary
  case not => exact .after_ok (pop_stacks stacked) cut (push_lays sane stacked nofun)
  case negate =>
    refine .after_ok (pop_stacks stacked) cut ?_
    cases value with
    | number x => exact push_lays sane stacked nofun
    | _ => exact .fail cut.sane

theorem print (goes : reach (here + 1) ⟨kept, known⟩) : Guidance ⟨classes, known⟩ rest frame reach below machine here .print := by
  refine fun span => of_pop stands goes fun low value sane stacked => ?_
  have cut := sane.cut stacked
  exact .after_ok (pop_stacks stacked) cut (.done rfl (cut.sane.restack rfl rfl rfl rfl cut.sane.stack) ⟨rfl, rfl⟩)

theorem getProperty (named : frame.function.chunk.NameAt (here + 1) name) (goes : reach (here + 3) ⟨kept ++ [.plain], known⟩) :
    Guidance ⟨classes, known⟩ rest frame reach below machine here .getProperty :=
  fun span => .text stands.sane named (of_top stands goes fun _ _ sane stacked => getProperty_upholds sane stacked name span)

theorem jumpIfFalse (operand : frame.function.chunk.operand? (here + 1) = some distance)
    (goes : reach (here + 3) ⟨kept ++ [slot], known⟩)
    (jumps : reach (here + 3 + distance) ⟨kept ++ [slot], known⟩) :
    Guidance ⟨classes, known⟩ rest frame reach below machine here .jumpIfFalse := by
  intro span
  obtain ⟨low, value, stacked, -, -⟩ := stands.shown.top stands.stacked
  refine .operand stands.sane operand (.looking (peek_stacks (stacked.inFrame _ _ _)) ?_)
  split
  · exact .looking frame_inFrame (moves stands jumps)
  · refine .done rfl (.refl (stands.sane.inFrame _ _ _).sane) ?_
    exact .on goes stands.clear.ripe rfl stands.stacked stands.shown stands.sane.making

end

theorem sum_upholds (sane : machine.Sane frozen) (left right : Value) (span : Span) :
    (sum left right span).Upholds frozen machine fun value after => machine.Beside after ∧ after.heap.Has value := by
  unfold sum
  split
  · exact .done rfl (.refl sane) ⟨.refl machine, nofun⟩
  · refine .reading fun first _ => .reading fun second _ => ?_
    cases first with
    | none => exact .fail sane
    | some x =>
      cases second with
      | none => exact .fail sane
      | some y =>
        exact .done rfl (@Machine.Sane.addObject _ (.string _) _ _ sane trivial trivial)
          ⟨⟨rfl, rfl⟩, Heap.has_object (Heap.get?_push_self _ _)⟩

theorem onNumbers_upholds (sane : machine.Sane frozen) (stacked : machine.Stacks (low ++ [left, right]))
    {operate : Float → Float → Value} (plain : ∀ x y ref, operate x y ≠ .object ref) (span : Span) :
    (onNumbers operate span).Upholds frozen machine fun _ after => ∃ result, Lays machine (low ++ [result]) after := by
  have top : machine.Stacks ((low ++ [left]) ++ [right]) := by simpa using stacked
  refine .looking (peek_stacks stacked) (.looking (peek_stacks top) ?_)
  split
  · next x y =>
    exact (replaceTwo_upholds sane stacked fun ref same => absurd same (plain x y ref)).mono fun _ _ _ lays => ⟨_, lays⟩
  · exact .fail sane

section

variable (stands : Stands classes below own ⟨kept ++ [first, second], known⟩ machine)
include stands

theorem of_topTwo {result : Slot} (free : result.content.isFree = true) (goes : reach next ⟨kept ++ [result], known⟩)
    (upholds : ∀ low left right, (machine.inFrame rest frame next).Sane ⟨classes, known⟩ →
      (machine.inFrame rest frame next).Stacks (low ++ [left, right]) →
        second.content.Shows classes machine.heap (kept.length + 1) right →
          action.Upholds ⟨classes, known⟩ (machine.inFrame rest frame next) fun _ after =>
            ∃ result, Lays (machine.inFrame rest frame next) (low ++ [result]) after) :
    action.Upholds ⟨classes, known⟩ (machine.inFrame rest frame next) fun _ => Proceeds classes rest frame reach below machine := by
  obtain ⟨low, left, right, stacked, shown, -, shows⟩ := stands.shown.topTwo stands.stacked
  have moved := stands.sane.inFrame rest frame next
  refine (upholds (below ++ low) left right moved.sane (stacked.inFrame _ _ _) shows).mono fun _ _ leads ⟨_, lays⟩ => ?_
  exact .pushed (moved.trans leads) lays shown stands.clear.left free goes

theorem binary (isBinary : op.isBinary = true) (goes : reach (here + 1) ⟨kept ++ [.plain], known⟩) :
    Guidance ⟨classes, known⟩ rest frame reach below machine here op := by
  refine fun span => of_topTwo stands rfl goes fun low left right sane stacked _ => ?_
  have top : (machine.inFrame rest frame (here + 1)).Stacks ((low ++ [left]) ++ [right]) := by simpa using stacked
  cases op <;> cases isBinary
  case equal =>
    have cut := sane.cut top
    refine .after_ok (pop_stacks top) cut (.after_ok (pop_stacks rfl) (cut.sane.cut rfl) ?_)
    exact push_lays sane stacked nofun
  case add =>
    refine .looking (peek_stacks top) (.looking (peek_stacks stacked) ?_)
    refine .bind (sum_upholds sane left right span) fun result after leads ⟨beside, has⟩ => ?_
    have stacked : after.Stacks (low ++ [left, right]) := beside.stack.trans stacked
    exact (replaceTwo_upholds leads.sane stacked has).mono fun _ _ _ lays => ⟨result, lays.1.trans beside.frames, lays.2⟩
  all_goals exact onNumbers_upholds sane stacked (by simp) span

theorem setProperty (named : frame.function.chunk.NameAt (here + 1) name) (goes : reach (here + 3) ⟨kept ++ [.plain], known⟩) :
    Guidance ⟨classes, known⟩ rest frame reach below machine here .setProperty := by
  refine fun span => .text stands.sane named (of_topTwo stands rfl goes fun _ _ right sane stacked _ => ?_)
  exact (setProperty_upholds sane stacked name span).mono fun _ _ _ lays => ⟨right, lays⟩

theorem getSuper (named : frame.function.chunk.NameAt (here + 1) name) (goes : reach (here + 3) ⟨kept ++ [.plain], known⟩) :
    Guidance ⟨classes, known⟩ rest frame reach below machine here .getSuper := by
  refine fun span => .text stands.sane named (of_topTwo stands rfl goes fun low left right sane stacked _ => ?_)
  rw [List.append_cons] at stacked
  refine .bind (popClass_upholds sane stacked span) fun cls after leads lays => ?_
  refine (bindMethod_upholds leads.sane lays.2 cls name span).mono fun _ _ _ ⟨result, further⟩ => ?_
  exact ⟨result, further.1.trans lays.1, further.2⟩

end

theorem inherit {result : Slot} (free : result.content.isFree = true)
    (stands : Stands classes below own ⟨kept ++ [first, ⟨.class, isCaptured⟩], known⟩ machine)
    (goes : reach (here + 1) ⟨kept ++ [result], known⟩) :
    Guidance ⟨classes, known⟩ rest frame reach below machine here .inherit := by
  refine fun span => of_topTwo stands free goes fun _ left _ sane stacked making => ?_
  exact (inherit_upholds sane stacked making span).mono fun _ _ _ lays => ⟨left, lays.1⟩

section

variable (named : frame.function.chunk.NameAt (here + 1) name)
include named

theorem defineGlobal {learned : Option String} (learns : learned = none ∨ learned = some name ∧ slot.content = .class)
    (stands : Stands classes below own ⟨kept ++ [slot], none⟩ machine) (goes : reach (here + 3) ⟨kept, learned⟩) :
    Guidance ⟨classes, none⟩ rest frame reach below machine here .defineGlobal := by
  intro span
  obtain ⟨low, value, stacked, shown, shows⟩ := stands.shown.top stands.stacked
  have moved := stands.sane.inFrame rest frame (here + 3)
  have has := stands.sane.stack_has stacked (List.mem_append_right _ (List.mem_singleton.mpr rfl))
  have defined := moved.sane.setGlobal name has fun _ never => by cases never
  have stacked' := stacked.inFrame rest frame (here + 3)
  have stacked'' : ((machine.inFrame rest frame (here + 3)).setGlobal name value).Stacks (below ++ low ++ [value]) := stacked'
  have cut := defined.sane.cut stacked''
  refine .text stands.sane named (.looking (peek_stacks stacked') (.after_ok rfl defined ?_))
  refine .after_ok (pop_stacks stacked'') cut (.done rfl (.refl cut.sane) ?_)
  refine .on goes stands.clear.left.ripe rfl rfl shown fun other ref known held => ?_
  -- the global that is known to hold a class is the one that was defined
  rcases learns with rfl | ⟨rfl, isClass⟩
  · cases known
  · cases known
    rw [isClass] at shows
    have held : (machine.globals.insert name value)[name]? = some (.object ref) := held
    rw [Std.TreeMap.getElem?_insert_self] at held
    exact shows ref (Option.some.inj held)

theorem setGlobal (stands : Stands classes below own ⟨kept ++ [.plain], none⟩ machine)
    (goes : reach (here + 3) ⟨kept ++ [.plain], none⟩) :
    Guidance ⟨classes, none⟩ rest frame reach below machine here .setGlobal := by
  refine fun span => .text stands.sane named (of_top stands goes fun low value sane stacked => ?_)
  have has := sane.stack_has stacked (List.mem_append_right _ (List.mem_singleton.mpr rfl))
  refine .looking (peek_stacks stacked) (.reading fun defined _ => ?_)
  split
  · exact .done rfl (sane.setGlobal name has fun _ never => by cases never) ⟨value, rfl, stacked⟩
  · exact .fail sane

theorem method {isCaptured' : Bool}
    (stands : Stands classes below own ⟨kept ++ [⟨.class, isCaptured⟩, ⟨.closure manner, isCaptured'⟩], known⟩ machine)
    (goes : reach (here + 3) ⟨kept ++ [⟨.class, isCaptured⟩], known⟩) :
    Guidance ⟨classes, known⟩ rest frame reach below machine here .method := by
  intro span
  obtain ⟨low, left, right, stacked, shown, making, isClosure⟩ := stands.shown.topTwo stands.stacked
  have moved := stands.sane.inFrame rest frame (here + 3)
  refine .text stands.sane named ?_
  refine (defineMethod_upholds moved.sane (stacked.inFrame _ _ _) (isClosure (Nat.succ_pos _)) making name span).mono ?_
  exact fun _ after leads lays => .put (moved.trans leads) lays.1 shown stands.clear.left goes (fun _ same => by cases same) making

end

section

variable (settled : Shape.Settled ⟨kept, none⟩) (grounded : kept ≠ [])
include settled grounded

theorem of_calls (sane : machine.Sane ⟨classes, none⟩) (shown : Shown classes machine.heap low kept) (clear : Clear kept)
    (goes : reach next ⟨kept ++ [.plain], none⟩)
    (upholds : action.Upholds ⟨classes, none⟩ (machine.inFrame rest frame next) fun _ => Calls (machine.inFrame rest frame next) (below ++ low)) :
    action.Upholds ⟨classes, none⟩ (machine.inFrame rest frame next) fun _ => Proceeds classes rest frame reach below machine := by
  refine upholds.mono fun _ after leads calls => ?_
  cases calls with
  | returned frames stacked =>
    exact .pushed ((sane.inFrame rest frame next).trans leads) ⟨frames, stacked⟩ shown clear rfl goes
  | entered vetted count room frames stacked =>
    rw [show (machine.inFrame rest frame next).frames.size = rest.size + 1 from Array.size_push _] at room
    rw [List.length_append, shown.count] at frames
    exact .calls goes (settled.plain clear) grounded vetted count room frames stacked shown.count

theorem of_call (stands : Stands classes below own ⟨kept ++ List.replicate (argc.toNat + 1) .plain, none⟩ machine)
    (goes : reach next ⟨kept ++ [.plain], none⟩)
    (upholds : ∀ low callee args, args.length = argc.toNat → (machine.inFrame rest frame next).Sane ⟨classes, none⟩ →
      (machine.inFrame rest frame next).Stacks (low ++ callee :: args) →
        action.Upholds ⟨classes, none⟩ (machine.inFrame rest frame next) fun _ => Calls (machine.inFrame rest frame next) low) :
    action.Upholds ⟨classes, none⟩ (machine.inFrame rest frame next) fun _ => Proceeds classes rest frame reach below machine := by
  obtain ⟨low, callee, args, stacked, count, shown⟩ := stands.shown.topCall stands.stacked
  exact of_calls settled grounded stands.sane shown stands.clear.left goes
    (upholds (below ++ low) callee args count (stands.sane.inFrame _ _ _).sane (stacked.inFrame _ _ _))

theorem call (operand : frame.function.chunk.code[here + 1]? = some argc)
    (stands : Stands classes below own ⟨kept ++ List.replicate (argc.toNat + 1) .plain, none⟩ machine)
    (goes : reach (here + 2) ⟨kept ++ [.plain], none⟩) : Guidance ⟨classes, none⟩ rest frame reach below machine here .call := by
  refine fun span => .byte stands.sane operand (of_call settled grounded stands goes fun low callee args count sane stacked => ?_)
  rw [← count]
  exact .looking (peek_stacks stacked) (callValue_upholds sane stacked callee span)

theorem invoke (named : frame.function.chunk.NameAt (here + 1) name) (counted : frame.function.chunk.code[here + 3]? = some argc)
    (stands : Stands classes below own ⟨kept ++ List.replicate (argc.toNat + 1) .plain, none⟩ machine)
    (goes : reach (here + 4) ⟨kept ++ [.plain], none⟩) :
    Guidance ⟨classes, none⟩ rest frame reach below machine here .invoke := by
  refine fun span => .text stands.sane named (.byte stands.sane counted ?_)
  refine of_call settled grounded stands goes fun low callee args count sane stacked => ?_
  rw [← count]
  exact invoke_upholds sane stacked name span

theorem superInvoke (named : frame.function.chunk.NameAt (here + 1) name) (counted : frame.function.chunk.code[here + 3]? = some argc)
    (stands : Stands classes below own ⟨kept ++ List.replicate (argc.toNat + 1) .plain ++ [slot], none⟩ machine)
    (goes : reach (here + 4) ⟨kept ++ [.plain], none⟩) :
    Guidance ⟨classes, none⟩ rest frame reach below machine here .superInvoke := by
  intro span
  obtain ⟨upper, cls, stacked, lower, -⟩ := stands.shown.top stands.stacked
  obtain ⟨low, above, rfl, shown, count, -⟩ := lower.split
  rw [List.length_replicate] at count
  obtain ⟨callee, args, rfl⟩ := List.exists_cons_of_length_eq_add_one count
  have stacked : machine.Stacks ((below ++ low ++ callee :: args) ++ [cls]) := by simpa using stacked
  refine .text stands.sane named (.byte stands.sane counted ?_)
  refine of_calls settled grounded stands.sane shown stands.clear.left.left goes ?_
  rw [← Nat.succ.inj count]
  refine .bind (popClass_upholds (stands.sane.inFrame _ _ _).sane (stacked.inFrame _ _ _) span) fun cls after leads lays => ?_
  exact (invokeFromClass_upholds leads.sane lays.2 cls name span).mono fun _ _ _ calls => calls.of_leads leads lays.1

end

theorem captureOne_upholds (sane : machine.Sane frozen) (isLocal : UInt8) (index : Nat) {further : Ref → Exec State α}
    {post : α → Machine State → Prop}
    (rest_ : ∀ ref after, (machine.inFrame rest frame next).Leads frozen after → (machine.inFrame rest frame next).Beside after →
      after.heap.IsUpvalue ref → (further ref).Upholds frozen after post) :
    (if isLocal = 1 then do
        let upvalue ← capture ((← Exec.frame).base + index)
        further upvalue
      else do
        let upvalue ← frameUpvalue index
        further upvalue).Upholds frozen (machine.inFrame rest frame next) post := by
  have moved := sane.inFrame rest frame next
  split
  · refine .looking frame_inFrame (.bind (capture_upholds moved.sane _) fun ref after leads taken => ?_)
    exact rest_ ref after leads taken.1 taken.2
  · refine .bind (frameUpvalue_upholds sane index) fun ref after leads found => ?_
    obtain ⟨rfl, own, closure, -, found, captured⟩ := found
    exact rest_ ref _ leads (.refl _) ((sane.heap own _ found).1.2 ref (Array.mem_of_getElem? captured))

theorem captureAll_upholds (sane : machine.Sane frozen) {count : Nat} {captured : Array Ref}
    (inline : ∀ i < count, (∃ byte, frame.function.chunk.code[next + 3 * i]? = some byte) ∧
      ∃ index, frame.function.chunk.operand? (next + 3 * i + 1) = some index)
    (upvalues : ∀ ref ∈ captured, machine.heap.IsUpvalue ref) :
    (captureAll count captured).Upholds frozen (machine.inFrame rest frame next) fun refs after =>
      refs.size = captured.size + count ∧ (∀ ref ∈ refs, after.heap.IsUpvalue ref) ∧
        (machine.inFrame rest frame (next + 3 * count)).Beside after := by
  induction count generalizing machine next captured with
  | zero => exact .done rfl (.refl (sane.inFrame _ _ _).sane) ⟨rfl, upvalues, rfl, rfl⟩
  | succ count ih =>
    obtain ⟨⟨byte, read⟩, index, operand⟩ := inline 0 (Nat.succ_pos count)
    refine .byte sane read (.operand sane operand (captureOne_upholds sane byte index fun ref after leads beside isUpvalue => ?_))
    have self : after.inFrame rest frame (next + 3) = after := Machine.inFrame_self beside.frames
    have grown : ∀ other ∈ captured.push ref, after.heap.IsUpvalue other := by
      intro other member
      rcases Array.mem_push.mp member with old | rfl
      · exact (upvalues other old).mono leads.evolves
      · exact isUpvalue
    have later : ∀ i < count, (∃ byte, frame.function.chunk.code[next + 3 + 3 * i]? = some byte) ∧
        ∃ index, frame.function.chunk.operand? (next + 3 + 3 * i + 1) = some index := by
      intro i inside
      rw [show next + 3 + 3 * i = next + 3 * (i + 1) by omega]
      exact inline (i + 1) (Nat.succ_lt_succ inside)
    have further := ih leads.sane later grown
    rw [self] at further
    refine further.mono fun refs final _ done => ?_
    rw [Array.size_push] at done
    refine ⟨by omega, done.2.1, done.2.2.stack.trans beside.stack, done.2.2.frames.trans ?_⟩
    rw [Machine.inFrame, Machine.inFrame, show next + 3 + 3 * count = next + 3 * (count + 1) by omega]

theorem closure {proto : Proto} {result : Slot} (made_at : frame.function.chunk.ClosureAt here proto) (grounded : kept ≠ [])
    (vetted : Vetted proto) (plain : ∀ other, result.content ≠ .function other) (clear : Clear kept)
    (sane : machine.Sane ⟨classes, known⟩) (stacked : machine.Stacks (below ++ own))
    (shown : Shown classes machine.heap own (kept ++ [⟨.function proto, false⟩]))
    (made : (Content.closure manner).Within result.content)
    (goes : reach (here + 3 + 3 * proto.captures.size) ⟨kept ++ [result], known⟩) :
    Guidance ⟨classes, known⟩ rest frame reach below machine here .closure := by
  intro span
  obtain ⟨low, value, stacked, lower, isFunction⟩ := shown.top stacked
  obtain ⟨ref, rfl, found⟩ := isFunction (List.length_pos_iff.mpr grounded)
  have moved := sane.inFrame rest frame (here + 3)
  have cut := moved.sane.cut (stacked.inFrame _ _ _)
  let popped : Machine State := { machine with stack := (below ++ low).toArray }
  have fetched : fetch ref (popped.inFrame rest frame (here + 3)) = .ok (.function proto) _ := fetch_eq found
  have closed : closable (.object ref) span (popped.inFrame rest frame (here + 3)) = .ok proto _ := bind_eq fetched
  refine .operand sane made_at.count (.after_ok (pop_stacks (stacked.inFrame _ _ _)) cut (.looking closed ?_))
  have sane' : popped.Sane ⟨classes, known⟩ := (sane.cut stacked).sane
  have inline : ∀ i < proto.captures.size, (∃ byte, frame.function.chunk.code[here + 3 + 3 * i]? = some byte) ∧
      ∃ index, frame.function.chunk.operand? (here + 3 + 3 * i + 1) = some index := by
    intro i inside
    obtain ⟨byte, operand⟩ := made_at.inline i _ (Array.getElem?_eq_getElem inside)
    exact ⟨⟨_, byte⟩, _, by rwa [show here + 3 + 3 * i + 1 = here + 4 + 3 * i by omega]⟩
  -- capturing touches neither the slots nor the frames, only the heap and the open list
  refine .bind (@captureAll_upholds _ _ rest frame popped (here + 3) sane' _ #[] inline nofun) fun refs after leads taken => ?_
  obtain ⟨count, upvalues, beside⟩ := taken
  have added : after.Leads ⟨classes, known⟩ (after.addObject (.closure ⟨proto, refs⟩)) :=
    leads.sane.addObject ⟨by simpa using count, upvalues⟩ vetted
  have new : (after.heap.push (.closure ⟨proto, refs⟩)).get? after.heap.size = some (.closure ⟨proto, refs⟩) :=
    Heap.get?_push_self _ _
  have pushed := added.sane.push (Heap.has_object new)
  have evolves : machine.heap.Evolves (after.heap.push (.closure ⟨proto, refs⟩)) := leads.evolves.trans (.push _ _)
  have isClosure : (Content.closure manner).Shows classes (after.heap.push (.closure ⟨proto, refs⟩)) kept.length
      (.object after.heap.size) := fun _ => ⟨_, _, rfl, new⟩
  have shown : Shown classes (after.heap.push (.closure ⟨proto, refs⟩)) (low ++ [.object after.heap.size]) (kept ++ [result]) :=
    (lower.mono evolves).append (isClosure.within made)
  have plain : Clear (kept ++ [result]) := clear.append fun slot member => by rw [List.mem_singleton.mp member]; exact plain
  have lays : (after.addObject (.closure ⟨proto, refs⟩)).Stacks (below ++ low) := beside.stack
  refine .after_ok (alloc_eq _) added (.done rfl pushed (.on goes plain.ripe beside.frames ?_ shown pushed.sane.making))
  rw [← List.append_assoc]
  exact lays.push _

end Guidance

variable {rest : Array Frame} {frame : Frame} {below own : List Value} {shape : Shape} {machine after : Machine State}

theorem Accepts.guidance {tags : List Role} {shapes : Shapes} {reach : Points} {next : Nat}
    (accepted : Accepts (.within frame.function manner tags) reach frame.ip next shape) (guided : frame.Guided manner tags shapes)
    (frames : machine.frames = rest.push frame) (sane : machine.Sane ⟨classes, shape.known⟩)
    (stacked : machine.Stacks (below ++ own)) (base : below.length = frame.base)
    (shown : Shown classes machine.heap own shape.slots) (ripe : Ripe frame.function.chunk frame.ip shape.slots) :
    ∃ op, frame.function.chunk.OpAt frame.ip op ∧
      (op ≠ .return ∧ Guidance ⟨classes, shape.known⟩ rest frame reach below machine frame.ip op ∨
        op = .return ∧ ∃ kept slot, shape.slots = kept ++ [slot]) := by
  have guides {op : Opcode} (op_at : frame.function.chunk.OpAt frame.ip op) (closes : op ≠ .closure) (returns : op ≠ .return)
      (guidance : Stands classes below own shape machine → Guidance ⟨classes, shape.known⟩ rest frame reach below machine frame.ip op) :
      ∃ op, frame.function.chunk.OpAt frame.ip op ∧
        (op ≠ .return ∧ Guidance ⟨classes, shape.known⟩ rest frame reach below machine frame.ip op ∨
          op = .return ∧ ∃ kept slot, shape.slots = kept ++ [slot]) :=
    ⟨op, op_at, .inl ⟨returns, guidance ⟨sane, stacked, shown, ripe.clear op_at closes⟩⟩⟩
  cases accepted with
  | @literal _ op isLiteral op_at goes =>
    exact guides op_at (by rintro rfl; cases isLiteral) (by rintro rfl; cases isLiteral) (.literal · isLiteral goes)
  | constant op_at operand found goes => exact guides op_at nofun nofun (.constant · operand found goes)
  | string op_at operand found goes => exact guides op_at nofun nofun (.string · ⟨_, operand, found.reads⟩ goes)
  | function op_at operand found closed goes =>
    have vetted := guided.nested _ (Array.mem_of_getElem? found)
    exact guides op_at nofun nofun (.function · operand found vetted closed goes)
  | @closure kept known proto manner result upvalues made_at grounded captured closes made goes =>
    have free : ∀ other, result.content ≠ .function other := by
      intro other same
      rw [same] at made
      cases made
    -- Only the function on top is about to become a closure.
    have clear : Clear kept := by
      intro i slot other inside found same
      have bound := (List.getElem?_eq_some_iff.mp found).1
      have last := (ripe i slot other inside (by rw [List.getElem?_append_left bound, found]) same).1
      rw [List.length_append, List.length_singleton] at last
      omega
    exact ⟨_, made_at.op_at, .inl ⟨nofun,
      .closure made_at grounded (guided.nested _ closes.1) free clear sane stacked shown made goes⟩⟩
  | pop op_at free _ goes => exact guides op_at nofun nofun (.pop · goes)
  | closeUpvalue op_at _ goes => exact guides op_at nofun nofun (.closeUpvalue · goes)
  | getLocal op_at operand found copies goes => exact guides op_at nofun nofun (.getLocal · operand base found copies goes)
  | setLocal op_at operand found goes => exact guides op_at nofun nofun (.setLocal base operand found · goes)
  | getGlobal op_at operand named holds goes => exact guides op_at nofun nofun (.getGlobal · ⟨_, operand, named.reads⟩ holds goes)
  | defineGlobal op_at operand named _ learns _ goes =>
    exact guides op_at nofun nofun (.defineGlobal ⟨_, operand, named.reads⟩ learns · goes)
  | setGlobal op_at operand named goes => exact guides op_at nofun nofun (.setGlobal ⟨_, operand, named.reads⟩ · goes)
  | @getUpvalue _ _ role op_at operand _ goes => exact guides op_at nofun nofun (.getUpvalue · operand (by cases role <;> rfl) goes)
  | setUpvalue op_at operand _ settled goes => exact guides op_at nofun nofun (.setUpvalue frames op_at operand settled · goes)
  | getProperty op_at operand named _ goes => exact guides op_at nofun nofun (.getProperty · ⟨_, operand, named.reads⟩ goes)
  | setProperty op_at operand named _ goes => exact guides op_at nofun nofun (.setProperty · ⟨_, operand, named.reads⟩ goes)
  | getSuper op_at operand named _ goes => exact guides op_at nofun nofun (.getSuper · ⟨_, operand, named.reads⟩ goes)
  | @binary _ _ op isBinary op_at _ goes =>
    exact guides op_at (by rintro rfl; cases isBinary) (by rintro rfl; cases isBinary) (.binary · isBinary goes)
  | @unary _ _ op isUnary op_at _ goes =>
    exact guides op_at (by rintro rfl; cases isUnary) (by rintro rfl; cases isUnary) (.unary · isUnary goes)
  | print op_at _ goes => exact guides op_at nofun nofun (.print · goes)
  | jump op_at operand goes => exact guides op_at nofun nofun (.jump · operand goes)
  | jumpIfFalse op_at operand goes jumps => exact guides op_at nofun nofun (.jumpIfFalse · operand goes jumps)
  | loop op_at operand back goes => exact guides op_at nofun nofun (.loop · operand back goes)
  | call op_at operand settled grounded goes => exact guides op_at nofun nofun (.call settled grounded operand · goes)
  | invoke op_at operand named count settled grounded goes =>
    exact guides op_at nofun nofun (.invoke settled grounded ⟨_, operand, named.reads⟩ count · goes)
  | superInvoke op_at operand named count settled grounded goes =>
    exact guides op_at nofun nofun (.superInvoke settled grounded ⟨_, operand, named.reads⟩ count · goes)
  | «return» op_at => exact ⟨_, op_at, .inr ⟨rfl, _, _, rfl⟩⟩
  | newClass op_at operand named goes => exact guides op_at nofun nofun (.newClass · ⟨_, operand, named.reads⟩ goes)
  | inherit op_at _ goes => exact guides op_at nofun nofun (.inherit rfl · goes)
  | method op_at operand named _ goes => exact guides op_at nofun nofun (.method ⟨_, operand, named.reads⟩ · goes)

inductive Moves (classes : Ref → Option Class) (rest : Array Frame) (frame : Frame) (below : List Value) (before : Machine State) :
    Flow → Machine State → Prop where
  | proceeds {manner : Manner} {tags : List Role} {shapes : Shapes} {after : Machine State} (guided : frame.Guided manner tags shapes)
      (proceeds : Proceeds classes rest frame
        (fun place found => frame.Reach shapes place found ∧ frame.function.chunk.Flows frame.ip place) below before after) :
      Moves classes rest frame below before .running after
  | returns {result : Value} {after : Machine State} (waits : rest ≠ #[]) (frames : after.frames = rest)
      (top : before.stack.back? = some result) (stacked : after.Stacks (below ++ [result])) :
      Moves classes rest frame below before .running after
  | halts {after : Machine State} (last : rest = #[]) (frames : after.frames = #[]) (stacked : after.Stacks below) :
      Moves classes rest frame below before .halted after

theorem returnFromFrame_upholds (sane : machine.Sane ⟨classes, none⟩) (base : below.length = frame.base) {result : Value}
    (stacked : machine.Stacks (below ++ low ++ [result])) {ip : Nat} :
    returnFromFrame.Upholds ⟨classes, none⟩ (machine.inFrame rest frame ip) (Moves classes rest frame below machine) := by
  have top : machine.stack.back? = some result := by
    unfold Machine.Stacks at stacked
    simp [stacked]
  have stacked := stacked.inFrame rest frame ip
  have moved := sane.inFrame rest frame ip
  have cut := moved.sane.cut stacked
  let left : Machine State := { machine with stack := (below ++ low).toArray, frames := rest }
  have framed : Exec.frame { machine.inFrame rest frame ip with stack := (below ++ low).toArray } = .ok { frame with ip } _ :=
    frame_eq Array.back?_push
  have leave : update (fun machine => { machine with frames := machine.frames.pop })
      { machine.inFrame rest frame ip with stack := (below ++ low).toArray } = .ok () left := by
    simp only [update, Machine.inFrame, Array.pop_push, left]
  have gone : Machine.Leads ⟨classes, none⟩ _ left := cut.sane.restack rfl rfl rfl rfl cut.sane.stack
  -- the result is popped first, and pushed again only after the slots of the frame are gone
  refine .after_ok (pop_stacks stacked) cut (.looking framed (.after_ok leave gone ?_))
  refine .bind (closeUpvalues_upholds gone.sane _) fun _ closed leads beside => ?_
  have held : closed.Stacks (below ++ low) := beside.stack
  have lower : (closed.truncate frame.base).Stacks below := base ▸ held.truncate
  have frames : (closed.truncate frame.base).frames = rest := beside.frames
  have truncated : closed.Leads ⟨classes, none⟩ (closed.truncate frame.base) := by
    refine leads.sane.restack rfl rfl rfl rfl fun value member => leads.sane.stack_has held (List.mem_append_left low ?_)
    rw [lower] at member
    exact List.mem_toArray.mp member
  refine .after_ok rfl truncated (.reading fun empty isEmpty => ?_)
  cases empty with
  | true =>
    rw [frames, Array.isEmpty_iff] at isEmpty
    exact .done rfl (.refl truncated.sane) (.halts isEmpty (frames.trans isEmpty) lower)
  | false =>
    have waits : rest ≠ #[] := by
      rintro rfl
      rw [frames] at isEmpty
      cases isEmpty
    have has := (sane.stack_has (stacked : machine.Stacks _) (List.mem_append_right _ (List.mem_singleton.mpr rfl))).mono
      ((gone.evolves.trans leads.evolves).trans truncated.evolves)
    exact .after_ok rfl (truncated.sane.push has)
      (.done rfl (.refl (truncated.sane.push has).sane) (.returns waits frames top (lower.push result)))

theorem Guides.accepted (guides : Guides classes rest frame shape machine) (sane : machine.Sane ⟨classes, none⟩) :
    ∃ manner tags shapes next wider below own, frame.Guided manner tags shapes ∧
      Accepts (.within frame.function manner tags)
        (fun place found => frame.Reach shapes place found ∧ frame.function.chunk.Flows frame.ip place) frame.ip next wider ∧
      machine.Sane ⟨classes, wider.known⟩ ∧ machine.Stacks (below ++ own) ∧ below.length = frame.base ∧
      Shown classes machine.heap own wider.slots ∧ Ripe frame.function.chunk frame.ip wider.slots := by
  obtain ⟨manner, tags, shapes, guided, ⟨wider, given, within⟩, reached⟩ := guides.code
  obtain ⟨entry, _, covering, -⟩ := guided.covering
  obtain ⟨next, accepts, -⟩ := covering.accepted _ _ given
  have accepts := accepts.onward fun place found onward goes =>
    (⟨⟨goes.elim id False.elim, .step reached onward.flows⟩, onward.flows⟩ : frame.Reach shapes place found ∧ _)
  obtain ⟨below, own, stacked, base, shown⟩ := guides.stack
  have shown := shown.within within.slots
  have making : machine.Sane ⟨classes, wider.known⟩ := by
    refine ⟨sane.stack, sane.globals, sane.heap, sane.natives, sane.classes, fun name ref known => ?_⟩
    rcases within.known with none | same
    · cases none.symm.trans known
    · exact guides.making name ref (same.symm.trans known)
  exact ⟨manner, tags, shapes, next, wider, below, own, guided, accepts, making, stacked, base, shown,
    guides.ripe.within within.slots⟩

theorem Guides.moves (guides : Guides classes rest frame shape machine) (sane : machine.Sane ⟨classes, none⟩) :
    ∃ below own, machine.Stacks (below ++ own) ∧ below.length = frame.base ∧
      ∀ span, (Exec.step span).Upholds ⟨classes, none⟩ machine (Moves classes rest frame below machine) := by
  obtain ⟨manner, tags, shapes, next, wider, below, own, guided, accepts, making, stacked, base, shown, ripe⟩ := guides.accepted sane
  obtain ⟨op, op_at, handled⟩ := accepts.guidance guided guides.frames making stacked base shown ripe
  refine ⟨below, own, stacked, base, fun span => ?_⟩
  have moved := sane.inFrame rest frame (frame.ip + 1)
  rcases handled with ⟨other, guidance⟩ | ⟨rfl, kept, slot, slots⟩
  · refine .step_perform guides.frames op_at other (Upholds.from_ moved ((guidance span).settle.mono fun _ _ _ proceeds => ?_))
    exact .proceeds guided proceeds
  · rw [slots] at shown
    obtain ⟨low, result, stacked, -, -⟩ := shown.top stacked
    rw [Upholds, Yields, step_return guides.frames op_at]
    exact Upholds.from_ moved (returnFromFrame_upholds sane base stacked)

end StackScript
