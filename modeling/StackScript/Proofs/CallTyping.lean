import StackScript.Proofs.ObjectTyping

/-!
Calls. Below its arguments lies what is called; a closure gets a frame whose slots these are, a native function leaves its
value in their place. Classes and bound methods lead to the call of a closure.
-/

namespace StackScript

variable {State : Type} {ledger : Ledger} {rest : Array Frame} {frame : Frame} {below kept layout : List Slot}
  {known : Option String} {reach : Points} {machine after : Machine State} {here argc : Nat}

/-- What a call leads to: its value, or a frame that will return it. -/
inductive Called (ledger : Ledger) (layout : List Slot) (before after : Machine State) : Prop where
  | value (reaches : Reaches ledger (layout ++ [.plain]) none before after)
  | frame {callee : Frame} {slots : List Slot} {call : Activation} (evolves : before.heap.Evolves after.heap)
      (frames : after.frames = before.frames.push callee) (enters : callee.Enters ledger after.heap layout slots call)
      (typed : Typed ledger (layout ++ slots) none after)

theorem Called.continues {ip : Nat} (called : Called ledger (below ++ kept) (machine.inFrame rest frame ip) after)
    (settled : Shape.Settled ⟨kept, none⟩) (goes : reach ip ⟨kept ++ [.plain], none⟩) :
    Continues ledger rest frame below reach machine after := by
  cases called with
  | value reaches => exact reaches.continues goes
  | frame evolves frames enters typed => exact .calls goes settled (.of_evolves evolves) frames enters typed

theorem Called.of_evolves {before : Machine State} (called : Called ledger layout machine after)
    (evolves : before.heap.Evolves machine.heap) (frames : machine.frames = before.frames) :
    Called ledger layout before after := by
  cases called with
  | value reaches => exact .value ⟨evolves.trans reaches.evolves, reaches.frames.trans frames, reaches.typed⟩
  | frame later frames' enters typed => exact .frame (evolves.trans later) (frames ▸ frames') enters typed

def Fault.OfClosure (fault : Fault) : Prop :=
  (∃ expected found, fault = .wrongArity expected found) ∨ fault = .stackOverflow

def Fault.OfCall (fault : Fault) : Prop :=
  fault.OfClosure ∨ fault = .notCallable

theorem slots_within_arguments (isCaptured : List Bool) :
    List.Forall₂ Slot.Within (List.replicate isCaptured.length .plain) (isCaptured.map (⟨.value, ·⟩)) := by
  induction isCaptured with
  | nil => exact .nil
  | cons _ _ ih => exact .cons ⟨.refl _, nofun⟩ ih

namespace Typed

open Exec

variable {value : Value} {ref : Ref}

section

variable (typed : Typed ledger (layout ++ List.replicate (argc + 1) .plain) known machine)
include typed

theorem calleeSlot :
    Exec.slotBelow argc machine = .ok layout.length machine := by
  have below := typed.slotBelow
  rwa [List.length_replicate] at below

theorem callee :
    ∃ value, Exec.peek argc machine = .ok value machine ∧ machine.heap.IsValue value := by
  obtain ⟨value, peeked, holds⟩ := typed.peek
  rw [List.length_replicate] at peeked
  exact ⟨value, peeked, holds⟩

theorem setCallee (isValue : machine.heap.IsValue value) :
    Typed ledger (layout ++ List.replicate (argc + 1) .plain) known (machine.setSlot layout.length value) := by
  have found : (layout ++ List.replicate (argc + 1) Slot.plain)[layout.length]? = some .plain := by
    rw [List.getElem?_append_right (Nat.le_refl _), Nat.sub_self]
    rfl
  exact typed.setSlot found isValue

end

theorem sharpen {above : List Slot} (typed : Typed ledger (layout ++ .plain :: above) known machine)
    (found : machine.stack[layout.length]? = some value) (isCaptured : Bool) :
    Typed ledger (layout ++ ⟨.receiver value, isCaptured⟩ :: above) known machine := by
  have other {index : Nat} (differs : index ≠ layout.length) (slot : Slot) :
      (layout ++ slot :: above)[index]? = (layout ++ .plain :: above)[index]? := by
    rcases Nat.lt_or_gt_of_ne differs with lower | higher
    · rw [List.getElem?_append_left lower, List.getElem?_append_left lower]
    · obtain ⟨distance, rfl⟩ := Nat.exists_eq_add_of_lt higher
      rw [List.getElem?_append_right (by omega), List.getElem?_append_right (by omega),
        show layout.length + distance + 1 - layout.length = distance + 1 by omega]
      rfl
  have own (slot : Slot) : (layout ++ slot :: above)[layout.length]? = some slot := by simp
  obtain ⟨entries, upvalues⟩ := typed.upvalues
  refine ⟨⟨typed.heap, typed.globals, typed.known, typed.natives, entries, ?_⟩, ?_, fun i slot held slot_at at_ => ?_⟩
  · refine upvalues.relayout fun ref index slot member slot_at anchors => ⟨slot, ?_, anchors⟩
    rw [other ?_, slot_at]
    rintro rfl
    cases (own _).symm.trans slot_at
    cases anchors.isCaptured
  · rw [typed.stack.size, List.length_append, List.length_append, List.length_cons, List.length_cons]
  · by_cases same : i = layout.length
    · cases same
      cases found.symm.trans at_
      cases (own _).symm.trans slot_at
      have isValue : Content.value.Holds ledger machine.heap value := typed.stack.holds _ _ value (own .plain) found
      exact ⟨rfl, isValue⟩
    · rw [other same] at slot_at
      exact typed.stack.holds i slot held slot_at at_

section

variable (typed : Typed ledger (layout ++ List.replicate (argc + 1) .plain) none machine)
include typed

theorem enter (found : machine.stack[layout.length]? = some value) (manner : Manner) (isCaptured : Bool) {arguments : List Bool}
    (count : arguments.length = argc) :
    Typed ledger (layout ++ (manner.entry value isCaptured arguments).slots) none machine := by
  have lowest : Typed ledger (layout ++ ⟨manner.lowest value, isCaptured⟩ :: List.replicate argc .plain) none machine := by
    cases manner with
    | function =>
      refine typed.within (List.rel_append (Shape.slots_within_refl layout) (.cons ⟨.refl _, nofun⟩ ?_)) (.inl rfl)
      exact Shape.slots_within_refl _
    | method | initializer => exact typed.sharpen found isCaptured
  refine lowest.within (List.rel_append (Shape.slots_within_refl layout) (.cons ⟨.refl _, id⟩ ?_)) (.inl rfl)
  exact count ▸ slots_within_arguments arguments

theorem callFunction {closure : Closure} (found : machine.heap.get? ref = some (.closure closure)) (span : Span) :
    (Exec.callFunction closure.function (some ref) argc span).Yields machine
      (fun fault after => fault.OfClosure ∧ Stranded machine.heap after) fun _ => Called ledger layout machine := by
  obtain ⟨tags, verified, tagged⟩ := typed.heap ref _ found
  obtain ⟨-, isCaptured, arguments, count, covered⟩ := (verified_iff _ _ _).mp verified
  obtain ⟨callee, -, -, callee_at⟩ := typed.peekAt
  obtain ⟨shapes, covering⟩ := covered callee
  refine .ite (fun _ => .failed rfl ⟨.inl ⟨_, _, rfl⟩, typed.stranded (.refl _)⟩) fun same => ?_
  refine .reading (.reading (.ite (fun _ => .failed rfl ⟨.inr rfl, typed.stranded (.refl _)⟩) fun _ => ?_))
  refine .afterwards typed.calleeSlot ?_
  have count : arguments.length = argc := by
    rw [count, Decidable.not_not.mp same]
  have ok : (⟨closure.function, some ref, 0, layout.length⟩ : Frame).Ok ledger machine.heap
      ⟨ledger.manner ref, layout.length, callee, tags⟩ shapes := by
    refine ⟨⟨_, covering⟩, fun i role tag => ?_, fun own same => ?_, rfl⟩
    · obtain ⟨inside, rfl⟩ := List.getElem?_eq_some_iff.mp tag
      have inside' : i < closure.upvalues.toList.length := tagged.length_eq ▸ inside
      refine ⟨ref, closure, closure.upvalues.toList[i], rfl, found, ?_, tagged.get inside' inside⟩
      rw [← Array.getElem?_toList, List.getElem?_eq_getElem inside']
    · cases same
      exact ⟨Heap.lt_size found, rfl⟩
  have typed := typed.enter callee_at (ledger.manner ref) isCaptured count
  refine .of_ok rfl (.frame (.refl _) rfl ⟨rfl, rfl, shapes, ok, ?_, fun isMethod => ?_⟩ (typed.congr rfl rfl rfl rfl rfl))
  · exact covering.entered 0 _ ⟨rfl, .refl _⟩
  · exact Manner.entry_hasReceiver isMethod _ _ _

theorem callClosure (isClosure : machine.heap.IsClosure value) (bound : Nat) (span : Span) :
    (callWithin span (bound + 1) value argc).Yields machine
      (fun fault after => fault.OfClosure ∧ Stranded machine.heap after) fun _ => Called ledger layout machine := by
  obtain ⟨ref, closure, rfl, found⟩ := isClosure
  exact .afterwards (fetch_eq found) (typed.callFunction found span)

theorem callClass {cls : Class}
    (found : machine.heap.get? ref = some (.class cls)) (bound : Nat) (span : Span) :
    (callWithin span (bound + 2) (.object ref) argc).Yields machine
      (fun fault after => fault.OfClosure ∧ Stranded machine.heap after) fun _ => Called ledger layout machine := by
  have methods := typed.heap ref _ found
  have evolves : machine.heap.Evolves (machine.heap.push (.instance ⟨ref, ∅⟩)) := .push _ _
  have isClass : machine.heap.IsClass (.object ref) := ⟨ref, cls, rfl, found⟩
  have typed : Typed ledger _ none (machine.addObject (.instance ⟨ref, ∅⟩)) :=
    typed.addObject nofun ⟨isClass.mono evolves, fun name value at_ => absurd at_ (by simp)⟩
  have isValue : (machine.heap.push (.instance ⟨ref, ∅⟩)).IsValue (.object machine.heap.size) :=
    Heap.isValue_of_get? (Heap.get?_push_self _ _) rfl
  refine .afterwards (fetch_eq found) (.afterwards (alloc_eq _) (.afterwards typed.calleeSlot (.afterwards rfl ?_)))
  have typed := typed.setCallee isValue
  have same : machine.heap.SameUpvalues (machine.heap.push (.instance ⟨ref, ∅⟩)) := .push nofun
  cases initializer : cls.methods["init"]? with
  | some value =>
    refine (typed.callClosure ((methods "init" value initializer).isClosure.mono evolves) bound span).mono ?_ ?_
    · exact fun fault after ⟨of, stranded⟩ => ⟨of, same.trans stranded.upvalues, stranded.rooted⟩
    · exact fun _ after called => called.of_evolves evolves rfl
  | none =>
    refine .ite (fun _ => .fail ⟨.inl ⟨_, _, rfl⟩, typed.stranded same⟩) fun none => .of_ok rfl (.value ⟨evolves, rfl, ?_⟩)
    rw [Decidable.not_not.mp none] at typed
    exact typed

omit typed in
theorem truncate {gone : List Slot} (typed : Typed ledger (layout ++ gone) known machine)
    (free : ∀ slot ∈ gone, slot.isCaptured = false) : Typed ledger layout known (machine.truncate layout.length) := by
  have size := typed.stack.size
  rw [List.length_append] at size
  refine typed.shorten free (by simp [size]) fun i inside => ?_
  exact getElem?_shrink_of_lt inside

theorem callNative (span : Span) :
    (Exec.callNative ⟨"clock", some 0, .listed 0⟩ argc span).Yields machine
      (fun fault after => fault.OfClosure ∧ Stranded machine.heap after) fun _ => Called ledger layout machine := by
  refine .ite (fun _ => .failed rfl ⟨.inl ⟨_, _, rfl⟩, typed.stranded (.refl _)⟩) fun none => ?_
  refine .afterwards typed.calleeSlot (.afterwards rfl ?_)
  rw [Decidable.not_not.mp none] at typed
  have typed := typed.truncate (by simp [Slot.plain])
  have ran (args : List Value) : reportNative "clock" (runNative (.listed 0) args) (machine.truncate layout.length) =
      .ok (.number machine.store.now) (machine.truncate layout.length) := by
    have body : Exec.read (·.natives[0]?) (machine.truncate layout.length) =
        .ok (some Machine.clock) (machine.truncate layout.length) :=
      congrArg (EStateM.Result.ok · _) typed.natives
    have called : runNative (.listed 0) args (machine.truncate layout.length) =
        .ok (.number machine.store.now) (machine.truncate layout.length) :=
      bind_eq body
    simp only [reportNative, called]
  have isValue : machine.heap.IsValue (.number machine.store.now) := nofun
  exact .afterwards (ran _) (.of_ok rfl (.value ⟨.refl _, rfl, typed.pushValue isValue⟩))

theorem callValue (isValue : machine.heap.IsValue value) (span : Span) :
    (Exec.callValue value argc span).Yields machine
      (fun fault after => fault.OfCall ∧ Stranded machine.heap after) fun _ => Called ledger layout machine := by
  refine .reading ?_
  cases value with
  | object ref =>
    obtain ⟨object, found, firstClass⟩ := isValue ref rfl
    obtain ⟨bound, size⟩ : ∃ bound, machine.heap.size = bound + 1 :=
      Nat.exists_eq_add_one.mpr (Nat.lt_of_le_of_lt (Nat.zero_le _) (Heap.lt_size found))
    rw [size]
    have fetched : fetch ref machine = .ok object machine := fetch_eq found
    cases object with
    | function proto => cases firstClass
    | closure closure =>
      refine (typed.callClosure ⟨ref, closure, rfl, found⟩ _ span).mono ?_ fun _ _ => id
      exact fun _ _ fails => ⟨.inl fails.1, fails.2⟩
    | «class» cls =>
      refine (typed.callClass found bound span).mono ?_ fun _ _ => id
      exact fun _ _ fails => ⟨.inl fails.1, fails.2⟩
    | native native =>
      have same : native = ⟨"clock", some 0, .listed 0⟩ := typed.heap ref _ found
      refine .afterwards fetched ((same ▸ typed.callNative span).mono ?_ fun _ _ => id)
      exact fun _ _ fails => ⟨.inl fails.1, fails.2⟩
    | bound method =>
      obtain ⟨isReceiver, name, made⟩ := typed.heap ref _ found
      refine .afterwards fetched (.afterwards typed.calleeSlot (.afterwards rfl ?_))
      refine ((typed.setCallee isReceiver).callClosure made.isClosure bound span).mono ?_ ?_
      · exact fun _ _ fails => ⟨.inl fails.1, fails.2⟩
      · exact fun _ _ called => called.of_evolves (.refl _) rfl
    | _ => exact .afterwards fetched (.fail ⟨.inr rfl, typed.stranded (.refl _)⟩)
  | _ => exact .fail ⟨.inr rfl, typed.stranded (.refl _)⟩

theorem invokeFromClass {op : Opcode}
    {cls : Ref} {name : String} (isClass : machine.heap.IsClass (.object cls))
    (raises : ∀ fault, fault.OfClosure ∨ fault = .undefinedProperty name → op.MayRaise fault) (span : Span) :
    (Exec.invokeFromClass cls name argc span).Yields machine (Fails op machine) fun _ => Called ledger layout machine := by
  obtain ⟨_, methods, same, found⟩ := isClass
  cases same
  have looked : look (·.heap.fetchClass cls) machine = .ok methods machine := look_eq (Heap.fetchClass_eq found)
  refine .afterwards looked ?_
  cases method : methods.methods[name]? with
  | none => exact .fail ⟨raises _ (.inr rfl), typed.stranded (.refl _)⟩
  | some value =>
    refine .reading ((typed.callClosure (typed.heap cls _ found name value method).isClosure _ span).mono ?_ fun _ _ => id)
    exact fun fault _ fails => ⟨raises fault (.inl fails.1), fails.2⟩

theorem invoke (name : String) (span : Span) :
    (Exec.invoke name argc span).Yields machine (Fails .invoke machine) fun _ => Called ledger layout machine := by
  obtain ⟨value, peeked, isValue⟩ := typed.callee
  refine .afterwards peeked ?_
  cases value with
  | object ref =>
    obtain ⟨object, found, -⟩ := isValue ref rfl
    have fetched : fetch ref machine = .ok object machine := fetch_eq found
    refine .afterwards fetched ?_
    cases object with
    | «instance» inst =>
      obtain ⟨isClass, fields⟩ := typed.heap ref _ found
      cases field : inst.fields[name]? with
      | none =>
        simp only [field]
        refine typed.invokeFromClass isClass ?_ span
        rintro fault ((⟨_, _, rfl⟩ | rfl) | rfl) <;> trivial
      | some value =>
        simp only [field]
        refine .afterwards typed.calleeSlot (.afterwards rfl ?_)
        refine ((typed.setCallee (fields name value field)).callValue (fields name value field) span).mono ?_ ?_
        · rintro fault after ⟨(⟨_, _, rfl⟩ | rfl) | rfl, same⟩ <;> exact ⟨trivial, same⟩
        · exact fun _ _ called => called.of_evolves (.refl _) rfl
    | host handle => exact (typed.heap ref _ found).elim
    | _ => exact .fail ⟨trivial, typed.stranded (.refl _)⟩
  | _ => exact .fail ⟨trivial, typed.stranded (.refl _)⟩

end

end Typed

namespace Performs

open Exec

theorem call {argc : UInt8} (operand : frame.function.chunk.code[here + 1]? = some argc)
    (settled : Shape.Settled ⟨kept, none⟩)
    (typed : Typed ledger (below ++ (kept ++ List.replicate (argc.toNat + 1) .plain)) none machine)
    (goes : reach (here + 2) ⟨kept ++ [.plain], none⟩) : Performs ledger rest frame below reach machine here .call := by
  intro span
  have typed : Typed ledger _ none (machine.inFrame rest frame (here + 2)) := typed.split.inFrame _
  obtain ⟨value, peeked, isValue⟩ := typed.callee
  refine .afterwards (readByte_inFrame operand) (.afterwards peeked ((typed.callValue isValue span).mono ?_ ?_))
  · rintro fault after ⟨(⟨_, _, rfl⟩ | rfl) | rfl, same⟩ <;> exact ⟨trivial, same⟩
  · exact fun _ _ called => called.continues settled goes

theorem invoke {name : String} {argc : UInt8} (named : frame.function.chunk.NameAt (here + 1) name) (count : frame.function.chunk.code[here + 3]? = some argc)
    (settled : Shape.Settled ⟨kept, none⟩)
    (typed : Typed ledger (below ++ (kept ++ List.replicate (argc.toNat + 1) .plain)) none machine)
    (goes : reach (here + 4) ⟨kept ++ [.plain], none⟩) : Performs ledger rest frame below reach machine here .invoke := by
  intro span
  have typed : Typed ledger _ none (machine.inFrame rest frame (here + 4)) := typed.split.inFrame _
  refine .afterwards (readString_inFrame named) (.afterwards (readByte_inFrame count) ((typed.invoke name span).mono ?_ ?_))
  · exact fun _ _ => id
  · exact fun _ _ called => called.continues settled goes

theorem superInvoke {name : String} {argc : UInt8}
    (named : frame.function.chunk.NameAt (here + 1) name) (count : frame.function.chunk.code[here + 3]? = some argc)
    (settled : Shape.Settled ⟨kept, none⟩)
    (typed : Typed ledger (below ++ (kept ++ List.replicate (argc.toNat + 1) .plain ++ [⟨.parent, false⟩])) none machine)
    (goes : reach (here + 4) ⟨kept ++ [.plain], none⟩) : Performs ledger rest frame below reach machine here .superInvoke := by
  intro span
  have typed : Typed ledger _ none (machine.inFrame rest frame (here + 4)) := typed.split.inFrame _
  obtain ⟨ref, popped, isClass, lower⟩ := typed.popClass span
  refine .afterwards (readString_inFrame named) (.afterwards (readByte_inFrame count) (.afterwards popped ?_))
  refine (lower.split.invokeFromClass isClass ?_ span).mono (fun _ _ => id) ?_
  · rintro fault ((⟨_, _, rfl⟩ | rfl) | rfl) <;> trivial
  · intro _ after called
    have called : Called ledger (below ++ kept) (machine.inFrame rest frame (here + 4)) after :=
      called.of_evolves (.refl _) rfl
    exact called.continues settled goes

end Performs

end StackScript
