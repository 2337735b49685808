import StackScript.Proofs.ClosureTyping

/-!
The instructions on classes and instances. Properties of other values fail, and so does a superclass that is no class;
the class that a method goes into, the class that inherits, and the class that `super` stands for are always found.
-/

namespace StackScript

variable {State : Type} {ledger : Ledger} {rest : Array Frame} {frame : Frame} {below kept layout : List Slot}
  {known : Option String} {reach : Points} {machine : Machine State} {here : Nat}
variable {name : String} {value : Value}

theorem Typed.retype {slot : Slot} {content : Content} (typed : Typed ledger (layout ++ [slot]) known machine)
    (free : slot.isCaptured = false) (top : machine.stack.back? = some value) (holds : content.Holds ledger machine.heap value)
    (isCaptured : Bool) : Typed ledger (layout ++ [⟨content, isCaptured⟩]) known machine := by
  obtain ⟨lower, same⟩ := Array.back?_eq_some_iff.mp top
  have same : machine.stack.pop.push value = machine.stack := by
    rw [same, Array.pop_push]
  exact ((typed.popped free).push holds isCaptured).congr same.symm rfl rfl rfl rfl

namespace Exec

theorem classOf_eq {ref : Ref} {cls : Class} (found : machine.heap.get? ref = some (.class cls)) (otherwise : TypeFault)
    (span : Span) : classOf (.object ref) otherwise span machine = .ok (ref, cls) machine := by
  have fetched : fetch ref machine = .ok (.class cls) machine := fetch_eq found
  exact bind_eq fetched

theorem classOf_cases (isValue : machine.heap.IsValue value) (otherwise : TypeFault) (span : Span) :
    (∃ ref cls, value = .object ref ∧ machine.heap.get? ref = some (.class cls)) ∨
      classOf value otherwise span machine = .error ⟨.type otherwise, span⟩ machine := by
  cases value with
  | object ref =>
    obtain ⟨object, found, -⟩ := isValue ref rfl
    have fetched : fetch ref machine = .ok object machine := fetch_eq found
    cases object with
    | «class» cls => exact .inl ⟨ref, cls, rfl, found⟩
    | _ => exact .inr (bind_eq fetched)
  | _ => exact .inr rfl

theorem inheritMethods_getElem? (superclass own : Table) (name : String) :
    (inheritMethods superclass own)[name]? = superclass[name]?.or own[name]? := by
  have inserted (entries : List (String × Value)) (listed : ∀ entry ∈ entries, superclass[entry.1]? = some entry.2) (own : Table) :
      (entries.foldl (fun methods entry => methods.insert entry.1 entry.2) own)[name]? =
        if name ∈ entries.map Prod.fst then superclass[name]? else own[name]? := by
    induction entries generalizing own with
    | nil => rfl
    | cons entry entries ih =>
      rw [List.foldl_cons, ih (fun entry member => listed entry (List.mem_cons_of_mem _ member)), Std.TreeMap.getElem?_insert]
      by_cases same : entry.1 = name
      · subst same
        simp [listed entry List.mem_cons_self]
      · simp only [List.map_cons, List.mem_cons, Ne.symm same, false_or, Std.compare_eq_iff_eq, same, if_false]
  unfold inheritMethods
  rw [Std.TreeMap.foldl_eq_foldl_toList, inserted _ fun entry member => Std.TreeMap.mem_toList_iff_getElem?_eq_some.mp member]
  cases found : superclass[name]? with
  | none =>
    rw [if_neg]
    · rfl
    · intro listed
      obtain ⟨⟨_, value⟩, member, same⟩ := List.mem_map.mp listed
      cases same
      cases found.symm.trans (Std.TreeMap.mem_toList_iff_getElem?_eq_some.mp member)
  | some value =>
    rw [if_pos (List.mem_map.mpr ⟨(name, value), Std.TreeMap.mem_toList_iff_getElem?_eq_some.mpr found, rfl⟩)]
    rfl

theorem inheritMethods_cases {superclass own : Table} (found : (inheritMethods superclass own)[name]? = some value) :
    superclass[name]? = some value ∨ own[name]? = some value := by
  rw [inheritMethods_getElem?, Option.or_eq_some_iff] at found
  exact found.imp_right And.right

end Exec

namespace Typed

open Exec

theorem bindMethod {op : Opcode} (typed : Typed ledger (layout ++ [.plain]) known machine) {cls : Ref}
    (isClass : machine.heap.IsClass (.object cls)) (raises : op.MayRaise (.undefinedProperty name)) (span : Span) :
    (Exec.bindMethod cls name span).Yields machine (Fails op machine) fun _ =>
      Reaches ledger (layout ++ [.plain]) known machine := by
  obtain ⟨_, methods, same, found⟩ := isClass
  cases same
  have looked : look (·.heap.fetchClass cls) machine = .ok methods machine := look_eq (Heap.fetchClass_eq found)
  refine .afterwards looked ?_
  cases method_at : methods.methods[name]? with
  | none => exact .fail ⟨raises, typed.stranded (.refl _)⟩
  | some value =>
    obtain ⟨method, closure, rfl, made⟩ := typed.heap cls _ found name value method_at
    obtain ⟨receiver, peeked, isValue⟩ := typed.peek
    have evolves : machine.heap.Evolves (machine.heap.push (.bound ⟨receiver, method⟩)) := .push _ _
    have bound : Typed ledger (layout ++ [.plain]) known (machine.addObject (.bound ⟨receiver, method⟩)) :=
      typed.addObject nofun ⟨Heap.IsValue.mono isValue evolves, name, (Grows.of_evolves evolves).isMade ⟨method, closure, rfl, made⟩⟩
    obtain ⟨_, popped, -, bound⟩ := bound.pop rfl
    have isValue : (machine.heap.push (.bound ⟨receiver, method⟩)).IsValue (.object machine.heap.size) :=
      Heap.isValue_of_get? (Heap.get?_push_self _ _) rfl
    refine .afterwards peeked (.afterwards (alloc_eq _) (.afterwards popped (.of_ok rfl ?_)))
    exact ⟨evolves, rfl, bound.pushValue isValue⟩

theorem getProperty (typed : Typed ledger (layout ++ [.plain]) known machine) (name : String) (span : Span) :
    (Exec.getProperty name span).Yields machine (Fails .getProperty machine) fun _ =>
      Reaches ledger (layout ++ [.plain]) known machine := by
  obtain ⟨value, peeked, isValue⟩ := typed.peek
  refine .afterwards peeked ?_
  cases value with
  | object ref =>
    obtain ⟨object, found, -⟩ := isValue ref rfl
    have fetched : fetch ref machine = .ok object machine := fetch_eq found
    refine .afterwards fetched ?_
    cases object with
    | «instance» inst =>
      have ok := typed.heap ref _ found
      cases field : inst.fields[name]? with
      | none =>
        have raises : Opcode.getProperty.MayRaise (.undefinedProperty name) := trivial
        simp only [field]
        exact typed.bindMethod ok.1 raises span
      | some value =>
        simp only [field]
        obtain ⟨_, popped, -, lower⟩ := typed.pop rfl
        refine .afterwards popped (.of_ok rfl ⟨.refl _, rfl, lower.pushValue (ok.2 name value field)⟩)
    | host handle => exact (typed.heap ref _ found).elim
    | _ => exact .fail ⟨trivial, typed.stranded (.refl _)⟩
  | _ => exact .fail ⟨trivial, typed.stranded (.refl _)⟩

theorem setProperty (typed : Typed ledger (layout ++ [.plain, .plain]) known machine) (name : String) (span : Span) :
    (Exec.setProperty name span).Yields machine (Fails .setProperty machine) fun _ =>
      Reaches ledger (layout ++ [.plain]) known machine := by
  obtain ⟨value, peeked, isValue⟩ := typed.peekTop
  obtain ⟨receiver, peeked', isReceiver⟩ := typed.peek
  refine .afterwards peeked (.afterwards peeked' ?_)
  cases receiver with
  | object ref =>
    obtain ⟨object, found, -⟩ := isReceiver ref rfl
    have fetched : fetch ref machine = .ok object machine := fetch_eq found
    refine .afterwards fetched ?_
    cases object with
    | «instance» inst =>
      have becomes : Object.Becomes (.instance inst) (.instance { inst with fields := inst.fields.insert name value }) :=
        .instance _ _ rfl
      have evolves := Heap.Evolves.set found becomes
      have ok := typed.heap ref _ found
      have written := typed.setObject found becomes nofun nofun ⟨ok.1.mono evolves, fun other held at_ => by
        rw [Std.TreeMap.getElem?_insert] at at_
        split at at_
        · cases at_
          exact Heap.IsValue.mono isValue evolves
        · exact (ok.2 other held at_).mono evolves⟩
      obtain ⟨_, _, first, second, lower⟩ := written.popTwo rfl rfl
      refine .afterwards rfl (.afterwards first (.afterwards second (.of_ok rfl ⟨evolves, rfl, ?_⟩)))
      exact lower.pushValue (Heap.IsValue.mono isValue evolves)
    | host handle => exact (typed.heap ref _ found).elim
    | _ => exact .failed rfl ⟨trivial, typed.stranded (.refl _)⟩
  | _ => exact .failed rfl ⟨trivial, typed.stranded (.refl _)⟩

theorem setMethods (typed : Typed ledger layout known machine) {ref : Ref} {cls : Class} (methods : Table)
    (found : machine.heap.get? ref = some (.class cls))
    (closures : ∀ (name : String) value, methods[name]? = some value → ledger.IsMade machine.heap (.ofMethod name) value) :
    machine.heap.Evolves (machine.setObject ref (.class { cls with methods })).heap ∧
      Typed ledger layout known (machine.setObject ref (.class { cls with methods })) := by
  have becomes : Object.Becomes (.class cls) (.class { cls with methods }) := .class _ _
  have evolves := Heap.Evolves.set found becomes
  exact ⟨evolves, typed.setObject found becomes nofun nofun fun name value at_ =>
    (Grows.of_evolves evolves).isMade (closures name value at_)⟩

theorem inherit (typed : Typed ledger (layout ++ [.plain, ⟨.class, false⟩]) known machine) (isCaptured : Bool) (span : Span) :
    (Exec.inherit span).Yields machine (Fails .inherit machine) fun _ =>
      Reaches ledger (layout ++ [⟨.superclass, isCaptured⟩]) known machine := by
  obtain ⟨parent, peeked, isValue, parent_at⟩ := typed.peekAt
  obtain ⟨own, peeked', ref, cls, rfl, found⟩ := typed.peekTop
  refine .afterwards peeked ?_
  rcases classOf_cases isValue .superclassNotClass span with ⟨parentRef, parentClass, rfl, parent_found⟩ | failed
  · obtain ⟨evolves, written⟩ := typed.setMethods _ found fun name value at_ => by
      rcases inheritMethods_cases at_ with inherited | own
      · exact typed.heap parentRef _ parent_found name value inherited
      · exact typed.heap ref _ found name value own
    obtain ⟨_, popped, -, lower⟩ := written.apart.pop rfl
    have isClass : machine.heap.IsClass (.object parentRef) := ⟨_, _, rfl, parent_found⟩
    have top : machine.stack.pop.back? = some (.object parentRef) := by
      have size := typed.stack.size
      rw [List.length_append, List.length_cons, List.length_singleton] at size
      rw [Array.back?_eq_getElem?, Array.size_pop, size, Array.getElem?_pop, if_pos (by omega)]
      exact parent_at
    refine .afterwards (classOf_eq parent_found _ _) (.afterwards peeked' (.afterwards (classOf_eq found _ _) ?_))
    refine .afterwards rfl (.afterwards popped (.of_ok rfl ⟨evolves, rfl, lower.retype rfl top ?_ isCaptured⟩))
    exact isClass.mono evolves
  · exact .failed failed ⟨trivial, typed.stranded (.refl _)⟩

theorem defineMethod (typed : Typed ledger (layout ++ [⟨.class, false⟩, ⟨.closure (.ofMethod name), false⟩]) known machine)
    (span : Span) : (Exec.defineMethod name span).Yields machine (Fails .method machine) fun _ =>
      Reaches ledger (layout ++ [⟨.class, false⟩]) known machine := by
  obtain ⟨method, peeked, isMade⟩ := typed.peekTop
  obtain ⟨own, peeked', ref, cls, rfl, found⟩ := typed.peek
  obtain ⟨evolves, written⟩ := typed.setMethods (cls.methods.insert name method) found fun other value at_ => by
    rw [Std.TreeMap.getElem?_insert] at at_
    split at at_
    · next same =>
      cases at_
      rw [← Std.LawfulEqCmp.compare_eq_iff_eq.mp same]
      exact isMade
    · exact typed.heap ref _ found other value at_
  obtain ⟨_, popped, -, lower⟩ := written.apart.pop rfl
  refine .afterwards peeked (.afterwards peeked' (.afterwards (classOf_eq found _ _) ?_))
  exact .afterwards rfl (.afterwards popped (.of_ok rfl ⟨evolves, rfl, lower⟩))

theorem popClass (typed : Typed ledger (layout ++ [⟨.parent, false⟩]) known machine) (span : Span) :
    ∃ ref, Exec.popClass span machine = .ok ref { machine with stack := machine.stack.pop } ∧
      machine.heap.IsClass (.object ref) ∧ Typed ledger layout known { machine with stack := machine.stack.pop } := by
  obtain ⟨value, popped, ⟨ref, cls, rfl, found⟩, lower⟩ := typed.pop rfl
  have taken : classOf (.object ref) .superclassNotClass span { machine with stack := machine.stack.pop } =
      .ok (ref, cls) { machine with stack := machine.stack.pop } := by
    refine classOf_eq ?_ _ _
    exact found
  exact ⟨ref, (bind_eq popped).trans (bind_eq taken), ⟨ref, cls, rfl, found⟩, lower⟩

end Typed

namespace Performs

open Exec

section

variable (named : frame.function.chunk.NameAt (here + 1) name)
include named

theorem getProperty (typed : Typed ledger (below ++ (kept ++ [.plain])) known machine)
    (goes : reach (here + 3) ⟨kept ++ [.plain], known⟩) : Performs ledger rest frame below reach machine here .getProperty := by
  intro span
  refine .afterwards (readString_inFrame named) (((typed.split.inFrame _).getProperty name span).mono ?_ ?_)
  · exact fun _ _ => id
  · exact fun _ _ reaches => reaches.continues goes

theorem setProperty
    (typed : Typed ledger (below ++ (kept ++ [.plain, .plain])) known machine) (goes : reach (here + 3) ⟨kept ++ [.plain], known⟩) :
    Performs ledger rest frame below reach machine here .setProperty := by
  intro span
  refine .afterwards (readString_inFrame named) (((typed.split.inFrame _).setProperty name span).mono ?_ ?_)
  · exact fun _ _ => id
  · exact fun _ _ reaches => reaches.continues goes

omit named in
theorem inherit {isCaptured : Bool} (typed : Typed ledger (below ++ (kept ++ [.plain, ⟨.class, false⟩])) known machine)
    (goes : reach (here + 1) ⟨kept ++ [⟨.superclass, isCaptured⟩], known⟩) :
    Performs ledger rest frame below reach machine here .inherit := by
  intro span
  refine ((typed.split.inFrame _).inherit isCaptured span).mono (fun _ _ => id) ?_
  exact fun _ _ reaches => reaches.continues goes

theorem method (typed : Typed ledger (below ++ (kept ++ [⟨.class, false⟩, ⟨.closure (.ofMethod name), false⟩])) known machine)
    (goes : reach (here + 3) ⟨kept ++ [⟨.class, false⟩], known⟩) :
    Performs ledger rest frame below reach machine here .method := by
  intro span
  refine .afterwards (readString_inFrame named) (((typed.split.inFrame _).defineMethod span).mono ?_ ?_)
  · exact fun _ _ => id
  · exact fun _ _ reaches => reaches.continues goes

theorem getSuper (typed : Typed ledger (below ++ (kept ++ [.plain, ⟨.parent, false⟩])) known machine)
    (goes : reach (here + 3) ⟨kept ++ [.plain], known⟩) : Performs ledger rest frame below reach machine here .getSuper := by
  intro span
  have typed : Typed ledger _ known (machine.inFrame rest frame (here + 3)) := typed.split.inFrame _
  obtain ⟨ref, popped, isClass, lower⟩ := typed.apart.popClass span
  have raises : Opcode.getSuper.MayRaise (.undefinedProperty name) := trivial
  refine .afterwards (readString_inFrame named) (.afterwards popped ((lower.bindMethod isClass raises span).mono ?_ ?_))
  · exact fun _ _ => id
  · exact fun _ _ reaches => Reaches.continues ⟨reaches.evolves, reaches.frames, reaches.typed⟩ goes

end

end Performs

end StackScript
