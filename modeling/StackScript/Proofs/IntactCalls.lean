import StackScript.Proofs.HostMembers
import StackScript.Proofs.IntactActions

/-!
Calls and properties on a machine that is in order. A call ends with one value in the place of the callee and the arguments,
or it starts a frame there; below that place nothing changes.
-/

namespace StackScript

variable {State α : Type} {frozen : Frozen}

namespace Exec

variable {machine : Machine State} {action : OnStore State α} {store : Store State} {args : List Value}

theorem onStore_ok {value : α} (done : action machine.store = .ok value store) :
    onStore action machine = .ok value { machine with store } := by
  simp only [onStore, done]

theorem onStore_error {error : RuntimeError}
    (failed : action machine.store = .error error store) : onStore action machine = .error error { machine with store } := by
  simp only [onStore, failed]

theorem onStore_upholds (sane : machine.Sane frozen) {post : α → Heap → Prop}
    (gains : action.Gains machine.store post) :
    (onStore action).Upholds frozen machine fun value after => machine.Beside after ∧ post value after.heap := by
  unfold OnStore.Gains at gains
  cases done : action machine.store with
  | ok value store =>
    simp only [done] at gains
    obtain ⟨evolves, heap⟩ := gains.1.sane sane.heap
    have leads : machine.Leads frozen { machine with store } :=
      sane.reheap evolves heap rfl rfl rfl rfl (gains.1.keeps sane.classes)
    exact .done (onStore_ok done) leads ⟨⟨rfl, rfl⟩, gains.2⟩
  | error error store =>
    simp only [done] at gains
    have gained : machine.heap.Gains store.heap := .inl gains.1
    obtain ⟨evolves, heap⟩ := gained.sane sane.heap
    have leads : machine.Leads frozen { machine with store } :=
      sane.reheap evolves heap rfl rfl rfl rfl (gained.keeps sane.classes)
    exact .failed (onStore_error done) leads

theorem body_upholds (sane : machine.Sane frozen) {body : NativeBody State} (member : body ∈ machine.natives)
    (has : ∀ arg ∈ args, machine.heap.Has arg) :
    (onStore (body args)).Upholds frozen machine fun value after => machine.Beside after ∧ after.heap.Has value := by
  have proper := sane.natives body member args machine.store sane.heap has
  cases done : body args machine.store with
  | ok value store =>
    simp only [done] at proper
    have leads : machine.Leads frozen { machine with store } :=
      sane.reheap proper.1.evolves proper.2.1 rfl rfl rfl rfl (sane.classes.extend proper.1)
    exact .done (onStore_ok done) leads ⟨⟨rfl, rfl⟩, proper.2.2⟩
  | error error store =>
    simp only [done] at proper
    have leads : machine.Leads frozen { machine with store } :=
      sane.reheap proper.1.evolves proper.2 rfl rfl rfl rfl (sane.classes.extend proper.1)
    exact .failed (onStore_error done) leads

theorem runNative_upholds (sane : machine.Sane frozen) (code : NativeCode)
    (has : ∀ arg ∈ args, machine.heap.Has arg) :
    (runNative code args).Upholds frozen machine fun value after => machine.Beside after ∧ after.heap.Has value := by
  cases code with
  | listed index =>
    refine .reading fun found listed => ?_
    cases found with
    | none => exact .done rfl (.refl sane) ⟨.refl machine, nofun⟩
    | some body => exact body_upholds sane (Array.mem_of_getElem? listed) has
  | hostMethod receiver name =>
    exact .look sane fun member _ => onStore_upholds sane (member.call_gains receiver args _)

theorem reportNative_upholds {name : String} {action : Exec State Value} {post : Value → Machine State → Prop}
    (upholds : action.Upholds frozen machine post) : (reportNative name action).Upholds frozen machine post := by
  unfold Upholds Yields at upholds
  cases done : action machine with
  | ok value after =>
    simp only [done] at upholds
    exact .done (by simp only [reportNative, done]) upholds.1 upholds.2
  | error error after =>
    simp only [done] at upholds
    have reported : reportNative name action machine = .error error
        (after.report ⟨.debug, "native call failed", [("error", error.text), ("native", name)]⟩) := by
      simp only [reportNative, done]
    refine .failed reported (upholds.trans ?_)
    unfold Machine.report
    split
    · exact upholds.sane.restack rfl rfl rfl rfl upholds.sane.stack
    · exact .refl upholds.sane

end Exec

/-- What a call has done: its value lies in the place of the callee and the arguments, or a frame starts there. -/
inductive Calls (before : Machine State) (below : List Value) (after : Machine State) : Prop where
  | returned {result : Value} (frames : after.frames = before.frames) (stacked : after.Stacks (below ++ [result]))
  | entered {function : Proto} {closure : Option Ref} {own : List Value} (vetted : Vetted function)
      (count : own.length = function.arity + 1) (room : before.frames.size < before.config.maxFrames)
      (frames : after.frames = before.frames.push ⟨function, closure, 0, below.length⟩) (stacked : after.Stacks (below ++ own))

theorem Calls.of_leads {machine between after : Machine State} {below : List Value} (calls : Calls between below after)
    (leads : machine.Leads frozen between) (frames : between.frames = machine.frames) : Calls machine below after := by
  cases calls with
  | returned same stacked => exact .returned (same.trans frames) stacked
  | entered vetted count room same stacked =>
    rw [frames] at same
    rw [frames, leads.config] at room
    exact .entered vetted count room same stacked

namespace Exec

variable {machine : Machine State} {below args : List Value} {callee : Value}

section

variable (sane : machine.Sane frozen) (stacked : machine.Stacks (below ++ callee :: args))
include sane stacked

theorem callFunction_upholds {function : Proto}
    (vetted : Vetted function) (closure : Option Ref) (span : Span) :
    (callFunction function closure args.length span).Upholds frozen machine fun _ => Calls machine below := by
  unfold callFunction
  by_cases count : args.length = function.arity
  · simp only [ne_eq, count, not_true_eq_false, if_false]
    refine .reading fun size sized => .reading fun most limit => ?_
    split
    · exact .after_error rfl (.refl sane)
    · next room =>
      subst sized limit
      rw [← count]
      refine .looking (slotBelow_stacks stacked) (.done rfl (sane.restack rfl rfl rfl rfl sane.stack) ?_)
      exact .entered vetted (by simp [count]) (Nat.lt_of_not_le room) rfl stacked
  · simp only [ne_eq, count, not_false_eq_true, if_true]
    exact .after_error rfl (.refl sane)

theorem callNative_upholds (native : Native)
    (span : Span) : (callNative native args.length span).Upholds frozen machine fun _ => Calls machine below := by
  have called : (do
      let args ← takeAbove (← slotBelow args.length)
      push (← reportNative native.name (runNative native.code args))).Upholds frozen machine fun _ => Calls machine below := by
    have cut : machine.Leads frozen { machine with stack := below.toArray } := sane.cut stacked
    refine .looking (slotBelow_stacks stacked) (.after_ok (takeAbove_stacks stacked) cut ?_)
    refine .bind (reportNative_upholds (runNative_upholds cut.sane native.code fun arg member => ?_)) fun value after leads ran => ?_
    · exact sane.stack_has stacked (List.mem_append_right _ (List.mem_cons_of_mem _ member))
    · have stacked : after.Stacks below := ran.1.stack
      exact .done rfl (leads.sane.push ran.2) (.returned ran.1.frames (stacked.push value))
  unfold callNative
  cases native.arity with
  | none => exact called
  | some arity =>
    by_cases count : args.length = arity
    · simp only [count, ne_eq, not_true_eq_false, if_false] at called ⊢
      exact called
    · simp only [ne_eq, count, not_false_eq_true, if_true]
      exact .after_error rfl (.refl sane)

theorem callWithin_upholds (span : Span)
    (bound : Nat) (value : Value) : (callWithin span bound value args.length).Upholds frozen machine fun _ => Calls machine below := by
  induction bound generalizing machine callee value with
  | zero => exact .fail sane
  | succ bound ih =>
    cases value with
    | number | bool | nil => exact .fail sane
    | object ref =>
      refine .fetch sane fun object found => ?_
      cases object with
      | string | upvalue | «instance» | host => exact .fail sane
      | function proto => exact callFunction_upholds sane stacked (sane.heap ref _ found).2 none span
      | closure closure => exact callFunction_upholds sane stacked (sane.heap ref _ found).2 (some ref) span
      | native native => exact callNative_upholds sane stacked native span
      | bound method =>
        -- the receiver takes the place of the callee, and the method is called
        have placed := sane.setSlot below.length (sane.heap ref _ found).1.1
        refine .looking (slotBelow_stacks stacked) (.after_ok rfl placed ?_)
        exact (ih placed.sane (stacked.setSlot method.receiver) _).mono fun _ _ _ calls => calls.of_leads placed rfl
      | «class» cls =>
        -- a new instance takes the place of the callee, and the initializer is called, if there is one
        have isClass : machine.heap.IsClass (.object ref) := ⟨ref, cls, rfl, found⟩
        have added : machine.Leads frozen (machine.addObject (.instance ⟨ref, ∅⟩)) :=
          sane.addObject ⟨isClass, by simp⟩ trivial
        have stacked' : (machine.addObject (.instance ⟨ref, ∅⟩)).Stacks (below ++ callee :: args) := stacked
        have has : (machine.addObject (.instance ⟨ref, ∅⟩)).heap.Has (.object machine.heap.size) :=
          Heap.has_object (Heap.get?_push_self _ _)
        have placed := added.sane.setSlot below.length has
        have leads := added.trans placed
        refine .after_ok (alloc_eq _) added (.looking (slotBelow_stacks stacked') (.after_ok rfl placed ?_))
        cases cls.methods["init"]? with
        | some initializer =>
          exact (ih placed.sane (stacked'.setSlot _) initializer).mono fun _ _ _ calls => calls.of_leads leads rfl
        | none =>
          dsimp only
          split
          · exact .fail placed.sane
          · next none =>
            rw [ne_eq, Decidable.not_not, List.length_eq_zero_iff] at none
            subst none
            exact .done rfl (.refl placed.sane) (.returned rfl (stacked'.setSlot _))

theorem callValue_upholds (value : Value)
    (span : Span) : (callValue value args.length span).Upholds frozen machine fun _ => Calls machine below :=
  .reading fun _ _ => callWithin_upholds sane stacked span _ value

theorem invokeFromClass_upholds (cls : Ref)
    (name : String) (span : Span) :
    (invokeFromClass cls name args.length span).Upholds frozen machine fun _ => Calls machine below := by
  refine .look sane fun found _ => ?_
  cases found.methods[name]? with
  | none => exact .fail sane
  | some method => exact callValue_upholds sane stacked method span

theorem invokeHost_upholds (object : Host.Handle)
    (name : String) (span : Span) : (invokeHost object name args.length span).Upholds frozen machine fun _ => Calls machine below := by
  refine .look sane fun member _ => .reading fun size sized => ?_
  have count : size = below.length + (args.length + 1) := by
    rw [← sized, stacked.size, List.length_append, List.length_cons]
  have slot : size - 1 - args.length = below.length := by omega
  rw [if_neg (by omega), slot]
  split
  · have cut : machine.Leads frozen { machine with stack := below.toArray } := sane.cut stacked
    refine .after_ok (takeAbove_stacks stacked) cut ?_
    refine .bind (onStore_upholds cut.sane (member.call_gains object args _)) fun value after leads ran => ?_
    have stacked : after.Stacks below := ran.1.stack
    exact .done rfl (leads.sane.push ran.2) (.returned ran.1.frames (stacked.push value))
  · refine .bind (onStore_upholds sane (member.read_gains object name _)) fun value after leads ran => ?_
    have stacked : after.Stacks (below ++ callee :: args) := ran.1.stack.trans stacked
    have placed := leads.sane.setSlot below.length ran.2
    refine .after_ok rfl placed ((callValue_upholds placed.sane (stacked.setSlot value) value span).mono fun _ _ _ calls => ?_)
    exact calls.of_leads placed rfl |>.of_leads leads ran.1.frames

theorem invoke_upholds (name : String) (span : Span) :
    (invoke name args.length span).Upholds frozen machine fun _ => Calls machine below := by
  refine .looking (peek_stacks stacked) ?_
  cases callee with
  | number | bool | nil => exact .fail sane
  | object ref =>
    refine .fetch sane fun object found => ?_
    cases object with
    | host object => exact invokeHost_upholds sane stacked object name span
    | «instance» inst =>
      cases field : inst.fields[name]? with
      | none =>
        simp only [field]
        exact invokeFromClass_upholds sane stacked inst.ofClass name span
      | some value =>
        simp only [field]
        have placed := sane.setSlot below.length ((sane.heap ref _ found).1.2 name value field)
        refine .looking (slotBelow_stacks stacked) (.after_ok rfl placed ?_)
        exact (callValue_upholds placed.sane (stacked.setSlot value) value span).mono fun _ _ _ calls => calls.of_leads placed rfl
    | _ => exact .fail sane

end

/-- The frames are the same, and the values lie on the stack. -/
def Lays (before : Machine State) (values : List Value) (after : Machine State) : Prop :=
  after.frames = before.frames ∧ after.Stacks values

variable {receiver value : Value}

section

variable (sane : machine.Sane frozen)
include sane

theorem replace_upholds (stacked : machine.Stacks (below ++ [value])) {result : Value}
    (has : machine.heap.Has result) :
    (do let _ ← pop; push result : Exec State Unit).Upholds frozen machine fun _ => Lays machine (below ++ [result]) := by
  have cut := sane.cut stacked
  exact .after_ok (pop_stacks stacked) cut (.done rfl (cut.sane.push has) ⟨rfl, Machine.Stacks.push rfl result⟩)

section

variable (stacked : machine.Stacks (below ++ [receiver, value]))
include stacked

theorem replaceTwo_upholds {result : Value}
    (has : machine.heap.Has result) :
    (do let _ ← pop; let _ ← pop; push result : Exec State Unit).Upholds frozen machine fun _ => Lays machine (below ++ [result]) := by
  have top : machine.Stacks ((below ++ [receiver]) ++ [value]) := by simpa using stacked
  have cut := sane.cut top
  exact .after_ok (pop_stacks top) cut (@replace_upholds _ _ _ below receiver cut.sane rfl result has)

omit stacked in
theorem bindMethod_upholds (stacked : machine.Stacks (below ++ [receiver])) (cls : Ref) (name : String)
    (span : Span) : (bindMethod cls name span).Upholds frozen machine fun _ after => ∃ result, Lays machine (below ++ [result]) after := by
  refine .look sane fun found fetched => ?_
  cases entry : found.methods[name]? with
  | none => exact .fail sane
  | some method =>
    have isClosure := (sane.heap cls _ (Heap.get?_of_fetchClass fetched)).1 name method entry
    cases method with
    | number | bool | nil => exact .fail sane
    | object ref =>
      have has := sane.stack_has stacked (List.mem_append_right _ (List.mem_singleton.mpr rfl))
      have added : machine.Leads frozen (machine.addObject (.bound ⟨receiver, ref⟩)) := sane.addObject ⟨has, isClosure⟩ trivial
      have stacked' : (machine.addObject (.bound ⟨receiver, ref⟩)).Stacks (below ++ [receiver]) := stacked
      refine .looking (peek_stacks stacked) (.after_ok (alloc_eq _) added ?_)
      refine (replace_upholds added.sane stacked' (Heap.has_object (Heap.get?_push_self _ _))).mono fun _ _ _ lays => ?_
      exact ⟨_, lays⟩

omit stacked in
theorem getProperty_upholds (stacked : machine.Stacks (below ++ [receiver])) (name : String) (span : Span) :
    (getProperty name span).Upholds frozen machine fun _ after => ∃ result, Lays machine (below ++ [result]) after := by
  refine .looking (peek_stacks stacked) ?_
  cases receiver with
  | number | bool | nil => exact .fail sane
  | object ref =>
    refine .fetch sane fun object found => ?_
    cases object with
    | host object =>
      refine .bind (.look sane fun member _ => onStore_upholds sane (member.read_gains object name _)) ?_
      intro value after leads ran
      have stacked : after.Stacks (below ++ [.object ref]) := ran.1.stack.trans stacked
      exact (replace_upholds leads.sane stacked ran.2).mono fun _ _ _ lays => ⟨value, lays.1.trans ran.1.frames, lays.2⟩
    | «instance» inst =>
      cases field : inst.fields[name]? with
      | none =>
        simp only [field]
        exact bindMethod_upholds sane stacked inst.ofClass name span
      | some value =>
        simp only [field]
        have has := (sane.heap ref _ found).1.2 name value field
        exact (replace_upholds sane stacked has).mono fun _ _ _ lays => ⟨value, lays⟩
    | _ => exact .fail sane

theorem setProperty_upholds (name : String)
    (span : Span) : (setProperty name span).Upholds frozen machine fun _ => Lays machine (below ++ [value]) := by
  have top : machine.Stacks ((below ++ [receiver]) ++ [value]) := by simpa using stacked
  have has := sane.stack_has stacked (List.mem_append_right _ (List.mem_cons_of_mem _ (List.mem_singleton.mpr rfl)))
  have assigned {after : Machine State} (leads : machine.Leads frozen after) (beside : machine.Beside after) :
      (do let _ ← pop; let _ ← pop; push value : Exec State Unit).Upholds frozen after fun _ => Lays machine (below ++ [value]) := by
    have stacked : after.Stacks (below ++ [receiver, value]) := beside.stack.trans stacked
    exact (replaceTwo_upholds leads.sane stacked (has.mono leads.evolves)).mono fun _ _ _ lays => ⟨lays.1.trans beside.frames, lays.2⟩
  refine .looking (peek_stacks top) (.looking (peek_stacks stacked) ?_)
  cases receiver with
  | number | bool | nil => exact .after_error rfl (.refl sane)
  | object ref =>
    refine .fetch sane fun object found => ?_
    cases object with
    | host object =>
      refine .bind (.look sane fun member _ => onStore_upholds sane (member.write_gains object name value _)) ?_
      exact fun _ after leads ran => assigned leads ran.1
    | «instance» inst =>
      have written : machine.Leads frozen (machine.setObject ref
          (.instance { inst with fields := inst.fields.insert name value })) := by
        have free := sane.classes.free found fun _ other => by cases other
        refine sane.setObject found (.instance _ _ rfl) ⟨(sane.heap ref _ found).1.1, fun other held at_ => ?_⟩ free
        rw [Std.TreeMap.getElem?_insert] at at_
        split at at_
        · cases at_
          exact has
        · exact (sane.heap ref _ found).1.2 other held at_
      exact .after_ok rfl written (assigned written ⟨rfl, rfl⟩)
    | _ => exact .after_error rfl (.refl sane)

omit stacked in
theorem Upholds.classOf {next : Ref × Class → Exec State α} {post : α → Machine State → Prop}
    {otherwise : TypeFault} {span : Span}
    (rest : ∀ ref cls, value = .object ref → machine.heap.get? ref = some (.class cls) →
      (next (ref, cls)).Upholds frozen machine post) :
    (classOf value otherwise span >>= next).Upholds frozen machine post := by
  cases value with
  | number | bool | nil => exact .after_error rfl (.refl sane)
  | object ref =>
    cases found : machine.heap.get? ref with
    | none => exact .after_error (bind_error (fetch_none found)) (.refl sane)
    | some object =>
      have fetched := fetch_eq found
      cases object with
      | «class» cls => exact .looking (bind_eq fetched) (rest ref cls rfl found)
      | _ => exact .after_error (bind_eq fetched) (.refl sane)

theorem inherit_upholds (free : ∀ ref, value = .object ref → frozen.classes ref = none) (span : Span) :
    (inherit span).Upholds frozen machine fun _ after => Lays machine (below ++ [receiver]) after ∧
      ∃ parent superclass own cls, receiver = .object parent ∧ machine.heap.get? parent = some (.class superclass) ∧
        value = .object own ∧ machine.heap.get? own = some (.class cls) ∧ after.heap =
          machine.heap.set own (.class { cls with methods := inheritMethods superclass.methods cls.methods }) := by
  have top : machine.Stacks ((below ++ [receiver]) ++ [value]) := by simpa using stacked
  refine .looking (peek_stacks stacked) (.classOf sane fun ref superclass isParent found => ?_)
  refine .looking (peek_stacks top) (.classOf sane fun own cls same found' => ?_)
  have written : machine.Leads frozen
      (machine.setObject own (.class { cls with methods := inheritMethods superclass.methods cls.methods })) := by
    refine sane.setObject found' (.class _ _) (fun name method entry => ?_) (free own same)
    rcases inheritMethods_cases entry with inherited | old
    · exact (sane.heap ref _ found).1 name method inherited
    · exact (sane.heap own _ found').1 name method old
  refine .after_ok rfl written (.after_ok (pop_stacks top) (written.sane.cut top) ?_)
  exact .done rfl (.refl (written.sane.cut top).sane)
    ⟨⟨rfl, rfl⟩, ref, superclass, own, cls, isParent, found, same, found', rfl⟩

theorem defineMethod_upholds
    (isClosure : machine.heap.IsClosure value) (free : ∀ ref, receiver = .object ref → frozen.classes ref = none)
    (name : String) (span : Span) :
    (defineMethod name span).Upholds frozen machine fun _ after => Lays machine (below ++ [receiver]) after ∧
      ∃ own cls, receiver = .object own ∧ machine.heap.get? own = some (.class cls) ∧
        after.heap = machine.heap.set own (.class { cls with methods := cls.methods.insert name value }) := by
  have top : machine.Stacks ((below ++ [receiver]) ++ [value]) := by simpa using stacked
  refine .looking (peek_stacks top) (.looking (peek_stacks stacked) (.classOf sane fun ref cls same found => ?_))
  have written : machine.Leads frozen (machine.setObject ref (.class { cls with methods := cls.methods.insert name value })) := by
    refine sane.setObject found (.class _ _) (fun other method entry => ?_) (free ref same)
    rw [Std.TreeMap.getElem?_insert] at entry
    split at entry
    · cases entry
      exact isClosure
    · exact (sane.heap ref _ found).1 other method entry
  refine .after_ok rfl written (.after_ok (pop_stacks top) (written.sane.cut top) ?_)
  exact .done rfl (.refl (written.sane.cut top).sane) ⟨⟨rfl, rfl⟩, ref, cls, same, found, rfl⟩

end

theorem popClass_upholds (stacked : machine.Stacks (below ++ [value])) (span : Span) :
    (popClass span).Upholds frozen machine fun _ => Lays machine below := by
  have cut := sane.cut stacked
  refine .after_ok (pop_stacks stacked) cut (.classOf cut.sane fun ref cls _ found => ?_)
  exact .done rfl (.refl cut.sane) ⟨rfl, rfl⟩

end

end Exec

end StackScript
