import StackScript.Proofs.MachineTyping

/-!
Captured variables of typed machines. Capturing a slot gives an upvalue of the same variable, closing moves values from
the stack into upvalues, and reading or writing through an upvalue never leaves the stack.
-/

namespace StackScript

variable {State : Type} {ledger : Ledger} {layout : List Slot} {known : Option String} {machine after : Machine State}
variable {ref : Ref} {slot : Slot} {previous : Option Ref}

/-- Only the heap has changed, and the list of open upvalues. -/
structure Keeps (ledger : Ledger) (machine : Machine State) (ledger' : Ledger) (after : Machine State) : Prop where
  same : Exec.SameBut machine after
  grows : Grows ledger machine.heap ledger' after.heap

namespace Keeps

variable {ledger' ledger'' : Ledger} {third : Machine State}

theorem refl (ledger : Ledger) (machine : Machine State) : Keeps ledger machine ledger machine :=
  ⟨rfl, .refl _ _⟩

section

variable (keeps : Keeps ledger machine ledger' after)
include keeps

theorem stack : after.stack = machine.stack := by
  rw [keeps.same]

theorem frames : after.frames = machine.frames := by
  rw [keeps.same]

theorem globals : after.globals = machine.globals := by
  rw [keeps.same]

theorem natives : after.natives = machine.natives := by
  rw [keeps.same]

end

end Keeps

theorem Slot.Anchors.value {heap : Heap} {value : Value} (anchors : slot.Anchors ledger ref)
    (holds : slot.content.Holds ledger heap value) :
    heap.IsValue value ∧ (ledger.role ref = .superclass → heap.IsClass value) := by
  obtain ⟨content, isCaptured⟩ := slot
  obtain ⟨copied, copies⟩ := Option.isSome_iff_exists.mp anchors.copies
  refine ⟨?_, fun isSuper => ?_⟩
  · cases content with
    | value => exact holds
    | superclass | parent | «class» => exact Heap.IsClass.isValue holds
    | closure => exact Heap.IsClosure.isValue (Ledger.IsMade.isClosure holds)
    | receiver | self => exact holds.2
    | function => cases copies
  · rw [← anchors.role] at isSuper
    cases Content.eq_superclass isSuper
    exact holds

namespace Exec

theorem Inserts.becomes {slot : Nat} (inserts : Inserts slot previous machine after) : machine.heap.Evolves after.heap := by
  intro ref object found
  rcases inserts.old ref object found with same | ⟨-, location, next, rfl, relinked⟩
  · exact ⟨object, same, .refl object⟩
  · exact ⟨_, relinked, .upvalue _ _ fun _ => id⟩

theorem Inserts.cases {slot : Nat} (inserts : Inserts slot previous machine after) {object : Object}
    (found : after.heap.get? ref = some object) : (ref = machine.heap.size ∧ ∃ next, object = .upvalue ⟨.open slot, next⟩) ∨
      ref < machine.heap.size ∧ (machine.heap.get? ref = some object ∨
        ∃ location next next', machine.heap.get? ref = some (.upvalue ⟨location, next⟩) ∧
          object = .upvalue ⟨location, next'⟩) := by
  have inside : ref < machine.heap.size + 1 := inserts.size ▸ Heap.lt_size found
  rcases Nat.lt_succ_iff_lt_or_eq.mp inside with old | rfl
  · refine .inr ⟨old, ?_⟩
    have present : machine.heap.get? ref = some machine.heap.objects[ref] := Array.getElem?_eq_getElem old
    rcases inserts.old ref _ present with same | ⟨-, location, next, isUpvalue, relinked⟩
    · cases found.symm.trans same
      exact .inl present
    · cases found.symm.trans relinked
      exact .inr ⟨location, next, _, isUpvalue ▸ present, rfl⟩
  · obtain ⟨next, new⟩ := inserts.new
    cases found.symm.trans new
    exact .inl ⟨rfl, next, rfl⟩

end Exec

def Ledger.withRole (ledger : Ledger) (ref : Ref) (role : Role) : Ledger :=
  { ledger with role := fun other => if other = ref then role else ledger.role other }

theorem Ledger.withRole_of_lt {other : Ref} (inside : other < ref) (role : Role) :
    (ledger.withRole ref role).role other = ledger.role other :=
  if_neg (Nat.ne_of_lt inside)

theorem Ledger.withRole_self (ref : Ref) (role : Role) : (ledger.withRole ref role).role ref = role :=
  if_pos rfl

namespace Rooted

theorem inserted (rooted : Rooted ledger layout known machine) {index : Nat} {above below : List (Ref × Nat)}
    (upvalues : OpenOk ledger layout machine.heap machine.openUpvalues (above ++ below)) (found : layout[index]? = some slot)
    (captured : slot.isCaptured = true) (copies : slot.content.copy?.isSome = true) (high : ∀ entry ∈ above, index < entry.2)
    (low : ∀ entry ∈ below, entry.2 < index) (inserts : Exec.Inserts index previous machine after)
    (chain : OpenChain after.heap after.openUpvalues (above ++ (machine.heap.size, index) :: below)) :
    Keeps ledger machine (ledger.withRole machine.heap.size slot.role) after ∧
      Rooted (ledger.withRole machine.heap.size slot.role) layout known after := by
  have keeps : Keeps ledger machine (ledger.withRole machine.heap.size slot.role) after :=
    ⟨inserts.same, inserts.becomes, fun ref inside => Ledger.withRole_of_lt inside _, fun _ _ => rfl⟩
  refine ⟨keeps, rooted.evolve ?_ inserts.becomes keeps.globals keeps.natives ⟨_, chain, ?_, ?_, ?_⟩⟩
  · intro ref object at_
    -- The new upvalue is open, and of the others at most a link has changed.
    rcases inserts.cases at_ with ⟨rfl, next, rfl⟩ | ⟨inside, same | ⟨location, next, next', before, rfl⟩⟩
    · exact nofun
    · exact keeps.grows.objectOk inside (rooted.heap ref object same)
    · have ok : ObjectOk ledger machine.heap ref (.upvalue ⟨location, next⟩) := rooted.heap ref _ before
      have ok : ObjectOk ledger machine.heap ref (.upvalue ⟨location, next'⟩) := ok
      exact keeps.grows.objectOk inside ok
  · have descending := List.pairwise_append.mp upvalues.descending
    refine List.pairwise_append.mpr ⟨descending.1, List.pairwise_cons.mpr ⟨low, descending.2.1⟩, ?_⟩
    intro upper upper_mem lower lower_mem
    rcases List.mem_cons.mp lower_mem with rfl | further
    · exact high upper upper_mem
    · exact descending.2.2 upper upper_mem lower further
  · intro ref index' member
    by_cases old : (ref, index') ∈ above ++ below
    · obtain ⟨slot', slot_at, anchors⟩ := upvalues.anchored ref index' old
      obtain ⟨_, before⟩ := upvalues.chain.found old
      refine ⟨slot', slot_at, anchors.isCaptured, ?_, anchors.copies⟩
      rw [Ledger.withRole_of_lt (Heap.lt_size before), anchors.role]
    · have new : (ref, index') = (machine.heap.size, index) := by
        rcases List.mem_append.mp member with up | down
        · exact absurd (List.mem_append_left _ up) old
        · rcases List.mem_cons.mp down with same | down
          · exact same
          · exact absurd (List.mem_append_right _ down) old
      cases new
      exact ⟨slot, found, captured, (Ledger.withRole_self _ _).symm, copies⟩
  · intro ref index' next at_
    have kept {entry : Ref × Nat} (member : entry ∈ above ++ below) :
        entry ∈ above ++ (machine.heap.size, index) :: below :=
      (List.mem_append.mp member).elim (List.mem_append_left _) fun down =>
        List.mem_append_right _ (List.mem_cons_of_mem _ down)
    rcases inserts.cases at_ with ⟨rfl, next, same⟩ | ⟨inside, before | ⟨location, next, next', before, same⟩⟩
    · cases same
      exact List.mem_append_right _ List.mem_cons_self
    · exact kept (upvalues.complete ref index' _ before)
    · cases same
      exact kept (upvalues.complete ref index' _ before)

theorem capture (rooted : Rooted ledger layout known machine) {index : Nat} (found : layout[index]? = some slot)
    (captured : slot.isCaptured = true) (copies : slot.content.copy?.isSome = true) :
    ∃ ref ledger' after, Exec.capture index machine = .ok ref after ∧ Keeps ledger machine ledger' after ∧
      Rooted ledger' layout known after ∧ ledger'.Tags after.heap ref slot.role := by
  obtain ⟨entries, upvalues⟩ := rooted.upvalues
  rcases Exec.capture_cases upvalues.chain upvalues.descending index with
    ⟨ref, member, done⟩ | ⟨above, below, after, rfl, high, low, done, inserts, chain⟩
  · obtain ⟨slot', slot_at, anchors⟩ := upvalues.anchored ref index member
    obtain ⟨next, at_⟩ := upvalues.chain.found member
    cases found.symm.trans slot_at
    exact ⟨ref, ledger, machine, done, .refl _ _, rooted, ⟨_, at_⟩, anchors.role.symm⟩
  · obtain ⟨keeps, rooted⟩ := rooted.inserted upvalues found captured copies high low inserts chain
    obtain ⟨next, new⟩ := inserts.new
    exact ⟨_, _, after, done, keeps, rooted, ⟨_, new⟩, Ledger.withRole_self _ _⟩

end Rooted

namespace Typed

theorem close (typed : Typed ledger layout known machine) (last : Nat) :
    ∃ after, Exec.closeUpvalues last machine = .ok () after ∧ Keeps ledger machine ledger after ∧
      Rooted ledger (layout.take last) known after := by
  obtain ⟨entries, upvalues⟩ := typed.upvalues
  have inside : ∀ entry ∈ entries, entry.2 < machine.stack.size := fun entry member =>
    typed.stack.size ▸ upvalues.inside member
  obtain ⟨after, done, closes⟩ := Exec.closeUpvalues_closes upvalues.chain upvalues.descending inside last
  have held {ref index : Nat} (member : (ref, index) ∈ entries) (high : last ≤ index) :
      ∃ value, machine.heap.IsValue value ∧ (ledger.role ref = .superclass → machine.heap.IsClass value) ∧
        after.heap.get? ref = some (.upvalue ⟨.closed value, none⟩) := by
    obtain ⟨value, at_, closed⟩ := closes.closed ref index member high
    obtain ⟨slot, slot_at, anchors⟩ := upvalues.anchored ref index member
    obtain ⟨isValue, isClass⟩ := anchors.value (typed.stack.holds index slot value slot_at at_)
    exact ⟨value, isValue, isClass, closed⟩
  have evolves : machine.heap.Evolves after.heap := by
    intro ref object found
    by_cases listed : ∃ index, (ref, index) ∈ entries ∧ last ≤ index
    · obtain ⟨index, member, high⟩ := listed
      obtain ⟨value, -, -, closed⟩ := held member high
      obtain ⟨next, opened⟩ := upvalues.chain.found member
      cases found.symm.trans opened
      exact ⟨_, closed, .upvalue _ _ nofun⟩
    · have kept := closes.kept ref fun index member => Nat.lt_of_not_le fun high => listed ⟨index, member, high⟩
      exact ⟨object, kept.trans found, .refl object⟩
  have keeps : Keeps ledger machine ledger after := ⟨closes.same, .of_evolves evolves⟩
  -- What is on the heap now was closed just now, or it was there before.
  have cases {ref : Ref} {object : Object} (found : after.heap.get? ref = some object) :
      (∃ value, machine.heap.IsValue value ∧ (ledger.role ref = .superclass → machine.heap.IsClass value) ∧
        object = .upvalue ⟨.closed value, none⟩) ∨
      (∀ index, (ref, index) ∈ entries → index < last) ∧ machine.heap.get? ref = some object := by
    by_cases listed : ∃ index, (ref, index) ∈ entries ∧ last ≤ index
    · obtain ⟨index, member, high⟩ := listed
      obtain ⟨value, isValue, isClass, closed⟩ := held member high
      exact .inl ⟨value, isValue, isClass, Option.some.inj (found.symm.trans closed)⟩
    · have low : ∀ index, (ref, index) ∈ entries → index < last := fun index member =>
        Nat.lt_of_not_le fun high => listed ⟨index, member, high⟩
      exact .inr ⟨low, (closes.kept ref low).symm.trans found⟩
  refine ⟨after, done, keeps, typed.toRooted.evolve ?_ evolves keeps.globals keeps.natives ⟨_, closes.chain, ?_, ?_, ?_⟩⟩
  · intro ref object found
    rcases cases found with ⟨value, isValue, isClass, rfl⟩ | ⟨-, before⟩
    · intro value' same
      cases same
      exact ⟨isValue.mono evolves, fun isSuper => (isClass isSuper).mono evolves⟩
    · exact keeps.grows.objectOk (Heap.lt_size before) (typed.heap ref object before)
  · exact upvalues.descending.filter _
  · intro ref index member
    obtain ⟨member, low⟩ := List.mem_filter.mp member
    obtain ⟨slot, slot_at, anchors⟩ := upvalues.anchored ref index member
    exact ⟨slot, by rw [List.getElem?_take_of_lt (by simpa using low), slot_at], anchors⟩
  · intro ref index next found
    rcases cases found with ⟨value, -, -, same⟩ | ⟨low, before⟩
    · cases same
    · have member := upvalues.complete ref index next before
      exact List.mem_filter.mpr ⟨member, by simpa using low index member⟩

theorem readUpvalue (typed : Typed ledger layout known machine) {role : Role} (tags : ledger.Tags machine.heap ref role) :
    ∃ value, Exec.readUpvalue ref machine = .ok value machine ∧ role.copy.Holds ledger machine.heap value := by
  obtain ⟨⟨⟨location, next⟩, found⟩, tag⟩ := tags
  have looked : Exec.look (·.heap.fetchUpvalue ref) machine = .ok ⟨location, next⟩ machine :=
    Exec.look_eq (Heap.fetchUpvalue_eq found)
  have fits {value : Value} (ok : machine.heap.IsValue value ∧ (ledger.role ref = .superclass → machine.heap.IsClass value)) :
      role.copy.Holds ledger machine.heap value := by
    cases role with
    | superclass => exact ok.2 tag
    | ordinary | receiver => exact ok.1
  cases location with
  | closed value => exact ⟨value, Exec.bind_eq looked, fits (typed.heap ref _ found value rfl)⟩
  | «open» index =>
    obtain ⟨entries, upvalues⟩ := typed.upvalues
    obtain ⟨slot, slot_at, anchors⟩ := upvalues.anchored ref index (upvalues.complete ref index next found)
    obtain ⟨value, at_, holds⟩ := typed.stack.value_at slot_at
    have valued : Exec.read (·.stack[index]?) machine = .ok (some value) machine := congrArg (EStateM.Result.ok · machine) at_
    exact ⟨value, (Exec.bind_eq looked).trans (Exec.bind_eq valued), fits (anchors.value holds)⟩

theorem writeUpvalue (typed : Typed ledger layout known machine) (tags : ledger.Tags machine.heap ref .ordinary)
    (settled : ∀ slot ∈ layout, slot.content = .value ∨ slot.role ≠ .ordinary ∨
      slot.isCaptured = false ∧ ∃ proto, slot.content = .function proto) {value : Value} (isValue : machine.heap.IsValue value) :
    ∃ after, Exec.writeUpvalue ref value machine = .ok () after ∧ machine.heap.Evolves after.heap ∧
      after.frames = machine.frames ∧ Typed ledger layout known after := by
  obtain ⟨⟨⟨location, next⟩, found⟩, tag⟩ := tags
  have looked : Exec.look (·.heap.fetchUpvalue ref) machine = .ok ⟨location, next⟩ machine :=
    Exec.look_eq (Heap.fetchUpvalue_eq found)
  cases location with
  | closed old =>
    have evolves : machine.heap.Evolves (machine.heap.set ref (.upvalue ⟨.closed value, next⟩)) := .set found (.upvalue _ _ nofun)
    refine ⟨_, Exec.bind_eq looked, evolves, rfl, typed.setObject found (.upvalue _ _ nofun) nofun nofun ?_⟩
    intro value' same
    cases same
    refine ⟨isValue.mono evolves, fun isSuper => ?_⟩
    rw [tag] at isSuper
    cases isSuper
  | «open» index =>
    obtain ⟨entries, upvalues⟩ := typed.upvalues
    obtain ⟨⟨content, isCaptured⟩, slot_at, anchors⟩ :=
      upvalues.anchored ref index (upvalues.complete ref index next found)
    have inside : index < machine.stack.size := typed.stack.size ▸ (List.getElem?_eq_some_iff.mp slot_at).1
    have sized : Exec.read (·.stack.size) machine = .ok machine.stack.size machine := rfl
    refine ⟨machine.setSlot index value, ?_, .refl _, rfl, typed.setSlot slot_at ?_⟩
    · refine (Exec.bind_eq looked).trans ((Exec.bind_eq sized).trans ?_)
      simp only [inside, if_true]
      rfl
    · rcases settled _ (List.mem_of_getElem? slot_at) with rfl | other | ⟨free, -⟩
      · exact isValue
      · exact absurd (anchors.role.trans tag) other
      · rw [anchors.isCaptured] at free
        cases free

end Typed

end StackScript
