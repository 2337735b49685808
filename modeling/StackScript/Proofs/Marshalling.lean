import StackScript.Host.Member
import Mathlib.Logic.Basic

/-!
Values that pass between scripts and the embedding program. Which value of the one side stands for which of the other is said
once, by `Stands`. A conversion to a declared type succeeds exactly where some value of that type is stood for, and the way back
makes a value that stands for the given one. So nothing is lost in either direction.
-/

namespace StackScript.Host

variable {State : Type} {heap : Heap} {value : Value} {given : HostValue} {kind : HostType} {store : Store State}

/-- The value of a script stands for the value of the embedding program. -/
inductive Stands (heap : Heap) : Value → HostValue → Prop where
  | number (x : Float) : Stands heap (.number x) (.number x)
  | bool (b : Bool) : Stands heap (.bool b) (.bool b)
  | missing : Stands heap .nil (.text none)
  | text {ref : Ref} {text : String} (held : heap.get? ref = some (.string text)) : Stands heap (.object ref) (.text (some text))
  | object {ref : Ref} {handle : Handle} (held : heap.get? ref = some (.host handle)) : Stands heap (.object ref) (.object handle)

theorem convert?_ok : convert? heap value kind = .ok (some given) ↔ Stands heap value given ∧ given.isOf kind = true := by
  constructor
  · intro converted
    cases kind <;> cases value
    case number.number | bool.bool | text.nil =>
      cases converted
      constructor <;> constructor
    case text.object ref =>
      obtain ⟨text, found, rfl⟩ := Option.map_eq_some_iff.mp (Except.ok.inj converted)
      unfold Heap.text? at found
      dsimp only at found
      split at found <;> cases found
      next held => exact ⟨.text held, rfl⟩
    case object.object tag ref =>
      simp only [convert?, Heap.fetch] at converted
      cases held : heap.get? ref with
      | none =>
        rw [held] at converted
        cases converted
      | some object =>
        rw [held] at converted
        cases object with
        | host handle =>
          obtain ⟨isOf, same⟩ := Option.ite_none_right_eq_some.mp (Except.ok.inj converted)
          cases same
          exact ⟨.object held, isOf⟩
        | _ => cases converted
    all_goals cases converted
  · rintro ⟨stands, isOf⟩
    cases stands <;> cases kind
    case text.text held => simp [convert?, Heap.text?, held]
    case object.object held tag =>
      have isOf : Handle.isOf _ tag = true := isOf
      simp [convert?, Heap.fetch, held, isOf, bind, Except.bind, pure, Except.pure]
    all_goals first | rfl | cases isOf

theorem fromValue_ok : fromValue heap value kind = .ok given ↔ Stands heap value given ∧ given.isOf kind = true := by
  rw [← convert?_ok]
  unfold fromValue
  cases converted : convert? heap value kind with
  | error error => exact ⟨nofun, nofun⟩
  | ok result =>
    cases result with
    | none => exact ⟨nofun, nofun⟩
    | some result => exact ⟨fun same => congrArg (Except.ok ∘ some) (Except.ok.inj same), fun same => congrArg _ (Option.some.inj (Except.ok.inj same))⟩

theorem checkResult_ok {checked : HostValue} : checkResult given kind = .ok checked ↔ checked = given ∧ given.isOf kind = true := by
  unfold checkResult
  split
  · next isOf => exact ⟨fun same => ⟨(Except.ok.inj same).symm, isOf⟩, fun same => same.1 ▸ rfl⟩
  · next other => exact ⟨nofun, fun same => absurd same.2 other⟩

/-- The copy is the value itself, or a new reference to the object that the value refers to. -/
structure Copied (before after : Heap) (value copy : Value) : Prop where
  plain : (∀ ref, value ≠ .object ref) → copy = value ∧ after = before
  fresh : ∀ ref, value = .object ref →
    copy = .object before.size ∧ ∃ object, before.get? ref = some object ∧ after = before.push object

theorem get?_push_size (heap : Heap) (object : Object) : (heap.push object).get? heap.size = some object := by
  simp [Heap.get?, Heap.push, Heap.size]

theorem toValue_grows (given : HostValue) (store : Store State) : ∃ value after, toValue given store = .ok value after ∧
    after.cells = store.cells ∧ after.now = store.now ∧
      (after.heap = store.heap ∨ ∃ object, after.heap = store.heap.push object) := by
  rcases given with _ | x | b | ⟨_ | text⟩ | handle
  case text.some => exact ⟨.object store.heap.size, _, rfl, rfl, rfl, .inr ⟨.string text, rfl⟩⟩
  case object => exact ⟨.object store.heap.size, _, rfl, rfl, rfl, .inr ⟨.host handle, rfl⟩⟩
  all_goals exact ⟨_, store, rfl, rfl, rfl, .inl rfl⟩

theorem toValue_stands (isOf : given.isOf kind = true) (store : Store State) :
    ∃ value after, toValue given store = .ok value after ∧ Stands after.heap value given := by
  rcases given with _ | x | b | ⟨_ | text⟩ | handle
  · cases kind <;> cases isOf
  · exact ⟨_, store, rfl, .number x⟩
  · exact ⟨_, store, rfl, .bool b⟩
  · exact ⟨_, store, rfl, .missing⟩
  · exact ⟨.object store.heap.size, _, rfl, .text (get?_push_size store.heap _)⟩
  · exact ⟨.object store.heap.size, _, rfl, .object (get?_push_size store.heap _)⟩

theorem toValue_copies (stands : Stands store.heap value given) :
    ∃ copy after, toValue given store = .ok copy after ∧ Copied store.heap after.heap value copy := by
  have same {value : Value} (plain : ∀ ref, value ≠ .object ref) : Copied store.heap store.heap value value :=
    ⟨fun _ => ⟨rfl, rfl⟩, fun ref refers => absurd refers (plain ref)⟩
  have fresh {ref : Ref} {object : Object} (held : store.heap.get? ref = some object) :
      Copied store.heap (store.heap.push object) (.object ref) (.object store.heap.size) := by
    refine ⟨fun plain => absurd rfl (plain ref), fun other refers => ?_⟩
    cases refers
    exact ⟨rfl, object, held, rfl⟩
  cases stands with
  | number x => exact ⟨_, store, rfl, same (by simp)⟩
  | bool b => exact ⟨_, store, rfl, same (by simp)⟩
  | missing => exact ⟨_, store, rfl, same (by simp)⟩
  | text held => exact ⟨_, _, rfl, fresh held⟩
  | object held => exact ⟨_, _, rfl, fresh held⟩

section Members

variable {member : Member State} {object : Handle} {name : String} {state : State} {after : Store State}

theorem stateOf_write (found : member.stateOf object store = .ok state after) (other : State) :
    after = store ∧ member.stateOf object (store.write object other) = .ok other (store.write object other) := by
  unfold Member.stateOf at found ⊢
  cases borrowed : store.borrow object with
  | error error =>
    rw [borrowed] at found
    cases found
  | ok state =>
    have replaced : (store.write object other).borrow object = .ok other := by
      unfold Store.borrow at borrowed ⊢
      split at borrowed
      · next here =>
        unfold Store.write
        rw [Array.getElem?_modify, here, if_pos rfl]
        rfl
      · cases borrowed
    rw [borrowed] at found
    rw [replaced]
    cases owner : member.owner with
    | none =>
      rw [owner] at found
      cases found
      exact ⟨rfl, rfl⟩
    | some owner' =>
      rw [owner] at found
      dsimp only at found ⊢
      split at found
      · next isOf =>
        cases found
        exact ⟨rfl, if_pos isOf⟩
      · cases found

theorem write_ok {get : Option (State → HostValue)} {set : State → HostValue → State} (data : member.shape = .data kind get (some set))
    (written : member.write object name value store = .ok () after) : ∃ given state, fromValue store.heap value kind = .ok given ∧
      member.stateOf object store = .ok state store ∧ after = store.write object (set state given) := by
  unfold Member.write at written
  rw [data] at written
  simp only [bind, EStateM.bind, Store.look] at written
  cases converted : fromValue store.heap value kind with
  | error error =>
    rw [converted] at written
    cases written
  | ok given =>
    rw [converted] at written
    dsimp only at written
    cases found : member.stateOf object store with
    | error error between =>
      rw [found] at written
      cases written
    | ok state between =>
      rw [found] at written
      cases written
      obtain ⟨rfl, -⟩ := stateOf_write found state
      exact ⟨given, state, rfl, rfl, rfl⟩

theorem read_of_write {get : State → HostValue} {set : State → HostValue → State}
    (data : member.shape = .data kind (some get) (some set))
    (returns : ∀ state given, given.isOf kind = true → get (set state given) = given)
    (written : member.write object name value store = .ok () after) :
    ∃ copy final, member.read object name after = .ok copy final ∧ Copied store.heap final.heap value copy := by
  obtain ⟨given, state, converted, found, rfl⟩ := write_ok data written
  obtain ⟨stands, isOf⟩ := fromValue_ok.mp converted
  have again := (stateOf_write found (set state given)).2
  have checked : checkResult (get (set state given)) kind = .ok given :=
    checkResult_ok.mpr ⟨(returns state given isOf).symm, (returns state given isOf).symm ▸ isOf⟩
  have stands : Stands (store.write object (set state given)).heap value given := stands
  obtain ⟨copy, final, made, copied⟩ := toValue_copies stands
  refine ⟨copy, final, ?_, copied⟩
  unfold Member.read
  rw [data]
  simp only [bind, EStateM.bind, again, Store.look, checked]
  exact made

end Members

end StackScript.Host

namespace StackScript

open Host

/-- Values pass between scripts and the embedding program without loss. A value that is of a declared type comes back from a
script as it was. A value of a script that passes as a declared type is of that type on the other side, and comes back as itself,
or as a new reference to the same text or host object. Nothing passes as no type, and making a value in a script adds at most one
object to its heap. What is written into a data member is read from it, if the member gives back what it is given. -/
theorem marshalling_round_trips {State : Type} :
    (∀ (store : Store State) (given checked : HostValue) (kind : HostType), checkResult given kind = .ok checked →
      ∃ value after, toValue given store = .ok value after ∧ fromValue after.heap value kind = .ok given) ∧
    (∀ (store : Store State) (value : Value) (kind : HostType) (given : HostValue), fromValue store.heap value kind = .ok given →
      checkResult given kind = .ok given ∧
        ∃ copy after, toValue given store = .ok copy after ∧ Copied store.heap after.heap value copy) ∧
    (∀ given, ¬ (checkResult given .void).isOk) ∧ (∀ heap value, ¬ (fromValue heap value .void).isOk) ∧
    (∀ (store : Store State) (given : HostValue), ∃ value after, toValue given store = .ok value after ∧
      after.cells = store.cells ∧ after.now = store.now ∧
        (after.heap = store.heap ∨ ∃ object, after.heap = store.heap.push object)) ∧
    ∀ (member : Member State) (kind : HostType) (get : State → HostValue) (set : State → HostValue → State),
      member.shape = .data kind (some get) (some set) →
      (∀ state given, given.isOf kind = true → get (set state given) = given) →
      ∀ (object : Handle) (name : String) (value : Value) (store after : Store State),
        member.write object name value store = .ok () after →
          ∃ copy final, member.read object name after = .ok copy final ∧ Copied store.heap final.heap value copy := by
  refine ⟨fun store given checked kind passes => ?_, fun store value kind given converted => ?_, fun given => ?_,
    fun heap value => ?_, fun store given => toValue_grows given store, fun member kind get set data returns object name value store after => ?_⟩
  · obtain ⟨-, isOf⟩ := checkResult_ok.mp passes
    obtain ⟨value, after, made, stands⟩ := toValue_stands isOf store
    exact ⟨value, after, made, fromValue_ok.mpr ⟨stands, isOf⟩⟩
  · obtain ⟨stands, isOf⟩ := fromValue_ok.mp converted
    exact ⟨checkResult_ok.mpr ⟨rfl, isOf⟩, toValue_copies stands⟩
  · cases given <;> exact Bool.false_ne_true
  · exact Bool.false_ne_true
  · exact read_of_write data returns

/-- A text passes, and comes back in another place of the heap. -/
theorem marshalling_round_trips_text : ∃ copy after, toValue (.text (some "a")) (⟨⟨#[.string "a"]⟩, #[], 0⟩ : Store Unit) = .ok copy after ∧
    Copied ⟨#[.string "a"]⟩ after.heap (.object 0) copy := by
  obtain ⟨-, back, -⟩ := @marshalling_round_trips Unit
  exact (back ⟨⟨#[.string "a"]⟩, #[], 0⟩ (.object 0) .text (.text (some "a")) rfl).2

end StackScript
