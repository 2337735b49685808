import StackScript.Proofs.IntactHeap

/-!
What the members of host objects do to the store. A use of a member puts at most one object on the heap, one that refers to
nothing. Where it fails, the heap is what it was, and the fault has no place.
-/

namespace StackScript

variable {State α β : Type}

/-- The result has no place, if it is a fault. -/
def Unplaced (result : Except RuntimeError α) : Prop :=
  ∀ error, result = .error error → error.span = .nowhere

namespace Unplaced

theorem ok (value : α) : Unplaced (.ok value : Except RuntimeError α) := nofun

theorem fault (fault : Fault) : Unplaced (.error (.unplaced fault) : Except RuntimeError α) := by
  intro error same
  cases same
  rfl

theorem bind {first : Except RuntimeError α} {next : α → Except RuntimeError β} (one : Unplaced first)
    (two : ∀ value, Unplaced (next value)) : Unplaced (first >>= next) := by
  cases first with
  | ok value => exact two value
  | error error =>
    intro other same
    cases same
    exact one error rfl

end Unplaced

theorem Heap.fetch_unplaced (heap : Heap) (ref : Ref) : Unplaced (heap.fetch ref) := by
  unfold Heap.fetch
  split
  · exact .ok _
  · exact .fault _

def Object.isLeaf : Object → Bool
  | .string _ | .native _ | .host _ => true
  | _ => false

/-- At most one object has been added, and that refers to nothing. -/
def Heap.Gains (before after : Heap) : Prop :=
  after = before ∨ ∃ object, object.isLeaf = true ∧ after = before.push object

theorem Heap.Gains.keeps {before after : Heap} {classes : Ref → Option Class} (gains : before.Gains after)
    (keeps : before.Keeps classes) : after.Keeps classes := by
  rcases gains with rfl | ⟨object, -, rfl⟩
  · exact keeps
  · exact keeps.push object

theorem Heap.Gains.sane {before after : Heap} (gains : before.Gains after) (sane : before.Sane) :
    before.Evolves after ∧ after.Sane := by
  rcases gains with rfl | ⟨object, leaf, rfl⟩
  · exact ⟨.refl _, sane⟩
  · refine ⟨.push before object, sane.push ?_ ?_⟩ <;> cases object <;> trivial

section Store

variable {action : OnStore State α} {next : α → OnStore State β} {store after : Store State} {value : α} {error : RuntimeError}

theorem Store.bind_eq (first : action store = .ok value after) : (action >>= next) store = next value after := by
  change EStateM.bind action next store = _
  rw [EStateM.bind, first]

theorem Store.bind_error (first : action store = .error error after) : (action >>= next) store = .error error after := by
  change EStateM.bind action next store = _
  rw [EStateM.bind, first]

/-- The heap gains at most an object, and `post` holds if the action goes through. If it fails, the heap is what it was. -/
def OnStore.Gains (action : OnStore State α) (store : Store State) (post : α → Heap → Prop) : Prop :=
  match action store with
  | .ok value after => store.heap.Gains after.heap ∧ post value after.heap
  | .error error after => after.heap = store.heap ∧ error.span = .nowhere

variable {post : β → Heap → Prop}

namespace OnStore.Gains

theorem bind (first : action store = .ok value after) (heap : after.heap = store.heap)
    (rest : (next value).Gains after post) : (action >>= next).Gains store post := by
  unfold OnStore.Gains at *
  rwa [Store.bind_eq first, ← heap]

theorem failed {action : OnStore State β} (fails : action store = .error error after) (heap : after.heap = store.heap)
    (unplaced : error.span = .nowhere) : action.Gains store post := by
  unfold OnStore.Gains
  rw [fails]
  exact ⟨heap, unplaced⟩

theorem look {view : Heap → Except RuntimeError α} (unplaced : ∀ heap, Unplaced (view heap))
    (rest : ∀ value, (next value).Gains store post) : (Store.look view >>= next).Gains store post := by
  cases seen : view store.heap with
  | ok value =>
    have looked : Store.look view store = .ok value store := by simp only [Store.look, seen]
    exact bind looked rfl (rest value)
  | error error =>
    have looked : Store.look view store = .error error store := by simp only [Store.look, seen]
    exact failed (Store.bind_error looked) rfl (unplaced _ error seen)

end OnStore.Gains

end Store

namespace Host

variable {store : Store State}

theorem checkResult_unplaced (value : HostValue) (expected : HostType) : Unplaced (checkResult value expected) := by
  unfold checkResult
  split
  · exact .ok _
  · exact .fault _

theorem convert?_unplaced (heap : Heap) (value : Value) (expected : HostType) : Unplaced (convert? heap value expected) := by
  cases expected with
  | number | bool | text => cases value <;> exact .ok _
  | void => exact .ok _
  | object tag =>
    cases value with
    | object ref =>
      refine (heap.fetch_unplaced ref).bind fun object => ?_
      split <;> exact .ok _
    | number | bool | nil => exact .ok _

theorem fromValue_unplaced (value : Value) (expected : HostType) (heap : Heap) : Unplaced (fromValue heap value expected) := by
  refine (convert?_unplaced heap value expected).bind fun converted => ?_
  split
  · exact .ok _
  · exact .fault _

theorem toValue_gains (value : HostValue) (store : Store State) :
    (toValue value).Gains store fun value heap => heap.Has value := by
  have new (object : Object) : (store.heap.push object).Has (.object store.heap.size) :=
    Heap.has_object (Heap.get?_push_self _ _)
  cases value with
  | nil | number | bool => exact ⟨.inl rfl, nofun⟩
  | text content =>
    cases content with
    | none => exact ⟨.inl rfl, nofun⟩
    | some text => exact ⟨.inr ⟨_, rfl, rfl⟩, new _⟩
  | object handle => exact ⟨.inr ⟨_, rfl, rfl⟩, new _⟩

namespace Member

theorem convertAll_unplaced (kinds : List HostType) (values : List Value) (heap : Heap) : Unplaced (convertAll heap kinds values) := by
  induction kinds generalizing values with
  | nil => exact .ok _
  | cons kind kinds ih =>
    cases values with
    | nil => exact .ok _
    | cons value values =>
      exact (fromValue_unplaced value kind heap).bind fun _ => (ih values).bind fun _ => .ok _

variable (member : Member State) (object : Handle)

theorem stateOf_cases (store : Store State) :
    (∃ state, ∀ other : Store State, other.cells = store.cells → member.stateOf object other = .ok state other) ∨
      ∃ fault, ∀ other : Store State, other.cells = store.cells → member.stateOf object other = .error (.unplaced fault) other := by
  unfold stateOf Store.borrow
  cases found : store.cells[object.cell]? with
  | none => exact .inr ⟨.host (.busy object.tag.name), fun other same => by simp only [same, found]⟩
  | some cell =>
    obtain ⟨state, isBusy⟩ := cell
    cases isBusy with
    | true => exact .inr ⟨.host (.busy object.tag.name), fun other same => by simp only [same, found]⟩
    | false =>
      cases member.owner with
      | none => exact .inl ⟨state, fun other same => by simp only [same, found]⟩
      | some owner =>
        by_cases fits : object.isOf owner
        · exact .inl ⟨state, fun other same => by simp only [same, found, fits, if_true]⟩
        · exact .inr ⟨.host (.wrongType owner.name), fun other same => by simp only [same, found, if_neg fits]; rfl⟩

variable {member object}

theorem stateOf_gains {next : State → OnStore State β} {post : β → Heap → Prop} (rest : ∀ state, (next state).Gains store post) :
    (member.stateOf object >>= next).Gains store post := by
  rcases member.stateOf_cases object store with ⟨state, goes⟩ | ⟨fault, fails⟩
  · exact .bind (goes store rfl) rfl (rest state)
  · exact .failed (Store.bind_error (fails store rfl)) rfl rfl

variable (member object)

theorem read_gains (name : String) (store : Store State) :
    (member.read object name).Gains store fun value heap => heap.Has value := by
  unfold read
  split
  · exact stateOf_gains fun state => .look (fun _ => checkResult_unplaced _ _) fun result => toValue_gains result store
  · exact .failed rfl rfl rfl
  · exact ⟨.inr ⟨_, rfl, rfl⟩, Heap.has_object (Heap.get?_push_self _ _)⟩

theorem write_gains (name : String) (value : Value) (store : Store State) :
    (member.write object name value).Gains store fun _ _ => True := by
  unfold write
  split
  · exact .look (fromValue_unplaced value _) fun converted => stateOf_gains fun state => ⟨.inl rfl, trivial⟩
  · exact .failed rfl rfl rfl
  · exact .failed rfl rfl rfl

theorem call_gains (args : List Value) (store : Store State) :
    (member.call object args).Gains store fun value heap => heap.Has value := by
  unfold call
  cases member.shape with
  | data => exact .failed rfl rfl rfl
  | method params returns body =>
    by_cases count : args.length = params.length
    · simp only [ne_eq, count, not_true_eq_false, if_false]
      refine .look (convertAll_unplaced params args) fun converted => stateOf_gains fun state => .bind rfl rfl ?_
      split
      · exact ⟨.inl rfl, nofun⟩
      · exact .look (fun _ => checkResult_unplaced _ _) fun checked => toValue_gains checked _
    · simp only [ne_eq, count, not_false_eq_true, if_true]
      exact .failed rfl rfl rfl

end Member

end Host

end StackScript
