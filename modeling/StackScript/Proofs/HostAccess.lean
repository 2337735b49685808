import StackScript.Proofs.HostMembers
import StackScript.Proofs.Marshalling

/-!
What a use of a host member depends on. The checks in front of an accessor are listed in the order in which they are made; the
first fault among them is the one that is reported, and then nothing has happened. If there is none, the accessor is run.
-/

namespace StackScript.Host

variable {State : Type}

def faultOf {α : Type} : Except RuntimeError α → Option RuntimeError
  | .ok _ => none
  | .error error => some error

def firstFault (checks : List (Option RuntimeError)) : Option RuntimeError := checks.findSome? id

/-- The first fault among the checks is reported and the store is as it was, or there is no fault. -/
inductive Decided {β : Type} (checks : List (Option RuntimeError)) (store : Store State)
    (result : EStateM.Result RuntimeError (Store State) β) (otherwise : Prop) : Prop where
  | refused {error : RuntimeError} (fault : firstFault checks = some error) (fails : result = .error error store)
  | passed (faultless : firstFault checks = none) (goes : otherwise)

namespace Member

variable (member : Member State) (object : Handle) (store : Store State)

/-- The last checks: the object is not busy, and it is of the type that the member was made for. -/
def accessChecks : List (Option RuntimeError) :=
  [faultOf (store.borrow object),
    member.owner.bind fun owner => if object.isOf owner then none else some (.unplaced (.host (.wrongType owner.name)))]

def argumentChecks (heap : Heap) (params : List HostType) (args : List Value) : List (Option RuntimeError) :=
  List.zipWith (fun kind value => faultOf (fromValue heap value kind)) params args

def readChecks (name : String) : List (Option RuntimeError) :=
  match member.shape with
  | .data _ (some _) _ => member.accessChecks object store
  | .data _ none _ => some (.unplaced (.host (.noGetter object.tag.name name))) :: member.accessChecks object store
  | .method _ _ _ => []

def writeChecks (name : String) (value : Value) : List (Option RuntimeError) :=
  match member.shape with
  | .data kind _ set =>
    (if set.isSome then none else some (.unplaced (.host (.noSetter object.tag.name name)))) ::
      argumentChecks store.heap [kind] [value] ++ member.accessChecks object store
  | .method _ _ _ => some (.unplaced (.host (.methodAssigned object.tag.name name))) :: member.accessChecks object store

def callChecks (args : List Value) : List (Option RuntimeError) :=
  match member.shape with
  | .data _ _ _ => some (.unplaced (.host (.notMethod object.tag.name))) :: member.accessChecks object store
  | .method params _ _ =>
    (if args.length = params.length then none else some (.unplaced (.wrongArity params.length args.length))) ::
      argumentChecks store.heap params args ++ member.accessChecks object store

/-- An accessor with these parameters may be run on the object, which is in this state, with the given arguments. -/
structure Permits (params : List HostType) (args : List Value) (state : State) (given : List HostValue) : Prop where
  count : args.length = params.length
  converts : given.map .ok = List.zipWith (fromValue store.heap) args params
  free : store.cells[object.cell]? = some ⟨state, false⟩
  fits : ∀ owner ∈ member.owner, object.isOf owner = true

variable {member object store}

theorem borrow_ok {state : State} : store.borrow object = .ok state ↔ store.cells[object.cell]? = some ⟨state, false⟩ := by
  unfold Store.borrow
  split
  · next found =>
    constructor
    · intro same
      cases same
      exact found
    · intro same
      cases found.symm.trans same
      rfl
  · next other =>
    constructor
    · intro same
      cases same
    · exact fun found => absurd found (other state)

theorem stateOf_decided {β : Type} {next : State → OnStore State β} {otherwise : Prop}
    (rest : ∀ state, store.cells[object.cell]? = some ⟨state, false⟩ → (∀ owner ∈ member.owner, object.isOf owner = true) →
      (member.stateOf object >>= next) store = next state store → otherwise) :
    Decided (member.accessChecks object store) store ((member.stateOf object >>= next) store) otherwise := by
  have found {state : State} (borrowed : store.borrow object = .ok state) (fits : ∀ owner ∈ member.owner, object.isOf owner = true)
      (stated : member.stateOf object store = .ok state store) : otherwise :=
    rest state (borrow_ok.mp borrowed) fits (Store.bind_eq stated)
  unfold accessChecks
  cases borrowed : store.borrow object with
  | error error =>
    have busy : member.stateOf object store = .error error store := by simp only [stateOf, borrowed]
    exact .refused rfl (Store.bind_error busy)
  | ok state =>
    cases owner : member.owner with
    | none => exact .passed rfl (found borrowed (by simp [owner]) (by simp only [stateOf, borrowed, owner]))
    | some made =>
      by_cases fits : object.isOf made = true
      · refine .passed (by simp [firstFault, faultOf, fits]) (found borrowed (by simp [owner, fits]) ?_)
        simp only [stateOf, borrowed, owner, if_pos fits]
      · have other : member.stateOf object store = .error (.unplaced (.host (.wrongType made.name))) store := by
          simp only [stateOf, borrowed, owner, if_neg fits]
          rfl
        exact .refused (by simp [firstFault, faultOf, fits]) (Store.bind_error other)

theorem look_decided {α β : Type} {checks further : List (Option RuntimeError)} {view : Heap → Except RuntimeError α}
    {next : α → OnStore State β} {otherwise : Prop} (agree : firstFault checks = faultOf (view store.heap))
    (rest : ∀ given, view store.heap = .ok given → (Store.look view >>= next) store = next given store →
      Decided further store (next given store) otherwise) :
    Decided (checks ++ further) store ((Store.look view >>= next) store) otherwise := by
  have first : firstFault (checks ++ further) = (faultOf (view store.heap)).or (firstFault further) := by
    rw [← agree]
    exact List.findSome?_append
  cases seen : view store.heap with
  | error error =>
    have looked : Store.look view store = .error error store := by simp only [Store.look, seen]
    refine .refused ?_ (Store.bind_error looked)
    rw [first, seen]
    rfl
  | ok given =>
    have looked : Store.look view store = .ok given store := by simp only [Store.look, seen]
    have goes : (Store.look view >>= next) store = next given store := Store.bind_eq looked
    have same : firstFault (checks ++ further) = firstFault further := by
      rw [first, seen]
      rfl
    rw [goes]
    cases rest given seen goes with
    | refused fault fails => exact .refused (same.trans fault) fails
    | passed faultless goes => exact .passed (same.trans faultless) goes

theorem convertAll_first {heap : Heap} {params : List HostType} {args : List Value} (count : args.length = params.length) :
    firstFault (argumentChecks heap params args) = faultOf (convertAll heap params args) ∧
      ∀ given, convertAll heap params args = .ok given → given.map .ok = List.zipWith (fromValue heap) args params := by
  induction params generalizing args with
  | nil =>
    cases args with
    | nil =>
      refine ⟨rfl, fun given all => ?_⟩
      cases all
      rfl
    | cons => cases count
  | cons kind params ih =>
    cases args with
    | nil => cases count
    | cons value args =>
      obtain ⟨first, converts⟩ := ih (Nat.succ.inj count)
      cases converted : fromValue heap value kind with
      | error error => simp [firstFault, argumentChecks, convertAll, faultOf, converted, bind, Except.bind]
      | ok head =>
        have later : firstFault (argumentChecks heap (kind :: params) (value :: args)) = firstFault (argumentChecks heap params args) := by
          simp [firstFault, argumentChecks, faultOf, converted]
        rw [later, first]
        cases all : convertAll heap params args with
        | error error => simp [convertAll, faultOf, converted, all, bind, Except.bind]
        | ok given => simp [convertAll, faultOf, converted, all, converts given all, bind, Except.bind, pure, Except.pure]

theorem read_decided (name : String) : Decided (member.readChecks object store name) store (member.read object name store)
    (∀ error after, member.read object name store = .error error after → after = store) := by
  unfold readChecks
  cases shape : member.shape with
  | method =>
    refine .passed rfl fun error after failed => ?_
    simp only [read, shape] at failed
    cases failed
  | data kind get set =>
    cases get with
    | none => exact .refused rfl (by simp only [read, shape]; rfl)
    | some get =>
      have reads : member.read object name store = (member.stateOf object >>= fun state =>
          Store.look (fun _ => checkResult (get state) kind) >>= toValue) store := by simp only [read, shape]
      rw [reads]
      refine stateOf_decided fun state _ _ goes error after failed => ?_
      rw [goes] at failed
      cases checked : checkResult (get state) kind with
      | error fault =>
        simp only [bind, EStateM.bind, Store.look, checked] at failed
        cases failed
        rfl
      | ok result =>
        obtain ⟨value, final, made, -⟩ := toValue_grows result store
        simp only [bind, EStateM.bind, Store.look, checked, made] at failed
        cases failed

theorem write_decided (name : String) (value : Value) :
    Decided (member.writeChecks object store name value) store (member.write object name value store)
      (∃ kind get set state given, member.shape = .data kind get (some set) ∧ member.Permits object store [kind] [value] state [given] ∧
        member.write object name value store = .ok () (store.write object (set state given))) := by
  unfold writeChecks
  cases shape : member.shape with
  | method => exact .refused rfl (by simp only [write, shape]; rfl)
  | data kind get set =>
    cases set with
    | none => exact .refused rfl (by simp only [write, shape]; rfl)
    | some set =>
      have writes : member.write object name value store = (Store.look (fun heap => fromValue heap value kind) >>= fun given =>
          member.stateOf object >>= fun state => modify (·.write object (set state given))) store := by simp only [write, shape]
      rw [writes]
      refine look_decided ?_ fun given converted looked => stateOf_decided fun state free fits goes => ?_
      · simp [firstFault, argumentChecks]
      · exact ⟨kind, get, set, state, given, rfl, ⟨rfl, by simp [converted], free, fits⟩, looked.trans goes⟩

/-- What comes of a method whose body has given a result. -/
structure Returned (result : HostValue) (returns : HostType) (ran : Store State)
    (outcome : EStateM.Result RuntimeError (Store State) Value) : Prop where
  void : returns = .void → outcome = .ok .nil ran
  mismatch : returns ≠ .void → result.isOf returns = false →
    outcome = .error (.unplaced (.host (.noConversion result.kindName returns.name))) ran
  value : returns ≠ .void → result.isOf returns = true → ∃ value after, outcome = .ok value after ∧ after.cells = ran.cells

theorem returned (result : HostValue) (returns : HostType) (ran : Store State) : Returned result returns ran
    ((if returns = .void then pure .nil else Store.look (fun _ => checkResult result returns) >>= toValue : OnStore State Value) ran) := by
  refine ⟨fun void => ?_, fun valued other => ?_, fun valued isOf => ?_⟩
  · rw [if_pos void]
    rfl
  · rw [if_neg valued]
    simp [bind, EStateM.bind, Store.look, checkResult, other, noConversion]
  · obtain ⟨value, after, made, cells, -⟩ := toValue_grows result ran
    refine ⟨value, after, ?_, cells⟩
    rw [if_neg valued]
    simp [bind, EStateM.bind, Store.look, checkResult, isOf, made]

theorem call_decided (args : List Value) : Decided (member.callChecks object store args) store (member.call object args store)
    (∃ params returns body state given, member.shape = .method params returns body ∧ member.Permits object store params args state given ∧
      ∃ result ran, runBody body object state given store = .ok result ran ∧ ran.heap = store.heap ∧
        Returned result returns ran (member.call object args store)) := by
  unfold callChecks
  cases shape : member.shape with
  | data => exact .refused rfl (by simp only [call, shape]; rfl)
  | method params returns body =>
    by_cases count : args.length = params.length
    · have calls : member.call object args store = (Store.look (fun heap => convertAll heap params args) >>= fun given =>
          member.stateOf object >>= fun state => runBody body object state given >>= fun result =>
            if returns = .void then pure .nil else Store.look (fun _ => checkResult result returns) >>= toValue) store := by
        simp only [call, shape, count, ne_eq, not_true_eq_false, if_false]
      obtain ⟨first, converts⟩ := @convertAll_first store.heap _ _ count
      rw [calls]
      refine look_decided ?_ fun given converted looked => stateOf_decided fun state free fits goes => ?_
      · simpa [firstFault, count] using first
      · refine ⟨params, returns, body, state, given, rfl, ⟨count, converts given converted, free, fits⟩, _, _, rfl, rfl, ?_⟩
        rw [looked, goes]
        exact returned _ returns _
    · have miscounted : member.call object args store = .error (.unplaced (.wrongArity params.length args.length)) store := by
        simp only [call, shape, count, ne_eq, not_false_eq_true, if_true]
        rfl
      refine .refused ?_ miscounted
      simp [firstFault, count]

end Member

end StackScript.Host

namespace StackScript

open Host

theorem OnStore.Gains.of_error {State α : Type} {action : OnStore State α} {store after : Store State} {post : α → Heap → Prop}
    {error : RuntimeError} (gains : action.Gains store post) (failed : action store = .error error after) : after.heap = store.heap := by
  unfold OnStore.Gains at gains
  rw [failed] at gains
  exact gains.1

/-- A use of a host member that fails has no effect. The checks in front of an accessor are made in a fixed order, and the first
one that fails decides the fault, with nothing changed. Only if none fails is the setter or the body of a method run: the member
has it, the arguments are as many as the parameters and of their types, the object is not busy and of the type that the member
was made for. A result that is not of the declared type is a fault. Where a use fails, the heap is as it was. -/
theorem failed_accesses_change_nothing {State : Type} (member : Member State) (object : Handle) (store : Store State) :
    (∀ name, Decided (member.readChecks object store name) store (member.read object name store)
      (∀ error after, member.read object name store = .error error after → after = store)) ∧
    (∀ name value, Decided (member.writeChecks object store name value) store (member.write object name value store)
      (∃ kind get set state given, member.shape = .data kind get (some set) ∧
        member.Permits object store [kind] [value] state [given] ∧
          member.write object name value store = .ok () (store.write object (set state given)))) ∧
    (∀ args, Decided (member.callChecks object store args) store (member.call object args store)
      (∃ params returns body state given, member.shape = .method params returns body ∧
        member.Permits object store params args state given ∧
          ∃ result ran, Member.runBody body object state given store = .ok result ran ∧ ran.heap = store.heap ∧
            Member.Returned result returns ran (member.call object args store))) ∧
    (∀ name error after, member.read object name store = .error error after → after.heap = store.heap) ∧
    (∀ name value error after, member.write object name value store = .error error after → after.heap = store.heap) ∧
    ∀ args error after, member.call object args store = .error error after → after.heap = store.heap :=
  ⟨Member.read_decided, Member.write_decided, Member.call_decided, fun name _ _ => (member.read_gains object name store).of_error,
    fun name value _ _ => (member.write_gains object name value store).of_error,
    fun args _ _ => (member.call_gains object args store).of_error⟩

/-- No number is assigned to a busy object of another type: it is the value that is refused. -/
theorem failed_accesses_change_nothing_nil :
    Member.write (⟨some ⟨1, "A"⟩, .data .number none (some fun state _ => state)⟩ : Member Unit) ⟨⟨2, "B"⟩, 0⟩ "x" .nil ⟨{}, #[⟨(), true⟩], 0⟩ =
      .error (.unplaced (.host (.noConversion "nil" "number"))) ⟨{}, #[⟨(), true⟩], 0⟩ := by
  obtain ⟨-, writes, -⟩ := failed_accesses_change_nothing
    (⟨some ⟨1, "A"⟩, .data .number none (some fun state _ => state)⟩ : Member Unit) ⟨⟨2, "B"⟩, 0⟩ ⟨{}, #[⟨(), true⟩], 0⟩
  cases writes "x" .nil with
  | refused fault fails =>
    cases fault
    exact fails
  | passed faultless => cases faultless

end StackScript
