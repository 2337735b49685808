import Mathlib.Data.List.Nodup
import Mathlib.Data.List.Perm.Subperm
import StackScript.Proofs.Actions
import StackScript.Proofs.HeapTyping

/-!
The list of open upvalues. It is threaded through the heap from the highest slot down; what it visits is a list of
references with their slots. Capturing a slot finds its upvalue on the list or inserts a new one where it belongs, and
closing takes a front part of the list away.
-/

namespace StackScript

variable {ref slot bound last : Nat} {entries : List (Ref × Nat)} {next : Option Ref} {value : Value}

/-- From the reference on, the list visits these upvalues, which are open, and ends. -/
inductive OpenChain (heap : Heap) : Option Ref → List (Ref × Nat) → Prop where
  | nil : OpenChain heap none []
  | cons {ref slot : Nat} {next : Option Ref} {rest : List (Ref × Nat)}
      (found : heap.get? ref = some (.upvalue ⟨.open slot, next⟩)) (tail : OpenChain heap next rest) :
      OpenChain heap (some ref) ((ref, slot) :: rest)

def Descending (entries : List (Ref × Nat)) : Prop :=
  entries.Pairwise fun upper lower => lower.2 < upper.2

theorem getElem?_shrink_of_lt {stack : Array Value} {height i : Nat} (inside : i < height) :
    (stack.shrink height)[i]? = stack[i]? := by
  rw [← Array.getElem?_toList, Array.toList_shrink, List.getElem?_take_of_lt inside, Array.getElem?_toList]

namespace OpenChain

variable {heap heap' : Heap} {start : Option Ref} {above below : List (Ref × Nat)}

section

variable (chain : OpenChain heap start entries)
include chain

theorem found (member : (ref, slot) ∈ entries) :
    ∃ next, heap.get? ref = some (.upvalue ⟨.open slot, next⟩) := by
  induction chain with
  | nil => cases member
  | cons found tail ih =>
    rcases List.mem_cons.mp member with same | further
    · cases same
      exact ⟨_, found⟩
    · exact ih further

theorem congr (same : ∀ entry ∈ entries, heap'.get? entry.1 = heap.get? entry.1) :
    OpenChain heap' start entries := by
  induction chain with
  | nil => exact .nil
  | cons found tail ih =>
    refine .cons ?_ (ih fun entry member => same entry (List.mem_cons_of_mem _ member))
    rw [same _ List.mem_cons_self, found]

theorem head : start = entries.head?.map Prod.fst := by
  cases chain <;> rfl

omit chain in
theorem uncons (chain : OpenChain heap start ((ref, slot) :: entries)) :
    start = some ref ∧ ∃ next, heap.get? ref = some (.upvalue ⟨.open slot, next⟩) ∧ OpenChain heap next entries := by
  cases chain with
  | cons found tail => exact ⟨rfl, _, found, tail⟩

theorem slot_unique {first second : Nat} (one : (ref, first) ∈ entries)
    (two : (ref, second) ∈ entries) : first = second := by
  obtain ⟨_, found⟩ := chain.found one
  obtain ⟨_, found'⟩ := chain.found two
  cases found.symm.trans found'
  rfl

theorem nodup (descending : Descending entries) :
    (entries.map Prod.fst).Nodup := by
  refine List.pairwise_map.mpr (descending.imp_of_mem fun {upper lower} upper_mem lower_mem lower_lt same => ?_)
  rcases upper with ⟨ref, slot⟩
  rcases lower with ⟨ref', slot'⟩
  cases same
  have := chain.slot_unique upper_mem lower_mem
  simp only at lower_lt
  omega

theorem length_le (descending : Descending entries) : entries.length ≤ heap.size := by
  have inside : (entries.map Prod.fst) ⊆ List.range heap.size := by
    intro ref member
    obtain ⟨⟨_, slot⟩, listed, rfl⟩ := List.mem_map.mp member
    obtain ⟨_, found⟩ := chain.found listed
    exact List.mem_range.mpr (Heap.lt_size found)
  have := (List.Nodup.subperm (chain.nodup descending) inside).length_le
  simpa using this

end

theorem apart (chain : OpenChain heap start (above ++ (ref, slot) :: below))
    (descending : Descending (above ++ (ref, slot) :: below)) {entry : Ref × Nat} (member : entry ∈ above ++ below) :
    ref ≠ entry.1 := by
  have nodup := chain.nodup descending
  rw [List.map_append, List.map_cons, List.nodup_middle, List.nodup_cons, ← List.map_append] at nodup
  rintro rfl
  exact nodup.1 (List.mem_map.mpr ⟨entry, member, rfl⟩)

theorem relink {rest : List (Ref × Nat)} (chain : OpenChain heap start (above ++ (ref, slot) :: below))
    (same : ∀ entry ∈ above, heap'.get? entry.1 = heap.get? entry.1)
    (linked : heap'.get? ref = some (.upvalue ⟨.open slot, next⟩)) (tail : OpenChain heap' next rest) :
    OpenChain heap' start (above ++ (ref, slot) :: rest) := by
  induction above generalizing start with
  | nil =>
    cases chain
    exact .cons linked tail
  | cons entry above ih =>
    cases chain with
    | cons found chain =>
      refine .cons ?_ (ih chain fun entry member => same entry (List.mem_cons_of_mem _ member))
      rw [same _ List.mem_cons_self, found]

theorem drop (chain : OpenChain heap start (above ++ below)) :
    OpenChain heap (below.head?.map Prod.fst) below := by
  induction above generalizing start with
  | nil =>
    cases chain.head
    exact chain
  | cons entry above ih =>
    cases chain with
    | cons found chain => exact ih chain

end OpenChain

namespace Exec

/-- Where a slot belongs among the entries of the list, behind `previous`. -/
def spotIn (slot : Nat) : (previous : Option Ref) → List (Ref × Nat) → Spot
  | previous, [] => .between previous none
  | previous, (ref, openSlot) :: rest =>
    if openSlot = slot then .found ref
    else if openSlot < slot then .between previous (some ref)
    else spotIn slot (some ref) rest

theorem spotFrom_eq {heap : Heap} {current : Option Ref} (chain : OpenChain heap current entries) (slot : Nat)
    (enough : entries.length ≤ bound) (previous : Option Ref) :
    spotFrom heap slot bound previous current = .ok (spotIn slot previous entries) := by
  induction chain generalizing bound previous with
  | nil => cases bound <;> rfl
  | cons found tail ih =>
    cases bound with
    | zero => cases enough
    | succ bound =>
      simp only [List.length_cons] at enough
      simp only [spotFrom, Heap.fetchUpvalue, Heap.fetch, found, spotIn]
      change (if _ then _ else _) = _
      split
      · rfl
      · split
        · rfl
        · exact ih (by omega) _

theorem spotIn_cases (slot : Nat) (previous : Option Ref) (descending : Descending entries) :
    (∃ ref, (ref, slot) ∈ entries ∧ spotIn slot previous entries = .found ref) ∨
      ∃ above below, entries = above ++ below ∧ (∀ entry ∈ above, slot < entry.2) ∧ (∀ entry ∈ below, entry.2 < slot) ∧
        spotIn slot previous entries =
          .between ((above.getLast?.map Prod.fst).or previous) (below.head?.map Prod.fst) := by
  induction entries generalizing previous with
  | nil => exact .inr ⟨[], [], rfl, nofun, nofun, by simp [spotIn]⟩
  | cons entry rest ih =>
    rcases entry with ⟨ref, openSlot⟩
    obtain ⟨lower, descending⟩ := List.pairwise_cons.mp descending
    by_cases same : openSlot = slot
    · exact .inl ⟨ref, by simp [same], by simp [spotIn, same]⟩
    · by_cases low : openSlot < slot
      · refine .inr ⟨[], (ref, openSlot) :: rest, rfl, nofun, fun entry member => ?_, by simp [spotIn, same, low]⟩
        rcases List.mem_cons.mp member with rfl | further
        · exact low
        · exact Nat.lt_trans (lower entry further) low
      · have walks : spotIn slot previous ((ref, openSlot) :: rest) = spotIn slot (some ref) rest := by
          simp [spotIn, same, low]
        rw [walks]
        rcases ih (some ref) descending with ⟨found, member, spot⟩ | ⟨above, below, rfl, high, low, spot⟩
        · exact .inl ⟨found, List.mem_cons_of_mem _ member, spot⟩
        · refine .inr ⟨(ref, openSlot) :: above, below, rfl, fun entry member => ?_, low, ?_⟩
          · rcases List.mem_cons.mp member with rfl | further
            · simp only
              omega
            · exact high entry further
          · rw [spot]
            cases last : above.getLast? <;> simp [List.getLast?_cons, last]

variable {State : Type} {machine : Machine State}

def SameBut (before after : Machine State) : Prop :=
  after = { before with
    openUpvalues := after.openUpvalues, store := { before.store with heap := after.heap } }

/-- A new upvalue for a slot is on the heap. Otherwise at most the link of the upvalue in front of it has changed. -/
structure Inserts (slot : Nat) (previous : Option Ref) (before after : Machine State) : Prop where
  same : SameBut before after
  size : after.heap.size = before.heap.size + 1
  new : ∃ next, after.heap.get? before.heap.size = some (.upvalue ⟨.open slot, next⟩)
  old : ∀ ref object, before.heap.get? ref = some object → after.heap.get? ref = some object ∨
    previous = some ref ∧ ∃ location next, object = .upvalue ⟨location, next⟩ ∧
      after.heap.get? ref = some (.upvalue ⟨location, some before.heap.size⟩)

theorem link_some {previous : Ref} {upvalue : Upvalue} (ref : Ref)
    (found : machine.heap.get? previous = some (.upvalue upvalue)) :
    link (some previous) ref machine =
      .ok () (machine.setObject previous (.upvalue { upvalue with next := some ref })) := by
  exact bind_eq (look_eq (Heap.fetchUpvalue_eq found))

theorem capture_cases (chain : OpenChain machine.heap machine.openUpvalues entries)
    (descending : Descending entries) (slot : Nat) : (∃ ref, (ref, slot) ∈ entries ∧ capture slot machine = .ok ref machine) ∨
      ∃ above below after, entries = above ++ below ∧ (∀ entry ∈ above, slot < entry.2) ∧
        (∀ entry ∈ below, entry.2 < slot) ∧ capture slot machine = .ok machine.heap.size after ∧
        Inserts slot (above.getLast?.map Prod.fst) machine after ∧
        OpenChain after.heap after.openUpvalues (above ++ (machine.heap.size, slot) :: below) := by
  have walk := spotFrom_eq chain slot (chain.length_le descending) none
  rcases spotIn_cases slot none descending with ⟨ref, member, spot⟩ | ⟨above, below, rfl, high, low, spot⟩
  · have spotted : look (fun machine => spotFrom machine.heap slot machine.heap.size none machine.openUpvalues) machine =
        .ok (.found ref) machine := look_eq (spot ▸ walk)
    exact .inl ⟨ref, member, bind_eq spotted⟩
  · rw [spot, Option.or_none] at walk
    have spotted : look (fun machine => spotFrom machine.heap slot machine.heap.size none machine.openUpvalues) machine =
        .ok (.between (above.getLast?.map Prod.fst) (below.head?.map Prod.fst)) machine := look_eq walk
    refine .inr ⟨above, below, ?_⟩
    let object : Object := .upvalue ⟨.open slot, below.head?.map Prod.fst⟩
    let pushed := machine.addObject object
    have old {entry : Ref × Nat} (member : entry ∈ above ++ below) :
        pushed.heap.get? entry.1 = machine.heap.get? entry.1 := by
      obtain ⟨_, found⟩ := chain.found member
      exact (Heap.get?_push _ _ _).trans (if_neg (Nat.ne_of_lt (Heap.lt_size found)))
    have new : pushed.heap.get? machine.heap.size = some object := (Heap.get?_push _ _ _).trans (if_pos rfl)
    have kept : OpenChain pushed.heap machine.openUpvalues (above ++ below) := chain.congr fun _ => old
    -- The new upvalue becomes the head of the list, or the last one above it leads to it.
    rcases List.eq_nil_or_concat above with rfl | ⟨upper, ⟨last, lastSlot⟩, rfl⟩
    · refine ⟨{ pushed with openUpvalues := some machine.heap.size }, rfl, high, low, ?_, ⟨rfl, Heap.size_push _ _, ⟨_, new⟩, ?_⟩, ?_⟩
      · exact (bind_eq spotted).trans rfl
      · intro ref object found
        exact .inl ((Heap.get?_push _ _ _).trans ((if_neg (Nat.ne_of_lt (Heap.lt_size found))).trans found))
      · exact .cons new kept.drop
    · rw [List.concat_eq_append] at *
      obtain ⟨_, found⟩ := kept.found (List.mem_append_left below (List.mem_concat_self (a := (last, lastSlot))))
      rw [List.getLast?_concat] at spotted
      have rest := kept.drop
      rw [List.append_assoc] at chain descending kept ⊢
      have apart {entry : Ref × Nat} (member : entry ∈ upper ++ below) : last ≠ entry.1 := chain.apart descending member
      let linked := pushed.setObject last (.upvalue ⟨.open lastSlot, some machine.heap.size⟩)
      have other {ref : Ref} (different : last ≠ ref) : linked.heap.get? ref = pushed.heap.get? ref :=
        (Heap.get?_set found _ _).trans (if_neg different)
      have own : linked.heap.get? last = some (.upvalue ⟨.open lastSlot, some machine.heap.size⟩) :=
        (Heap.get?_set found _ _).trans (if_pos rfl)
      have before : machine.heap.get? last = some (.upvalue ⟨.open lastSlot, _⟩) :=
        (old (List.mem_append_left below List.mem_concat_self)).symm.trans found
      have older : last ≠ machine.heap.size := Nat.ne_of_lt (Heap.lt_size before)
      refine ⟨linked, rfl, high, low, ?_, ⟨rfl, ?_, ⟨_, (other older).trans new⟩, ?_⟩, ?_⟩
      · exact (bind_eq spotted).trans ((bind_eq (alloc_eq object)).trans (bind_eq (link_some _ found)))
      · exact (Heap.size_set _ _ _).trans (Heap.size_push _ _)
      · intro ref object present
        by_cases same : last = ref
        · cases same
          cases before.symm.trans present
          exact .inr ⟨by simp, _, _, rfl, own⟩
        · refine .inl ((other same).trans ?_)
          exact (Heap.get?_push _ _ _).trans ((if_neg (Nat.ne_of_lt (Heap.lt_size present))).trans present)
      · rw [List.append_assoc]
        refine kept.relink (fun entry member => other (apart (List.mem_append_left _ member))) own ?_
        refine .cons ((other older).trans new) ?_
        exact rest.congr fun entry member => other (apart (List.mem_append_right _ member))

theorem readUpvalue_open {ref : Ref}
    (found : machine.heap.get? ref = some (.upvalue ⟨.open slot, next⟩)) :
    readUpvalue ref machine = match machine.stack[slot]? with
      | some value => .ok value machine
      | none => .error ⟨.access (.slotOffStack slot), .nowhere⟩ machine := by
  have looked : look (·.heap.fetchUpvalue ref) machine = .ok ⟨.open slot, next⟩ machine :=
    look_eq (Heap.fetchUpvalue_eq found)
  refine (bind_eq looked).trans ?_
  cases at_ : machine.stack[slot]? with
  | some value =>
    have seen : read (·.stack[slot]?) machine = .ok (some value) machine := congrArg (EStateM.Result.ok · machine) at_
    exact bind_eq seen
  | none =>
    have seen : read (·.stack[slot]?) machine = .ok none machine := congrArg (EStateM.Result.ok · machine) at_
    exact bind_eq seen

theorem readUpvalue_closed {ref : Ref}
    (found : machine.heap.get? ref = some (.upvalue ⟨.closed value, next⟩)) : readUpvalue ref machine = .ok value machine := by
  have looked : look (·.heap.fetchUpvalue ref) machine = .ok ⟨.closed value, next⟩ machine :=
    look_eq (Heap.fetchUpvalue_eq found)
  exact bind_eq looked

/-- The upvalues of the list whose slots are at least `last` are closed with the values of their slots. -/
structure Closes (last : Nat) (entries : List (Ref × Nat)) (before after : Machine State) : Prop where
  same : SameBut before after
  size : after.heap.size = before.heap.size
  closed : ∀ ref slot, (ref, slot) ∈ entries → last ≤ slot →
    ∃ value, before.stack[slot]? = some value ∧ after.heap.get? ref = some (.upvalue ⟨.closed value, none⟩)
  kept : ∀ ref, (∀ slot, (ref, slot) ∈ entries → slot < last) → after.heap.get? ref = before.heap.get? ref
  chain : OpenChain after.heap after.openUpvalues (entries.filter (·.2 < last))

theorem Closes.refl (chain : OpenChain machine.heap machine.openUpvalues entries)
    (below : ∀ entry ∈ entries, entry.2 < last) : Closes last entries machine machine := by
  refine ⟨rfl, rfl, fun ref slot member high => ?_, fun _ _ => rfl, ?_⟩
  · have low : slot < last := below (ref, slot) member
    omega
  · rwa [List.filter_eq_self.mpr (by simpa using below)]

theorem Closes.cons {machine after : Machine State} {rest : List (Ref × Nat)}
    (found : machine.heap.get? ref = some (.upvalue ⟨.open slot, next⟩)) (high : last ≤ slot)
    (held : machine.stack[slot]? = some value) (apart : ∀ entry ∈ rest, ref ≠ entry.1) (closes : Closes last rest
      { machine.setObject ref (.upvalue ⟨.closed value, none⟩) with openUpvalues := next } after) :
    Closes last ((ref, slot) :: rest) machine after := by
  have other {ref' : Ref} (different : ref ≠ ref') :
      (machine.heap.set ref (.upvalue ⟨.closed value, none⟩)).get? ref' = machine.heap.get? ref' :=
    (Heap.get?_set found _ _).trans (if_neg different)
  refine ⟨closes.same, closes.size.trans (Heap.size_set _ _ _), fun ref' slot' member high' => ?_, fun ref' below => ?_, ?_⟩
  · rcases List.mem_cons.mp member with same | further
    · cases same
      refine ⟨value, held, (closes.kept ref fun slot' member => absurd rfl (apart _ member)).trans ?_⟩
      exact (Heap.get?_set found _ _).trans (if_pos rfl)
    · exact closes.closed ref' slot' further high'
  · refine (closes.kept ref' fun slot' member => below slot' (List.mem_cons_of_mem _ member)).trans (other ?_)
    rintro rfl
    have := below slot List.mem_cons_self
    omega
  · rw [List.filter_cons_of_neg (by simpa using high)]
    exact closes.chain

theorem closeFrom_low (start : machine.openUpvalues = some ref)
    (found : machine.heap.get? ref = some (.upvalue ⟨.open slot, next⟩)) (low : slot < last) :
    closeFrom last (bound + 1) machine = .ok () machine := by
  have first : read (·.openUpvalues) machine = .ok (some ref) machine := congrArg (EStateM.Result.ok · machine) start
  have looked : look (·.heap.fetchUpvalue ref) machine = .ok ⟨.open slot, next⟩ machine :=
    look_eq (Heap.fetchUpvalue_eq found)
  refine (bind_eq first).trans ((bind_eq looked).trans ?_)
  simp only [low, if_true]
  rfl

theorem closeFrom_high (start : machine.openUpvalues = some ref)
    (found : machine.heap.get? ref = some (.upvalue ⟨.open slot, next⟩)) (high : last ≤ slot)
    (held : machine.stack[slot]? = some value) : closeFrom last (bound + 1) machine = closeFrom last bound
      { machine.setObject ref (.upvalue ⟨.closed value, none⟩) with openUpvalues := next } := by
  have first : read (·.openUpvalues) machine = .ok (some ref) machine := congrArg (EStateM.Result.ok · machine) start
  have looked : look (·.heap.fetchUpvalue ref) machine = .ok ⟨.open slot, next⟩ machine :=
    look_eq (Heap.fetchUpvalue_eq found)
  have valued : read (·.stack[slot]?) machine = .ok (some value) machine := congrArg (EStateM.Result.ok · machine) held
  refine (bind_eq first).trans ((bind_eq looked).trans ?_)
  simp only [Nat.not_lt.mpr high, if_false]
  exact bind_eq valued

theorem closeFrom_closes (chain : OpenChain machine.heap machine.openUpvalues entries)
    (descending : Descending entries) (inside : ∀ entry ∈ entries, entry.2 < machine.stack.size) (last : Nat)
    (enough : entries.length ≤ bound) :
    ∃ after, closeFrom last bound machine = .ok () after ∧ Closes last entries machine after := by
  induction entries generalizing machine bound with
  | nil =>
    refine ⟨machine, ?_, .refl chain nofun⟩
    cases bound with
    | zero => rfl
    | succ bound =>
      have empty : read (·.openUpvalues) machine = .ok none machine := congrArg (EStateM.Result.ok · machine) chain.head
      exact bind_eq empty
  | cons entry rest ih =>
    rcases entry with ⟨ref, slot⟩
    cases bound with
    | zero => cases enough
    | succ bound =>
      obtain ⟨start, next, found, tail⟩ := chain.uncons
      obtain ⟨lower, descending'⟩ := List.pairwise_cons.mp descending
      rcases Nat.lt_or_ge slot last with low | high
      · refine ⟨machine, closeFrom_low start found low, .refl chain fun entry member => ?_⟩
        rcases List.mem_cons.mp member with rfl | further
        · exact low
        · exact Nat.lt_trans (lower entry further) low
      · have apart : ∀ entry ∈ rest, ref ≠ entry.1 := fun _ => @OpenChain.apart _ _ _ _ [] rest chain descending _
        have room : slot < machine.stack.size := inside _ List.mem_cons_self
        have held := Array.getElem?_eq_getElem room
        let closed := { machine.setObject ref (.upvalue ⟨.closed machine.stack[slot], none⟩) with openUpvalues := next }
        have kept : OpenChain closed.heap next rest :=
          tail.congr fun entry member => (Heap.get?_set found _ _).trans (if_neg (apart entry member))
        obtain ⟨after, done, closes⟩ := @ih bound closed kept descending'
          (fun entry member => inside entry (List.mem_cons_of_mem _ member)) (Nat.le_of_succ_le_succ enough)
        exact ⟨after, (closeFrom_high start found high held).trans done, closes.cons found high held apart⟩

theorem closeUpvalues_closes (chain : OpenChain machine.heap machine.openUpvalues entries)
    (descending : Descending entries) (inside : ∀ entry ∈ entries, entry.2 < machine.stack.size) (last : Nat) :
    ∃ after, closeUpvalues last machine = .ok () after ∧ Closes last entries machine after :=
  closeFrom_closes chain descending inside last (Nat.le_succ_of_le (chain.length_le descending))

end Exec

end StackScript
