import StackScript.Proofs.OpenList

/-!
What closures see of the variables they capture. However often and in whatever order slots are captured, a slot has one
upvalue, and the list holds exactly the captured slots. When slots go away, the upvalues that stood for them keep the
values, and each is a variable of its own from then on.
-/

namespace StackScript

variable {State : Type} {machine after : Machine State} {entries above below : List (Ref × Nat)} {slot : Nat}

/-- The list of open upvalues visits these entries, from the highest slot down. -/
structure Machine.Opens (machine : Machine State) (entries : List (Ref × Nat)) : Prop where
  chain : OpenChain machine.heap machine.openUpvalues entries
  descending : Descending entries

namespace Descending

theorem insert (descending : Descending (above ++ below)) (ref : Ref) (high : ∀ entry ∈ above, slot < entry.2)
    (low : ∀ entry ∈ below, entry.2 < slot) : Descending (above ++ (ref, slot) :: below) := by
  obtain ⟨upper, lower, across⟩ := List.pairwise_append.mp descending
  apply List.pairwise_append.mpr
  refine ⟨upper, List.pairwise_cons.mpr ⟨low, lower⟩, ?_⟩
  intro entry member other further
  rcases List.mem_cons.mp further with rfl | further
  · exact high entry member
  · exact across entry member other further

theorem ref_unique (descending : Descending entries) {first second : Ref} (one : (first, slot) ∈ entries)
    (two : (second, slot) ∈ entries) : first = second := by
  induction entries with
  | nil => cases one
  | cons entry rest ih =>
    obtain ⟨lower, descending⟩ := List.pairwise_cons.mp descending
    -- An entry for the slot in front of another one would have a higher slot.
    rcases List.mem_cons.mp one with isFirst | one
    · rcases List.mem_cons.mp two with isSecond | two
      · cases isFirst.trans isSecond.symm
        rfl
      · exact absurd (isFirst ▸ lower _ two) (Nat.lt_irrefl _)
    · rcases List.mem_cons.mp two with isSecond | two
      · exact absurd (isSecond ▸ lower _ one) (Nat.lt_irrefl _)
      · exact ih descending one two

end Descending

namespace Exec

theorem captures_listed (opens : machine.Opens entries) (slots : List Nat) :
    ∃ refs after entries', slots.mapM capture machine = .ok refs after ∧ refs.length = slots.length ∧
      after.Opens entries' ∧ entries ⊆ entries' ∧ (∀ pair ∈ refs.zip slots, pair ∈ entries') ∧
      ∀ entry ∈ entries', entry ∈ entries ∨ entry.2 ∈ slots := by
  induction slots generalizing machine entries with
  | nil => exact ⟨[], machine, entries, rfl, rfl, opens, List.Subset.refl _, by simp, fun _ => .inl⟩
  | cons slot slots ih =>
    -- After the first capture the slot is on the list, and nothing else is new there.
    have first : ∃ ref between entries', capture slot machine = .ok ref between ∧ between.Opens entries' ∧
        entries ⊆ entries' ∧ (ref, slot) ∈ entries' ∧ ∀ entry ∈ entries', entry ∈ entries ∨ entry.2 = slot := by
      rcases capture_cases opens.chain opens.descending slot with
        ⟨ref, member, done⟩ | ⟨above, below, after, rfl, high, low, done, -, chain⟩
      · exact ⟨ref, machine, entries, done, opens, List.Subset.refl _, member, fun _ => .inl⟩
      · refine ⟨_, after, _, done, ⟨chain, opens.descending.insert _ high low⟩, ?_, by simp, ?_⟩
        · simp
        · intro entry member
          simp only [List.mem_append, List.mem_cons] at member ⊢
          rcases member with up | rfl | down
          · exact .inl (.inl up)
          · exact .inr rfl
          · exact .inl (.inr down)
    obtain ⟨ref, between, middle, captured, opens, kept, listed, new⟩ := first
    obtain ⟨refs, after, entries', done, length, opens, kept', listed', new'⟩ := ih opens
    refine ⟨ref :: refs, after, entries', ?_, by simp [length], opens, fun _ member => kept' (kept member), ?_, ?_⟩
    · rw [List.mapM_cons]
      exact (bind_eq captured).trans (bind_eq done)
    · intro pair member
      rcases List.mem_cons.mp member with rfl | member
      · exact kept' listed
      · exact listed' pair member
    · intro entry member
      rcases new' entry member with old | further
      · exact (new entry old).imp_right fun same => List.mem_cons.mpr (.inl same)
      · exact .inr (List.mem_cons_of_mem _ further)

/-- Capturing finds the slot on the list or inserts it in its place, with nothing else changed but the link to it. So
captures of any slots in any order, from an empty list on, give the same upvalue exactly for the same slot, and leave
the list of the captured slots from the highest down. -/
theorem captures_find_or_insert (machine : Machine State) :
    (∀ entries slot, machine.Opens entries →
      (∀ ref, (ref, slot) ∈ entries → capture slot machine = .ok ref machine) ∧
      ((∀ ref, (ref, slot) ∉ entries) → ∃ above below after, entries = above ++ below ∧
        capture slot machine = .ok machine.heap.size after ∧
        Inserts slot (above.getLast?.map Prod.fst) machine after ∧
        after.Opens (above ++ (machine.heap.size, slot) :: below))) ∧
    (machine.openUpvalues = none → ∀ slots : List Nat, ∃ refs after entries,
      slots.mapM capture machine = .ok refs after ∧ refs.length = slots.length ∧
      (∀ one ∈ refs.zip slots, ∀ other ∈ refs.zip slots, one.1 = other.1 ↔ one.2 = other.2) ∧
      after.Opens entries ∧ ∀ slot, slot ∈ entries.map Prod.snd ↔ slot ∈ slots) := by
  constructor
  · intro entries slot opens
    rcases capture_cases opens.chain opens.descending slot with
      ⟨ref, member, done⟩ | ⟨above, below, after, rfl, high, low, done, inserts, chain⟩
    · refine ⟨fun other listed => ?_, fun absent => absurd member (absent ref)⟩
      cases opens.descending.ref_unique member listed
      exact done
    · refine ⟨fun other listed => ?_, fun _ => ?_⟩
      · rcases List.mem_append.mp listed with up | down
        · exact absurd (high _ up) (Nat.lt_irrefl _)
        · exact absurd (low _ down) (Nat.lt_irrefl _)
      · exact ⟨above, below, after, rfl, done, inserts, chain, opens.descending.insert _ high low⟩
  · intro empty slots
    have opens : machine.Opens [] := ⟨empty ▸ .nil, .nil⟩
    obtain ⟨refs, after, entries, done, length, opens, -, listed, new⟩ := captures_listed opens slots
    refine ⟨refs, after, entries, done, length, fun one member other member' => ?_, opens, fun slot => ?_⟩
    · obtain ⟨ref, slot⟩ := one
      obtain ⟨ref', slot'⟩ := other
      constructor
      · rintro rfl
        exact opens.chain.slot_unique (listed _ member) (listed _ member')
      · rintro rfl
        exact opens.descending.ref_unique (listed _ member) (listed _ member')
    · constructor
      · intro member
        obtain ⟨entry, listed, rfl⟩ := List.mem_map.mp member
        exact (new entry listed).resolve_left (by simp)
      · intro member
        obtain ⟨index, inside, rfl⟩ := List.getElem_of_mem member
        have inZip : index < (refs.zip slots).length := by simpa [length] using inside
        have pair := listed _ (List.getElem_mem inZip)
        rw [List.getElem_zip] at pair
        exact List.mem_map.mpr ⟨_, pair, rfl⟩

/-- Three slots out of order and one of them again. -/
theorem captures_find_or_insert_again : ∃ (after : Machine Unit) (entries : List (Ref × Nat)),
    [1, 3, 2, 1].mapM capture ({} : Machine Unit) = .ok [0, 1, 2, 0] after ∧ after.Opens entries ∧
      ∀ slot, slot ∈ entries.map Prod.snd ↔ slot ∈ [1, 3, 2, 1] := by
  obtain ⟨refs, after, entries, done, -, -, opens, slots⟩ :=
    (captures_find_or_insert ({} : Machine Unit)).2 rfl [1, 3, 2, 1]
  cases done
  exact ⟨_, entries, rfl, opens, slots⟩

theorem Closes.reads {last : Nat} (closes : Closes last entries machine after)
    (opens : machine.Opens entries) (inside : ∀ entry ∈ entries, entry.2 < machine.stack.size) {ref : Ref}
    (known : (∃ value next, machine.heap.get? ref = some (.upvalue ⟨.closed value, next⟩)) ∨ ∃ slot, (ref, slot) ∈ entries) :
    ∃ value, readUpvalue ref machine = .ok value machine ∧
      readUpvalue ref (after.truncate last) = .ok value (after.truncate last) := by
  have stack : after.stack = machine.stack := by
    rw [show after = _ from closes.same]
  rcases known with ⟨value, next, found⟩ | ⟨slot, listed⟩
  · -- No entry is closed, so this upvalue is not touched.
    have kept := closes.kept ref fun slot member => by
      obtain ⟨_, isOpen⟩ := opens.chain.found member
      cases found.symm.trans isOpen
    exact ⟨value, readUpvalue_closed found, readUpvalue_closed (kept.trans found)⟩
  · obtain ⟨next, found⟩ := opens.chain.found listed
    have room : slot < machine.stack.size := inside _ listed
    have held := Array.getElem?_eq_getElem room
    refine ⟨machine.stack[slot], by rw [readUpvalue_open found, held], ?_⟩
    by_cases low : slot < last
    · -- The slot is still there after the cut.
      have kept := closes.kept ref fun other member => opens.chain.slot_unique listed member ▸ low
      have cut : (after.truncate last).stack[slot]? = some machine.stack[slot] := by
        rw [Machine.truncate, getElem?_shrink_of_lt low, stack, held]
      have still : (after.truncate last).heap.get? ref = some (.upvalue ⟨.open slot, next⟩) := kept.trans found
      rw [readUpvalue_open still, cut]
    · obtain ⟨value, at_, closed⟩ := closes.closed ref slot listed (Nat.le_of_not_lt low)
      cases held.symm.trans at_
      exact readUpvalue_closed closed

theorem writeUpvalue_closed {ref : Ref} {old : Value} {next : Option Ref} (value : Value)
    (found : machine.heap.get? ref = some (.upvalue ⟨.closed old, next⟩)) :
    writeUpvalue ref value machine = .ok () (machine.setObject ref (.upvalue ⟨.closed value, next⟩)) := by
  have looked : look (·.heap.fetchUpvalue ref) machine = .ok ⟨.closed old, next⟩ machine :=
    look_eq (Heap.fetchUpvalue_eq found)
  exact bind_eq looked

theorem readUpvalue_congr {ref : Ref} {value : Value} (same : after.heap.get? ref = machine.heap.get? ref)
    (stack : after.stack = machine.stack) (reads : readUpvalue ref machine = .ok value machine) :
    readUpvalue ref after = .ok value after := by
  cases fetched : machine.heap.fetchUpvalue ref with
  | error error =>
    have failed : look (·.heap.fetchUpvalue ref) machine = .error error machine := by simp only [look, fetched]
    cases (bind_error failed).symm.trans reads
  | ok upvalue =>
    obtain ⟨location, next⟩ := upvalue
    have found := Heap.get?_of_fetchUpvalue fetched
    cases location with
    | closed held =>
      rw [readUpvalue_closed found] at reads
      cases reads
      exact readUpvalue_closed (same.trans found)
    | «open» slot =>
      rw [readUpvalue_open found] at reads
      rw [readUpvalue_open (same.trans found), stack]
      cases held : machine.stack[slot]? with
      | none => simp [held] at reads
      | some value => simpa [held] using reads

/-- Closing from a slot on ends, closes exactly the listed upvalues from that slot on with the values of their slots, and
takes them off the list. No captured variable changes its value when the slots are then cut off, and writing to a closed
one is seen by its own readers and by nobody else. -/
theorem closing_keeps_variables (machine : Machine State) (entries : List (Ref × Nat)) (opens : machine.Opens entries)
    (inside : ∀ entry ∈ entries, entry.2 < machine.stack.size) (last : Nat) :
    ∃ after, closeUpvalues last machine = .ok () after ∧ Closes last entries machine after ∧
      after.Opens (entries.filter (·.2 < last)) ∧
      (∀ ref, ((∃ value next, machine.heap.get? ref = some (.upvalue ⟨.closed value, next⟩)) ∨
          ∃ slot, (ref, slot) ∈ entries) →
        ∃ value, readUpvalue ref machine = .ok value machine ∧
          readUpvalue ref (after.truncate last) = .ok value (after.truncate last)) ∧
      ∀ (later : Machine State) (ref : Ref) (old value : Value) (next : Option Ref),
        later.heap.get? ref = some (.upvalue ⟨.closed old, next⟩) →
        ∃ written, writeUpvalue ref value later = .ok () written ∧
          written = later.setObject ref (.upvalue ⟨.closed value, next⟩) ∧ written.stack = later.stack ∧
          readUpvalue ref written = .ok value written ∧
          ∀ other, other ≠ ref → ∀ seen,
            readUpvalue other written = .ok seen written ↔ readUpvalue other later = .ok seen later := by
  obtain ⟨after, done, closes⟩ := closeUpvalues_closes opens.chain opens.descending inside last
  refine ⟨after, done, closes, ⟨closes.chain, opens.descending.filter _⟩, fun ref => closes.reads opens inside, ?_⟩
  intro later ref old value next found
  let written := later.setObject ref (.upvalue ⟨.closed value, next⟩)
  have own : written.heap.get? ref = some (.upvalue ⟨.closed value, next⟩) := by
    exact (Heap.get?_set found _ _).trans (if_pos rfl)
  refine ⟨written, writeUpvalue_closed value found, rfl, rfl, readUpvalue_closed own, fun other different seen => ?_⟩
  have same : written.heap.get? other = later.heap.get? other :=
    (Heap.get?_set found _ _).trans (if_neg (Ne.symm different))
  exact ⟨readUpvalue_congr same.symm rfl, readUpvalue_congr same rfl⟩

/-- Of two captured slots the upper one is closed. -/
theorem closing_keeps_variables_upper : ∃ machine after : Machine Unit,
    machine.Opens [(1, 2), (0, 0)] ∧ closeUpvalues 1 machine = .ok () after ∧ after.Opens [(0, 0)] ∧
      readUpvalue 1 (after.truncate 1) = .ok (.bool true) (after.truncate 1) := by
  let machine : Machine Unit :=
    { stack := #[.nil, .nil, .bool true], openUpvalues := some 1,
      store := { heap := ⟨#[.upvalue ⟨.open 0, none⟩, .upvalue ⟨.open 2, some 0⟩]⟩ } }
  have opens : machine.Opens [(1, 2), (0, 0)] := ⟨.cons rfl (.cons rfl .nil), by simp [Descending]⟩
  obtain ⟨after, done, -, opens', reads, -⟩ := closing_keeps_variables machine _ opens (by simp [machine]) 1
  obtain ⟨value, before, later⟩ := reads 1 (.inr ⟨2, by simp⟩)
  cases before
  exact ⟨machine, after, opens, done, opens', later⟩

end Exec

end StackScript
