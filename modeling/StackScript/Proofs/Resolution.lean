import StackScript.Proofs.Scoping

/-!
Where captured names lead. A capture of a local names a slot of the next function out, any other capture names a capture
there; so from a capture one can walk outwards until a local is reached. Threading a name gives a capture from which the walk
ends at the innermost variable of that name, and on its way it changes as little as it can: each function that is passed
through gets at most one new capture, and the variable is marked as captured.
-/

namespace StackScript.Compile

/-- What the capture names is there, in the next function out. -/
def Links : List FunctionScope → Capture → Prop
  | [], _ => False
  | outer :: _, capture => capture.index < if capture.isLocal then outer.locals.size else outer.captures.size

/-- The captures of functions, the innermost first, all name something in the next function out. -/
def Linked : List FunctionScope → Prop
  | [] => True
  | scope :: outers => (∀ capture ∈ scope.captures, Links outers capture) ∧ Linked outers

/-- Walking outwards from a capture of the first function ends at a slot of the function that is so far out. -/
inductive LeadsTo : List FunctionScope → (index distance slot : Nat) → Prop where
  | local {scope : FunctionScope} {outers : List FunctionScope} {index slot : Nat}
      (found : scope.captures[index]? = some ⟨true, slot⟩) : LeadsTo (scope :: outers) index 1 slot
  | capture {scope : FunctionScope} {outers : List FunctionScope} {index next distance slot : Nat}
      (found : scope.captures[index]? = some ⟨false, next⟩) (further : LeadsTo outers next distance slot) :
      LeadsTo (scope :: outers) index (distance + 1) slot

/-- Of the functions around, the nearest one that declares the name is so far out, and the slot is its last local of that
name. -/
inductive Nearest (name : String) : List FunctionScope → (distance slot : Nat) → Prop where
  | here {outer : FunctionScope} {further : List FunctionScope} {slot : Nat} (binds : outer.Binds name slot) :
      Nearest name (outer :: further) 1 slot
  | further {outer : FunctionScope} {further : List FunctionScope} {distance slot : Nat} (absent : ¬ outer.Declares name)
      (beyond : Nearest name further distance slot) : Nearest name (outer :: further) (distance + 1) slot

/-- The captures are the same, or there is a new one at the end that was not among them. -/
def Appended (before after : Array Capture) : Prop :=
  after = before ∨ ∃ capture, capture ∉ before ∧ after = before.push capture

/-- A variable so far out has been captured: the functions in front of its own may have got a capture, the slot is marked, and
all else is as before. -/
inductive Captured (slot : Nat) : (distance : Nat) → (before after : List FunctionScope) → Prop where
  | here {outer : FunctionScope} {further : List FunctionScope} :
      Captured slot 0 (outer :: further) (outer.markCaptured slot :: further)
  | through {scope : FunctionScope} {outers outers' : List FunctionScope} {distance : Nat} {captures : Array Capture}
      (grown : Appended scope.captures captures) (further : Captured slot distance outers outers') :
      Captured slot (distance + 1) (scope :: outers) ({ scope with captures } :: outers')

variable {name : String} {inner : FunctionScope} {outers outers' : List FunctionScope} {distance slot : Nat}

namespace FunctionScope

variable {scope : FunctionScope}

theorem slotOf?_of_absent (absent : ¬ scope.Declares name) : scope.slotOf? name = .ok none := by
  rw [slotOf?]
  cases found : slotBelow? scope.locals name scope.locals.size with
  | none => rfl
  | some slot =>
    obtain ⟨⟨binding, at_, same⟩, -⟩ := slotBelow?_some found
    exact absurd ⟨binding, Array.mem_of_getElem? at_, same⟩ absent

theorem slotOf?_of_binds (binds : scope.Binds name slot) : scope.slotOf? name = .ok (some slot) := by
  obtain ⟨binding, at_, same, readable⟩ := binds.found
  have inside := (Array.getElem?_eq_some_iff.mp at_).1
  rw [slotOf?]
  cases found : slotBelow? scope.locals name scope.locals.size with
  | none => exact absurd same (slotBelow?_none found slot binding inside at_)
  | some other =>
    obtain ⟨⟨last, last_at, last_same⟩, innermost⟩ := slotBelow?_some found
    have low : ¬ other < slot := fun above => innermost slot binding above inside at_ same
    have high : ¬ slot < other := fun above => binds.innermost other last above last_at last_same
    obtain rfl : other = slot := by omega
    simp [at_, readable]

theorem binds_or_absent (readable : ∀ binding ∈ scope.locals, binding.name = name → binding.depth.isSome = true) :
    ¬ scope.Declares name ∨ ∃ slot, scope.Binds name slot := by
  cases found : slotBelow? scope.locals name scope.locals.size with
  | none =>
    have missing : scope.slotOf? name = .ok none := by rw [slotOf?, found]
    exact .inl (not_declares_of_slotOf? missing)
  | some slot =>
    obtain ⟨⟨binding, at_, same⟩, innermost⟩ := slotBelow?_some found
    refine .inr ⟨slot, ⟨binding, at_, same, readable binding (Array.mem_of_getElem? at_) same⟩, fun i other above other_at => ?_⟩
    exact innermost i other above (Array.getElem?_eq_some_iff.mp other_at).1 other_at

theorem addCapture_cases (scope : FunctionScope) (capture : Capture) :
    scope.addCapture capture = .error .tooManyUpvalues ∧ scope.captures.size = maxCaptures ∨
      ∃ index captures, scope.addCapture capture = .ok (index, { scope with captures }) ∧ Appended scope.captures captures ∧
        captures[index]? = some capture ∧ ∀ other ∈ captures, other ∈ scope.captures ∨ other = capture := by
  unfold addCapture
  cases present : scope.captures.idxOf? capture with
  | some index =>
    refine .inr ⟨index, scope.captures, rfl, .inl rfl, ?_, fun _ => .inl⟩
    rw [Array.idxOf?_eq_map_finIdxOf?_val] at present
    obtain ⟨place, found, rfl⟩ := Option.map_eq_some_iff.mp present
    rw [Array.getElem?_eq_getElem place.isLt]
    exact congrArg some (Array.finIdxOf?_eq_some_iff.mp found).1
  | none =>
    dsimp only
    split
    · exact .inl ⟨rfl, ‹_›⟩
    · have absent : capture ∉ scope.captures := fun member => by simp [member] at present
      exact .inr ⟨_, _, rfl, .inr ⟨capture, absent, rfl⟩, by simp, by simp⟩

end FunctionScope

theorem Appended.size_le {before after : Array Capture} (grown : Appended before after) : before.size ≤ after.size := by
  rcases grown with rfl | ⟨capture, -, rfl⟩
  · exact Nat.le_refl _
  · rw [Array.size_push]
    exact Nat.le_succ _

theorem Captured.links (captured : Captured slot distance outers outers') {capture : Capture}
    (links : Links outers capture) : Links outers' capture := by
  cases captured with
  | here => simpa [Links, FunctionScope.markCaptured] using links
  | through grown _ =>
    have size := grown.size_le
    obtain ⟨isLocal, index⟩ := capture
    cases isLocal with
    | true => exact links
    | false => exact Nat.lt_of_lt_of_le links size

theorem LeadsTo.index_lt {index : Nat} (leads : LeadsTo (inner :: outers) index distance slot) :
    Links (inner :: outers) ⟨false, index⟩ := by
  cases leads with
  | «local» found | capture found _ => exact (Array.getElem?_eq_some_iff.mp found).1

/-- Where the variable was found, the capture at the index leads to it, nothing else has been touched, and all captures still
name something. -/
structure Threading.Reaches (threading : Threading) (inner : FunctionScope) (outers : List FunctionScope)
    (index distance slot : Nat) : Prop where
  given : threading.index = .ok (some index)
  leads : LeadsTo (threading.inner :: threading.outers) index distance slot
  captured : Captured slot distance (inner :: outers) (threading.inner :: threading.outers)
  linked : Linked (threading.inner :: threading.outers)

theorem Threading.capture_reaches {capture : Capture} (linked : Linked (inner :: outers)) (around : Linked outers')
    (captured : Captured slot distance outers outers') (links : Links outers' capture)
    (leads : ∀ {scope : FunctionScope} {index : Nat}, scope.captures[index]? = some capture →
      LeadsTo (scope :: outers') index (distance + 1) slot) :
    (Threading.capture inner outers' capture).index = .error .tooManyUpvalues ∧ inner.captures.size = maxCaptures ∨
      ∃ index, (Threading.capture inner outers' capture).Reaches inner outers index (distance + 1) slot := by
  rcases inner.addCapture_cases capture with ⟨refused, full⟩ | ⟨index, captures, added, grown, found, members⟩
  · refine .inl ⟨?_, full⟩
    rw [Threading.capture, refused]
  · refine .inr ⟨index, ?_⟩
    rw [Threading.capture, added]
    refine ⟨rfl, leads found, .through grown captured, fun other member => ?_, around⟩
    rcases members other member with old | rfl
    · exact captured.links (linked.1 other old)
    · exact links

theorem Nearest.thread (nearest : Nearest name outers distance slot) (linked : Linked (inner :: outers)) :
    ((thread name inner outers).index = .error .tooManyUpvalues ∧
        ∃ scope ∈ (inner :: outers).take distance, scope.captures.size = maxCaptures) ∨
      ∃ index, (thread name inner outers).Reaches inner outers index distance slot := by
  induction nearest generalizing inner with
  | @here outer further slot binds =>
    obtain ⟨binding, at_, -⟩ := binds.found
    have inside := (Array.getElem?_eq_some_iff.mp at_).1
    have around : Linked (outer.markCaptured slot :: further) := linked.2
    have links : Links (outer.markCaptured slot :: further) ⟨true, slot⟩ := by
      simpa [Links, FunctionScope.markCaptured] using inside
    rw [Compile.thread, FunctionScope.slotOf?_of_binds binds]
    rcases Threading.capture_reaches linked around .here links .local with ⟨refused, full⟩ | reaches
    · exact .inl ⟨refused, inner, by simp, full⟩
    · exact .inr reaches
  | @further outer further distance slot absent beyond ih =>
    rw [Compile.thread, FunctionScope.slotOf?_of_absent absent]
    rcases ih linked.2 with ⟨refused, scope, member, full⟩ | ⟨index, reaches⟩
    · dsimp only
      rw [refused]
      exact .inl ⟨rfl, scope, List.mem_cons_of_mem inner member, full⟩
    · dsimp only
      rw [reaches.given]
      have links : Links ((Compile.thread name outer further).inner :: (Compile.thread name outer further).outers) ⟨false, index⟩ :=
        reaches.leads.index_lt
      rcases Threading.capture_reaches linked reaches.linked reaches.captured links (.capture · reaches.leads) with
        ⟨refused, full⟩ | reaches
      · exact .inl ⟨refused, inner, by simp, full⟩
      · exact .inr reaches

theorem thread_absent (absent : ∀ outer ∈ outers, ¬ outer.Declares name) : thread name inner outers = ⟨.ok none, inner, outers⟩ := by
  induction outers generalizing inner with
  | nil => rfl
  | cons outer further ih =>
    rw [thread, FunctionScope.slotOf?_of_absent (absent outer List.mem_cons_self),
      ih fun other member => absent other (List.mem_cons_of_mem outer member)]

theorem nearest_or_absent
    (readable : ∀ outer ∈ outers, ∀ binding ∈ outer.locals, binding.name = name → binding.depth.isSome = true) :
    (∀ outer ∈ outers, ¬ outer.Declares name) ∨ ∃ distance slot, Nearest name outers distance slot := by
  induction outers with
  | nil => exact .inl nofun
  | cons outer further ih =>
    rcases FunctionScope.binds_or_absent (readable outer List.mem_cons_self) with absent | ⟨slot, binds⟩
    · rcases ih fun other member => readable other (List.mem_cons_of_mem outer member) with none | ⟨distance, slot, nearest⟩
      · refine .inl fun other member => ?_
        rcases List.mem_cons.mp member with rfl | member
        · exact absent
        · exact none other member
      · exact .inr ⟨distance + 1, slot, .further absent nearest⟩
    · exact .inr ⟨1, slot, .here binds⟩

theorem Captured.nodup (captured : Captured slot distance outers outers')
    (nodup : ∀ scope ∈ outers, scope.captures.toList.Nodup) : ∀ scope ∈ outers', scope.captures.toList.Nodup := by
  induction captured with
  | @here outer further =>
    intro scope member
    rcases List.mem_cons.mp member with rfl | member
    · exact nodup outer List.mem_cons_self
    · exact nodup scope (List.mem_cons_of_mem _ member)
  | through grown _ ih =>
    intro scope member
    rcases List.mem_cons.mp member with rfl | member
    · have before := nodup _ List.mem_cons_self
      rcases grown with rfl | ⟨capture, absent, rfl⟩
      · exact before
      · rw [Array.toList_push]
        rw [List.nodup_append]
        refine ⟨before, by simp, fun other member last isLast same => absent ?_⟩
        rw [← List.mem_singleton.mp isLast, ← same]
        exact Array.mem_toList_iff.mp member
    · exact ih (fun other member => nodup other (List.mem_cons_of_mem _ member)) scope member

/-- Threading a name finds the innermost variable around. If no function declares the name, there is no capture and nothing
changes. Otherwise, unless the list of some function on the way is full, walking outwards from the capture ends at the last
local of that name in the nearest function that declares it; captures keep their indices, each function on the way gets at most
one, which it did not have, and of the locals only that one becomes captured. -/
theorem thread_finds_innermost (linked : Linked (inner :: outers))
    (readable : ∀ outer ∈ outers, ∀ binding ∈ outer.locals, binding.name = name → binding.depth.isSome = true) :
    (∀ outer ∈ outers, ¬ outer.Declares name) ∧ thread name inner outers = ⟨.ok none, inner, outers⟩ ∨
      ∃ distance slot, Nearest name outers distance slot ∧
        ((thread name inner outers).index = .error .tooManyUpvalues ∧
            (∃ scope ∈ (inner :: outers).take distance, scope.captures.size = maxCaptures) ∨
          ∃ index, (thread name inner outers).Reaches inner outers index distance slot ∧
            ((∀ scope ∈ inner :: outers, scope.captures.toList.Nodup) →
              ∀ scope ∈ (thread name inner outers).inner :: (thread name inner outers).outers, scope.captures.toList.Nodup)) := by
  rcases nearest_or_absent readable with absent | ⟨distance, slot, nearest⟩
  · exact .inl ⟨absent, thread_absent absent⟩
  · refine .inr ⟨distance, slot, nearest, ?_⟩
    rcases nearest.thread linked with full | ⟨index, reaches⟩
    · exact .inl full
    · exact .inr ⟨index, reaches, reaches.captured.nodup⟩

/-- Of two variables of one name two functions further out, the last one is found. -/
theorem thread_finds_innermost_shadowed :
    let inner := FunctionScope.enter .function "h"
    let script := { FunctionScope.enter .script "" with locals := #[⟨"", some 0, false⟩, ⟨"x", some 1, false⟩, ⟨"x", some 2, false⟩] }
    let outers := [.enter .function "g", script]
    Linked (inner :: outers) ∧ Nearest "x" outers 2 2 ∧
      ∃ distance slot index, Nearest "x" outers distance slot ∧ (thread "x" inner outers).Reaches inner outers index distance slot := by
  intro inner script outers
  have linked : Linked (inner :: outers) := ⟨nofun, nofun, nofun, trivial⟩
  have binds : script.Binds "x" 2 := by
    refine ⟨⟨_, rfl, rfl, rfl⟩, fun i binding above found => ?_⟩
    have inside : i < 3 := (Array.getElem?_eq_some_iff.mp found).1
    omega
  have absent : ¬ (FunctionScope.enter .function "g").Declares "x" := by
    rintro ⟨binding, member, same⟩
    obtain rfl := Array.mem_singleton.mp member
    exact absurd same (by decide)
  have readable : ∀ outer ∈ outers, ∀ binding ∈ outer.locals, binding.name = "x" → binding.depth.isSome = true := by decide
  refine ⟨linked, .further absent (.here binds), ?_⟩
  rcases thread_finds_innermost linked readable with ⟨none, -⟩ | ⟨distance, slot, nearest, ⟨refused, -⟩ | ⟨index, reaches, -⟩⟩
  · exact absurd binds.declares (none script (by simp [outers]))
  · have found : (thread "x" inner outers).index = .ok (some 0) := by decide +kernel
    cases found.symm.trans refused
  · exact ⟨distance, slot, index, nearest, reaches⟩

end StackScript.Compile
