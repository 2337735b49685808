import Mathlib.Data.List.Induction
import StackScript.Host.Registry

/-!
What a registry of host classes knows after any calls. It depends on the history of the calls only: of several members of one
type and name the first one stays, and of several names of one type. One call is described first, for any registry.
-/

namespace StackScript.Host

/-- The items whose keys have not occurred before. -/
def firsts {α κ : Type} [DecidableEq κ] (key : α → κ) : (known : List κ) → List α → List α
  | _, [] => []
  | known, item :: items => (if key item ∈ known then [] else [item]) ++ firsts key (known ++ [key item]) items

/-- The keys that have occurred before, each as often as it occurs again. -/
def repeats {κ : Type} [DecidableEq κ] : (known keys : List κ) → List κ
  | _, [] => []
  | known, key :: keys => (if key ∈ known then [key] else []) ++ repeats (known ++ [key]) keys

section Lists

variable {α κ : Type} [DecidableEq κ]

theorem firsts_append (key : α → κ) (known : List κ) (items further : List α) :
    firsts key known (items ++ further) = firsts key known items ++ firsts key (known ++ items.map key) further := by
  induction items generalizing known with
  | nil => simp [firsts]
  | cons item items ih => simp [firsts, ih]

theorem mem_of_mem_repeats {known keys : List κ} {key : κ} (member : key ∈ repeats known keys) : key ∈ keys := by
  induction keys generalizing known with
  | nil => cases member
  | cons first keys ih =>
    rcases List.mem_append.mp member with here | later
    · split at here
      · exact List.mem_singleton.mp here ▸ List.mem_cons_self
      · cases here
    · exact List.mem_cons_of_mem _ (ih later)

theorem repeats_append (known keys further : List κ) :
    repeats known (keys ++ further) = repeats known keys ++ repeats (known ++ keys) further := by
  induction keys generalizing known with
  | nil => simp [repeats]
  | cons key keys ih => simp [repeats, ih]

end Lists

variable {State : Type}

namespace Entry

variable (entry : Entry State) (members : List (String × Member State))

theorem add_member? (name other : String) (member : Member State) :
    (entry.add name member).1.member? other = (entry.member? other).or ([(name, member)].lookup other) := by
  unfold add
  cases found : entry.member? name with
  | none => exact List.lookup_append
  | some first =>
    by_cases same : other = name
    · simp [same, found]
    · simp [List.lookup_cons, beq_eq_false_iff_ne.mpr same]

theorem add_tag (name : String) (member : Member State) : (entry.add name member).1.tag = entry.tag := by
  unfold add
  split <;> rfl

theorem addAll_tag : (entry.addAll members).1.tag = entry.tag := by
  induction members generalizing entry with
  | nil => rfl
  | cons first members ih => exact (ih _).trans (entry.add_tag first.1 first.2)

theorem addAll_member? (name : String) : (entry.addAll members).1.member? name = (entry.member? name).or (members.lookup name) := by
  induction members generalizing entry with
  | nil => exact (Option.or_none).symm
  | cons first members ih =>
    change ((entry.add first.1 first.2).1.addAll members).1.member? name = _
    rw [ih, add_member?, Option.or_assoc, ← List.lookup_append]
    rfl

theorem addAll_warnings (id : Nat) {known : List (Nat × String)} (knows : ∀ name, (id, name) ∈ known ↔ (entry.member? name).isSome = true) :
    (entry.addAll members).2 = (repeats known (members.map (id, ·.1))).map fun key => ambiguous entry.tag.name key.2 := by
  induction members generalizing entry known with
  | nil => rfl
  | cons first members ih =>
    obtain ⟨name, member⟩ := first
    have knows' (other : String) : (id, other) ∈ known ++ [(id, name)] ↔ ((entry.add name member).1.member? other).isSome = true := by
      rw [add_member?, Option.isSome_or, Bool.or_eq_true, ← knows other, List.mem_append]
      refine or_congr_right ?_
      by_cases same : other = name
      · simp [same]
      · simp [same, List.lookup_cons, beq_eq_false_iff_ne.mpr same]
    have rest := ih _ knows'
    rw [add_tag] at rest
    simp only [addAll, rest, List.map_cons, repeats, List.map_append]
    congr 1
    unfold add
    cases found : entry.member? name with
    | none => simp [knows, found]
    | some first => simp [knows, found]

end Entry

namespace Registry

variable (registry : Registry State) (cls : HostClass State)

theorem entry?_tag {id : Nat} {entry : Entry State} (found : registry.entry? id = some entry) : entry.tag.id = id := by
  simpa using List.find?_some found

theorem find?_put (entry : Entry State) (entries : List (Entry State)) (id : Nat) : (put entry entries).find? (·.tag.id == id) =
    if entry.tag.id = id then some entry else entries.find? (·.tag.id == id) := by
  induction entries with
  | nil => by_cases here : entry.tag.id = id <;> simp [put, here]
  | cons first further ih =>
    unfold put
    by_cases same : first.tag.id = entry.tag.id
    · by_cases here : entry.tag.id = id <;> simp [same, here]
    · rw [if_neg same, List.find?_cons, List.find?_cons, ih]
      by_cases here : entry.tag.id = id
      · simp [here, beq_eq_false_iff_ne.mpr (here ▸ same : first.tag.id ≠ id)]
      · simp [here]

theorem map_tag_put (entry : Entry State) (entries : List (Entry State))
    (stays : ∀ first, entries.find? (·.tag.id == entry.tag.id) = some first → first.tag = entry.tag) : (put entry entries).map (·.tag) =
      entries.map (·.tag) ++ if entry.tag.id ∈ entries.map (·.tag.id) then [] else [entry.tag] := by
  induction entries with
  | nil => simp [put]
  | cons first further ih =>
    unfold put
    by_cases same : first.tag.id = entry.tag.id
    · simp [stays first (by simp [same])]
    · rw [if_neg same, List.map_cons, ih fun other found => stays other (by simpa [List.find?_cons, same] using found)]
      simp [Ne.symm same]

def before : Entry State := (registry.entry? cls.tag.id).getD ⟨cls.tag, []⟩

theorem before_id : (registry.before cls).tag.id = cls.tag.id := by
  unfold before
  cases found : registry.entry? cls.tag.id with
  | none => rfl
  | some entry => exact registry.entry?_tag found

theorem register_entry? (id : Nat) : Registry.entry? (registry.register cls).1 id =
    if cls.tag.id = id then some ((registry.before cls).addAll cls.members).1 else registry.entry? id := by
  have found := find?_put ((registry.before cls).addAll cls.members).1 registry.entries id
  rw [Entry.addAll_tag, before_id] at found
  exact found

theorem before_member? (name : String) : (registry.before cls).member? name = registry.member? cls.tag.id name := by
  unfold before member?
  cases registry.entry? cls.tag.id <;> rfl

theorem register_member? (id : Nat) (name : String) : (registry.register cls).1.member? id name =
    (registry.member? id name).or (if cls.tag.id = id then cls.members.lookup name else none) := by
  rw [member?, register_entry?]
  split
  · next same =>
    subst same
    rw [Option.bind_some, Entry.addAll_member?, before_member?]
  · exact (Option.or_none).symm

theorem register_warnings {known : List (Nat × String)}
    (knows : ∀ name, (cls.tag.id, name) ∈ known ↔ (registry.member? cls.tag.id name).isSome = true) :
    (registry.register cls).2.filter (·.level == .warn) =
      (repeats known (cls.members.map (cls.tag.id, ·.1))).map fun key => ambiguous (registry.before cls).tag.name key.2 := by
  have warned := (registry.before cls).addAll_warnings cls.members cls.tag.id fun name => by rw [before_member?, knows]
  have debug {events : List Event} (message : String) (details : List (String × String)) :
      (events ++ [(⟨.debug, message, details⟩ : Event)]).filter (·.level == .warn) = events.filter (·.level == .warn) := by simp
  refine (debug _ _).trans ((congrArg (List.filter _) warned).trans (List.filter_eq_self.mpr fun event member => ?_))
  obtain ⟨key, -, rfl⟩ := List.mem_map.mp member
  rfl

/-- What comes of calls one after the other, with all that has been reported. -/
def registerAll (calls : List (HostClass State)) : Registry State × List Event :=
  calls.foldl (fun done cls => ((done.1.register cls).1, done.2 ++ (done.1.register cls).2)) ({}, [])

/-- The members in the order of their registration, under their types and names. -/
def registrations (calls : List (HostClass State)) : List ((Nat × String) × Member State) :=
  calls.flatMap fun cls => cls.members.map fun member => ((cls.tag.id, member.1), member.2)

def hostName (calls : List (HostClass State)) (id : Nat) : String :=
  (((calls.map (·.tag)).find? (·.id == id)).map Tag.name).getD ""

section History

variable (calls : List (HostClass State))

theorem registerAll_snoc : registerAll (calls ++ [cls]) =
    (((registerAll calls).1.register cls).1, (registerAll calls).2 ++ ((registerAll calls).1.register cls).2) := by
  rw [registerAll, List.foldl_append]
  rfl

theorem lookup_members (id : Nat) (name : String) (members : List (String × Member State)) (other : Nat) :
    (members.map fun member => ((other, member.1), member.2)).lookup (id, name) = if other = id then members.lookup name else none := by
  induction members with
  | nil => simp
  | cons first members ih =>
    have pair : ((id, name) == (other, first.1)) = (id == other && name == first.1) := rfl
    rw [List.map_cons, List.lookup_cons, List.lookup_cons, ih, pair]
    by_cases same : other = id
    · simp [same]
    · simp [same, beq_eq_false_iff_ne.mpr (Ne.symm same)]

theorem registrations_snoc : registrations (calls ++ [cls]) =
    registrations calls ++ cls.members.map fun member => ((cls.tag.id, member.1), member.2) := by
  simp [registrations]

theorem registerAll_member? (id : Nat) (name : String) :
    (registerAll calls).1.member? id name = (registrations calls).lookup (id, name) := by
  induction calls using List.reverseRecOn with
  | nil => rfl
  | append_singleton calls cls ih =>
    rw [registerAll_snoc, register_member?, ih, registrations_snoc, List.lookup_append, lookup_members]

theorem registerAll_tag (id : Nat) : (Registry.entry? (registerAll calls).1 id).map (·.tag) = (calls.map (·.tag)).find? (·.id == id) := by
  induction calls using List.reverseRecOn with
  | nil => rfl
  | append_singleton calls cls ih =>
    rw [registerAll_snoc, register_entry?, List.map_append, List.find?_append, ← ih]
    by_cases same : cls.tag.id = id
    · subst same
      rw [if_pos rfl, Option.map_some, Entry.addAll_tag, before]
      cases Registry.entry? (registerAll calls).1 cls.tag.id <;> simp
    · simp [same]

theorem registerAll_contains (id : Nat) : (registerAll calls).1.contains id = true ↔ ∃ cls ∈ calls, cls.tag.id = id := by
  have tagged := congrArg Option.isSome (registerAll_tag calls id)
  rw [Option.isSome_map] at tagged
  rw [contains, tagged, List.find?_isSome]
  simp

theorem registerAll_tags : (registerAll calls).1.entries.map (·.tag) = firsts Tag.id [] (calls.map (·.tag)) := by
  induction calls using List.reverseRecOn with
  | nil => rfl
  | append_singleton calls cls ih =>
    have known : (cls.tag.id ∈ (registerAll calls).1.entries.map (·.tag.id)) ↔ cls.tag.id ∈ (calls.map (·.tag)).map Tag.id := by
      have named := registerAll_contains calls cls.tag.id
      simp only [contains, entry?, List.find?_isSome, beq_iff_eq] at named
      simpa using named
    have placed := map_tag_put (((registerAll calls).1.before cls).addAll cls.members).1 (registerAll calls).1.entries
    rw [Entry.addAll_tag, before_id] at placed
    rw [registerAll_snoc, List.map_append, firsts_append, ← ih]
    refine (placed fun first found => ?_).trans ?_
    · rw [before, show Registry.entry? (registerAll calls).1 cls.tag.id = some first from found, Option.getD_some]
    · simp only [List.map_cons, List.map_nil, firsts, List.nil_append, List.append_nil]
      by_cases named : cls.tag.id ∈ (calls.map (·.tag)).map Tag.id
      · rw [if_pos (known.mpr named), if_pos named]
      · have fresh : Registry.entry? (registerAll calls).1 cls.tag.id = none := by
          refine List.find?_eq_none.mpr fun entry member same => named (known.mp ?_)
          exact List.mem_map.mpr ⟨entry, member, beq_iff_eq.mp same⟩
        rw [if_neg (mt known.mp named), if_neg named, before, fresh, Option.getD_none]

theorem hostName_snoc {id : Nat} (named : ∃ other ∈ calls, other.tag.id = id) : hostName (calls ++ [cls]) id = hostName calls id := by
  have some : ((calls.map (·.tag)).find? (·.id == id)).isSome = true := by simpa using named
  obtain ⟨tag, found⟩ := Option.isSome_iff_exists.mp some
  rw [hostName, hostName, List.map_append, List.find?_append, found, Option.some_or]

theorem hostName_last : hostName (calls ++ [cls]) cls.tag.id = ((registerAll calls).1.before cls).tag.name := by
  rw [hostName, ← registerAll_tag, registerAll_snoc, register_entry?, if_pos rfl, Option.map_some, Option.map_some, Option.getD_some,
    Entry.addAll_tag]

theorem registerAll_warnings : (registerAll calls).2.filter (·.level == .warn) =
    (repeats [] ((registrations calls).map (·.1))).map fun key => ambiguous (hostName calls key.1) key.2 := by
  induction calls using List.reverseRecOn with
  | nil => rfl
  | append_singleton calls cls ih =>
    have knows (name : String) : (cls.tag.id, name) ∈ (registrations calls).map (·.1) ↔
        ((registerAll calls).1.member? cls.tag.id name).isSome = true := by
      rw [registerAll_member?]
      simp [List.lookup_isSome_iff]
    rw [registerAll_snoc, List.filter_append, ih, register_warnings _ _ knows, registrations_snoc, List.map_append, repeats_append,
      List.map_append]
    congr 1
    · refine List.map_congr_left fun key member => ?_
      obtain ⟨registered, kept, rfl⟩ := List.mem_map.mp (mem_of_mem_repeats member)
      obtain ⟨other, listed, inside⟩ := List.mem_flatMap.mp kept
      obtain ⟨named, -, rfl⟩ := List.mem_map.mp inside
      rw [hostName_snoc cls calls ⟨other, listed, rfl⟩]
    · rw [List.map_map, List.nil_append]
      refine List.map_congr_left fun key member => ?_
      obtain ⟨named, -, rfl⟩ := List.mem_map.mp (mem_of_mem_repeats member)
      rw [hostName_last]

end History

end Registry

end StackScript.Host

namespace StackScript

open Host Registry

/-- The first registration wins, whatever the calls are. A look-up gives the member that was registered first under the type and
the name. Types are listed once each, in the order of their first calls and with the names given there, also those without
members. There is one warning for each member that is dropped. Another call changes no look-up that has found something, and none
of another type. -/
theorem first_registration_wins {State : Type} (calls : List (HostClass State)) :
    (∀ id name, (registerAll calls).1.member? id name = (registrations calls).lookup (id, name)) ∧
    (registerAll calls).1.entries.map (·.tag) = firsts Tag.id [] (calls.map (·.tag)) ∧
    (∀ id, (registerAll calls).1.contains id = true ↔ ∃ cls ∈ calls, cls.tag.id = id) ∧
    (registerAll calls).2.filter (·.level == .warn) =
      (repeats [] ((registrations calls).map (·.1))).map (fun key => ambiguous (hostName calls key.1) key.2) ∧
    ∀ (registry : Registry State) (cls : HostClass State) (id : Nat) (name : String),
      (∀ member, registry.member? id name = some member → (registry.register cls).1.member? id name = some member) ∧
        (id ≠ cls.tag.id → (registry.register cls).1.member? id name = registry.member? id name) := by
  refine ⟨registerAll_member? calls, registerAll_tags calls, registerAll_contains calls, registerAll_warnings calls,
    fun registry cls id name => ⟨fun member found => ?_, fun other => ?_⟩⟩
  · rw [register_member?, found, Option.some_or]
  · rw [register_member?, if_neg other.symm, Option.or_none]

/-- A type that is registered twice, under two names: the first member of a name stays, with a warning about the other one. -/
theorem first_registration_wins_twice : ∃ first second : Member Unit,
    (registerAll [⟨⟨1, "A"⟩, [("x", first)]⟩, ⟨⟨1, "B"⟩, [("x", second)]⟩]).1.entries.map (·.tag) = [⟨1, "A"⟩] ∧
    (registerAll [⟨⟨1, "A"⟩, [("x", first)]⟩, ⟨⟨1, "B"⟩, [("x", second)]⟩]).2.filter (·.level == .warn) = [ambiguous "A" "x"] := by
  refine ⟨⟨none, .method [] .void fun state _ => pure (.nil, state)⟩, ⟨none, .data .number none none⟩, ?_, ?_⟩
  · exact (first_registration_wins _).2.1
  · exact (first_registration_wins _).2.2.2.1

end StackScript
