import Mathlib.Data.List.DropRight
import StackScript.Proofs.Composition
import StackScript.Proofs.ScopeKeeping

/-!
The tables of locals and the scopes of the text. The locals of a function stand in the order of their scopes, the outermost
first, and a scope declares a name once. Only the newest local may still be without a scope, while it is being initialized.
So the last local of a name is the one of the innermost scope, the locals of a scope that ends are the last ones, and a scope
declares a name if one of those has it.
-/

namespace StackScript.Compile

open Parse

/-- What the scopes depend on: the names and depths of the locals, and the depth of the innermost open scope. -/
structure ScopeTable where
  entries : List (String × Option Nat)
  depth : Nat
deriving DecidableEq

def FunctionScope.table (scope : FunctionScope) : ScopeTable :=
  ⟨scope.locals.toList.map fun binding => (binding.name, binding.depth), scope.depth⟩

/-- The first entry may stand in front of the second: it is initialized, and its scope is the same or further out. In one scope
the names differ. Nothing but the first slot belongs to no scope. -/
def Precedes (first second : String × Option Nat) : Prop :=
  ∃ depth, first.2 = some depth ∧ ∀ own ∈ second.2, depth ≤ own ∧ 0 < own ∧ (depth = own → first.1 ≠ second.1)

section Lists

variable {α : Type} {p : α → Bool} {xs : List α}

theorem rdropWhile_eq_filter (upwards : xs.Pairwise fun x y => p x = true → p y = true) : xs.rdropWhile p = xs.filter (!p ·) := by
  induction xs using List.reverseRecOn with
  | nil => rfl
  | append_singleton xs last ih =>
    obtain ⟨upwards, -, precede⟩ := List.pairwise_append.mp upwards
    rw [List.rdropWhile_concat, List.filter_append]
    split
    · next has => simp [has, ih upwards]
    · next lacks =>
      have none : xs.filter (!p ·) = xs := by
        refine List.filter_eq_self.mpr fun x member => ?_
        simpa using fun has => lacks (precede x member last (List.mem_singleton_self last) has)
      simp [none, lacks]

theorem mem_takeWhile_reverse (upwards : xs.Pairwise fun x y => p x = true → p y = true) (x : α) :
    x ∈ xs.reverse.takeWhile p ↔ x ∈ xs ∧ p x = true := by
  refine ⟨fun member => ⟨?_, List.mem_takeWhile_imp member⟩, fun ⟨member, has⟩ => ?_⟩
  · exact List.mem_reverse.mp ((List.takeWhile_prefix p).subset member)
  · rw [← List.rdropWhile_append_rtakeWhile (p := p) (l := xs), List.mem_append, rdropWhile_eq_filter upwards] at member
    rcases member with kept | dropped
    · simp [has] at kept
    · exact List.mem_reverse.mp dropped

theorem take_eq_rdropWhile (p : α → Bool) (xs : List α) : xs.take (xs.length - (xs.reverse.takeWhile p).length) = xs.rdropWhile p := by
  have whole : xs.rdropWhile p ++ xs.rtakeWhile p = xs := List.rdropWhile_append_rtakeWhile
  have length : (xs.reverse.takeWhile p).length = (xs.rtakeWhile p).length := List.length_reverse.symm
  have sum := congrArg List.length whole
  rw [List.length_append] at sum
  calc
    _ = (xs.rdropWhile p ++ xs.rtakeWhile p).take (xs.length - (xs.reverse.takeWhile p).length) := by rw [whole]
    _ = xs.rdropWhile p := List.take_left' (by omega)

end Lists

namespace ScopeTable

variable {table : ScopeTable} {name : String} {entries : List (String × Option Nat)} {depth : Nat}

/-- The entries are in order, behind the slot of the callee. -/
structure Tiered (table : ScopeTable) : Prop where
  first : ∃ name, table.entries.head? = some (name, some 0)
  ordered : table.entries.Pairwise Precedes

/-- No entry belongs to a scope that has ended. -/
structure Lexical (table : ScopeTable) : Prop extends table.Tiered where
  within : ∀ entry ∈ table.entries, ∀ depth ∈ entry.2, depth ≤ table.depth

structure Settled (table : ScopeTable) : Prop extends table.Lexical where
  initialized : ∀ entry ∈ table.entries, entry.2 ≠ none

structure Clear (table : ScopeTable) (name : String) : Prop extends table.Settled where
  inside : table.depth ≠ 0
  undeclared : (name, some table.depth) ∉ table.entries

/-- Entries of scopes that have ended are left only below an entry that is not initialized. -/
structure Frayed (table : ScopeTable) : Prop extends table.Tiered where
  within : (∀ entry ∈ table.entries, ∀ depth ∈ entry.2, depth ≤ table.depth) ∨ ∃ name, table.entries.getLast? = some (name, none)

theorem Lexical.frayed (lexical : table.Lexical) : table.Frayed := ⟨lexical.toTiered, .inl lexical.within⟩

theorem Clear.push (clear : table.Clear name) {own : Option Nat} (current : ∀ depth ∈ own, depth = table.depth) :
    Lexical ⟨table.entries ++ [(name, own)], table.depth⟩ := by
  obtain ⟨first, callee⟩ := clear.first
  refine ⟨⟨⟨first, by simp [List.head?_append, callee]⟩, List.pairwise_append.mpr ⟨clear.ordered, List.pairwise_singleton .., ?_⟩⟩, ?_⟩
  · intro earlier member last same
    cases List.mem_singleton.mp same
    obtain ⟨depth, initialized⟩ := Option.ne_none_iff_exists'.mp (clear.initialized earlier member)
    refine ⟨depth, initialized, fun own is_own => ?_⟩
    cases current own is_own
    refine ⟨clear.within earlier member depth initialized, Nat.pos_of_ne_zero clear.inside, fun alike named => clear.undeclared ?_⟩
    obtain rfl : earlier.1 = name := named
    rwa [← alike, ← initialized]
  · intro entry member depth has
    rcases List.mem_append.mp member with earlier | last
    · exact clear.within entry earlier depth has
    · cases List.mem_singleton.mp last
      exact Nat.le_of_eq (current depth has)

theorem Clear.declare (clear : table.Clear name) : Settled ⟨table.entries ++ [(name, some table.depth)], table.depth⟩ := by
  refine ⟨clear.push (by simp), fun entry member => ?_⟩
  rcases List.mem_append.mp member with earlier | last
  · exact clear.initialized entry earlier
  · cases List.mem_singleton.mp last
    exact Option.some_ne_none _

theorem Settled.begins (settled : table.Settled) (name : String) : Clear ⟨table.entries, table.depth + 1⟩ name := by
  refine ⟨⟨⟨⟨settled.first, settled.ordered⟩, fun entry member depth has => Nat.le_succ_of_le (settled.within entry member depth has)⟩,
    settled.initialized⟩, Nat.succ_ne_zero _, fun declared => ?_⟩
  exact Nat.not_succ_le_self _ (settled.within _ declared _ rfl)

def deeper (depth : Nat) (entry : String × Option Nat) : Bool := entry.2.any (· > depth)

def ended (table : ScopeTable) : ScopeTable := ⟨table.entries.rdropWhile (deeper (table.depth - 1)), table.depth - 1⟩

theorem Settled.deeper_last (settled : table.Settled) (depth : Nat) :
    table.entries.rdropWhile (deeper depth) = table.entries.filter (!deeper depth ·) := by
  refine rdropWhile_eq_filter (settled.ordered.imp_of_mem fun {first second} _ member precedes isDeeper => ?_)
  obtain ⟨outer, has, before⟩ := precedes
  obtain ⟨own, has'⟩ := Option.ne_none_iff_exists'.mp (settled.initialized second member)
  have above := (before own has').1
  simp only [deeper, has, has', Option.any_some, decide_eq_true_eq] at isDeeper ⊢
  omega

theorem Tiered.ended (tiered : table.Tiered) : table.ended.Tiered := by
  obtain ⟨first, callee⟩ := tiered.first
  refine ⟨⟨first, ?_⟩, tiered.ordered.sublist (List.rdropWhile_prefix ..).sublist⟩
  obtain ⟨rest, cons⟩ : ∃ rest, table.entries = (first, some 0) :: rest := List.head?_eq_some_iff.mp callee
  obtain ⟨dropped, whole⟩ := List.rdropWhile_prefix (deeper (table.depth - 1)) (l := table.entries)
  cases kept : table.entries.rdropWhile (deeper (table.depth - 1)) with
  | nil =>
    have deep := List.rdropWhile_eq_nil_iff.mp kept (first, some 0) (cons ▸ List.mem_cons_self)
    simp [deeper] at deep
  | cons head tail =>
    rw [kept, cons] at whole
    cases whole
    simp [ScopeTable.ended, kept]

theorem Settled.ended (settled : table.Settled) : table.ended.Settled := by
  have member {entry : String × Option Nat} (kept : entry ∈ table.ended.entries) :=
    (List.rdropWhile_prefix (deeper (table.depth - 1)) _).subset kept
  refine ⟨⟨settled.toTiered.ended, fun entry kept depth has => ?_⟩, fun entry kept => settled.initialized entry (member kept)⟩
  simp only [ScopeTable.ended, settled.deeper_last, List.mem_filter, deeper, Option.mem_def.mp has] at kept
  simpa [ScopeTable.ended] using kept.2

theorem Frayed.ended (frayed : table.Frayed) : table.ended.Frayed := by
  refine ⟨frayed.toTiered.ended, ?_⟩
  rcases List.eq_nil_or_concat' table.entries with empty | ⟨entries, ⟨name, own⟩, whole⟩
  · exact .inl (by simp [ScopeTable.ended, empty])
  · cases own with
    | none => exact .inr ⟨name, by simp [ScopeTable.ended, whole, deeper]⟩
    | some depth =>
      refine .inl (Settled.ended ⟨⟨frayed.toTiered, ?_⟩, fun entry member => ?_⟩).within
      · exact frayed.within.resolve_right (by simp [whole])
      · have ordered := frayed.ordered
        rw [whole] at ordered member
        rcases List.mem_append.mp member with earlier | last
        · obtain ⟨own, has, -⟩ := (List.pairwise_append.mp ordered).2.2 entry earlier _ (List.mem_singleton_self _)
          simp [has]
        · cases List.mem_singleton.mp last
          exact Option.some_ne_none _

end ScopeTable

section Scopes

variable {scope : FunctionScope} {name : String} {state : Compilation}

theorem table_of_kept {before after : FunctionScope} (locals : LocalsKept before.locals after.locals)
    (size : after.locals.size = before.locals.size) (depth : after.depth = before.depth) : after.table = before.table := by
  unfold FunctionScope.table
  rw [depth]
  congr 1
  refine List.ext_getElem (by simpa using size) fun i inside inside' => ?_
  simp only [List.length_map, Array.length_toList] at inside inside'
  obtain ⟨later, found, widened⟩ := locals i before.locals[i] (Array.getElem?_eq_getElem inside')
  rw [Array.getElem?_eq_getElem inside] at found
  cases found
  simp [widened.name, widened.depth]

theorem endScope_table (state : Compilation) : state.endScope.scope.table = state.scope.table.ended := by
  obtain ⟨chunk, ended⟩ := endScope_recoded state
  have kept := take_eq_rdropWhile (·.isDeeperThan (state.scope.depth - 1)) state.scope.locals.toList
  rw [ended]
  simp only [FunctionScope.table, ScopeTable.ended, ScopeTable.mk.injEq, and_true, List.rdropWhile, ← List.map_reverse, List.dropWhile_map]
  rw [Array.length_toList] at kept
  simp only [Array.shrink_eq_take, Array.take_eq_extract, Array.toList_extract, Compilation.leaving, List.extract_eq_take_drop, List.drop_zero, Nat.sub_zero, kept]
  rfl

theorem declaresName_iff (settled : scope.table.Settled) (name : String) :
    declaresName scope name = true ↔ (name, some scope.depth) ∈ scope.table.entries := by
  have upwards : scope.locals.toList.Pairwise fun first second : Local =>
      first.depth.all (· ≥ scope.depth) = true → second.depth.all (· ≥ scope.depth) = true := by
    refine (List.pairwise_map.mp settled.ordered).imp fun {first second} precedes isOwn => ?_
    obtain ⟨outer, has, before⟩ := precedes
    cases own : second.depth with
    | none => rfl
    | some depth =>
      have above := (before depth own).1
      have has : first.depth = some outer := has
      simp only [has, Option.all_some, decide_eq_true_eq] at isOwn ⊢
      omega
  have own (binding : Local) (member : binding ∈ scope.locals.toList) :
      binding.depth.all (· ≥ scope.depth) = true ↔ binding.depth = some scope.depth := by
    have listed : (binding.name, binding.depth) ∈ scope.table.entries := List.mem_map_of_mem member
    obtain ⟨depth, has⟩ := Option.ne_none_iff_exists'.mp (settled.initialized _ listed)
    have has : binding.depth = some depth := has
    have within : depth ≤ scope.depth := settled.within _ listed depth has
    simp only [has, Option.all_some, decide_eq_true_eq, Option.some.injEq]
    omega
  simp only [declaresName, List.any_eq_true, mem_takeWhile_reverse upwards, beq_iff_eq, FunctionScope.table, List.mem_map, Prod.mk.injEq]
  constructor
  · rintro ⟨binding, ⟨member, isOwn⟩, named⟩
    exact ⟨binding, member, named, (own binding member).mp isOwn⟩
  · rintro ⟨binding, member, named, depth⟩
    exact ⟨binding, ⟨member, (own binding member).mpr depth⟩, named⟩

end Scopes

end StackScript.Compile
