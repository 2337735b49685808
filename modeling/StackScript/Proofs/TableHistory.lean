import StackScript.Proofs.Scoping
import StackScript.Proofs.Tables

/-!
The tables of a chunk under any calls that write into it, one after the other. What a call has written is read back at the place
that it gave, whatever is written later. Strings stand behind each other, and only a text with the byte that ends an entry is
refused. Every byte of code has its line.
-/

namespace StackScript.Chunk

variable {Function : Type}

/-- A call that writes into a chunk. -/
inductive Call (Function : Type) where
  | write (byte : UInt8) (line : Nat)
  | patch (offset : Nat) (byte : UInt8)
  | constant (value : Value)
  | string (text : String)
  | function (nested : Function)

/-- Where a call puts what it writes, and the chunk afterwards. -/
def Call.perform (chunk : Chunk Function) : Call Function → Option Nat × Chunk Function
  | .write byte line => (some chunk.code.size, chunk.write byte line)
  | .patch offset byte => (none, chunk.writeAt offset byte)
  | .constant value => (some chunk.constants.size, chunk.addConstant value)
  | .string text =>
    match chunk.storeString? text with
    | some (offset, chunk) => (some offset, chunk)
    | none => (none, chunk)
  | .function nested => (some chunk.functions.size, chunk.addFunction nested)

def replay (chunk : Chunk Function) (calls : List (Call Function)) : Chunk Function :=
  calls.foldl (fun chunk call => (call.perform chunk).2) chunk

theorem string_stored (chunk : Chunk Function) {text : String} (storable : isStorable text = true) :
    (Call.string text).perform chunk = (some chunk.strings.size, chunk.addString text) := by
  simp only [Call.perform, storeString?, storable, if_true]

theorem string_refused (chunk : Chunk Function) {text : String} (refused : isStorable text = false) :
    (Call.string text).perform chunk = (none, chunk) := by
  simp only [Call.perform, storeString?, refused, Bool.false_eq_true, if_false]

/-- What the tables hold is read at the same place later, and the string table is not shorter. -/
structure KeptIn (before after : Chunk Function) : Prop where
  constants : Compile.Extended before.constants after.constants
  functions : Compile.Extended before.functions after.functions
  strings : ∀ {offset text}, before.string? offset = some text → after.string? offset = some text
  length : before.strings.size ≤ after.strings.size

theorem KeptIn.refl (chunk : Chunk Function) : chunk.KeptIn chunk :=
  ⟨.refl _, .refl _, id, Nat.le_refl _⟩

theorem perform_kept (chunk : Chunk Function) (call : Call Function) : chunk.KeptIn (call.perform chunk).2 := by
  cases call with
  | write | patch => exact ⟨.refl _, .refl _, id, Nat.le_refl _⟩
  | constant value => exact ⟨.push _ _, .refl _, id, Nat.le_refl _⟩
  | function nested => exact ⟨.refl _, .push _ _, id, Nat.le_refl _⟩
  | string text =>
    cases storable : isStorable text with
    | false =>
      rw [string_refused chunk storable]
      exact .refl chunk
    | true =>
      rw [string_stored chunk storable]
      have size := addString_size chunk text
      exact ⟨.refl _, .refl _, string?_addString_of_some chunk text, by dsimp only; omega⟩

theorem replay_kept (chunk : Chunk Function) (calls : List (Call Function)) : chunk.KeptIn (chunk.replay calls) := by
  induction calls generalizing chunk with
  | nil => exact .refl chunk
  | cons call calls ih =>
    have first := perform_kept chunk call
    have rest := ih (call.perform chunk).2
    exact ⟨first.constants.trans rest.constants, first.functions.trans rest.functions,
      fun found => rest.strings (first.strings found), Nat.le_trans first.length rest.length⟩

theorem replay_append (chunk : Chunk Function) (earlier : List (Call Function)) (call : Call Function)
    (later : List (Call Function)) :
    chunk.replay (earlier ++ call :: later) = (call.perform (chunk.replay earlier)).2.replay later :=
  List.foldl_append

theorem replay_lines (chunk : Chunk Function) (lined : chunk.lines.size = chunk.code.size) (calls : List (Call Function)) :
    (chunk.replay calls).lines.size = (chunk.replay calls).code.size := by
  induction calls generalizing chunk with
  | nil => exact lined
  | cons call calls ih =>
    refine ih _ (show (call.perform chunk).2.lines.size = (call.perform chunk).2.code.size from ?_)
    cases call with
    | write => simp [Call.perform, Chunk.write, lined]
    | patch => simpa [Call.perform, Chunk.writeAt] using lined
    | constant | function => exact lined
    | string text =>
      cases storable : isStorable text with
      | false =>
        rw [string_refused chunk storable]
        exact lined
      | true =>
        rw [string_stored chunk storable]
        exact lined

/-- After any calls on a new chunk, and at any time later: a text is refused, and nothing changed, exactly if it has the byte that
ends an entry; a text that was stored is read back where it is, in front of all that are stored later; constants and functions are
read back where they are; overwriting a byte changes no other; and every byte has its line. -/
theorem tables_read_back (earlier later : List (Call Function)) :
    let chunk := replay {} earlier
    chunk.lines.size = chunk.code.size ∧
    (∀ text, (((Call.string text).perform chunk).1 = none ↔ 0 ∈ text.toUTF8.data) ∧
      (0 ∈ text.toUTF8.data → (Call.string text).perform chunk = (none, chunk)) ∧
      ∀ offset, ((Call.string text).perform chunk).1 = some offset →
        (replay {} (earlier ++ .string text :: later)).string? offset = some text ∧
        ∀ other further, ((Call.string other).perform (replay {} (earlier ++ .string text :: later))).1 = some further →
          offset < further) ∧
    (∀ value, ∃ index, ((Call.constant value).perform chunk).1 = some index ∧
      (replay {} (earlier ++ .constant value :: later)).constant? index = some (Value.ofWord (Value.toWord value))) ∧
    (∀ nested, ∃ index, ((Call.function nested).perform chunk).1 = some index ∧
      (replay {} (earlier ++ .function nested :: later)).functions[index]? = some nested) ∧
    ∀ offset byte, let patched := ((Call.patch offset byte).perform chunk).2
      patched = { chunk with code := patched.code } ∧ patched.code.size = chunk.code.size ∧
        ∀ i, i ≠ offset → patched.code[i]? = chunk.code[i]? := by
  intro chunk
  have after (call : Call Function) : (call.perform chunk).2.KeptIn (replay {} (earlier ++ call :: later)) := by
    rw [replay_append]
    exact replay_kept _ later
  refine ⟨replay_lines _ rfl earlier, fun text => ?_, fun value => ⟨_, rfl, ?_⟩, fun nested => ⟨_, rfl, ?_⟩,
    fun offset byte => ⟨rfl, Array.size_setIfInBounds, fun i other => ?_⟩⟩
  · cases storable : isStorable text with
    | false =>
      have nul : 0 ∈ text.toUTF8.data := Classical.byContradiction fun none => by
        cases storable.symm.trans ((isStorable_iff text).mpr none)
      rw [string_refused chunk storable]
      exact ⟨⟨fun _ => nul, fun _ => rfl⟩, fun _ => rfl, fun _ no => by cases no⟩
    | true =>
      have kept := after (.string text)
      have none : 0 ∉ text.toUTF8.data := (isStorable_iff text).mp storable
      rw [string_stored chunk storable] at kept ⊢
      refine ⟨⟨fun no => (by cases no), fun nul => absurd nul none⟩, fun nul => absurd nul none, fun offset placed => ?_⟩
      cases placed
      refine ⟨kept.strings (string?_addString chunk storable), fun other further stored => ?_⟩
      cases storable' : isStorable other with
      | false =>
        rw [string_refused _ storable'] at stored
        cases stored
      | true =>
        rw [string_stored _ storable'] at stored
        cases stored
        have length := kept.length
        rw [addString_size] at length
        omega
  · rw [constant?, (after (.constant value)).constants _ _ Array.getElem?_push_size]
    rfl
  · exact (after (.function nested)).functions _ _ Array.getElem?_push_size
  · exact Array.getElem?_setIfInBounds_ne (Ne.symm other)

/-- Between two entries that are stored, one of them empty, a text is refused. -/
theorem tables_read_back_empty :
    ((Call.string "é").perform (replay {} [.string "", .write 1 1] : Chunk Unit)).1 = some 1 ∧
      ((Call.string "a\x00").perform (replay {} [.string "", .write 1 1] : Chunk Unit)).1 = none ∧
      (replay {} [.string "", .write 1 1, .string "é", .string "a\x00", .patch 0 2] : Chunk Unit).string? 1 = some "é" := by
  obtain ⟨-, strings, -⟩ := @tables_read_back Unit [.string "", .write 1 1] [.string "a\x00", .patch 0 2]
  have placed : ((Call.string "é").perform (replay {} [.string "", .write 1 1] : Chunk Unit)).1 = some 1 := by decide +kernel
  exact ⟨placed, (strings "a\x00").1.mpr (by decide +kernel), ((strings "é").2.2 1 placed).1⟩

end StackScript.Chunk
