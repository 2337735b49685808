import StackScript.Bytecode.Chunk

/-!
The tables of a chunk read back what was written into them. An operand of two bytes is the number it was made
of, an entry of the string table is read as its text, and later entries change none of this.
-/

namespace StackScript

variable {text : String} {strings : ByteArray} {offset : Nat}

namespace Value

theorem mask_bit_set {word : UInt64} (tagged : word &&& tagMask = tagMask) {i : Nat}
    (inMask : tagMask.toBitVec.getLsbD i = true) : word.toBitVec.getLsbD i = true := by
  have bits := congrArg (fun w : UInt64 => w.toBitVec.getLsbD i) tagged
  simp only [UInt64.toBitVec_and, BitVec.getLsbD_and, inMask, Bool.and_true] at bits
  exact bits

open Float.Model in
/-- The only word of a number that is not a number lies outside the tags. -/
theorem number_not_tagged (x : Float) : x.toBits &&& tagMask ≠ tagMask := by
  intro tagged
  have exponentSet : @UnpackedFloat.unpackExponent .binary64 x.toBits.toBitVec = -1#_ := by
    apply BitVec.eq_of_getLsbD_eq
    intro i inside
    have inMask : ∀ i : Fin 11, tagMask.toBitVec.getLsbD (52 + i) = true := by decide
    have ones : ∀ i : Fin 11, (-1#11 : BitVec 11).getLsbD i = true := by decide
    have bit := mask_bit_set tagged (inMask ⟨i, inside⟩)
    rw [ones ⟨i, inside⟩]
    simpa [UnpackedFloat.unpackExponent, inside, Nat.le_of_lt_succ inside] using bit
  have mantissaSet : @UnpackedFloat.unpackMantissa .binary64 x.toBits.toBitVec ≠ 0#_ := by
    intro zero
    have bit := mask_bit_set tagged (i := 50) (by decide)
    have cleared := congrArg (·.getLsbD 50) zero
    simp [UnpackedFloat.unpackMantissa, bit] at cleared
  have canonical : x.toBits.toBitVec = UnpackedFloat.packedNaN .binary64 :=
    x.toModel.valid.eq_packedNaN exponentSet mantissaSet
  have bit := mask_bit_set tagged (i := 50) (by decide)
  rw [canonical] at bit
  revert bit
  decide

theorem ofWord_number (x : Float) : ofWord (toWord (.number x)) = .number (Float.ofBits (toWord (.number x))) := by
  have untagged : (toWord (.number x) &&& tagMask != tagMask) = true := by
    rw [bne_iff_ne, toWord]
    split
    · decide
    · exact number_not_tagged x
  unfold ofWord
  rw [if_pos untagged]

end Value

namespace Chunk

variable {Function : Type} {stop entry : Nat} {chunk : Chunk Function}

theorem ofBytes_bytesOf {operand : Nat} (fits : operand ≤ 65535) :
    ofBytes (bytesOf operand).1 (bytesOf operand).2 = operand := by
  simp only [ofBytes, bytesOf, Nat.toUInt8, UInt8.toNat_ofNat']
  omega

/-! The string table -/

theorem byte_ne_terminator {c : Char} (visible : c ≠ '\x00') :
    ∀ byte ∈ String.utf8EncodeChar c, byte ≠ terminator := by
  have positive : c.val.toNat ≠ 0 := by
    intro zero
    apply visible
    apply Char.ext
    apply UInt32.toNat_inj.mp
    exact zero
  intro byte member
  have nonzero : byte.toNat ≠ 0 := by
    simp only [String.utf8EncodeChar] at member
    split at member
    · simp only [List.mem_singleton] at member
      subst member
      simp only [UInt8.toNat_ofNat']
      omega
    split at member
    · simp only [List.mem_cons, List.not_mem_nil, or_false] at member
      rcases member with first | second <;> subst byte <;> simp only [UInt8.toNat_ofNat'] <;> omega
    split at member
    · simp only [List.mem_cons, List.not_mem_nil, or_false] at member
      rcases member with first | second | third <;> subst byte <;> simp only [UInt8.toNat_ofNat'] <;> omega
    · simp only [List.mem_cons, List.not_mem_nil, or_false] at member
      rcases member with first | second | third | fourth <;> subst byte <;> simp only [UInt8.toNat_ofNat'] <;> omega
  intro same
  apply nonzero
  rw [same]
  rfl

theorem isStorable_iff (text : String) : isStorable text = true ↔ terminator ∉ text.toUTF8.data := by
  have bytes : text.toUTF8 = (text.toList.flatMap String.utf8EncodeChar).toByteArray :=
    String.utf8Encode_toList.symm
  simp only [bytes, List.data_toByteArray, List.mem_toArray, isStorable, Bool.not_eq_true', List.contains_eq_mem,
    decide_eq_false_iff_not]
  refine not_congr ⟨fun member => List.mem_flatMap.mpr ⟨_, member, by decide⟩, fun member => ?_⟩
  obtain ⟨c, within, encoded⟩ := List.mem_flatMap.mp member
  by_cases visible : c = '\x00'
  · exact visible ▸ within
  · exact absurd rfl (byte_ne_terminator visible _ encoded)

theorem utf8_ne_terminator (storable : isStorable text = true) :
    ∀ i (inside : i < text.toUTF8.size), text.toUTF8[i] ≠ terminator := by
  intro i inside same
  exact (isStorable_iff text).mp storable (same ▸ Array.getElem_mem inside)

theorem entryEnd?_append (more : ByteArray) (found : entryEnd? strings offset = some stop) :
    entryEnd? (strings ++ more) offset = some stop ∧ stop < strings.size := by
  fun_induction entryEnd? strings offset with
  | case1 offset inside ends =>
    cases found
    rw [entryEnd?, dif_pos (by rw [ByteArray.size_append]; omega), ByteArray.getElem_append_left inside,
      if_pos ends]
    exact ⟨rfl, inside⟩
  | case2 offset inside goesOn ih =>
    rw [entryEnd?, dif_pos (by rw [ByteArray.size_append]; omega), ByteArray.getElem_append_left inside,
      if_neg goesOn]
    exact ih found
  | case3 offset outside => cases found

theorem entryEnd?_eq (before : offset ≤ stop) (inside : stop < strings.size) (ends : strings[stop] = terminator)
    (text : ∀ i (below : i < stop), offset ≤ i → strings[i] ≠ terminator) : entryEnd? strings offset = some stop := by
  fun_induction entryEnd? strings offset with
  | case1 offset within atEnd =>
    by_cases same : offset = stop
    · rw [same]
    · exact absurd atEnd (text offset (by omega) (Nat.le_refl _))
  | case2 offset within goesOn ih =>
    have distinct : offset ≠ stop := by
      intro same
      subst same
      exact goesOn ends
    exact ih (by omega) fun i below later => text i below (by omega)
  | case3 offset outside => omega

theorem addString_strings (chunk : Chunk Function) (text : String) :
    (chunk.addString text).strings = chunk.strings ++ (text.toUTF8 ++ [terminator].toByteArray) := by
  unfold addString
  rw [← ByteArray.append_assoc, ByteArray.append_toByteArray_singleton]

theorem addString_size (chunk : Chunk Function) (text : String) :
    (chunk.addString text).strings.size = chunk.strings.size + text.toUTF8.size + 1 := by
  rw [addString_strings]
  simp [Nat.add_assoc]

theorem string?_addString_of_some (chunk : Chunk Function) (added : String)
    (found : chunk.string? entry = some text) : (chunk.addString added).string? entry = some text := by
  unfold string? at found ⊢
  obtain ⟨stop, ends, read⟩ := Option.bind_eq_some_iff.mp found
  rw [addString_strings]
  obtain ⟨same, inside⟩ := entryEnd?_append (added.toUTF8 ++ [terminator].toByteArray) ends
  have outside : (added.toUTF8 ++ [terminator].toByteArray).extract (entry - chunk.strings.size)
      (stop - chunk.strings.size) = ByteArray.empty := by
    rw [ByteArray.extract_eq_empty_iff]
    omega
  rw [same, Option.bind_some, ByteArray.extract_append, outside, ByteArray.append_empty]
  exact read

theorem entryEnd?_addString (chunk : Chunk Function) (storable : isStorable text = true) :
    entryEnd? (chunk.addString text).strings chunk.strings.size = some (chunk.strings.size + text.toUTF8.size) := by
  rw [addString_strings]
  have size : (chunk.strings ++ (text.toUTF8 ++ [terminator].toByteArray)).size =
      chunk.strings.size + (text.toUTF8.size + 1) := by
    simp
  refine entryEnd?_eq (Nat.le_add_right _ _) (by omega) ?_ ?_
  · rw [ByteArray.getElem_append_right (by omega), ByteArray.getElem_append_right (by omega),
      List.getElem_toByteArray]
    simp
  · intro i below later
    rw [ByteArray.getElem_append_right later, ByteArray.getElem_append_left (by omega)]
    exact utf8_ne_terminator storable _ (by omega)

theorem string?_addString (chunk : Chunk Function) (storable : isStorable text = true) :
    (chunk.addString text).string? chunk.strings.size = some text := by
  unfold string?
  rw [entryEnd?_addString chunk storable, Option.bind_some, addString_strings]
  have entry : (chunk.strings ++ (text.toUTF8 ++ [terminator].toByteArray)).extract chunk.strings.size
      (chunk.strings.size + text.toUTF8.size) = text.toUTF8 := by
    have shifted := ByteArray.extract_append_size_add (a := chunk.strings)
      (b := text.toUTF8 ++ [terminator].toByteArray) (i := 0) (j := text.toUTF8.size)
    rw [ByteArray.extract_append_eq_left rfl] at shifted
    exact shifted
  rw [entry]
  exact dif_pos text.isValidUTF8

/-- An entry starts at the offset: it is the first one, or another entry ends in front of it. -/
inductive EntryStart (strings : ByteArray) : Nat → Prop where
  | first : EntryStart strings 0
  | next {offset stop : Nat} (start : EntryStart strings offset) (ends : entryEnd? strings offset = some stop) :
      EntryStart strings (stop + 1)

theorem EntryStart.append (start : EntryStart strings offset) (more : ByteArray) : EntryStart (strings ++ more) offset := by
  induction start with
  | first => exact .first
  | next _ ends ih => exact .next ih (entryEnd?_append more ends).1

/-- At the offset there is a whole entry of the string table, which reads as the text. -/
structure Names (chunk : Chunk Function) (entry : Nat) (text : String) : Prop where
  starts : EntryStart chunk.strings entry
  reads : chunk.string? entry = some text

/-- The string table is made of whole entries. -/
def Ended (chunk : Chunk Function) : Prop :=
  EntryStart chunk.strings chunk.strings.size

theorem Names.addString (names : chunk.Names entry text) (added : String) :
    (chunk.addString added).Names entry text := by
  refine ⟨?_, string?_addString_of_some chunk added names.reads⟩
  rw [addString_strings]
  exact names.starts.append _

theorem names_addString (ended : chunk.Ended) (storable : isStorable text = true) :
    (chunk.addString text).Names chunk.strings.size text := by
  refine ⟨?_, string?_addString chunk storable⟩
  rw [addString_strings]
  exact EntryStart.append ended _

theorem Ended.addString (ended : chunk.Ended) (storable : isStorable text = true) :
    (chunk.addString text).Ended := by
  have last := EntryStart.next (names_addString ended storable).starts (entryEnd?_addString chunk storable)
  rw [Ended, addString_size]
  exact last

end Chunk

end StackScript
