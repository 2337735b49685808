import StackScript.Value

/-!
Compiled code. A chunk holds the instruction bytes with one source line each, and the tables that operands
point into: number constants as words, names and strings as one run of NUL-terminated entries addressed by
byte offset, and nested functions. A function prototype is a chunk with a name, an arity and the list of
variables that its closures capture.
-/

namespace StackScript

/-- A variable that a function captures from the one around it: a local slot there, or an upvalue of it. -/
structure Capture where
  isLocal : Bool
  index : Nat
deriving DecidableEq, Repr, Inhabited

/-- Code and its tables, over the type of nested functions. -/
structure Chunk (Function : Type) where
  code : Array UInt8 := #[]
  lines : Array Nat := #[]
  constants : Array UInt64 := #[]
  strings : ByteArray := ByteArray.empty
  functions : Array Function := #[]

/-- A compiled function. A script is a function without a name. -/
structure Proto where
  name : String := ""
  arity : Nat := 0
  chunk : Chunk Proto := {}
  captures : Array Capture := #[]

instance : Inhabited Proto := ⟨{}⟩

namespace Chunk

variable {Function : Type}

def bytesOf (operand : Nat) : UInt8 × UInt8 :=
  ((operand / 256).toUInt8, operand.toUInt8)

def ofBytes (high low : UInt8) : Nat :=
  high.toNat * 256 + low.toNat

def write (chunk : Chunk Function) (byte : UInt8) (line : Nat) : Chunk Function :=
  { chunk with code := chunk.code.push byte, lines := chunk.lines.push line }

/-- Overwrites a byte already written; nothing happens outside the code. -/
def writeAt (chunk : Chunk Function) (offset : Nat) (byte : UInt8) : Chunk Function :=
  { chunk with code := chunk.code.setIfInBounds offset byte }

def addConstant (chunk : Chunk Function) (value : Value) : Chunk Function :=
  { chunk with constants := chunk.constants.push value.toWord }

@[inline]
def constant? (chunk : Chunk Function) (index : Nat) : Option Value :=
  chunk.constants[index]?.map Value.ofWord

/-- The byte that ends an entry of the string table. -/
def terminator : UInt8 := 0

/-- The text can be an entry of the string table: it does not contain the byte that ends one. -/
def isStorable (text : String) : Bool :=
  !text.toList.contains '\x00'

def addString (chunk : Chunk Function) (text : String) : Chunk Function :=
  { chunk with strings := (chunk.strings ++ text.toUTF8).push terminator }

def storeString? (chunk : Chunk Function) (text : String) : Option (Nat × Chunk Function) :=
  if isStorable text then some (chunk.strings.size, chunk.addString text) else none

def entryEnd? (strings : ByteArray) (offset : Nat) : Option Nat :=
  if inside : offset < strings.size then
    if strings[offset] = terminator then some offset else entryEnd? strings (offset + 1)
  else none
termination_by strings.size - offset

/-- The text from an offset up to the next terminator. Offsets may lie within an entry, but what is read has
to be well-formed text. -/
def string? (chunk : Chunk Function) (offset : Nat) : Option String :=
  (entryEnd? chunk.strings offset).bind fun stop => String.fromUTF8? (chunk.strings.extract offset stop)

def addFunction (chunk : Chunk Function) (function : Function) : Chunk Function :=
  { chunk with functions := chunk.functions.push function }

@[inline]
def operand? (chunk : Chunk Function) (offset : Nat) : Option Nat :=
  match chunk.code[offset]?, chunk.code[offset + 1]? with
  | some high, some low => some (ofBytes high low)
  | _, _ => none

@[inline]
def lineAt (chunk : Chunk Function) (offset : Nat) : Nat :=
  chunk.lines[offset]?.getD 0

end Chunk

namespace Proto

def title (proto : Proto) : String :=
  s!"<fn {proto.name}>"

/-- A nested function is smaller than the function that holds it. -/
theorem sizeOf_lt_of_mem {proto nested : Proto} (member : nested ∈ proto.chunk.functions) :
    sizeOf nested < sizeOf proto := by
  have inTable := Array.sizeOf_lt_of_mem member
  rcases proto with ⟨name, arity, ⟨code, lines, constants, strings, functions⟩, captures⟩
  simp only [Proto.mk.sizeOf_spec, Chunk.mk.sizeOf_spec] at inTable ⊢
  omega

end Proto

end StackScript
