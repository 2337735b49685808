/-!
Text of a fixed width, for columns.
-/

namespace StackScript.Text

def padLeft (width : Nat) (text : String) (fill : Char) : String :=
  String.ofList (List.replicate (width - text.length) fill) ++ text

def padRight (width : Nat) (text : String) : String :=
  text ++ String.ofList (List.replicate (width - text.length) ' ')

def hexByte (byte : UInt8) : String :=
  padLeft 2 (String.ofList (Nat.toDigits 16 byte.toNat)) '0'

end StackScript.Text
