/-!
Texts that come from outside, as bytes: standard input line by line, and the files of a folder that is held in
memory.
-/

namespace StackScript.CommandLine

def notText : String := "stream did not contain valid UTF-8"

def decode (bytes : ByteArray) : Except String String :=
  match String.fromUTF8? bytes with
  | some text => .ok text
  | none => .error notText

/-- Bytes cut after every line feed, where `line` holds the bytes since the last one. -/
def linesFrom (line : Array UInt8) : List UInt8 → List ByteArray
  | [] => if line.isEmpty then [] else [⟨line⟩]
  | byte :: further =>
    if byte = 10 then ⟨line.push byte⟩ :: linesFrom #[] further else linesFrom (line.push byte) further

/-- The lines of a stream. Each keeps its line feed; the last may lack one. -/
def lines (bytes : ByteArray) : List (Except String String) :=
  (linesFrom #[] bytes.data.toList).map decode

abbrev Folder := List (String × ByteArray)

inductive PathFault where
  | missing
  | throughFile
  | endsAtFolder
  | nameTooLong
deriving DecidableEq, Repr

namespace PathFault

def code : PathFault → Nat
  | missing => 2
  | throughFile => 20
  | endsAtFolder => 21
  | nameTooLong => 36

def wording : PathFault → String
  | missing => "No such file or directory"
  | throughFile => "Not a directory"
  | endsAtFolder => "Is a directory"
  | nameTooLong => "File name too long"

def text (fault : PathFault) : String :=
  s!"{fault.wording} (os error {fault.code})"

def ofCode? (code : Nat) : Option PathFault :=
  [missing, throughFile, endsAtFolder, nameTooLong].find? (·.code == code)

end PathFault

/-- Where a path has led so far: to the folder itself, to one of the folders around it, or to a file. Nothing but
folders is known around the folder. -/
inductive Place where
  | inside
  | around
  | file (bytes : ByteArray)

def maxNameSize : Nat := 255

def maxPathSize : Nat := 4096

/-- Follows one part of a path. An empty part, as between two slashes or behind the last one, stays in its folder. -/
def Folder.follow (folder : Folder) (place : Place) (part : String) : Except PathFault Place :=
  match place with
  | .file _ => .error .throughFile
  | _ =>
    if part = "" ∨ part = "." then .ok place
    else if part = ".." then .ok .around
    else if part.utf8ByteSize > maxNameSize then .error .nameTooLong
    else
      match place, folder.lookup part with
      | .inside, some bytes => .ok (.file bytes)
      | _, _ => .error .missing

def Folder.find (folder : Folder) (path : String) : Except PathFault Place :=
  if path = "" then .error .missing
  else if path.utf8ByteSize ≥ maxPathSize then .error .nameTooLong
  else (path.splitOn "/").foldlM folder.follow (if path.toList.head? = some '/' then .around else .inside)

def Folder.read (folder : Folder) (path : String) : Except String String :=
  match folder.find path with
  | .ok (.file bytes) => decode bytes
  | .ok _ => .error PathFault.endsAtFolder.text
  | .error fault => .error fault.text

end StackScript.CommandLine
