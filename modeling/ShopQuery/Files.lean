-- Files as the program reads them, and a directory that is held in memory.
namespace ShopQuery

/-! ## Faults -/

/-- Why a file cannot be read as text. -/
inductive ReadFault
  | missing
  /-- The path goes on below something that is not a directory. -/
  | notDirectory
  | isDirectory
  /-- The bytes are no UTF-8. -/
  | notText
  | other (reason : String)
  deriving DecidableEq, Repr

def ReadFault.message : ReadFault → String
  | missing => "No such file or directory (os error 2)"
  | notDirectory => "Not a directory (os error 20)"
  | isDirectory => "Is a directory (os error 21)"
  | notText => "stream did not contain valid UTF-8"
  | other reason => reason

/-- The text that a file holds. -/
def decodeFile (bytes : ByteArray) : Except ReadFault String :=
  match String.fromUTF8? bytes with
  | some s => .ok s
  | none => .error .notText

/-! ## Directories -/

/-- A directory of files, which has no directory inside. -/
structure Directory where
  files : List (String × ByteArray) := []

namespace Directory

/-- Where a path has led. -/
inductive Place
  /-- The directory itself. -/
  | here
  /-- A directory outside, of which nothing is known. -/
  | outside
  | file (bytes : ByteArray)

/-- One part of a path further. An empty part and a dot stay in a directory. -/
def enter (d : Directory) (place : Place) (part : String) : Except ReadFault Place :=
  match place with
  | .file _ => .error .notDirectory
  | .outside => if part == "" || part == "." || part == ".." then .ok .outside else .error .missing
  | .here =>
    if part == "" || part == "." then .ok .here
    else if part == ".." then .ok .outside
    else
      match d.files.lookup part with
      | some bytes => .ok (.file bytes)
      | none => .error .missing

/-- The parts of a path, between its slashes. -/
def parts : List Char → List Char → List String
  | read, [] => [String.ofList read.reverse]
  | read, c :: rest =>
    if c == '/' then String.ofList read.reverse :: parts [] rest else parts (c :: read) rest

/-- What the file at a path holds. -/
def read (d : Directory) (path : String) : Except ReadFault ByteArray :=
  if path.isEmpty then .error .missing
  else
    let start : Place := if path.toList.head? == some '/' then .outside else .here
    match (parts [] path.toList).foldlM d.enter start with
    | .ok (.file bytes) => .ok bytes
    | .ok _ => .error .isDirectory
    | .error fault => .error fault

end Directory

end ShopQuery
