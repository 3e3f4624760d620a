/-!
# Files

What opening a path can give, and a folder of files in memory. A path is followed name by name: an
empty name and `.` stay where they are, `..` leaves the folder, and nothing lies below a file.
-/

namespace Scriptlet

/-- Why a path cannot be opened. -/
inductive OpenFault
  | noSuchFile
  | notFolder
  | nameTooLong
  deriving DecidableEq

namespace OpenFault

/-- The number of a fault. -/
def code : OpenFault → Nat
  | noSuchFile => 2
  | notFolder => 20
  | nameTooLong => 36

/-- What a fault says. -/
def reason : OpenFault → String
  | noSuchFile => "No such file or directory"
  | notFolder => "Not a directory"
  | nameTooLong => "File name too long"

/-- The wording of a fault. -/
def message (f : OpenFault) : String := f.reason ++ " (os error " ++ toString f.code ++ ")"

end OpenFault

/-- What a path leads to. -/
inductive Entry
  | file (bytes : List UInt8)
  | folder
  | absent (fault : OpenFault)

/-- The greatest number of bytes in a name. -/
def maxName : Nat := 255

/-- The greatest number of bytes in a path. -/
def maxPath : Nat := 4095

/-- Files by name. -/
structure Folder where
  files : List (String × List UInt8)

namespace Folder

/-- A place on the way along a path. -/
inductive Place
  /-- The folder itself. -/
  | here
  /-- A folder around it, of which nothing else is known. -/
  | around
  | file (bytes : List UInt8)

/-- What a place is. -/
def Place.entry : Place → Entry
  | here => .folder
  | around => .folder
  | file bytes => .file bytes

/-- Goes from a place to the next name of a path. -/
def step (d : Folder) : Place → String → Except OpenFault Place
  | .file _, _ => .error .notFolder
  | place, "" => .ok place
  | place, "." => .ok place
  | _, ".." => .ok .around
  | place, name =>
    if maxName < name.utf8ByteSize then
      .error .nameTooLong
    else
      match place, d.files.lookup name with
      | .here, some bytes => .ok (.file bytes)
      | _, _ => .error .noSuchFile

/-- What a path leads to from the folder. -/
def find (d : Folder) (path : String) : Entry :=
  if maxPath < path.utf8ByteSize then
    .absent .nameTooLong
  else
    match (path.splitOn "/").foldlM d.step (if path.startsWith "/" then .around else .here) with
    | .ok place => place.entry
    | .error fault => .absent fault

end Folder

end Scriptlet
