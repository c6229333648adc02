/-!
# The directory of a command

A command runs in a directory that holds files and nothing else. A path is followed name by name,
from that directory or, if it begins with a slash, from the root of the file system. Every name but
the last has to lead to a directory. The last one is used as a file: `read` gives its content, and
`target` says where a file written there would be. The first name that cannot be followed decides
the fault.

Of the directories around the command's own, only those that every system has are known.
-/

set_option autoImplicit false

namespace TapeLang.CommandLine

/-- Why a path cannot be used as a file. -/
inductive FileFault where
  | missing
  | notDirectory
  | isDirectory
  | nameTooLong
  | notText
  | other (reason : String)
  deriving DecidableEq, Repr

/-- The wording of a fault. -/
def FileFault.message : FileFault → String
  | .missing => "No such file or directory (os error 2)"
  | .notDirectory => "Not a directory (os error 20)"
  | .isDirectory => "Is a directory (os error 21)"
  | .nameTooLong => "File name too long (os error 36)"
  | .notText => "stream did not contain valid UTF-8"
  | .other reason => reason

/-- A path as it is followed. -/
structure Path where
  /-- Whether it begins at the root. -/
  absolute : Bool
  /-- The names that lead to a directory. -/
  way : List String
  /-- The name in that directory; none if the path has no names. -/
  last : Option String
  /-- Whether a slash follows the last name. -/
  slash : Bool
  deriving DecidableEq, Repr

namespace Path

/-- The greatest length of a name, in bytes. -/
def nameLimit : Nat := 255

/-- The greatest length of a path, in bytes. -/
def textLimit : Nat := 4095

/-- The path that a text describes. Slashes in a row count as one. -/
def ofText (text : String) : Path :=
  let names := (text.splitOn "/").filter (!·.isEmpty)
  { absolute := text.startsWith "/", way := names.dropLast, last := names.getLast?,
    slash := text.endsWith "/" }

/-- A name that stands for a directory wherever it is met. -/
def isDots (name : String) : Bool := name = "." || name = ".."

/-- A name that no directory can hold. -/
def isTooLong (name : String) : Bool := nameLimit < name.utf8ByteSize

end Path

/-- A directory that a path can lead to. -/
inductive Place where
  /-- The directory of the command. -/
  | home
  /-- The root of the file system. -/
  | root
  /-- The directory of the devices. -/
  | devices
  /-- Any other directory. Nothing is known to be in it. -/
  | elsewhere
  deriving DecidableEq, Repr

/-- The directory above. -/
def Place.above : Place → Place
  | .home => .elsewhere
  | .root => .root
  | .devices => .root
  | .elsewhere => .elsewhere

/-- What a name in a directory stands for. -/
inductive Entry where
  | directory (place : Place)
  | file (content : ByteArray)

/-- The directories that every root holds. -/
def rootNames : List String :=
  ["bin", "boot", "dev", "etc", "home", "lib", "media", "mnt", "opt", "proc", "root", "run", "sbin",
    "srv", "sys", "tmp", "usr", "var"]

/-- The files of a directory, by name. -/
structure Directory where
  files : List (String × ByteArray)

namespace Directory

/-- What stands under a name, if something does. The null device is a file that is always empty. -/
def find? (d : Directory) (place : Place) (name : String) : Option Entry :=
  match place with
  | .home => (d.files.lookup name).map .file
  | .root =>
      if name = "dev" then some (.directory .devices)
      else if rootNames.contains name then some (.directory .elsewhere)
      else none
  | .devices => if name = "null" then some (.file .empty) else none
  | .elsewhere => none

/-- What a name leads to. -/
def enter (d : Directory) (place : Place) (name : String) : Except FileFault Entry :=
  if name = "." then .ok (.directory place)
  else if name = ".." then .ok (.directory place.above)
  else if Path.isTooLong name then .error .nameTooLong
  else
    match d.find? place name with
    | some e => .ok e
    | none => .error .missing

/-- The directory that names lead to. -/
def follow (d : Directory) (place : Place) : List String → Except FileFault Place
  | [] => .ok place
  | name :: names =>
      match d.enter place name with
      | .ok (.directory next) => d.follow next names
      | .ok (.file _) => .error .notDirectory
      | .error e => .error e

/-- The directory of a path's last name, and that name. A path without names leads to a directory. -/
def locate (d : Directory) (text : String) : Except FileFault (Place × String × Bool) :=
  if Path.textLimit < text.utf8ByteSize then .error .nameTooLong
  else
    let path := Path.ofText text
    match path.last with
    | none => .error .isDirectory
    | some name => do
        let place ← d.follow (if path.absolute then .root else .home) path.way
        return (place, name, path.slash)

/-- The content of a file, or why it cannot be read. A slash after the last name asks for a
directory. -/
def read (d : Directory) (path : String) : Except FileFault ByteArray := do
  let (place, name, slash) ← d.locate path
  match ← d.enter place name with
  | .directory _ => throw .isDirectory
  | .file content => if slash then throw .notDirectory else return content

/-- The directory and the name of a file that is written, or why it cannot be written. A slash after
the last name asks for a directory, whatever stands there. -/
def target (d : Directory) (path : String) : Except FileFault (Place × String) := do
  let (place, name, slash) ← d.locate path
  if slash || Path.isDots name then throw .isDirectory
  match d.enter place name with
  | .ok (.directory _) => throw .isDirectory
  | .ok (.file _) => return (place, name)
  | .error .missing => return (place, name)
  | .error e => throw e

/-- Why a file cannot be written, if it cannot. -/
def refuses (d : Directory) (path : String) : Option FileFault :=
  match d.target path with
  | .ok _ => none
  | .error e => some e

/-- The files of the directory with one written by its path. A file that is written elsewhere is not
among them. -/
def write (d : Directory) (path : String) (content : ByteArray) : Directory :=
  match d.target path with
  | .ok (.home, name) => ⟨(name, content) :: d.files.filter fun f => f.1 ≠ name⟩
  | _ => d

end Directory

end TapeLang.CommandLine
