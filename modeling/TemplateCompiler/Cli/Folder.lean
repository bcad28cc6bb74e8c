import TemplateCompiler.Text.Basic

/-!
# Folders

A `Folder` holds files, whose names may lead through folders inside it. `Folder.read` follows a path
from the folder: empty parts and `.` stay where they are, and `..` goes up. Nothing is known of what
lies outside.
-/

namespace TemplateCompiler

/-- Why a file cannot be read. -/
inductive FileError where
  | missing
  | denied
  /-- The path leads to a folder. -/
  | isFolder
  /-- The path goes on after a file. -/
  | notFolder
  /-- A name or path that no file can have. -/
  | badName
  | longName
  deriving DecidableEq, Repr

def FileError.message (path : Text) : FileError → Text
  | missing => "open " ++ path ++ ": no such file or directory"
  | denied => "open " ++ path ++ ": permission denied"
  | isFolder => "read " ++ path ++ ": is a directory"
  | notFolder => "open " ++ path ++ ": not a directory"
  | badName => "open " ++ path ++ ": invalid argument"
  | longName => "open " ++ path ++ ": file name too long"

/-- Files by name. The parts of a name are the folders on the way and the name itself. -/
structure Folder where
  files : List (List Text × Text)

namespace Folder

def maxPart : Nat := 255

def maxPath : Nat := 4095

def parts (path : Text) : List Text := path.splitOn '/'.toUInt8

/-- Whether a part names the place where it stands. -/
def isHere (part : Text) : Bool := part.isEmpty || part == "."

/-- The folder with the given files. Of files with one name the last one counts. -/
def ofFiles (files : List (Text × Text)) : Folder :=
  ⟨files.reverse.map fun (name, content) => ((parts name).filter (!isHere ·), content)⟩

def followOutside (parts : List Text) : FileError :=
  if parts.all fun p => isHere p || p == ".." then .isFolder else .missing

/-- Follows a path from the folder `here` inside a folder. -/
def follow (f : Folder) : (here : List Text) → List Text → Except FileError Text
  | _, [] => throw .isFolder
  | here, part :: rest =>
    if isHere part then follow f here rest
    else if part == ".." then
      if here.isEmpty then throw (followOutside rest) else follow f here.dropLast rest
    else if maxPart < part.length then throw .longName
    else
      let there := here ++ [part]
      match f.files.lookup there with
      | some content => if rest.isEmpty then return content else throw .notFolder
      | none =>
        if f.files.any fun (name, _) => there.isPrefixOf name then follow f there rest
        else throw .missing

def read (f : Folder) (path : Text) : Except FileError Text :=
  if path.contains 0 then throw .badName
  else if path.isEmpty then throw .missing
  else if maxPath < path.length then throw .longName
  else if path.head? == some '/'.toUInt8 then throw (followOutside (parts path))
  else f.follow [] (parts path)

end Folder

end TemplateCompiler
