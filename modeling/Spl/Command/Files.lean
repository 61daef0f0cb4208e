/-!
Files as the command reads them, by their paths from the working directory.
-/

namespace Spl.Command

/-- Why a file could not be read. -/
inductive ReadFailure
  | missing
  | notDirectory
  | directory
  | nameTooLong
  | notText
  | other (message : String)
  deriving DecidableEq, Repr

def ReadFailure.message : ReadFailure → String
  | missing => "No such file or directory (os error 2)"
  | notDirectory => "Not a directory (os error 20)"
  | directory => "Is a directory (os error 21)"
  | nameTooLong => "File name too long (os error 36)"
  | notText => "stream did not contain valid UTF-8"
  | other message => message

/-- The parts of a path between its slashes. -/
def components (path : String) : List String :=
  (path.splitOn "/").filter fun part => part ≠ ""

/-- The name of the file itself in a path, without the directories before it. -/
def fileName (path : String) : String :=
  match ((components path).filter (· ≠ ".")).getLast? with
  | none | some ".." => path
  | some name => name

/-- The text of a file's bytes. -/
def textOf (bytes : ByteArray) : Except ReadFailure String :=
  match String.fromUTF8? bytes with
  | some text => .ok text
  | none => .error .notText

/-- The most bytes in the name of a file. -/
def longestName : Nat := 255

/-- The most bytes in a path. -/
def longestPath : Nat := 4095

/-- What comes of following a path from one of the directories around the working directory, where
nothing else is known to be. -/
def failureOutside : List String → ReadFailure
  | [] => .directory
  | part :: parts =>
    if part = "." ∨ part = ".." then failureOutside parts
    else if longestName < part.utf8ByteSize then .nameTooLong
    else .missing

/-- A place in a working directory, by the names of the directories and the file that lead
there. -/
abbrev Place := List String

namespace Place

/-- The place that one part of a path leads to. -/
def step (place : Place) (part : String) : Place :=
  if part = "." then place else if part = ".." then place.dropLast else place ++ [part]

/-- The place that a path from the working directory leads to. -/
def ofPath (path : String) : Place := (components path).foldl step []

/-- The places that the parts of a path are followed from. -/
def along : List String → Place → List Place
  | [], _ => []
  | part :: parts, place => place :: along parts (step place part)

end Place

/-- The contents of a working directory: the paths of its files, and what they hold. What was
written to a path last is what it holds, and all that a path leads through is a directory. -/
structure Directory where
  files : List (String × ByteArray)

namespace Directory

def find? (d : Directory) (place : Place) : Option ByteArray :=
  (d.files.reverse.find? fun (path, _) => Place.ofPath path == place).map (·.2)

/-- Whether a place is a directory: the working directory itself, or one on the way to a file. -/
def isDirectory (d : Directory) (place : Place) : Bool :=
  place.isEmpty || d.files.any fun (path, _) => (Place.along (components path) []).contains place

/-- Follows the parts of a path from a place in the directory. -/
def follow (d : Directory) : List String → Place → Except ReadFailure ByteArray
  | [], place =>
    match d.find? place with
    | some bytes => .ok bytes
    | none => .error (if d.isDirectory place then .directory else .missing)
  | part :: parts, place =>
    if !d.isDirectory place then
      .error (if (d.find? place).isSome then .notDirectory else .missing)
    else if part = ".." ∧ place.isEmpty then .error (failureOutside parts)
    else if longestName < part.utf8ByteSize then .error .nameTooLong
    else d.follow parts (place.step part)

/-- Reads the file of a path. A path that ends with a slash has to be a directory. -/
def read (d : Directory) (path : String) : Except ReadFailure String := do
  if longestPath < path.utf8ByteSize then throw .nameTooLong
  if path.startsWith "/" then throw (failureOutside (components path))
  let parts := components path ++ if path.endsWith "/" then ["."] else []
  textOf (← d.follow parts [])

end Directory

end Spl.Command
