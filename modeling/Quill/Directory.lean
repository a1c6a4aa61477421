/-!
A directory held in memory, with files at any depth below it. Directories exist
as far as files lie in them. Paths are relative and followed part by part, so
each part but the last has to lead to a directory, also where the next one leads
out of it again.
-/

namespace Quill

/-- Files by the parts of their paths. -/
structure Directory where
  files : List (List String × ByteArray)

namespace Directory

inductive Entry
  | directory
  | file (body : ByteArray)

/-- What is found at a place. -/
def entry? (d : Directory) (place : List String) : Option Entry :=
  match d.files.find? fun f => f.1 = place with
  | some f => some (.file f.2)
  | none =>
      if place.isEmpty || d.files.any fun f => place.isPrefixOf f.1 then some .directory
      else none

def isDirectory (d : Directory) (place : List String) : Bool :=
  match d.entry? place with
  | some .directory => true
  | _ => false

/-- Follow the parts of a path from a place. Empty parts and `.` stay where they
are, and nothing leads out of the whole directory. -/
def follow (d : Directory) : List String → List String → Option (List String)
  | place, [] => some place
  | place, part :: parts =>
      if !d.isDirectory place then none
      else if part = "" ∨ part = "." then d.follow place parts
      else if part = ".." then
        if place.isEmpty then none else d.follow place.dropLast parts
      else d.follow (place ++ [part]) parts

def parts (path : String) : List String := path.splitOn "/"

/-- The place that a path leads to; what is there is not asked. -/
def place? (d : Directory) (path : String) : Option (List String) :=
  if path.startsWith "/" then none else d.follow [] (parts path)

/-- The text of the file at a path. Directories have none, and neither have
files that do not hold text in UTF-8. -/
def read? (d : Directory) (path : String) : Option String :=
  match d.place? path with
  | none => none
  | some place =>
      match d.entry? place with
      | some (.file body) => String.fromUTF8? body
      | _ => none

/-- A file can be written at a path: its last part names something other than a
directory in a directory that exists. -/
def canWrite (d : Directory) (path : String) : Bool :=
  let ps := parts path
  match ps.getLast? with
  | none => false
  | some name =>
      if path.startsWith "/" ∨ name = "" ∨ name = "." ∨ name = ".." then false
      else
        match d.follow [] ps.dropLast with
        | none => false
        | some place => d.isDirectory place && !d.isDirectory (place ++ [name])

end Directory

end Quill
