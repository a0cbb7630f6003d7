import ErrorFree.Files.Entry
import ErrorFree.Files.Path

/-!
# A tree of files

**Places.**  A place is the list of names that lead to it from the root.  The tree lists the places
where something stands; the root is always a directory.

**Walking.**  A path is followed segment by segment from the root or from a working directory.
Every segment, also an empty one or `.`, needs a directory to start from; `..` goes up and
stays at the root.

**Saving.**  A file is written where its path leads, in a directory that exists; a path that
ends in a slash, in `.` or in `..` names a directory.
-/

namespace ErrorFree

/-- A regular file or a directory. -/
inductive Node where
  | file (content : List UInt8)
  /-- A regular file that can neither be read nor written. -/
  | locked (reason : IoError)
  | directory
  deriving DecidableEq

/-- A tree of files, by place. -/
structure FileTree where
  nodes : List (List String × Node) := []
  deriving DecidableEq

namespace FileTree

/-- The longest name that a file may have, in bytes. -/
def nameLimit : Nat := 255

/-- Paths have to be shorter than this, in bytes. -/
def pathLimit : Nat := 4096

/-- What stands at a place. -/
def node? (t : FileTree) (place : List String) : Option Node :=
  if place = [] then some .directory else t.nodes.lookup place

/-- The tree with a node at a place, in front of what was there. -/
def put (t : FileTree) (place : List String) (node : Node) : FileTree :=
  { nodes := (place, node) :: t.nodes.filter (fun entry => entry.1 ≠ place) }

/-- Follows segments from a place. -/
def walk (t : FileTree) : List String → List String → Except IoError (List String)
  | place, [] => .ok place
  | place, segment :: rest =>
      match t.node? place with
      | none => .error .notFound
      | some (.file _) => .error .notDirectory
      | some (.locked _) => .error .notDirectory
      | some .directory =>
          if Path.isTrivial segment then walk t place rest
          else if segment = ".." then walk t place.dropLast rest
          else if nameLimit < segment.utf8ByteSize then .error .nameTooLong
          else walk t (place ++ [segment]) rest

/-- The place that a path starts from. -/
def start (current : List String) (path : String) : List String :=
  if Path.isAbsolute path then [] else current

/-- What is wrong with the text of a path. -/
def pathFault? (path : String) : Option IoError :=
  if path.toList.contains '\x00' then some .invalidPath
  else if path = "" then some .notFound
  else if pathLimit ≤ path.utf8ByteSize then some .nameTooLong
  else none

/-- What a path leads to, from a working directory. -/
def look (t : FileTree) (current : List String) (path : String) : Entry :=
  match pathFault? path with
  | some reason => .absent reason
  | none =>
      match t.walk (start current path) (Path.segments path) with
      | .error reason => .absent reason
      | .ok place =>
          match t.node? place with
          | none => .absent .notFound
          | some (.file content) => .file content
          | some (.locked reason) => .locked reason
          | some .directory => .directory

/-- Puts a file into a directory, unless a directory of that name is there, or a file that cannot be
written. -/
def saveIn (t : FileTree) (directory : List String) (name : String) (content : List UInt8) :
    Except IoError FileTree :=
  if nameLimit < name.utf8ByteSize then .error .nameTooLong
  else
    match t.node? (directory ++ [name]) with
    | some .directory => .error .isDirectory
    | some (.locked reason) => .error reason
    | _ => .ok (t.put (directory ++ [name]) (.file content))

/-- Writes a file, making it if it is not there yet. -/
def save (t : FileTree) (current : List String) (path : String) (content : List UInt8) :
    Except IoError FileTree :=
  match pathFault? path with
  | some reason => .error reason
  | none =>
      let segments := Path.segments path
      let body := (segments.reverse.dropWhile (· = "")).reverse
      match body.getLast? with
      | none => .error .isDirectory
      | some name =>
          match t.walk (start current path) body.dropLast with
          | .error reason => .error reason
          | .ok place =>
              match t.node? place with
              | none => .error .notFound
              | some (.file _) => .error .notDirectory
              | some (.locked _) => .error .notDirectory
              | some .directory =>
                  if body.length < segments.length ∨ name = "." ∨ name = ".." then
                    .error .isDirectory
                  else t.saveIn place name content

end FileTree

end ErrorFree
