import ErrorFree.IoError

/-!
# What stands at a path

A regular file with its bytes, a regular file that cannot be read, a directory, or nothing, with the
reason why the path leads nowhere.
-/

namespace ErrorFree

/-- What a look at a path finds. -/
inductive Entry where
  | file (content : List UInt8)
  /-- A regular file that cannot be read. -/
  | locked (reason : IoError)
  | directory
  | absent (reason : IoError)
  deriving DecidableEq

namespace Entry

/-- A regular file. -/
def isFile : Entry → Bool
  | .file _ => true
  | .locked _ => true
  | _ => false

/-- Something. -/
def isPresent : Entry → Bool
  | .absent _ => false
  | _ => true

/-- The bytes of a file. -/
def read : Entry → Except IoError (List UInt8)
  | .file content => .ok content
  | .locked reason => .error reason
  | .directory => .error .isDirectory
  | .absent reason => .error reason

end Entry

end ErrorFree
