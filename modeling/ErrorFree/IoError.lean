/-!
# Failures of the surroundings

What can go wrong outside of the language: streams that refuse bytes and files that cannot be
opened.  Each cause has its wording in one place.
-/

namespace ErrorFree

/-- Why a stream or a file refused an operation. -/
inductive IoError where
  /-- An output that takes no more bytes. -/
  | closed
  /-- An output that cannot be flushed. -/
  | stuck
  /-- A pipe nobody reads. -/
  | brokenPipe
  /-- There is no such file or directory. -/
  | notFound
  /-- A directory stands where a file is needed. -/
  | isDirectory
  /-- A file stands where a directory is needed. -/
  | notDirectory
  /-- The permissions of a file forbid it. -/
  | permissionDenied
  /-- A name on the path is longer than the file system allows. -/
  | nameTooLong
  /-- A path holds a character that no path can hold. -/
  | invalidPath
  /-- The bytes of a text file are no text. -/
  | invalidText
  /-- Something else, in the words of the system. -/
  | other (details : String)
  deriving DecidableEq, Repr

/-- The wording of a failure. -/
def IoError.message : IoError → String
  | .closed => "closed"
  | .stuck => "stuck"
  | .brokenPipe => "Broken pipe (os error 32)"
  | .notFound => "No such file or directory (os error 2)"
  | .isDirectory => "Is a directory (os error 21)"
  | .notDirectory => "Not a directory (os error 20)"
  | .permissionDenied => "Permission denied (os error 13)"
  | .nameTooLong => "File name too long (os error 36)"
  | .invalidPath => "file name contained an unexpected NUL byte"
  | .invalidText => "stream did not contain valid UTF-8"
  | .other details => details

end ErrorFree
