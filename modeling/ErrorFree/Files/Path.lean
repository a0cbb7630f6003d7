/-!
# Paths

A path is a text of segments with slashes between them.  Operations here are lexical: they look at
the text, not at what exists.

**Parts that do not count.**  Empty segments (doubled or trailing slashes) and segments `.` are
passed over, except a `.` at the start of a relative path; `..` is a segment like any other.

**Ancestors.**  The first ancestor of a path is the path as it is written; each further one
leaves out the last segment that counts.  An absolute path ends at the root, a relative one at
the empty path.
-/

namespace ErrorFree

namespace Path

/-- The parts of a text between slashes, at least one. -/
def splitSlashes : List Char → List (List Char)
  | [] => [[]]
  | c :: rest =>
      if c = '/' then [] :: splitSlashes rest
      else
        match splitSlashes rest with
        | [] => [[c]]
        | first :: more => (c :: first) :: more

/-- The segments of a text. -/
def segmentsOf (text : List Char) : List String := (splitSlashes text).map String.ofList

/-- The path starts at the root. -/
def isAbsolute (path : String) : Bool := path.toList.head? = some '/'

/-- The segments of a path, without the slash that marks the root. -/
def segments (path : String) : List String :=
  segmentsOf (if isAbsolute path then path.toList.tail else path.toList)

/-- The path of some segments. -/
def ofSegments (absolute : Bool) (segments : List String) : String :=
  (if absolute then "/" else "") ++ "/".intercalate segments

/-- The segment is passed over. -/
def isTrivial (segment : String) : Bool := segment = "" || segment = "."

/-- The segments without those at the end that do not count. -/
def trimEnd (absolute : Bool) : List String → List String
  | [] => []
  | first :: rest =>
      let rest := (rest.reverse.dropWhile isTrivial).reverse
      if rest = [] ∧ (first = "" ∨ (absolute ∧ first = ".")) then [] else first :: rest

/-- The path without its last segment; the root and the empty path have no parent. -/
def parent? (path : String) : Option String :=
  let absolute := isAbsolute path
  match trimEnd absolute (segments path) with
  | [] => none
  | first :: rest => some (ofSegments absolute (trimEnd absolute (first :: rest).dropLast))

/-- The ancestors of a path, at most `fuel` beyond itself, nearest first. -/
def ancestorsUpTo : Nat → String → List String
  | 0, path => [path]
  | fuel + 1, path =>
      path ::
        match parent? path with
        | none => []
        | some parent => ancestorsUpTo fuel parent

/-- The path itself and its ancestors, nearest first. -/
def ancestors (path : String) : List String := ancestorsUpTo (segments path).length path

/-- The path of a name in a directory. -/
def join (directory name : String) : String :=
  if directory = "" then name
  else if directory.toList.getLast? = some '/' then directory ++ name
  else directory ++ "/" ++ name

/-- The last segment, if it is a name. -/
def fileName? (path : String) : Option String :=
  match (trimEnd (isAbsolute path) (segments path)).getLast? with
  | none => none
  | some name => if name = "." ∨ name = ".." then none else some name

end Path

end ErrorFree
