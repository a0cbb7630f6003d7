import ErrorFree.Toml.Reading

/-!
# TOML documents

**Statements.**  A document is a list of statements, one on a line: a header, a header of a list
item, or an assignment; lines may be empty or hold only a comment.  A byte order mark at the
start is skipped.

**Meaning.**  Assignments go to the table that the last header opened, the root before the first.
-/

namespace ErrorFree

namespace Toml

/-- One line of a document that says something. -/
inductive Statement where
  /-- `[path]` -/
  | table (path : List String)
  /-- `[[path]]` -/
  | item (path : List String)
  /-- `path = value` -/
  | assignment (path : List String) (value : Value)

namespace Statement

/-- A header, read after its brackets, up to the brackets that close it. -/
def header (close : List Char) : Reader (List String) := fun text => do
  let (path, rest) ← keyPath text
  let rest ← expectAll close rest
  return (path, rest)

/-- A statement without its line end. -/
def read : Reader Statement
  | '[' :: '[' :: rest => (header [']', ']'] rest).map fun (path, rest) => (.item path, rest)
  | '[' :: rest => (header [']'] rest).map fun (path, rest) => (.table path, rest)
  | text =>
      (Toml.assignment (value (nestingBound - 1)) text).map fun ((path, v), rest) =>
        (.assignment path v, rest)

end Statement

/-- The statements of a text of at most `fuel` lines. -/
def statementsFrom : Nat → List Char → Option (List Statement)
  | 0, text => if text.isEmpty then some [] else none
  | fuel + 1, text =>
      match skipBlanks text with
      | [] => some []
      | c :: rest =>
          if c = '#' ∨ c = '\n' ∨ c = '\r' then
            (lineEnd? (c :: rest)).bind (statementsFrom fuel)
          else do
            let (statement, rest) ← Statement.read (c :: rest)
            let statements ← (lineEnd? rest).bind (statementsFrom fuel)
            return statement :: statements

/-- The statements of a text. -/
def statements (text : List Char) : Option (List Statement) :=
  match text with
  | '\uFEFF' :: rest => statementsFrom rest.length rest
  | _ => statementsFrom text.length text

/-- What the statements so far have built. -/
structure Document where
  /-- The entries of the root. -/
  root : Entries := []
  /-- The path of the open table. -/
  current : List String := []

namespace Document

/-- Works on the table in front of the last key of a header's path. -/
def atParent (path : List String) (f : String → Entries → Option Entries) (root : Entries) :
    Option Entries :=
  match path.getLast? with
  | none => none
  | some last => within .implied (fun _ => f last) path.dropLast .header root

/-- Carries out one statement. -/
def apply (d : Document) : Statement → Option Document
  | .table path => (atParent path openTable d.root).map fun root => ⟨root, path⟩
  | .item path => (atParent path openItem d.root).map fun root => ⟨root, path⟩
  | .assignment path v =>
      (within .implied (assignPath path v) d.current .header d.root).map fun root =>
        { d with root }

/-- The entries of the document that a text spells. -/
def parse (text : List Char) : Option Entries := do
  let document ← (← statements text).foldlM apply {}
  return document.root

end Document

end Toml

end ErrorFree
