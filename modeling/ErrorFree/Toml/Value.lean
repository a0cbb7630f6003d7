import ErrorFree.Binary64.Basic

/-!
# TOML values and tables

**Values.**  A table remembers how it came about, because that decides what may be added to it
later:

* `inline`: written as a value; nothing can be added;
* `header`: opened by a header; dotted keys cannot reach into it from outside, and it cannot be
  opened twice;
* `implied`: only named on the way to another header; it can still be opened;
* `dotted`: made by a dotted key; only dotted keys of the same table add entries to it.

**Building.**  `within` finds the table that a key path leads to, making tables on the way, and
works on its entries.  Everything that breaks a rule gives nothing.
-/

namespace ErrorFree

namespace Toml

/-- How a table came about. -/
inductive Origin where
  | inline
  | header
  | implied
  | dotted
  deriving DecidableEq, Repr

/-- A TOML value. -/
inductive Value where
  | string (text : List Char)
  | integer (n : Int)
  | float (x : Binary64)
  | boolean (b : Bool)
  /-- A date, a time, or both, as it is written. -/
  | moment (text : List Char)
  | array (items : List Value)
  /-- A list of tables that headers add to; the last one is open. -/
  | tables (earlier : List (List (String × Value))) (last : List (String × Value))
  | table (origin : Origin) (entries : List (String × Value))

/-- What a table holds, in the order of definition. -/
abbrev Entries := List (String × Value)

namespace Entries

/-- The entries with the value of a key replaced. -/
def put (key : String) (value : Value) : Entries → Entries
  | [] => []
  | (name, old) :: rest =>
      if name = key then (name, value) :: rest else (name, old) :: put key value rest

/-- Adds an entry, unless the key is taken. -/
def define? (key : String) (value : Value) (entries : Entries) : Option Entries :=
  match entries.lookup key with
  | none => some (entries ++ [(key, value)])
  | some _ => none

end Entries

/-- A key path that makes tables of origin `made` may go through a table of this origin. -/
def Origin.passable (origin made : Origin) : Bool :=
  match origin with
  | .inline => false
  | .header => made ≠ .dotted
  | .implied => true
  | .dotted => true

/-- Works on the entries of the table that a path leads to.  Missing tables on the way are made,
with origin `made`; through a list of tables the way leads to its last one. -/
def within (made : Origin) (f : Origin → Entries → Option Entries) :
    List String → Origin → Entries → Option Entries
  | [], origin, entries => f origin entries
  | key :: path, _, entries =>
      match entries.lookup key with
      | none => do
          let inner ← within made f path made []
          return entries ++ [(key, .table made inner)]
      | some (.table origin inner) =>
          if origin.passable made then do
            let inner ← within made f path origin inner
            return entries.put key (.table origin inner)
          else none
      | some (.tables earlier last) => do
          let last ← within made f path .header last
          return entries.put key (.tables earlier last)
      | some _ => none

/-- Adds the value of a dotted key: the path in front of the last key leads through tables that
dotted keys made, and ends at one of them. -/
def assign (path : List String) (key : String) (value : Value) (origin : Origin)
    (entries : Entries) : Option Entries :=
  within .dotted
    (fun reached inner =>
      if path ≠ [] ∧ reached ≠ .dotted then none else inner.define? key value)
    path origin entries

/-- Opens a table by its header. -/
def openTable (key : String) (entries : Entries) : Option Entries :=
  match entries.lookup key with
  | none => some (entries ++ [(key, .table .header [])])
  | some (.table .implied inner) => some (entries.put key (.table .header inner))
  | some _ => none

/-- Adds a table to a list of tables by its header. -/
def openItem (key : String) (entries : Entries) : Option Entries :=
  match entries.lookup key with
  | none => some (entries ++ [(key, .tables [] [])])
  | some (.tables earlier last) => some (entries.put key (.tables (earlier ++ [last]) []))
  | some _ => none

end Toml

end ErrorFree
