-- SUMMARY: Code references, the table of registered code, and loaded code.
import KeyExpansion.Sectioned.Basic
import KeyExpansion.Text.Quoted

/-! # Code references

A code reference `group::module:value` names code that was registered under the
path `module:value`; the group plays no part. The table holds names of
functions, in the order of their paths, and each path once. -/

namespace KeyExpansion

abbrev CodeRef := Sectioned Scheme.codeRef

namespace CodeRef

def parse (fresh : Uuid) (text : String) : Except Error CodeRef :=
  Sectioned.parse Scheme.codeRef fresh text.toList

/-- The text of the section at a position. -/
def part (r : CodeRef) (n : Nat) : String :=
  String.ofList ((r.sectionText? (.position n)).getD [])

def group (r : CodeRef) : String :=
  r.part 0

def moduleName (r : CodeRef) : String :=
  r.part 1

def valueName (r : CodeRef) : String :=
  r.part 2

/-- What code is registered under. -/
def path (r : CodeRef) : String :=
  r.moduleName ++ ":" ++ r.valueName

end CodeRef

/-- A reference with the function that was found for it. -/
structure Code where
  reference : CodeRef
  function : String
deriving Repr, DecidableEq

namespace Code

def toString (c : Code) : String :=
  c.reference.toString

/-- What debugging output shows. -/
def describe (c : Code) : String :=
  "Code \x7b reference: " ++ Text.quoted c.toString ++ ", .. \x7d"

end Code

structure CodeTable where
  entries : List (String × String) := []
deriving Repr, DecidableEq, Inhabited

namespace CodeTable

/-- Put a function at its place in a table, or in the stead of the one there. -/
def insert (path function : String) : List (String × String) → List (String × String)
  | [] => [(path, function)]
  | entry :: entries =>
    if path = entry.1 then (path, function) :: entries
    else if path < entry.1 then (path, function) :: entry :: entries
    else entry :: insert path function entries

def register (table : CodeTable) (path function : String) : CodeTable :=
  ⟨insert path function table.entries⟩

def unregister (table : CodeTable) (path : String) : CodeTable :=
  ⟨table.entries.filter (·.1 != path)⟩

def find? (table : CodeTable) (path : String) : Option String :=
  table.entries.lookup path

/-- The registered paths in order. -/
def paths (table : CodeTable) : List String :=
  table.entries.map (·.1)

/-- The code that a reference names. -/
def load (table : CodeTable) (reference : CodeRef) : Except Error Code :=
  match table.find? reference.path with
  | some function => .ok ⟨reference, function⟩
  | none => .error (.codeNotFound reference.toString)

end CodeTable

end KeyExpansion
