-- SUMMARY: Maps as lists of entries: a name is kept where it first stood.

/-! # Entries

A map is a list of entries with distinct names. Putting a name that is there
changes its value and not its place. -/

namespace KeyExpansion.Entries

variable {α : Type}

def put (name : String) (value : α) : List (String × α) → List (String × α)
  | [] => [(name, value)]
  | entry :: entries =>
    if entry.1 = name then (name, value) :: entries else entry :: put name value entries

/-- The map that a list of entries makes, a later one winning. -/
def ofList (entries : List (String × α)) : List (String × α) :=
  entries.foldl (fun made entry => put entry.1 entry.2 made) []

/-- All of one map, then all of another, which wins. -/
def merge (below above : List (String × α)) : List (String × α) :=
  above.foldl (fun made entry => put entry.1 entry.2 made) below

def get? (entries : List (String × α)) (name : String) : Option α :=
  entries.lookup name

end KeyExpansion.Entries
