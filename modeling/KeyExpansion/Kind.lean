-- SUMMARY: The kinds of value.

/-! # Kinds -/

namespace KeyExpansion

/-- The kinds of value, by the names that messages and type constraints use. -/
inductive Kind where
  | null
  | bool
  | int
  | float
  | str
  | path
  | list
  | map
  | key
  | sectioned
  | code
deriving Repr, DecidableEq

namespace Kind

def all : List Kind :=
  [.null, .bool, .int, .float, .str, .path, .list, .map, .key, .sectioned, .code]

def name : Kind → String
  | .null => "none"
  | .bool => "bool"
  | .int => "int"
  | .float => "float"
  | .str => "str"
  | .path => "path"
  | .list => "list"
  | .map => "map"
  | .key => "key"
  | .sectioned => "strang"
  | .code => "code"

/-- The name with a capital, as debugging output shows it. -/
def label (k : Kind) : String :=
  k.name.capitalize

def parse? (text : String) : Option Kind :=
  all.find? (·.name == text)

end Kind

end KeyExpansion
