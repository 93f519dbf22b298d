-- SUMMARY: Values of YAML nodes, and nodes of values.
import KeyExpansion.Value.Entries
import KeyExpansion.Value.Text
import KeyExpansion.Yaml.Node

/-! # Values and nodes

Names are texts, so scalar keys of mappings are taken by their text, and entries with
other keys are left out. Numbers that do not fit become floats, and tags are dropped. -/

namespace KeyExpansion

/-- The name that a mapping key stands for. -/
def Yaml.Node.name? : Yaml.Node → Option String
  | .str s => some s
  | .int i => some (toString i)
  | .float x => some (Yaml.Node.floatText x)
  | .bool b => some (toString b)
  | _ => none

namespace Value

mutual

/-- The value of a node. -/
def ofNode : Yaml.Node → Value
  | .null => .null
  | .bool b => .bool b
  | .int i =>
    match Decimal.toInt64? i with
    | some i => .int i
    | none => .float (Decimal.ofInt i)
  | .float x => .float x
  | .str s => .str s
  | .sequence items => .list (ofNodes items)
  | .mapping entries => .map (Entries.ofList (ofEntries entries))
  | .tagged _ node => ofNode node

def ofNodes : List Yaml.Node → List Value
  | [] => []
  | node :: nodes => ofNode node :: ofNodes nodes

def ofEntries : List (Yaml.Node × Yaml.Node) → List (String × Value)
  | [] => []
  | (named, node) :: entries =>
    match named.name? with
    | some name => (name, ofNode node) :: ofEntries entries
    | none => ofEntries entries

end

mutual

/-- The node that a data file holds for a value. -/
def toNode : Value → Yaml.Node
  | .null => .null
  | .bool b => .bool b
  | .int i => .int i.toInt
  | .float x => .float x
  | .str s => .str s
  | .path p => .str p.text
  | .list items => .sequence (toNodes items)
  | .map entries => .mapping (toEntries entries)
  | .key k => .str k.wrapped
  | .sectioned s => .str s.toString
  | .code c => .str c.toString

def toNodes : List Value → List Yaml.Node
  | [] => []
  | v :: vs => toNode v :: toNodes vs

def toEntries : List (String × Value) → List (Yaml.Node × Yaml.Node)
  | [] => []
  | (name, v) :: entries => (.str name, toNode v) :: toEntries entries

end

/-- The value as data files hold it: paths, keys, sectioned texts and code become their
    text. -/
def plain (v : Value) : Value :=
  ofNode (toNode v)

end Value

end KeyExpansion
