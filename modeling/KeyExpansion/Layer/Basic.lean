-- SUMMARY: Layers: the values, includes and settings that a source file gives.
import KeyExpansion.Error
import KeyExpansion.Source
import KeyExpansion.Value.Node
import KeyExpansion.Yaml.Reader

/-! # Layers

A source file is a YAML mapping under a version of its own. Its fields are read
strictly: a flag is a boolean, a text a text, and what is not known is passed over. A
field that is missing has its default; lists, mappings and settings may also be null. -/

namespace KeyExpansion

structure Settings where
  /-- The limit of expansions that set none. -/
  limit : Option Int := none
deriving Repr, DecidableEq

structure Layer where
  description : Option String := none
  /-- Are files of parent directories layered underneath? -/
  inherit : Bool := false
  /-- The files loaded before this one. -/
  includes : List String := []
  values : List (Yaml.Node × Yaml.Node) := []
  settings : Option Settings := none
  /-- The file that the layer was read from. -/
  path : Option Path := none

instance : Inhabited Layer := ⟨{}⟩

namespace Layer

open Yaml (Node)

/-- The only version of source files. -/
def version : String := "dkey/v0"

/-- Fields by their names. Every key must be a text, and a known field may stand once. -/
def fields? (known : List String) : List (Node × Node) → Option (List (String × Node))
  | [] => some []
  | (key, value) :: entries =>
    match key.untagged, fields? known entries with
    | .str name, some fields =>
      if known.contains name && (fields.lookup name).isSome then none
      else some ((name, value) :: fields)
    | _, _ => none

/-- Is this the version that can be read? -/
def isVersion : Node → Bool
  | .str s => s == version
  | .tagged tag .null => tag == version
  | _ => false

def readString? (node : Node) : Option String :=
  match node.untagged with
  | .str s => some s
  | _ => none

def readBool? (node : Node) : Option Bool :=
  match node.untagged with
  | .bool b => some b
  | _ => none

/-- A text, or null for none. -/
def readOptional? : Node → Option (Option String)
  | .null => some none
  | node => (readString? node).map some

def readStrings? (node : Node) : Option (List String) :=
  match node.untagged with
  | .sequence items => items.mapM readString?
  | .null => some []
  | _ => none

def readMapping? (node : Node) : Option (List (Node × Node)) :=
  match node.untagged with
  | .mapping entries => some entries
  | .null => some []
  | _ => none

/-- A limit of 32 bits, or null for none. -/
def readLimit? : Node → Option (Option Int)
  | .null => some none
  | node =>
    match node.untagged with
    | .int i => if Decimal.isSigned 32 i then some (some i) else none
    | _ => none

/-- Settings by name, or in the order of their fields. -/
def readSettings? : Node → Option (Option Settings)
  | .null => some none
  | node =>
    match node.untagged with
    | .mapping entries => do
      let fields ← fields? ["limit"] entries
      let limit ← readLimit? ((fields.lookup "limit").getD .null)
      return some { limit }
    | .sequence [] => some (some {})
    | .sequence [item] => (readLimit? item).map fun limit => some { limit }
    | _ => none

def fieldNames : List String :=
  ["api", "description", "inherit", "includes", "values", "settings"]

/-- The layer of fields, of which the version must be one. -/
def ofFields? (fields : List (String × Node)) : Option Layer := do
  let api ← fields.lookup "api"
  guard (isVersion api)
  let description ← readOptional? ((fields.lookup "description").getD .null)
  let inherit ← readBool? ((fields.lookup "inherit").getD (.bool false))
  let includes ← readStrings? ((fields.lookup "includes").getD .null)
  let values ← readMapping? ((fields.lookup "values").getD .null)
  let settings ← readSettings? ((fields.lookup "settings").getD .null)
  return { description, inherit, includes, values, settings }

/-- The layer of a node. A list may give the version alone. -/
def ofNode? (node : Node) : Option Layer :=
  match node.untagged with
  | .mapping entries => (fields? fieldNames entries).bind ofFields?
  | .sequence [api] => if isVersion api then some {} else none
  | _ => none

/-- The layer that a text gives. -/
def ofText (text : String) : Except Error Layer :=
  match (Yaml.read? text).bind ofNode? with
  | some layer => .ok layer
  | none => .error .invalidYaml

/-- The limit of expansions, if the file sets one. -/
def limit? (layer : Layer) : Option Int :=
  layer.settings.bind Settings.limit

/-- The values whose keys are texts. -/
def texts (layer : Layer) : List (String × Value) :=
  layer.values.filterMap fun (key, value) =>
    match key with
    | .str name => some (name, Value.ofNode value)
    | _ => none

/-- The value under a name. Only keys that are texts have one. -/
def lookup? (layer : Layer) (name : String) : Option Value :=
  Entries.get? layer.texts name

/-- The layer as a source of its own. -/
def source (layer : Layer) : Source :=
  .table layer.texts

/-- The values under the names that their keys stand for. -/
def named (layer : Layer) : List (String × Value) :=
  layer.values.filterMap fun (key, value) =>
    key.name?.map fun name => (name, Value.ofNode value)

/-- Why the layer cannot be used, if it cannot. -/
def validate (layer : Layer) : Except Error Unit :=
  if layer.path.isNone then .error (.validation "source_path must be set")
  else
    match layer.values.find? fun entry => entry.1.name?.isNone with
    | some (key, _) =>
      .error (.validation ("value names must be scalars, found " ++ key.describe))
    | none =>
      if layer.limit? == some 0 then
        .error (.validation "settings.limit of 0 would never expand anything")
      else .ok ()

def listedIf {α : Type} (present : Bool) (item : α) : List α :=
  if present then [item] else []

/-- The node that is written for the layer. Fields with nothing in them are left out. -/
def toNode (layer : Layer) : Node :=
  let field (name : String) (node : Node) : Node × Node := (.str name, node)
  .mapping (
    [field "api" (.str version)]
    ++ layer.description.toList.map (fun d => field "description" (.str d))
    ++ [field "inherit" (.bool layer.inherit)]
    ++ listedIf (!layer.includes.isEmpty) (field "includes" (.sequence (layer.includes.map .str)))
    ++ listedIf (!layer.values.isEmpty) (field "values" (.mapping layer.values))
    ++ layer.settings.toList.map fun s =>
      field "settings" (.mapping (s.limit.toList.map fun i => field "limit" (.int i))))

end Layer

end KeyExpansion
