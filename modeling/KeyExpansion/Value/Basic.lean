-- SUMMARY: Values and keys, which may hold each other.
import KeyExpansion.CodeRef
import KeyExpansion.Key.Family
import KeyExpansion.Template.Piece

/-! # Values and keys

A value is found in a source or made by expanding a key. A key that is not yet
expanded is a value too, and a key may hold a value to fall back to, so both are
declared together. -/

namespace KeyExpansion

/-- What the kind of an expanded value must be. -/
inductive Constraint where
  | any
  | is (kind : Kind)
  | oneOf (kinds : List Kind)
  | listOf (inner : Constraint)
  | mapOf (inner : Constraint)
deriving Repr, DecidableEq

mutual

structure Key where
  /-- The bare name of a single key, or the whole template. -/
  text : String
  family : Family
  mark : Mark
  coercion : Coercion
  check : Option Constraint
  fallback : Option Fallback
  format : String
  conversion : Option Char
  /-- How many references may be followed. Negative is as many as there are. -/
  limit : Option Int
  help : Option String
  /-- What a template is made of. Single keys have none. -/
  parts : Option Parts
  /-- A number given from outside, to tell apart keys of one text. -/
  label : Option Nat

structure Parts where
  subkeys : List Key
  /-- The template with empty slots for its keys. -/
  slots : String
  hasLiteral : Bool

/-- What a key falls back to. -/
inductive Fallback where
  | value (value : Value)
  | itself

inductive Value where
  | null
  | bool (b : Bool)
  | int (i : Int64)
  | float (x : Float)
  | str (s : String)
  | path (p : Path)
  | list (items : List Value)
  /-- Entries in the order in which their names were first given. -/
  | map (entries : List (String × Value))
  | key (k : Key)
  | sectioned (s : Sectioned Scheme.basic)
  | code (c : Code)

end

instance : Inhabited Value := ⟨.null⟩

namespace Key

/-- Is the key a template? -/
def isMulti (k : Key) : Bool :=
  k.parts.isSome

/-- Is the key plain text that expands to itself? -/
def isNull (k : Key) : Bool :=
  k.mark == .null

def isIndirect (k : Key) : Bool :=
  !k.isMulti && isIndirectName k.text.toList

def subkeys (k : Key) : List Key :=
  match k.parts with
  | some parts => parts.subkeys
  | none => []

def slots? (k : Key) : Option String :=
  k.parts.map Parts.slots

/-- The name to look up first. -/
def direct (k : Key) : String :=
  if k.isMulti then k.text else directName k.text

/-- The name that asks for another name. -/
def indirect (k : Key) : String :=
  if k.isMulti then k.text else indirectName k.text

/-- The key as it stands in a template, without options. -/
def wrapped (k : Key) : String :=
  if k.isNull || k.isMulti then k.text else inBraces k.text

/-- The key as it stands in a template. -/
def template (k : Key) : String :=
  if k.isNull || k.isMulti then k.text
  else
    inBraces (k.text ++ (if k.format.isEmpty then "" else ":" ++ k.format)
      ++ (match k.conversion with
        | some letter => "!" ++ String.singleton letter
        | none => ""))

/-- The key written with flags: `w` for braces, `i` and `d` for the indirect and the
    direct name. -/
def styled (k : Key) (flags : String) : String :=
  if k.isNull || k.isMulti then k.text
  else
    let name :=
      if flags.toList.contains 'i' then k.indirect
      else if flags.toList.contains 'd' then k.direct
      else k.text
    if flags.toList.contains 'w' then inBraces name else name

/-- What debugging output shows. -/
def describe (k : Key) : String :=
  "DKey \x7b text: " ++ Text.quoted k.text ++ ", class: " ++ Text.quoted k.family.name
    ++ ", mark: " ++ k.mark.label ++ ", .. \x7d"

/-- Keys are equal if their texts are. -/
def same (a b : Key) : Bool :=
  a.text == b.text

/-- Are both the very key that was given a label? -/
def identical (a b : Key) : Bool :=
  a.label.isSome && a.label == b.label

/-- The value that the key itself says to fall back to. -/
def fallback? (k : Key) : Option Value :=
  match k.fallback with
  | some (.value v) => some v
  | some .itself => some (.key k)
  | none => none

end Key

namespace Value

def kind : Value → Kind
  | .null => .null
  | .bool _ => .bool
  | .int _ => .int
  | .float _ => .float
  | .str _ => .str
  | .path _ => .path
  | .list _ => .list
  | .map _ => .map
  | .key _ => .key
  | .sectioned _ => .sectioned
  | .code _ => .code

def isNull : Value → Bool
  | .null => true
  | _ => false

def isKey : Value → Bool
  | .key _ => true
  | _ => false

def str? : Value → Option String
  | .str s => some s
  | _ => none

def int? : Value → Option Int64
  | .int i => some i
  | _ => none

def path? : Value → Option Path
  | .path p => some p
  | _ => none

def key? : Value → Option Key
  | .key k => some k
  | _ => none

def list? : Value → Option (List Value)
  | .list items => some items
  | _ => none

def map? : Value → Option (List (String × Value))
  | .map entries => some entries
  | _ => none

/-- Is the value a number? -/
def isNumber : Value → Bool
  | .int _ | .float _ => true
  | _ => false

end Value

end KeyExpansion
