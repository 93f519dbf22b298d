-- SUMMARY: The values of YAML texts, and what plain scalars mean.
import KeyExpansion.Decimal.Read
import KeyExpansion.Decimal.Text
import KeyExpansion.Text.Quoted

/-! # Nodes

A node is what a YAML text says. Plain scalars are null, booleans, numbers or text by
the way they are written; whole numbers have 64 bits, signed or not. -/

namespace KeyExpansion.Yaml

inductive Node where
  | null
  | bool (b : Bool)
  | int (i : Int)
  | float (x : Float)
  | str (s : String)
  | sequence (items : List Node)
  | mapping (entries : List (Node × Node))
  | tagged (tag : String) (node : Node)

instance : Inhabited Node := ⟨.null⟩

namespace Node

mutual

/-- Are two nodes equal? Mappings compare without regard to order, and NaN is equal to
    itself. -/
def same : Node → Node → Bool
  | .null, .null => true
  | .bool a, .bool b => a == b
  | .int a, .int b => a == b
  | .float a, .float b => a == b || (a.isNaN && b.isNaN)
  | .str a, .str b => a == b
  | .sequence a, .sequence b => sameItems a b
  | .mapping a, .mapping b => a.length == b.length && sameEntries a b
  | .tagged s a, .tagged t b => s == t && same a b
  | _, _ => false

def sameItems : List Node → List Node → Bool
  | [], [] => true
  | a :: as, b :: bs => same a b && sameItems as bs
  | _, _ => false

/-- Does the second mapping have every entry of the first? -/
def sameEntries : List (Node × Node) → List (Node × Node) → Bool
  | [], _ => true
  | (key, value) :: entries, other =>
    other.any (fun entry => same key entry.1 && same value entry.2) && sameEntries entries other

end

/-- The node without tags around it. -/
def untagged : Node → Node
  | .tagged _ node => untagged node
  | node => node

/-- The text of a float in YAML. -/
def floatText (x : Float) : String :=
  match Decimal.decode x with
  | .nan => ".nan"
  | .infinite negative => Decimal.signed negative ".inf"
  | .finite b => Decimal.signed b.negative b.scientific

mutual

/-- What debugging output shows. -/
def describe : Node → String
  | .null => "Null"
  | .bool b => "Bool(" ++ toString b ++ ")"
  | .int i => "Number(" ++ toString i ++ ")"
  | .float x => "Number(" ++ floatText x ++ ")"
  | .str s => "String(" ++ Text.quoted s ++ ")"
  | .sequence items => "Sequence [" ++ ", ".intercalate (describeItems items) ++ "]"
  | .mapping entries => "Mapping \x7b" ++ ", ".intercalate (describeEntries entries) ++ "\x7d"
  | .tagged tag node => "TaggedValue \x7b tag: !" ++ tag ++ ", value: " ++ describe node ++ " \x7d"

def describeItems : List Node → List String
  | [] => []
  | node :: nodes => describe node :: describeItems nodes

def describeEntries : List (Node × Node) → List String
  | [] => []
  | (key, value) :: entries =>
    ((match key with
      | .str s => Text.quoted s
      | .bool b => toString b
      | .int i => toString i
      | .float x => floatText x
      | key => describe key) ++ ": " ++ describe value) :: describeEntries entries

end

end Node

/-- One of the words that mean nothing. -/
def isNullWord (cs : List Char) : Bool :=
  ["null", "Null", "NULL", "~"].contains (String.ofList cs)

def readBool? (cs : List Char) : Option Bool :=
  if ["true", "True", "TRUE"].contains (String.ofList cs) then some true
  else if ["false", "False", "FALSE"].contains (String.ofList cs) then some false
  else none

/-- Is the text a row of digits that starts with a zero it does not need? Such a text is no
    number. -/
def isPaddedNumber (cs : List Char) : Bool :=
  let (_, digits) := Decimal.takeSign cs
  2 ≤ digits.length && digits.head? == some '0' && digits.all Char.isDigit

/-- A whole number in one of four radices, of any size. -/
def readInt? (cs : List Char) : Option Int :=
  let (negative, digits) := Decimal.takeSign cs
  let size :=
    match digits with
    | '0' :: 'x' :: digits => Decimal.readRadix? 16 digits
    | '0' :: 'o' :: digits => Decimal.readRadix? 8 digits
    | '0' :: 'b' :: digits => Decimal.readRadix? 2 digits
    | digits => if isPaddedNumber cs then none else Decimal.readNat? digits
  size.map (Decimal.withSign negative)

/-- A float, which is finite or one of the words for infinity and no number. -/
def readFloat? (cs : List Char) : Option Float :=
  let text := String.ofList cs
  if [".inf", ".Inf", ".INF", "+.inf", "+.Inf", "+.INF"].contains text then
    some (Decimal.infinity false)
  else if ["-.inf", "-.Inf", "-.INF"].contains text then some (Decimal.infinity true)
  else if [".nan", ".NaN", ".NAN"].contains text then some (Float.ofBits 0x7ff8000000000000)
  else (Decimal.readFloat? cs).filter Decimal.isFinite

/-- The node of a whole number. Numbers of more than 64 bits are refused, and those of more
    than 128 bits are floats. -/
def Node.ofInt (cs : List Char) (i : Int) : Option Node :=
  if Decimal.isSigned 64 i || Decimal.isUnsigned 64 i then some (.int i)
  else if Decimal.isSigned 128 i || Decimal.isUnsigned 128 i then none
  else some (((readFloat? cs).map Node.float).getD (.str (String.ofList cs)))

/-- What a plain scalar means. -/
def Node.ofPlain (cs : List Char) : Option Node :=
  if cs.isEmpty || isNullWord cs then some .null
  else
    match readBool? cs, readInt? cs with
    | some b, _ => some (.bool b)
    | none, some i => Node.ofInt cs i
    | none, none =>
      if isPaddedNumber cs then some (.str (String.ofList cs))
      else some (((readFloat? cs).map Node.float).getD (.str (String.ofList cs)))

end KeyExpansion.Yaml
