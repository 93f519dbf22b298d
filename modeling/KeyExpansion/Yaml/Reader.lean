-- SUMMARY: Reading a YAML text into a node.
import KeyExpansion.Yaml.Node
import KeyExpansion.Yaml.Token

/-! # Reading

The node of a text is read from its tokens. A text holds one document at most, no
mapping has a key twice, and collections nest at most `deepest` deep. -/

namespace KeyExpansion.Yaml

/-- How deep collections may nest. -/
def deepest : Nat := 128

/-- The tokens that are left, and the nodes that have been given a name. -/
structure Reader where
  tokens : List Token
  anchors : List (List Char × Node) := []

abbrev Parse := StateT Reader Option

namespace Parse

def peek : Parse (Option Token) := do
  return (← get).tokens.head?

def advance : Parse Unit :=
  modify fun r => { r with tokens := r.tokens.drop 1 }

/-- Take the token if it is the next one. -/
def accept (t : Token) : Parse Bool := do
  if (← peek) == some t then
    advance
    return true
  else return false

/-- Is the next token one of these? -/
def nextIn (ts : List Token) : Parse Bool := do
  return (← peek).any ts.contains

end Parse

/-- The anchor and the tag in front of a node. -/
structure Properties where
  anchor : Option (List Char) := none
  tag : Option (List Char) := none

namespace Properties

def isEmpty (p : Properties) : Bool :=
  p.anchor.isNone && p.tag.isNone

/-- Take one property more, if it is not there yet. -/
def take (p : Properties) : Parse Properties := do
  match ← Parse.peek, p with
  | some (.anchor name), ⟨none, _⟩ => Parse.advance; return { p with anchor := some name }
  | some (.tag tag), ⟨_, none⟩ => Parse.advance; return { p with tag := some tag }
  | _, _ => return p

def read : Parse Properties := do
  (← Properties.take {}).take

end Properties

/-- The name of a tag of the user's own. Other tags are those of the standard. -/
def ownTag? : List Char → Option (List Char)
  | '!' :: name => some name
  | _ => none

/-- A tag of the standard by its last part. -/
def standardTag (name : String) : List Char :=
  "tag:yaml.org,2002:".toList ++ name.toList

/-- The node of a scalar under a tag of the standard. -/
def Node.ofStandard (tag text : List Char) : Option Node :=
  if tag == standardTag "bool" then (readBool? text).map .bool
  else if tag == standardTag "int" then (readInt? text).bind (Node.ofInt text)
  else if tag == standardTag "float" then (readFloat? text).map .float
  else if tag == standardTag "null" then if isNullWord text then some .null else none
  else some (.str (String.ofList text))

/-- A node under a tag of the user's own, which must have a name. -/
def Node.underTag (name : List Char) (node : Node) : Option Node :=
  if name.isEmpty then none else some (.tagged (String.ofList name) node)

/-- The node of a scalar. -/
def Node.ofScalar (tag : Option (List Char)) (text : List Char) (plain : Bool) : Option Node :=
  let natural := if plain then Node.ofPlain text else some (.str (String.ofList text))
  match tag with
  | none => natural
  | some tag =>
    match ownTag? tag with
    | some name => natural.bind (Node.underTag name)
    | none => Node.ofStandard tag text

/-- The node of a collection. -/
def Node.ofCollection (tag : Option (List Char)) (node : Node) : Option Node :=
  match tag.bind ownTag? with
  | some name => node.underTag name
  | none => some node

/-- Put an entry behind others, unless its key is there already. -/
def Node.addEntry (entries : List (Node × Node)) (key value : Node) : Option (List (Node × Node)) :=
  if entries.any fun entry => entry.1.same key then none else some (entries ++ [(key, value)])

namespace Parse

/-- Reads a node: may it be a block, and may it be a sequence that is not indented? -/
abbrev Next := (block unindented : Bool) → Parse Node

/-- A node, or null if one of these tokens comes first. -/
def orNull (ends : List Token) (next : Parse Node) : Parse Node := do
  if ← nextIn ends then return .null else next

/-- The items of a block sequence. -/
def items (next : Next) (ends : List Token) : Nat → Parse (List Node)
  | 0 => return []
  | count + 1 => do
    if ← accept .entry then
      let item ← orNull (.entry :: ends) (next true false)
      return item :: (← items next ends count)
    else return []

def valueOf (ends : List Token) (next : Parse Node) : Parse Node := do
  if ← accept .value then orNull ends next else return .null

/-- The entries of a block mapping. -/
def entries (next : Next) (made : List (Node × Node)) : Nat → Parse (List (Node × Node))
  | 0 => return made
  | count + 1 => do
    if ← accept .key then
      let ends := [.key, .value, .close]
      let key ← orNull ends (next true true)
      let value ← valueOf ends (next true true)
      entries next (← StateT.lift (Node.addEntry made key value)) count
    else return made

/-- One pair in a flow sequence. -/
def pair (next : Next) : Parse Node := do
  let ends := [.comma, .closeFlowSequence]
  let key ← orNull (.value :: ends) (next false false)
  let value ← valueOf ends (next false false)
  return .mapping [(key, value)]

/-- The items of a flow sequence and what closes it. -/
def flowItems (next : Next) (first : Bool) : Nat → Parse (List Node)
  | 0 => failure
  | count + 1 => do
    if ← accept .closeFlowSequence then return []
    else
      guard (first || (← accept .comma))
      if ← accept .closeFlowSequence then return []
      else
        let marked ← accept .key
        let item ← if marked then pair next else next false false
        return item :: (← flowItems next false count)

/-- The entries of a flow mapping and what closes it. -/
def flowEntries (next : Next) (first : Bool) (made : List (Node × Node)) :
    Nat → Parse (List (Node × Node))
  | 0 => failure
  | count + 1 => do
    if ← accept .closeFlowMapping then return made
    else
      guard (first || (← accept .comma))
      if ← accept .closeFlowMapping then return made
      else
        let ends := [.comma, .closeFlowMapping]
        let marked ← accept .key
        let key ← if marked then orNull (.value :: ends) (next false false) else next false false
        let value ← if marked then valueOf ends (next false false) else pure .null
        flowEntries next false (← StateT.lift (Node.addEntry made key value)) count

/-- A collection that opens here, or `none` if none does. -/
def collection (next : Next) (block unindented : Bool) : Parse (Option Node) := do
  let count := (← get).tokens.length
  match ← peek, block, unindented with
  | some .entry, _, true => return some (.sequence (← items next [.key, .value, .close] count))
  | some .openSequence, true, _ =>
    advance
    let made ← items next [.close] count
    guard (← accept .close)
    return some (.sequence made)
  | some .openMapping, true, _ =>
    advance
    let made ← entries next [] count
    guard (← accept .close)
    return some (.mapping made)
  | some .openFlowSequence, _, _ =>
    advance
    return some (.sequence (← flowItems next true count))
  | some .openFlowMapping, _, _ =>
    advance
    return some (.mapping (← flowEntries next true [] count))
  | _, _, _ => return none

/-- The node that properties belong to. -/
def content (next : Option Next) (properties : Properties) (block unindented : Bool) :
    Parse Node := do
  match ← peek with
  | some (.scalar text plain) =>
    advance
    StateT.lift (Node.ofScalar properties.tag text plain)
  | _ =>
    let made ←
      match next with
      | some next => collection next block unindented
      | none => pure none
    match made with
    | some node => StateT.lift (Node.ofCollection properties.tag node)
    | none =>
      guard !properties.isEmpty
      StateT.lift (Node.ofScalar properties.tag [] true)

/-- Read a node in which collections nest at most `depth` deep. -/
def node : (depth : Nat) → Next
  | depth, block, unindented => do
    match ← peek with
    | some (.alias name) =>
      advance
      StateT.lift ((← get).anchors.lookup name)
    | _ =>
      let properties ← Properties.read
      let next : Option Next :=
        match depth with
        | 0 => none
        | depth + 1 => some fun block unindented => node depth block unindented
      let made ← content next properties block unindented
      match properties.anchor with
      | some name => modify fun r => { r with anchors := (name, made) :: r.anchors }
      | none => pure ()
      return made

/-- The node of the only document. -/
def document : Parse Node := do
  let count := (← get).tokens.length
  let directives := (← get).tokens.takeWhile (· == .directive)
  modify fun r => { r with tokens := r.tokens.drop directives.length }
  let explicit ← accept .documentStart
  guard (explicit || directives.isEmpty)
  if count = 0 then return .null
  else
    let vacant := explicit && (← peek).isNone
    let ends := if explicit then [.documentStart, .documentEnd, .directive] else []
    let made ← if vacant then pure .null else orNull ends (node deepest true false)
    modify fun r => { r with tokens := r.tokens.dropWhile (· == .documentEnd) }
    guard (← get).tokens.isEmpty
    return made

end Parse

/-- The node that a text says, if it is well formed. -/
def read? (text : String) : Option Node := do
  let tokens ← tokens? text
  let (node, _) ← Parse.document.run { tokens }
  return node

end KeyExpansion.Yaml
