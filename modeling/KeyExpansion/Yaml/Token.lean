-- SUMMARY: The tokens of a YAML text.
import KeyExpansion.Text.Search
import KeyExpansion.Yaml.Scalar

/-! # Tokens

Indentation opens and closes blocks, so a text is cut into tokens with the column of
every open block at hand. A scalar may turn out to be a mapping key only when a colon
follows, and the tokens that open the mapping and the key are then put in front of
it. A key of this kind stays on one line. -/

namespace KeyExpansion.Yaml

inductive Token where
  | documentStart
  | documentEnd
  | directive
  | openSequence
  | openMapping
  | close
  | openFlowSequence
  | closeFlowSequence
  | openFlowMapping
  | closeFlowMapping
  | entry
  | comma
  | key
  | value
  | anchor (name : List Char)
  | alias (name : List Char)
  | tag (tag : List Char)
  | scalar (text : List Char) (plain : Bool)
deriving Repr, DecidableEq

/-- A place where a key may have started. -/
structure PossibleKey where
  /-- Must a colon follow? -/
  required : Bool
  /-- How many tokens stood before it. -/
  before : Nat
  line : Nat
  column : Nat
  index : Nat
deriving Repr, DecidableEq

structure Lexer where
  rest : List Glyph
  /-- The column of the innermost block, or -1 outside of all. -/
  indent : Int := -1
  /-- The columns of the blocks around it. -/
  outer : List Int := []
  /-- The possible key of every open flow collection, innermost first, then that of the block. -/
  keys : List (Option PossibleKey) := [none]
  /-- May a key start here? -/
  keyAllowed : Bool := true
  /-- The tokens so far, backwards. -/
  tokens : List Token := []

namespace Lexer

def inFlow (l : Lexer) : Bool :=
  1 < l.keys.length

def emit (l : Lexer) (t : Token) : Lexer :=
  { l with tokens := t :: l.tokens }

/-- Put a token in after the first `before` ones. -/
def insert (l : Lexer) (before : Nat) (t : Token) : Lexer :=
  let later := l.tokens.length - before
  { l with tokens := l.tokens.take later ++ t :: l.tokens.drop later }

def setKey (l : Lexer) (key : Option PossibleKey) : Lexer :=
  { l with keys := key :: l.keys.drop 1 }

def currentKey? (l : Lexer) : Option PossibleKey :=
  l.keys.head?.join

/-- Give up the possible key. One that needs a colon cannot be given up. -/
def dropKey (l : Lexer) : Option Lexer :=
  if l.currentKey?.any (·.required) then none else some (l.setKey none)

/-- Note that a key may start at a glyph. -/
def noteKey (l : Lexer) (g : Glyph) : Option Lexer :=
  if l.keyAllowed then do
    let l ← l.dropKey
    return l.setKey (some {
      required := !l.inFlow && l.indent == g.column
      before := l.tokens.length
      line := g.line, column := g.column, index := g.index })
  else some l

/-- How far a key may reach. -/
def keyReach : Nat := 1024

/-- Is the possible key too far behind a glyph? -/
def isStale (g : Glyph) (key : PossibleKey) : Bool :=
  key.line < g.line || key.index + keyReach < g.index

/-- Give up every possible key that is too far behind. -/
def dropStale (l : Lexer) (g : Glyph) : Option Lexer :=
  if l.keys.any (·.any fun key => key.required && isStale g key) then none
  else some { l with keys := l.keys.map (·.filter (!isStale g ·)) }

/-- Open a block at a column, unless it is open already, in front of the tokens after the
    first `before` ones. -/
def openBlock (l : Lexer) (column : Nat) (before : Nat) (t : Token) : Lexer :=
  if !l.inFlow && l.indent < column then
    { l.insert before t with indent := column, outer := l.indent :: l.outer }
  else l

/-- Close the blocks that are further in than a column. -/
def closeBlocks (l : Lexer) (column : Int) : Lexer :=
  if l.inFlow then l else go l.outer l
where
  go : List Int → Lexer → Lexer
    | [], l => l
    | parent :: outer, l =>
      if column < l.indent then
        go outer { l.emit .close with indent := parent, outer := outer }
      else l

def openFlow (l : Lexer) (g : Glyph) (gs : List Glyph) (t : Token) : Option Lexer := do
  let l ← l.noteKey g
  return { l.emit t with keys := none :: l.keys, keyAllowed := true, rest := gs }

def closeFlow (l : Lexer) (gs : List Glyph) (t : Token) : Option Lexer := do
  let l ← l.dropKey
  let keys := if l.inFlow then l.keys.drop 1 else l.keys
  return { l.emit t with keys, keyAllowed := false, rest := gs }

def comma (l : Lexer) (gs : List Glyph) : Option Lexer := do
  let l ← l.dropKey
  return { l.emit .comma with keyAllowed := true, rest := gs }

/-- An entry of a sequence or a key that is marked as one: where blocks count, a new line or
    another such mark must stand before it. -/
def mark (l : Lexer) (g : Glyph) (gs : List Glyph) (opening t : Token) (allowed : Bool) :
    Option Lexer :=
  if !l.inFlow && !l.keyAllowed then none
  else do
    let l ← (l.openBlock g.column l.tokens.length opening).dropKey
    return { l.emit t with keyAllowed := allowed, rest := gs }

/-- The colon behind a key. -/
def colon (l : Lexer) (g : Glyph) (gs : List Glyph) : Option Lexer :=
  match l.currentKey? with
  | some key =>
    let l := (l.insert key.before .key).openBlock key.column key.before .openMapping
    some { (l.setKey none).emit .value with keyAllowed := false, rest := gs }
  | none =>
    if l.inFlow then some { l.emit .value with keyAllowed := false, rest := gs }
    else if l.keyAllowed then
      let l := l.openBlock g.column l.tokens.length .openMapping
      some { l.emit .value with keyAllowed := true, rest := gs }
    else none

def isNameChar (c : Char) : Bool :=
  c.isAlphanum || c == '_' || c == '-'

/-- An anchor or an alias. -/
def named (l : Lexer) (g : Glyph) (gs : List Glyph) (t : List Char → Token) : Option Lexer := do
  let l ← l.noteKey g
  let name := (gs.takeWhile (isNameChar ·.char)).map Glyph.char
  let rest := gs.dropWhile (isNameChar ·.char)
  if !name.isEmpty && (atSpace rest || nextIs ['?', ':', ',', ']', '}', '%', '@', '\x60'] rest) then
    some { l.emit (t name) with keyAllowed := false, rest }
  else none

/-- May the character stand in the name of a tag? -/
def isTagChar (c : Char) : Bool :=
  isNameChar c || ";/?:@&=+$.!~*'()%".toList.contains c

/-- The name of a tag written after its first exclamation mark. -/
def readTag : List Char → Option (List Char)
  | '!' :: name => if name.isEmpty || name.contains '!' then none
      else some ("tag:yaml.org,2002:".toList ++ name)
  | name => if name.contains '!' then none else some ('!' :: name)

/-- A tag in angle brackets or after an exclamation mark. -/
def tagged (l : Lexer) (g : Glyph) (gs : List Glyph) : Option Lexer := do
  let l ← l.noteKey g
  let verbatim := nextIs ['<'] gs
  let body := if verbatim then gs.drop 1 else gs
  let allowed (g : Glyph) := isTagChar g.char || (verbatim && [',', '[', ']'].contains g.char)
  let name := (body.takeWhile allowed).map Glyph.char
  let rest := body.dropWhile allowed
  if verbatim && (name.isEmpty || !nextIs ['>'] rest) then none
  else
    let rest := if verbatim then rest.drop 1 else rest
    let tag ← if verbatim then some name else readTag name
    if atSpace rest || (l.inFlow && nextIs [','] rest) then
      some { l.emit (.tag tag) with keyAllowed := false, rest }
    else none

/-- A quoted or plain scalar, which may be a key. -/
def scalar (l : Lexer) (g : Glyph) (plain : Bool) (read : Option Read) : Option Lexer := do
  let l ← l.noteKey g
  let found ← read
  return { l.emit (.scalar found.text plain) with keyAllowed := found.ended, rest := found.rest }

/-- A block scalar, behind which a key may start. -/
def block (l : Lexer) (folded : Bool) (gs : List Glyph) : Option Lexer := do
  let l ← l.dropKey
  let found ← readBlock folded l.indent gs
  return { l.emit (.scalar found.text false) with keyAllowed := true, rest := found.rest }

/-- A line that belongs to the document as a whole. -/
def documentMark (l : Lexer) (t : Token) (rest : List Glyph) : Option Lexer := do
  let l ← (l.closeBlocks (-1)).dropKey
  return { l.emit t with keyAllowed := false, rest }

/-- Skip white space and comments. -/
def skip (l : Lexer) (comment : Bool) : List Glyph → Lexer
  | [] => { l with rest := [] }
  | g :: gs =>
    let c := g.char
    if isBreak c then skip { l with keyAllowed := l.keyAllowed || !l.inFlow } false gs
    else if comment || c == '#' then skip l true gs
    else if c == ' ' || (c == '\t' && (l.inFlow || !l.keyAllowed)) then skip l false gs
    else { l with rest := g :: gs }

/-- Is the line a directive that can be read? Directives give a version or a short form of
    tags. -/
def isDirective (line : List Char) : Bool :=
  match (Text.splitOn [' '] line).filter (!·.isEmpty) with
  | [name, version] =>
    name == "%YAML".toList && (version == "1.1".toList || version == "1.2".toList)
  | [name, _, _] => name == "%TAG".toList
  | _ => false

/-- A directive takes its whole line. -/
def directive (l : Lexer) (gs : List Glyph) : Option Lexer :=
  if isDirective ((gs.takeWhile (!isBreak ·.char)).map Glyph.char) then
    l.documentMark .directive (gs.dropWhile (!isBreak ·.char))
  else none

/-- The characters that may not start a plain scalar. -/
def indicators : List Char :=
  ['-', '?', ':', ',', '[', ']', '{', '}', '#', '&', '*', '!', '|', '>', '\'', '"', '%', '@', '\x60']

def startsPlain (flow : Bool) (c : Char) (gs : List Glyph) : Bool :=
  (!isSpace c && !indicators.contains c)
    || (c == '-' && !(nextIs [' ', '\t'] gs))
    || (!flow && (c == '?' || c == ':') && !atSpace gs)

/-- The token at a glyph. -/
def token (l : Lexer) (g : Glyph) (gs : List Glyph) : Option Lexer :=
  let c := g.char
  let flow := l.inFlow
  if g.column == 0 && c == '%' then l.directive (g :: gs)
  else if atMarker '-' (g :: gs) then l.documentMark .documentStart (gs.drop 2)
  else if atMarker '.' (g :: gs) then l.documentMark .documentEnd (gs.drop 2)
  else if c == '[' then l.openFlow g gs .openFlowSequence
  else if c == '{' then l.openFlow g gs .openFlowMapping
  else if c == ']' then l.closeFlow gs .closeFlowSequence
  else if c == '}' then l.closeFlow gs .closeFlowMapping
  else if c == ',' then l.comma gs
  else if c == '-' && atSpace gs then l.mark g gs .openSequence .entry true
  else if c == '?' && (flow || atSpace gs) then l.mark g gs .openMapping .key (!flow)
  else if c == ':' && (flow || atSpace gs) then l.colon g gs
  else if c == '*' then l.named g gs .alias
  else if c == '&' then l.named g gs .anchor
  else if c == '!' then l.tagged g gs
  else if c == '|' && !flow then l.block false gs
  else if c == '>' && !flow then l.block true gs
  else if c == '\'' then l.scalar g false (readSingle false [] .empty gs)
  else if c == '"' then l.scalar g false (readDouble .none [] .empty gs)
  else if startsPlain flow c gs then
    l.scalar g true (readPlain flow (l.indent + 1) [] .empty (g :: gs))
  else none

/-- Read up to `count` more tokens and their blocks. -/
def run : (count : Nat) → Lexer → Option Lexer
  | 0, l => some l
  | count + 1, l =>
    let l := l.skip false l.rest
    match l.rest with
    | [] => (l.closeBlocks (-1)).dropKey
    | g :: gs => do
      let l ← l.dropStale g
      let l ← (l.closeBlocks g.column).token g gs
      run count l

end Lexer

/-- The tokens of a text. Every one takes a glyph at least. -/
def tokens? (text : String) : Option (List Token) := do
  let gs ← glyphs? text
  let l ← Lexer.run (gs.length + 1) { rest := gs }
  return l.tokens.reverse

end KeyExpansion.Yaml
