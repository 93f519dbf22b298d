-- SUMMARY: Reading the scalars of a YAML text: plain, quoted and in blocks.
import KeyExpansion.Decimal.Whole
import KeyExpansion.Yaml.Glyph

/-! # Scalars

Each reader takes the glyphs from the start of a scalar on and answers its text
and what follows. Line ends between words fold: one becomes a space, more lose the
first. A scalar that is not well formed has no answer. -/

namespace KeyExpansion.Yaml

/-- White space since the last word. Texts are held backwards. -/
inductive Gap where
  | empty
  | blanks (seen : List Char)
  /-- The first line end, unless it was escaped, and the others. -/
  | breaks (first : Option Char) (others : List Char)
deriving Repr, DecidableEq

namespace Gap

/-- What the gap becomes in front of another word, backwards. -/
def fold : Gap → List Char
  | .empty => []
  | .blanks seen => seen
  | .breaks (some '\n') [] => [' ']
  | .breaks (some '\n') others => others
  | .breaks (some c) others => others ++ [c]
  | .breaks none others => others

def hasBreak : Gap → Bool
  | .breaks .. => true
  | _ => false

/-- The gap with one more blank. -/
def addBlank (c : Char) : Gap → Gap
  | .empty => .blanks [c]
  | .blanks seen => .blanks (c :: seen)
  | .breaks first others => .breaks first others

/-- The gap with one more line end. -/
def addBreak (c : Char) : Gap → Gap
  | .breaks first others => .breaks first (c :: others)
  | _ => .breaks (some c) []

end Gap

/-- A scalar that has been read. -/
structure Read where
  text : List Char
  rest : List Glyph
  /-- Did a line end stand behind it? -/
  ended : Bool := false

/-- The characters that end a plain scalar in a flow collection. -/
def flowEnds : List Char := [',', '[', ']', '{', '}']

/-- The characters that may not follow a colon in a flow collection. -/
def afterColon : List Char := [',', '?', '[', ']', '{', '}']

def nextIs (cs : List Char) : List Glyph → Bool
  | g :: _ => cs.contains g.char
  | [] => false

/-- Read a plain scalar. `indent` is the least column of its later lines in a block, and
    `text` what has been read so far, backwards. -/
def readPlain (flow : Bool) (indent : Int) (text : List Char) (gap : Gap) :
    List Glyph → Option Read
  | [] => some ⟨text.reverse, [], gap.hasBreak⟩
  | g :: gs =>
    let c := g.char
    if isBreak c then readPlain flow indent text (gap.addBreak c) gs
    else if isBlank c then
      if gap.hasBreak && c == '\t' && g.column < indent then none
      else readPlain flow indent text (gap.addBlank c) gs
    else
      let outside := gap.hasBreak && !flow && g.column < indent
      let comment := gap != .empty && c == '#'
      let ending := (c == ':' && atSpace gs) || (flow && flowEnds.contains c)
      if outside || comment || atDocumentMark (g :: gs) then
        some ⟨text.reverse, g :: gs, gap.hasBreak⟩
      else if flow && c == ':' && nextIs afterColon gs then none
      else if ending then some ⟨text.reverse, g :: gs, gap.hasBreak⟩
      else readPlain flow indent (c :: (gap.fold ++ text)) .empty gs

/-- Read a scalar between single quotes, after the first one. `quote` tells that a quote
    has just been seen. -/
def readSingle (quote : Bool) (text : List Char) (gap : Gap) : List Glyph → Option Read
  | [] => if quote then some ⟨text.reverse, [], false⟩ else none
  | g :: gs =>
    let c := g.char
    if quote then
      if c == '\'' then readSingle false ('\'' :: text) .empty gs
      else some ⟨text.reverse, g :: gs, false⟩
    else if atDocumentMark (g :: gs) then none
    else if isBreak c then readSingle false text (gap.addBreak c) gs
    else if isBlank c then readSingle false text (gap.addBlank c) gs
    else if c == '\'' then readSingle true (gap.fold ++ text) .empty gs
    else readSingle false (c :: (gap.fold ++ text)) .empty gs

/-- The character that a letter after a backslash stands for. -/
def escaped? : Char → Option Char
  | '0' => some '\x00'
  | 'a' => some '\x07'
  | 'b' => some '\x08'
  | 't' | '\t' => some '\t'
  | 'n' => some '\n'
  | 'v' => some '\x0b'
  | 'f' => some '\x0c'
  | 'r' => some '\r'
  | 'e' => some '\x1b'
  | ' ' => some ' '
  | '"' => some '"'
  | '/' => some '/'
  | '\\' => some '\\'
  | 'N' => some '\u0085'
  | '_' => some '\u00a0'
  | 'L' => some '\u2028'
  | 'P' => some '\u2029'
  | _ => none

/-- How many hexadecimal digits follow a letter after a backslash. -/
def escapeDigits? : Char → Option Nat
  | 'x' => some 2
  | 'u' => some 4
  | 'U' => some 8
  | _ => none

/-- The character with a number, if there is one. -/
def charOf? (n : Nat) : Option Char :=
  if n.isValidChar then some (Char.ofNat n) else none

/-- Where a reader of double quotes stands. -/
inductive Escape where
  | none
  | slash
  | digits (left value : Nat)
deriving Repr, DecidableEq

/-- Read a scalar between double quotes, after the first one. -/
def readDouble (escape : Escape) (text : List Char) (gap : Gap) : List Glyph → Option Read
  | [] => Option.none
  | g :: gs =>
    let c := g.char
    match escape with
    | .digits left value =>
      match Decimal.digitValue? 16 c with
      | Option.none => Option.none
      | some digit =>
        let value := value * 16 + digit
        if left ≤ 1 then
          match charOf? value with
          | some made => readDouble .none (made :: text) .empty gs
          | Option.none => Option.none
        else readDouble (.digits (left - 1) value) text .empty gs
    | .slash =>
      if isBreak c then readDouble .none text (.breaks Option.none []) gs
      else
        match escaped? c, escapeDigits? c with
        | some made, _ => readDouble .none (made :: text) .empty gs
        | Option.none, some count => readDouble (.digits count 0) text .empty gs
        | Option.none, Option.none => Option.none
    | .none =>
      if atDocumentMark (g :: gs) then Option.none
      else if isBreak c then readDouble .none text (gap.addBreak c) gs
      else if isBlank c then readDouble .none text (gap.addBlank c) gs
      else if c == '"' then some ⟨(gap.fold ++ text).reverse, gs, false⟩
      else if c == '\\' then readDouble .slash (gap.fold ++ text) .empty gs
      else readDouble .none (c :: (gap.fold ++ text)) .empty gs

/-- What happens to the line ends behind a block. -/
inductive Chomp where
  | strip
  | clip
  | keep
deriving Repr, DecidableEq

/-- The line that starts a block. -/
structure BlockHead where
  folded : Bool
  chomp : Chomp := .clip
  /-- The indentation of the block over that of its parent, if it is written. -/
  indent : Option Nat := none
deriving Repr, DecidableEq

/-- The indicators of a block, each at most once. -/
def readIndicators (head : BlockHead) (chomped indented : Bool) :
    List Glyph → Option (BlockHead × List Glyph)
  | [] => some (head, [])
  | g :: gs =>
    if (g.char == '+' || g.char == '-') && !chomped then
      readIndicators { head with chomp := if g.char == '+' then .keep else .strip } true indented gs
    else if g.char.isDigit && !indented then
      if g.char == '0' then none
      else readIndicators { head with indent := some (g.char.toNat - '0'.toNat) } chomped true gs
    else some (head, g :: gs)

/-- What follows the line end of a block's first line, which may hold a comment. -/
def readHeadEnd (comment : Bool) : List Glyph → Option (List Glyph)
  | [] => some []
  | g :: gs =>
    if isBreak g.char then some gs
    else if comment then readHeadEnd true gs
    else if isBlank g.char then readHeadEnd false gs
    else if g.char == '#' then readHeadEnd true gs
    else none

/-- The lines of a block read so far. Texts are held backwards. -/
structure Block where
  text : List Char := []
  /-- The line end behind the last line. -/
  lineEnd : List Char := []
  /-- The line ends of empty lines behind it. -/
  others : List Char := []
  /-- Did the last line start with a blank? -/
  spaced : Bool := false

namespace Block

/-- The text with the line ends in front of another line. -/
def joined (b : Block) (folded spaced : Bool) : List Char :=
  if folded && b.lineEnd == ['\n'] && !b.spaced && !spaced then
    (if b.others.isEmpty then [' '] else b.others) ++ b.text
  else b.others ++ b.lineEnd ++ b.text

/-- The text of the whole block. -/
def close (b : Block) (chomp : Chomp) : List Char :=
  match chomp with
  | .strip => b.text.reverse
  | .clip => (b.lineEnd ++ b.text).reverse
  | .keep => (b.others ++ b.lineEnd ++ b.text).reverse

end Block

/-- Read the lines of a block. `indent` is the column of its lines once it is known, `deepest`
    the deepest column of the empty lines before that, and `inLine` tells that a line has
    begun. -/
def readLines (head : BlockHead) (parent : Int) (indent : Option Nat) (deepest : Nat)
    (inLine : Bool) (b : Block) : List Glyph → Option Read
  | [] => some ⟨b.close head.chomp, [], true⟩
  | g :: gs =>
    let c := g.char
    if inLine then
      if isBreak c then
        readLines head parent indent deepest false { b with lineEnd := [c], others := [] } gs
      else readLines head parent indent deepest true { b with text := c :: b.text } gs
    else
      let margin := match indent with | some n => g.column < n | none => true
      if c == ' ' && margin then
        readLines head parent indent (max deepest (g.column + 1)) false b gs
      else if c == '\t' && margin then none
      else if isBreak c then
        readLines head parent indent deepest false { b with others := c :: b.others } gs
      else
        let column := indent.getD (max (max deepest (parent + 1).toNat) 1)
        if g.column = column then
          let text := c :: b.joined head.folded (isBlank c)
          readLines head parent (some column) deepest true
            { text, lineEnd := [], others := [], spaced := isBlank c } gs
        else some ⟨b.close head.chomp, g :: gs, true⟩

/-- Read a block scalar after its first character. `parent` is the indentation around it. -/
def readBlock (folded : Bool) (parent : Int) (gs : List Glyph) : Option Read := do
  let (head, gs) ← readIndicators { folded } false false gs
  let gs ← readHeadEnd false gs
  let indent := head.indent.map fun n => (max parent 0).toNat + n
  readLines head parent indent 0 false {} gs

end KeyExpansion.Yaml
