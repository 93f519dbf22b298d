-- SUMMARY: The characters of a YAML text with their positions.

/-! # Glyphs

What a character of a YAML text means depends on the line and the column it stands
in, so characters are read together with their positions. Line ends are made
alike before that. -/

namespace KeyExpansion.Yaml

structure Glyph where
  char : Char
  line : Nat
  column : Nat
  index : Nat
deriving Repr, DecidableEq

def isBreak (c : Char) : Bool :=
  c == '\n' || c == '\u2028' || c == '\u2029'

def isBlank (c : Char) : Bool :=
  c == ' ' || c == '\t'

def isSpace (c : Char) : Bool :=
  isBlank c || isBreak c

/-- May the character stand in a YAML text? -/
def isAllowed (c : Char) : Bool :=
  let n := c.toNat
  c == '\t' || c == '\n' || c == '\r' || (0x20 ≤ n && n ≤ 0x7e) || n == 0x85
    || (0xa0 ≤ n && n ≤ 0xfffd && n != 0xfeff) || 0x10000 ≤ n

/-- Write every line end as a line feed. -/
def unifyBreaks : List Char → List Char
  | '\r' :: '\n' :: cs => '\n' :: unifyBreaks cs
  | c :: cs => (if c == '\r' || c == '\u0085' then '\n' else c) :: unifyBreaks cs
  | [] => []

/-- The characters with positions, counted from the given ones. -/
def place (line column index : Nat) : List Char → List Glyph
  | [] => []
  | c :: cs =>
    ⟨c, line, column, index⟩ ::
      (if isBreak c then place (line + 1) 0 (index + 1) cs
        else place line (column + 1) (index + 1) cs)

/-- The text without a byte order mark at its start. -/
def dropByteOrderMark : List Char → List Char
  | '\ufeff' :: cs => cs
  | cs => cs

/-- The glyphs of a text, if all its characters are allowed. -/
def glyphs? (text : String) : Option (List Glyph) :=
  let cs := dropByteOrderMark text.toList
  if cs.all isAllowed then some (place 0 0 0 (unifyBreaks cs)) else none

/-- Does the text end here, or stand at white space? -/
def atSpace : List Glyph → Bool
  | [] => true
  | g :: _ => isSpace g.char

/-- Does the text stand at three of one character that mark the bounds of a document? -/
def atMarker (mark : Char) : List Glyph → Bool
  | a :: b :: c :: gs =>
    a.column == 0 && a.char == mark && b.char == mark && c.char == mark && atSpace gs
  | _ => false

/-- Does a document end or begin here? -/
def atDocumentMark (gs : List Glyph) : Bool :=
  atMarker '-' gs || atMarker '.' gs

end KeyExpansion.Yaml
