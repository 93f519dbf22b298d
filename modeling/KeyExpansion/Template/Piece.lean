-- SUMMARY: Pieces of a template: literal text followed by at most one field.

/-! # Template pieces

A template is literal text with fields in braces. A piece is some literal text
and the field that follows it; a piece whose name is empty is literal text
alone. A field writes a name, a format after a colon and a conversion after an
exclamation mark. -/

namespace KeyExpansion

/-- The last character of an indirect name. -/
def indirectMark : Char := '_'

/-- Does the name ask for another name? -/
def isIndirectName (name : List Char) : Bool :=
  name.getLast? == some indirectMark

/-- The name without its indirect mark. -/
def directName (name : String) : String :=
  if isIndirectName name.toList then String.ofList name.toList.dropLast else name

/-- The name with an indirect mark. -/
def indirectName (name : String) : String :=
  if isIndirectName name.toList then name else name.push indirectMark

/-- Text between braces. -/
def inBraces (text : String) : String :=
  "\x7b" ++ text ++ "\x7d"

/-- Does the text contain a brace of either kind? -/
def hasBrace (text : String) : Bool :=
  text.toList.any fun c => c == '{' || c == '}'

/-- One character with braces doubled. -/
def doubleBrace (c : Char) : List Char :=
  if c == '{' || c == '}' then [c, c] else [c]

/-- The text with braces doubled. -/
def escapeBraces (text : String) : String :=
  String.ofList (text.toList.flatMap doubleBrace)

namespace Template

structure Piece where
  lead : String
  name : String := ""
  format : String := ""
  conversion : String := ""
deriving Repr, DecidableEq, Inhabited

namespace Piece

def isLiteral (p : Piece) : Bool :=
  p.name.isEmpty

/-- The field without its braces. -/
def joined (p : Piece) : String :=
  p.name ++ (if p.format.isEmpty then "" else ":" ++ p.format)
    ++ (if p.conversion.isEmpty then "" else "!" ++ p.conversion)

/-- The bare name in braces. -/
def wrapped (p : Piece) : String :=
  inBraces p.name

def isIndirect (p : Piece) : Bool :=
  isIndirectName p.name.toList

def direct (p : Piece) : String :=
  directName p.name

def indirect (p : Piece) : String :=
  indirectName p.name

/-- The literal text with braces doubled, then an empty slot for the field. -/
def slot (p : Piece) : String :=
  escapeBraces p.lead ++ (if p.isLiteral then "" else inBraces "")

end Piece

end Template

end KeyExpansion
