-- SUMMARY: Cutting a template into its pieces.
import KeyExpansion.Template.Fault
import KeyExpansion.Template.Piece
import KeyExpansion.Text.Search

/-! # Template parser

Doubled braces are literal braces, and an empty field is literal text too. A
field ends at the first closing brace and may not contain an opening one. Its
parts come in either order: `name!conversion:format` or
`name:format!conversion`. -/

namespace KeyExpansion.Template

/-- Does the character end the name of a field? -/
def endsName (c : Char) : Bool :=
  c == '!' || c == ':'

/-- The format and conversion in what follows the name of a field. -/
def splitOptions : List Char → List Char × List Char
  | '!' :: cs =>
    match Text.cut? [':'] cs with
    | some (conversion, format) => (format, conversion)
    | none => ([], cs)
  | ':' :: cs =>
    match Text.cutLast? '!' cs with
    | some (format, conversion) => (format, conversion)
    | none => (cs, [])
  | _ => ([], [])

/-- The piece of a field, given the text between its braces. -/
def Piece.ofField (lead field : List Char) : Except Fault Piece :=
  let name := field.takeWhile (!endsName ·)
  let (format, conversion) := splitOptions (field.dropWhile (!endsName ·))
  if name.isEmpty then .error .emptyName
  else .ok {
    lead := String.ofList lead
    name := String.ofList name
    format := String.ofList format
    conversion := String.ofList conversion }

/-- The piece of literal text that is left at the end, if there is any. -/
def Piece.literals (lead : List Char) : List Piece :=
  if lead.isEmpty then [] else [{ lead := String.ofList lead }]

/-- Read pieces. `lead` is the literal text since the last field, and `field`
    the text of the field that is open, if one is. -/
def scan (lead : List Char) : (field : Option (List Char)) → List Char → Except Fault (List Piece)
  | none, [] => .ok (Piece.literals lead)
  | none, '{' :: '{' :: cs => scan (lead ++ ['{']) none cs
  | none, '{' :: cs => scan lead (some []) cs
  | none, '}' :: '}' :: cs => scan (lead ++ ['}']) none cs
  | none, '}' :: _ => .error .strayClose
  | none, c :: cs => scan (lead ++ [c]) none cs
  | some _, [] => .error .unclosedField
  | some _, '{' :: _ => .error .nestedField
  | some [], '}' :: cs => scan (lead ++ ['{', '}']) none cs
  | some (f :: field), '}' :: cs => do
    let piece ← Piece.ofField lead (f :: field)
    let pieces ← scan [] none cs
    return piece :: pieces
  | some field, c :: cs => scan lead (some (field ++ [c])) cs

/-- The pieces of a template. -/
def pieces (text : String) : Except Fault (List Piece) :=
  scan [] none text.toList

end KeyExpansion.Template
