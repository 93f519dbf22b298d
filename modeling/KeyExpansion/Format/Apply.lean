-- SUMMARY: Laying out a value by a format.
import KeyExpansion.Format.Parser
import KeyExpansion.Value.Text

/-! # Applying formats

The precision cuts text and gives a float its places. The width is reached by
padding, counted in characters. Numbers stand to the right and everything else to
the left unless an alignment says otherwise. -/

namespace KeyExpansion.Format

/-- The places of a number of type `f` without a precision. -/
def defaultPlaces : Nat := 6

/-- The text of a value before padding. -/
def body (f : Format) (v : Value) : String :=
  match v, f.type, f.precision with
  | .float x, _, some places => Decimal.fixed places x
  | .int i, some 'f', places => Decimal.fixed (places.getD defaultPlaces) (Decimal.ofInt i.toInt)
  | .float x, some 'f', none => Decimal.fixed defaultPlaces x
  | .float x, some 'd', none => toString (Decimal.truncate x).toInt
  | .int _, _, _ => v.display
  | _, _, some n => String.ofList (v.display.toList.take n)
  | _, _, none => v.display

/-- A number with zeros between its sign and its digits. -/
def padDigits (pad : Nat) (text : List Char) : List Char :=
  match text with
  | '-' :: digits => '-' :: List.replicate pad '0' ++ digits
  | digits => List.replicate pad '0' ++ digits

/-- A text with fill on the sides that the alignment leaves open. -/
def padSides (align : Align) (fill : Char) (pad : Nat) (text : List Char) : List Char :=
  let left :=
    match align with
    | .left => 0
    | .right => pad
    | .center => pad / 2
  List.replicate left fill ++ text ++ List.replicate (pad - left) fill

/-- The character to pad with. -/
def filler (f : Format) : Char :=
  if f.zero && f.align.isNone then '0' else f.fill

/-- The text with `pad` characters added. -/
def pad (f : Format) (v : Value) (pad : Nat) (text : List Char) : List Char :=
  if f.zero && v.isNumber && f.align.isNone then padDigits pad text
  else padSides (f.align.getD (if v.isNumber then .right else .left)) f.filler pad text

/-- The text of a value. -/
def apply (f : Format) (v : Value) : String :=
  let text := (f.body v).toList
  String.ofList (if text.length < f.width.getD 0 then f.pad v (f.width.getD 0 - text.length) text else text)

end KeyExpansion.Format
