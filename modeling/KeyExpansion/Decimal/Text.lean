-- SUMMARY: Written forms of doubles: shortest, with an exponent, with fixed places.
import KeyExpansion.Decimal.Shortest

/-! # Written forms of doubles

`plain` is positional for every size and keeps no point on whole numbers.
`scientific` always shows a point or an exponent, and turns to an exponent
outside `10 ^ -5 ≤ x < 10 ^ 16`. `fixed` has a given number of places, rounded
from the exact value. -/

namespace KeyExpansion.Decimal

def zeros (n : Nat) : String :=
  String.ofList (List.replicate n '0')

/-- Digits with a point `places` from the right, at least one digit before it. -/
def withPoint (digits : String) (places : Nat) : String :=
  if places = 0 then digits
  else
    let padded := zeros (places + 1 - digits.length) ++ digits
    let whole := padded.toList.take (padded.length - places)
    let part := padded.toList.drop (padded.length - places)
    String.ofList whole ++ "." ++ String.ofList part

def Scientific.positional (s : Scientific) : String :=
  withPoint (toString s.digits ++ zeros s.exponent.toNat) (-s.exponent).toNat

/-- One digit, a point, the other digits and the exponent. -/
def Scientific.withExponent (s : Scientific) : String :=
  let digits := toString s.digits
  withPoint digits (digits.length - 1) ++ "e" ++ toString (s.exponent + digits.length - 1)

def signed (negative : Bool) (text : String) : String :=
  if negative then "-" ++ text else text

/-- The shortest decimal, written out in full. -/
def plain (x : Float) : String :=
  match decode x with
  | .nan => "NaN"
  | .infinite negative => signed negative "inf"
  | .finite b =>
    signed b.negative (if b.mantissa = 0 then "0" else (shortest Tie.up b).positional)

/-- The shortest decimal of a finite double with a point or an exponent. -/
def Binary.scientific (b : Binary) : String :=
  if b.mantissa = 0 then "0.0"
  else
    let s := shortest Tie.toEven b
    let point : Int := (toString s.digits).length + s.exponent
    if 0 ≤ s.exponent && point ≤ 16 then s.positional ++ ".0"
    else if -5 < point && point ≤ 16 then s.positional
    else s.withExponent

/-- A double with `places` digits after the point. -/
def Binary.fixed (places : Nat) (b : Binary) : String :=
  let (num, den) := scaleDown (b.mantissa * pow10 places) 1 (-b.exponent)
  withPoint (toString (roundEven num den)) places

def fixed (places : Nat) (x : Float) : String :=
  match decode x with
  | .nan => "NaN"
  | .infinite negative => signed negative "inf"
  | .finite b => signed b.negative (b.fixed places)

end KeyExpansion.Decimal
