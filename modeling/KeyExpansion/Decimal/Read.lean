-- SUMMARY: Reading doubles from decimal text.
import KeyExpansion.Decimal.Binary
import KeyExpansion.Decimal.Whole

/-! # Reading doubles

A double is written with an optional sign, digits with at most one point among
or beside them, and an optional exponent; or it is one of the words `inf`,
`infinity` and `nan` in any case. The nearest double is read. -/

namespace KeyExpansion.Decimal

/-- Decimals with more than this many digits before the point are infinite, and
    those with as many zeros after it are zero. -/
def farExponent : Int := 400

/-- Positive or negative infinity. -/
def infinity (negative : Bool) : Float :=
  nearest negative (pow2 1025) 1

/-- The double nearest to `digits · 10 ^ exponent`. -/
def ofDecimal (negative : Bool) (digits : Nat) (exponent : Int) : Float :=
  let leading : Int := (toString digits).length + exponent
  if digits = 0 || leading < -farExponent then nearest negative 0 1
  else if farExponent < leading then infinity negative
  else nearest negative (digits * pow10 exponent.toNat) (pow10 (-exponent).toNat)

/-- An exponent part: nothing, or `e` and a signed number. -/
def readExponent? : List Char → Option Int
  | [] => some 0
  | c :: cs =>
    if c = 'e' || c = 'E' then
      let (negative, digits) := takeSign cs
      (readNat? digits).map (withSign negative)
    else none

/-- A double without its sign. -/
def readUnsigned? (negative : Bool) (cs : List Char) : Option Float :=
  let word := String.ofList (cs.map Char.toLower)
  if word = "inf" || word = "infinity" then some (infinity negative)
  else if word = "nan" then some (Float.ofBits 0x7ff8000000000000)
  else
    let whole := cs.takeWhile Char.isDigit
    let rest := cs.dropWhile Char.isDigit
    let (part, rest) :=
      match rest with
      | '.' :: rest => (rest.takeWhile Char.isDigit, rest.dropWhile Char.isDigit)
      | _ => ([], rest)
    (readExponent? rest).bind fun exponent =>
      (readNat? (whole ++ part)).map fun digits =>
        ofDecimal negative digits (exponent - part.length)

/-- The double that a text writes. -/
def readFloat? (cs : List Char) : Option Float :=
  let (negative, digits) := takeSign cs
  readUnsigned? negative digits

end KeyExpansion.Decimal
