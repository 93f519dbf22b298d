-- SUMMARY: Doubles as exact binary numbers: decoding, rounding a ratio, truncation.
import KeyExpansion.Decimal.Whole

/-! # Binary numbers

A finite double is a whole number times a power of two. Everything exact about
doubles is computed on that pair, and a double is made by rounding a ratio of
whole numbers to the nearest one, a tie going to the even mantissa. -/

namespace KeyExpansion.Decimal

/-- A number `mantissa · 2 ^ exponent` with its sign. -/
structure Binary where
  negative : Bool
  mantissa : Nat
  exponent : Int
deriving Repr, DecidableEq

inductive Decoded where
  | nan
  | infinite (negative : Bool)
  | finite (number : Binary)
deriving Repr, DecidableEq

/-- The least exponent of a double. -/
def leastExponent : Int := -1074

def decodeBits (bits : Nat) : Decoded :=
  let negative := bits / pow2 63 % 2 == 1
  let scale : Nat := bits / pow2 52 % pow2 11
  let fraction : Nat := bits % pow2 52
  if scale = 2047 then
    if fraction = 0 then .infinite negative else .nan
  else if scale = 0 then .finite ⟨negative, fraction, leastExponent⟩
  else .finite ⟨negative, fraction + pow2 52, leastExponent + scale - 1⟩

def decode (x : Float) : Decoded :=
  decodeBits x.toBits.toNat

/-- `num / den` rounded to a whole number, a half to the even neighbour. -/
def roundEven (num den : Nat) : Nat :=
  let quotient := num / den
  let twice := 2 * (num % den)
  if den < twice || (twice == den && quotient % 2 == 1) then quotient + 1 else quotient

/-- The numerator and denominator of `num / den · 2 ^ -exponent`. -/
def scaleDown (num den : Nat) (exponent : Int) : Nat × Nat :=
  (num * pow2 (-exponent).toNat, den * pow2 exponent.toNat)

/-- The exponent of the leading binary digit of a positive ratio. -/
def leadingExponent (num den : Nat) : Int :=
  let guess : Int := (num.log2 : Int) - den.log2
  let (n, d) := scaleDown num den guess
  if d ≤ n then guess else guess - 1

/-- The bits of the double nearest to a ratio, without its sign. -/
def nearestBits (num den : Nat) : Nat :=
  if num = 0 then 0
  else
    let exponent := max (leadingExponent num den - 52) leastExponent
    let (n, d) := scaleDown num den exponent
    min ((exponent - leastExponent).toNat * pow2 52 + roundEven n d) (2047 * pow2 52)

/-- The double nearest to a ratio, with the given sign. -/
def nearest (negative : Bool) (num den : Nat) : Float :=
  let sign := if negative then pow2 63 else 0
  Float.ofBits (UInt64.ofNat (sign + nearestBits num den))

/-- The double nearest to a whole number. -/
def ofInt (i : Int) : Float :=
  nearest (i < 0) i.natAbs 1

/-- The whole number in front of the point. -/
def Binary.truncate (b : Binary) : Int :=
  let size := b.mantissa * pow2 b.exponent.toNat / pow2 (-b.exponent).toNat
  if b.negative then -(size : Int) else size

/-- The nearest 64-bit number to a whole number. -/
def clampInt64 (i : Int) : Int64 :=
  if isSigned 64 i then Int64.ofInt i
  else if i < 0 then Int64.minValue
  else Int64.maxValue

/-- The 64-bit number of a double: its whole part, held in range. NaN gives 0. -/
def truncate (x : Float) : Int64 :=
  match decode x with
  | .nan => 0
  | .infinite true => Int64.minValue
  | .infinite false => Int64.maxValue
  | .finite b => clampInt64 b.truncate

def isFinite (x : Float) : Bool :=
  match decode x with
  | .finite _ => true
  | _ => false

end KeyExpansion.Decimal
