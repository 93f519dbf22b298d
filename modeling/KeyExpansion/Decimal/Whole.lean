-- SUMMARY: Whole numbers in decimal: reading digits, signed 64-bit numbers and other radices.

/-! # Whole numbers

Numbers are read from all of a text or not at all. -/

namespace KeyExpansion.Decimal

/-- The number that a text of one or more ASCII digits writes. -/
def readNat? (cs : List Char) : Option Nat :=
  if !cs.isEmpty && cs.all Char.isDigit then some (Nat.ofDigitChars 10 cs 0) else none

/-- Two to a power. -/
def pow2 (n : Nat) : Nat :=
  Nat.pow 2 n

/-- Ten to a power. -/
def pow10 (n : Nat) : Nat :=
  Nat.pow 10 n

/-- Has the number room in so many bits, one of which is a sign? -/
def isSigned (bits : Nat) (i : Int) : Bool :=
  -(pow2 (bits - 1) : Int) ≤ i && i < (pow2 (bits - 1) : Int)

/-- Has the number room in so many bits without a sign? -/
def isUnsigned (bits : Nat) (i : Int) : Bool :=
  0 ≤ i && i < (pow2 bits : Int)

/-- The 64-bit number that a whole number is. -/
def toInt64? (i : Int) : Option Int64 :=
  if isSigned 64 i then some (Int64.ofInt i) else none

/-- An optional sign in front of what is left. -/
def takeSign : List Char → Bool × List Char
  | '-' :: cs => (true, cs)
  | '+' :: cs => (false, cs)
  | cs => (false, cs)

def withSign (negative : Bool) (n : Nat) : Int :=
  if negative then -(n : Int) else n

/-- A 64-bit number: an optional sign, then digits. -/
def readInt64? (cs : List Char) : Option Int64 :=
  let (negative, digits) := takeSign cs
  (readNat? digits).bind fun n => toInt64? (withSign negative n)

/-- The value of a digit in a radix of at most 16. -/
def digitValue? (radix : Nat) (c : Char) : Option Nat :=
  let value :=
    if c.isDigit then some (c.toNat - '0'.toNat)
    else if 'a' ≤ c && c ≤ 'f' then some (c.toNat - 'a'.toNat + 10)
    else if 'A' ≤ c && c ≤ 'F' then some (c.toNat - 'A'.toNat + 10)
    else none
  value.filter (· < radix)

/-- The number that a text of one or more digits of a radix writes. -/
def readRadix? (radix : Nat) (cs : List Char) : Option Nat :=
  if cs.isEmpty then none
  else cs.foldlM (fun n c => (digitValue? radix c).map (n * radix + ·)) 0

end KeyExpansion.Decimal
