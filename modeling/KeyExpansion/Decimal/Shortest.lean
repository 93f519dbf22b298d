-- SUMMARY: The shortest decimal that reads back as a given double.
import KeyExpansion.Decimal.Binary

/-! # Shortest decimals

A double stands for every real number that rounds to it. Its shortest decimal
has the fewest digits of all decimals in that interval and, of those, is the
nearest to the double. Grids of decimals are tried from coarse to fine; on each
grid only the two neighbours of the double have to be looked at. -/

namespace KeyExpansion.Decimal

/-- The decimal number `digits · 10 ^ exponent`. -/
structure Scientific where
  digits : Nat
  exponent : Int
deriving Repr, DecidableEq

/-- Which of two equally near neighbours is taken: should the lower one be
    passed over? -/
abbrev Tie := Nat → Bool

def Tie.up : Tie := fun _ => true

def Tie.toEven : Tie := fun lower => lower % 2 == 1

/-- The reals that round to a double, as multiples of a quarter of the unit of
    its mantissa. -/
structure Interval where
  low : Nat
  value : Nat
  high : Nat
  closed : Bool

def Binary.interval (b : Binary) : Interval where
  low := 4 * b.mantissa - (if b.mantissa = pow2 52 && leastExponent < b.exponent then 1 else 2)
  value := 4 * b.mantissa
  high := 4 * b.mantissa + 2
  closed := b.mantissa % 2 == 0

/-- The neighbour of the double on the grid of multiples of `10 ^ grid` that
    lies in the interval, the nearer one if both do. -/
def onGrid? (tie : Tie) (b : Binary) (grid : Int) : Option Nat :=
  let around := b.interval
  let unit := pow2 (b.exponent - 2).toNat * pow10 (-grid).toNat
  let step := pow2 (2 - b.exponent).toNat * pow10 grid.toNat
  let inside (n : Nat) : Bool :=
    if around.closed then around.low * unit ≤ n * step && n * step ≤ around.high * unit
    else around.low * unit < n * step && n * step < around.high * unit
  let lower := around.value * unit / step
  let rest := around.value * unit % step
  match inside lower && 0 < lower, inside (lower + 1) with
  | false, false => none
  | true, false => some lower
  | false, true => some (lower + 1)
  | true, true =>
    some (if step < 2 * rest || (2 * rest == step && tie lower) then lower + 1 else lower)

/-- The first grid that has a point in the interval, from `grid` downwards. -/
def searchGrids (tie : Tie) (b : Binary) : Nat → Int → Scientific
  | 0, grid => ⟨0, grid⟩
  | fuel + 1, grid =>
    match onGrid? tie b grid with
    | some n => ⟨n, grid⟩
    | none => searchGrids tie b fuel (grid - 1)

/-- The same number without zeros at the end of its digits. -/
def Scientific.strip (s : Scientific) : Scientific :=
  go s.digits s
where
  go : Nat → Scientific → Scientific
    | 0, s => s
    | fuel + 1, s =>
      if s.digits ≠ 0 && s.digits % 10 == 0 then go fuel ⟨s.digits / 10, s.exponent + 1⟩ else s

/-- The shortest decimal of a positive double. Twenty grids below the first
    power of ten above it always contain one. -/
def shortest (tie : Tie) (b : Binary) : Scientific :=
  let leading : Int := b.mantissa.log2 + b.exponent
  (searchGrids tie b 24 ((leading * 30103).fdiv 100000 + 1)).strip

end KeyExpansion.Decimal
