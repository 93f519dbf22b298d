-- SUMMARY: Bare parameter names such as <1>name, --name= and name.
import KeyExpansion.Decimal.Whole
import KeyExpansion.Text.CharClass

/-! # Parameter names

A parameter name may start with a position in angle brackets, or with a run of
characters that stand in no word, and may end in an equals sign. What is left in
between is the name; it is never empty and never spans lines. -/

namespace KeyExpansion

/-- Where a parameter stands: anywhere, or at a given place. -/
inductive Position where
  | any
  | place (n : Nat)
deriving Repr, DecidableEq

structure ParamName where
  position : Option Position := none
  lead : Option String := none
  name : String
  assign : Bool := false
deriving Repr, DecidableEq

namespace ParamName

/-- The largest place that has a number. -/
def greatestPlace : Nat := Nat.pow 2 64 - 1

/-- Digits that write no place stand for any. -/
def readPosition (digits : List Char) : Position :=
  match (Decimal.readNat? digits).filter (· ≤ greatestPlace) with
  | some n => .place n
  | none => .any

/-- The digits and the rest of `<digits>rest`. -/
def splitPosition? : List Char → Option (List Char × List Char)
  | '<' :: cs =>
    match cs.dropWhile Text.isDecimal with
    | '>' :: rest => some (cs.takeWhile Text.isDecimal, rest)
    | _ => none
  | _ => none

/-- Can the text be a name with or without an equals sign? -/
def isBody (cs : List Char) : Bool :=
  !cs.isEmpty && !cs.contains '\n'

/-- The longest leading run of characters outside words that leaves a rest. -/
def leadLength (cs : List Char) : Nat :=
  min (cs.takeWhile (!Text.isWord ·)).length (cs.length - 1)

/-- A body without the equals sign that ends it. An equals sign alone is a
    name. -/
def splitAssign (cs : List Char) : List Char × Bool :=
  if 2 ≤ cs.length && cs.getLast? == some '=' then (cs.dropLast, true) else (cs, false)

def ofBody (position : Option Position) (lead : Option String) (body : List Char) : ParamName :=
  let (name, assign) := splitAssign body
  { position, lead, name := String.ofList name, assign }

/-- A name whose position is not written. -/
def parseUnplaced? (cs : List Char) : Option ParamName :=
  let n := leadLength cs
  let lead := if n = 0 then none else some (String.ofList (cs.take n))
  if isBody (cs.drop n) then some (ofBody none lead (cs.drop n)) else none

/-- The parameter name that a text writes. -/
def parse? (text : String) : Option ParamName :=
  match splitPosition? text.toList with
  | some (digits, rest) =>
    if isBody rest then some (ofBody (some (readPosition digits)) none rest)
    else parseUnplaced? text.toList
  | none => parseUnplaced? text.toList

/-- Is there nothing but the name? -/
def isPlain (p : ParamName) : Bool :=
  p.position.isNone && p.lead.isNone && !p.assign

end ParamName

end KeyExpansion
