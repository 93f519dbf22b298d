-- SUMMARY: Formats: how a value is laid out in a template, and the text that says so.
import KeyExpansion.Decimal.Whole
import KeyExpansion.Format.Fault

/-! # Formats

A format is written `[[fill]align][0][width][.precision][type]`, every part
optional. When the second character is an alignment the first one is the fill,
whatever it is. -/

namespace KeyExpansion

inductive Align where
  | left
  | right
  | center
deriving Repr, DecidableEq

namespace Align

def ofChar? : Char → Option Align
  | '<' => some .left
  | '>' => some .right
  | '^' => some .center
  | _ => none

def label : Align → String
  | .left => "Left"
  | .right => "Right"
  | .center => "Center"

end Align

structure Format where
  fill : Char := ' '
  align : Option Align := none
  zero : Bool := false
  width : Option Nat := none
  precision : Option Nat := none
  type : Option Char := none
deriving Repr, DecidableEq

namespace Format

/-- Sizes are below two to this power. -/
def sizeBits : Nat := 64

/-- The size that a text of digits writes. -/
def readSize? (digits : List Char) : Option Nat :=
  (Decimal.readNat? digits).filter (· < Decimal.pow2 sizeBits)

/-- The fill and the alignment, and what follows them. -/
def takeAlign : List Char → (Char × Option Align) × List Char
  | [] => ((' ', none), [])
  | [c] =>
    match Align.ofChar? c with
    | some align => ((' ', some align), [])
    | none => ((' ', none), [c])
  | c :: d :: cs =>
    match Align.ofChar? d with
    | some align => ((c, some align), cs)
    | none =>
      match Align.ofChar? c with
      | some align => ((' ', some align), d :: cs)
      | none => ((' ', none), c :: d :: cs)

/-- The zero flag and what follows it. -/
def takeZero : List Char → Bool × List Char
  | '0' :: cs => (true, cs)
  | cs => (false, cs)

/-- The digits at the start and what follows them. -/
def takeDigits (cs : List Char) : List Char × List Char :=
  (cs.takeWhile Char.isDigit, cs.dropWhile Char.isDigit)

/-- The width and what follows it. -/
def takeWidth (cs : List Char) : Except Fault (Option Nat × List Char) :=
  match takeDigits cs with
  | ([], rest) => .ok (none, rest)
  | (digits, rest) =>
    match readSize? digits with
    | some width => .ok (some width, rest)
    | none => .error .wideWidth

/-- The precision and what follows it. -/
def takePrecision : List Char → Except Fault (Option Nat × List Char)
  | '.' :: cs =>
    match takeDigits cs with
    | ([], _) => .error .noPrecision
    | (digits, rest) =>
      match readSize? digits with
      | some precision => .ok (some precision, rest)
      | none => .error .widePrecision
  | cs => .ok (none, cs)

/-- The letters that stand for a type. -/
def types : List Char := ['s', 'd', 'f']

/-- The type, which ends the text. -/
def takeType : List Char → Except Fault (Option Char)
  | [] => .ok none
  | c :: cs => if types.contains c && cs.isEmpty then .ok (some c) else .error (.unexpected c)

/-- The format that a text writes. -/
def parse (text : String) : Except Fault Format := do
  let ((fill, align), rest) := takeAlign text.toList
  let (zero, rest) := takeZero rest
  let (width, rest) ← takeWidth rest
  let (precision, rest) ← takePrecision rest
  let type ← takeType rest
  return { fill, align, zero, width, precision, type }

end Format

end KeyExpansion
