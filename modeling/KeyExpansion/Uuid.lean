-- SUMMARY: Uuids: reading the written forms, the hyphenated form, a supply of fresh ones.
import KeyExpansion.Text.Search

/-! # Uuids

A uuid is thirty-two hexadecimal digits, kept in lower case. It is written with
hyphens, and read with or without them, in braces, or after `urn:uuid:`. -/

namespace KeyExpansion

def isHexDigit (c : Char) : Bool :=
  c.isDigit || ('a' ≤ c && c ≤ 'f') || ('A' ≤ c && c ≤ 'F')

structure Uuid where
  digits : List Char
deriving Repr, DecidableEq, Inhabited

namespace Uuid

/-- The lengths of the groups of digits. -/
def groups : List Nat := [8, 4, 4, 4, 12]

def cutGroups : List Nat → List Char → List (List Char)
  | [], _ => []
  | n :: ns, cs => cs.take n :: cutGroups ns (cs.drop n)

/-- The hyphenated form. -/
def hyphenated (u : Uuid) : List Char :=
  Text.join ['-'] (cutGroups groups u.digits)

def toString (u : Uuid) : String :=
  String.ofList u.hyphenated

instance : ToString Uuid := ⟨toString⟩

/-- Thirty-two digits without hyphens. -/
def readSimple? (cs : List Char) : Option Uuid :=
  if cs.length = 32 && cs.all isHexDigit then some ⟨cs.map Char.toLower⟩ else none

/-- Five groups of digits with hyphens between them. -/
def readHyphenated? (cs : List Char) : Option Uuid :=
  let words := Text.splitOn ['-'] cs
  if words.map List.length = groups then readSimple? words.flatten else none

/-- The uuid that a text writes. -/
def read? (cs : List Char) : Option Uuid :=
  match Text.stripPrefix? "urn:uuid:".toList cs with
  | some rest => readHyphenated? rest
  | none =>
    match (Text.stripPrefix? ['{'] cs).bind (Text.stripSuffix? ['}']) with
    | some inner => readHyphenated? inner
    | none => (readSimple? cs).or (readHyphenated? cs)

/-- Version 4 digits made from thirty others. -/
def random (digits : List Char) : Uuid :=
  ⟨digits.take 12 ++ '4' :: (digits.drop 12).take 3 ++ '8' :: (digits.drop 15).take 15⟩

/-- The last `count` hexadecimal digits of a number. -/
def hexDigits (count n : Nat) : List Char :=
  let digits := Nat.toDigits 16 (n % Nat.pow 16 count)
  List.replicate (count - digits.length) '0' ++ digits

/-- The fresh uuid of a seed. Seeds that differ below 16 ^ 30 give different
    uuids. -/
def ofSeed (seed : Nat) : Uuid :=
  random (hexDigits 30 seed)

end Uuid

end KeyExpansion
