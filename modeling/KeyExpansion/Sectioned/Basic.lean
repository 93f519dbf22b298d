-- SUMMARY: Sectioned texts: parsing, sections, words and what they mean.
import KeyExpansion.Sectioned.Meaning

/-! # Sectioned texts

A sectioned text is cleaned, laid out and decoded once and never changes. Words
are counted from the left, or from the right by negative numbers. -/

namespace KeyExpansion

structure Sectioned (scheme : Scheme) where
  text : List Char
  layout : Layout
  meanings : List (List Meaning)
  uuid : Option Uuid
deriving Repr, DecidableEq

/-- A section by its position or by its name. -/
inductive SectionRef where
  | position (n : Nat)
  | name (text : String)
deriving Repr, DecidableEq

namespace SectionRef

/-- The position that no section has. -/
def nowhere : Nat := Nat.pow 2 64 - 1

/-- A position given as a whole number. Negative ones match nothing. -/
def ofInt (i : Int) : SectionRef :=
  .position (if i < 0 then nowhere else i.toNat)

def toString : SectionRef → String
  | .position n => ToString.toString n
  | .name text => text

end SectionRef

namespace Sectioned

variable {scheme : Scheme}

/-- Parse a text. `fresh` is the uuid that `<uuid>` stands for. -/
def parse (scheme : Scheme) (fresh : Uuid) (text : List Char) : Except Error (Sectioned scheme) := do
  let cleaned ← scheme.clean fresh text
  let layout ← scheme.layOut cleaned.text
  let decoding ← scheme.decode cleaned.text layout cleaned.uuid
  return { text := cleaned.text, layout, meanings := decoding.meanings, uuid := decoding.uuid }

protected def toString (s : Sectioned scheme) : String :=
  String.ofList s.text

def sectionCount (s : Sectioned scheme) : Nat :=
  s.layout.length

/-- The position of a section that there is. -/
def sectionIndex? (s : Sectioned scheme) : SectionRef → Option Nat
  | .position n => if n < s.sectionCount then some n else none
  | .name text => scheme.sections.findIdx? (·.name == text)

def part? (s : Sectioned scheme) (sec : SectionRef) : Option Part :=
  (s.sectionIndex? sec).bind (s.layout[·]?)

/-- The position of a word among `count` words, from the right if negative. -/
def wordIndex? (count : Nat) (index : Int) : Option Nat :=
  let position := if index < 0 then index + count else index
  if 0 ≤ position && position < count then some position.toNat else none

/-- The text of a section. -/
def sectionText? (s : Sectioned scheme) (sec : SectionRef) : Option (List Char) :=
  (s.part? sec).map fun part => part.bounds.slice s.text

def wordCount (s : Sectioned scheme) (sec : SectionRef) : Nat :=
  ((s.part? sec).map (·.words.length)).getD 0

def wordSpan? (s : Sectioned scheme) (sec : SectionRef) (index : Int) : Option Text.Span := do
  let part ← s.part? sec
  let i ← wordIndex? part.words.length index
  part.words[i]?

/-- The text of a word as it is written. -/
def word? (s : Sectioned scheme) (sec : SectionRef) (index : Int) : Option (List Char) :=
  (s.wordSpan? sec index).map (·.slice s.text)

def meaning? (s : Sectioned scheme) (sec : SectionRef) (index : Int) : Option Meaning := do
  let n ← s.sectionIndex? sec
  let meanings ← s.meanings[n]?
  let i ← wordIndex? meanings.length index
  meanings[i]?

/-- The words of a part. -/
def wordsOf (s : Sectioned scheme) (part : Part) : List (List Char) :=
  part.words.map (·.slice s.text)

/-- The words of a section. -/
def words? (s : Sectioned scheme) (sec : SectionRef) : Option (List (List Char)) :=
  (s.part? sec).map s.wordsOf

/-- Every word of every section in order. -/
def allWords (s : Sectioned scheme) : List (List Char) :=
  s.layout.flatMap s.wordsOf

def hasMark (s : Sectioned scheme) (m : WordMark) : Bool :=
  s.meanings.flatten.contains (.mark m)

/-- Two texts are equal if they read the same. -/
def same (a b : Sectioned scheme) : Bool :=
  a.text == b.text

end Sectioned

end KeyExpansion
