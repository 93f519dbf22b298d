-- SUMMARY: Ranges of words, as lists of words and as stretches of text.
import KeyExpansion.Sectioned.Basic

/-! # Ranges of words

A range of word positions selects words. A range that reaches beyond the words
selects none. -/

namespace KeyExpansion

/-- An end of a range. -/
inductive Bound where
  | open
  | included (n : Nat)
  | excluded (n : Nat)
deriving Repr, DecidableEq

structure WordRange where
  start : Bound := .open
  stop : Bound := .open
deriving Repr, DecidableEq

namespace WordRange

/-- The first position in the range. -/
def first (r : WordRange) : Nat :=
  match r.start with
  | .open => 0
  | .included n => n
  | .excluded n => n + 1

/-- The position after the last one of a range over `count` words. -/
def after (r : WordRange) (count : Nat) : Nat :=
  match r.stop with
  | .open => count
  | .included n => n + 1
  | .excluded n => n

/-- Both ends of a range over `count` words, in order. -/
def resolve? (r : WordRange) (count : Nat) : Option (Nat × Nat) :=
  if r.first ≤ count && r.after count ≤ count then some (r.first, max (r.after count) r.first)
  else none

/-- The words in a range. -/
def select (r : WordRange) (words : List (List Char)) : List (List Char) :=
  match r.resolve? words.length with
  | some (first, after) => (words.drop first).take (after - first)
  | none => []

end WordRange

namespace Sectioned

variable {scheme : Scheme}

/-- The separator of a section. -/
def separator? (s : Sectioned scheme) (sec : SectionRef) : Option (List Char) :=
  (s.sectionIndex? sec).bind fun n => (scheme.sections[n]?).map Section.separator

/-- The items of a view of words, with the separator between them if `spaced`. -/
def viewItems (spaced : Bool) (separator : List Char) (words : List (List Char)) :
    List (List Char) :=
  if spaced then words.intersperse separator else words

/-- The stretch of text that a range of words covers. -/
def spanOf? (part : Part) (range : WordRange) : Option Text.Span :=
  (range.resolve? part.words.length).map fun (first, after) =>
    match (part.words.drop first).take (after - first) with
    | [] =>
      let place := ((part.words[first]?).map (·.start)).getD part.bounds.stop
      ⟨place, place⟩
    | word :: words => ⟨word.start, ((word :: words).getLast (by simp)).stop⟩

/-- The text from the first to the last word of a range. -/
def slice? (s : Sectioned scheme) (sec : SectionRef) (range : WordRange) : Option (List Char) := do
  let part ← s.part? sec
  let span ← spanOf? part range
  return span.slice s.text

end Sectioned

end KeyExpansion
