-- SUMMARY: Schemes of sectioned texts: which sections there are and what their words may mean.

/-! # Schemes

A sectioned text is a row of sections, each a row of words. A scheme declares
the sections: the separator between words, the marker that ends the section, and
the kinds of word that mean more than their text. -/

namespace KeyExpansion

/-- Words with a meaning of their own. -/
inductive WordMark where
  | head
  | gen
  | mark
  | hide
  | extend
  | empty
deriving Repr, DecidableEq

namespace WordMark

def all : List WordMark :=
  [.head, .gen, .mark, .hide, .extend, .empty]

def name : WordMark → String
  | .head => "head"
  | .gen => "gen"
  | .mark => "mark"
  | .hide => "hide"
  | .extend => "extend"
  | .empty => "empty"

/-- The word that writes the mark. -/
def text : WordMark → List Char
  | .head => "$head$".toList
  | .gen => "$gen$".toList
  | .mark => "$mark$".toList
  | .hide => ['_']
  | .extend => ['+']
  | .empty => []

/-- Does the word count as a mark only at the edge of a section? -/
def isImplicit : WordMark → Bool
  | .head | .gen | .mark => false
  | .hide | .extend | .empty => true

/-- The mark that is written as its name between dollar signs. -/
def named? (name : String) : Option WordMark :=
  all.find? fun m => !m.isImplicit && m.name == name

/-- The mark that counts everywhere. -/
def ofWord? (word : List Char) : Option WordMark :=
  all.find? fun m => !m.isImplicit && m.text == word

/-- The mark that counts only at an edge. -/
def implicit? (word : List Char) : Option WordMark :=
  all.find? fun m => m.isImplicit && m.text == word

end WordMark

structure Section where
  name : String
  separator : List Char
  /-- The marker that ends the section. The last section has none. -/
  stop : Option (List Char) := none
  required : Bool := true
  ints : Bool := true
  uuids : Bool := true
  marks : Bool := true
deriving Repr, DecidableEq, Inhabited

structure Scheme where
  sections : List Section
  /-- The first section of texts that lack its marker. -/
  lead : Option (List Char) := none
deriving Repr, DecidableEq, Inhabited

namespace Scheme

/-- The scheme `head::body`. -/
def basic : Scheme where
  sections := [
    { name := "head", separator := ['.'], stop := some "::".toList },
    { name := "body", separator := ['.'] }]

/-- A section whose words mean nothing but their text. -/
def textSection (name : String) (stop : Option (List Char)) : Section :=
  { name, separator := ['.'], stop, ints := false, uuids := false, marks := false }

/-- The scheme `group::module:value`. The group `fn` may be left out. -/
def codeRef : Scheme where
  sections := [
    textSection "group" (some "::".toList),
    textSection "module" (some [':']),
    textSection "value" none]
  lead := some "fn".toList

end Scheme

end KeyExpansion
