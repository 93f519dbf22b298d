-- SUMMARY: Layouts: where the sections and words of a text stand.
import KeyExpansion.Error
import KeyExpansion.Sectioned.Scheme
import KeyExpansion.Text.Search
import KeyExpansion.Text.Span

/-! # Layouts

Sections are found from the left by the markers that end them. The last section
takes what is left. A section that is not required and whose marker is missing
stands empty, without words, where it would have started. -/

namespace KeyExpansion

/-- The stretch of a section and those of its words. -/
structure Part where
  bounds : Text.Span
  words : List Text.Span
deriving Repr, DecidableEq, Inhabited

abbrev Layout := List Part

namespace Layout

/-- Every word of every section in order. -/
def flat (layout : Layout) : List Text.Span :=
  layout.flatMap Part.words

end Layout

/-- The words of a section in its bounds. -/
def Part.ofBounds (sec : Section) (text : List Char) (bounds : Text.Span) : Part where
  bounds := bounds
  words := Text.spans sec.separator.length bounds.start (Text.splitOn sec.separator (bounds.slice text))

namespace Scheme

/-- A section that is not there. -/
def absentPart (start : Nat) : Part where
  bounds := ⟨start, start⟩
  words := []

/-- Lay out sections from a position on. -/
def layOutFrom (text : List Char) : Nat → List Section → Except Error Layout
  | _, [] => .ok []
  | start, [last] => .ok [Part.ofBounds last text ⟨start, text.length⟩]
  | start, sec :: more =>
    match sec.stop with
    | none => do
      let parts ← layOutFrom text text.length more
      return Part.ofBounds sec text ⟨start, text.length⟩ :: parts
    | some marker =>
      match Text.find? marker (text.drop start) with
      | some n => do
        let parts ← layOutFrom text (start + n + marker.length) more
        return Part.ofBounds sec text ⟨start, start + n⟩ :: parts
      | none =>
        if sec.required then
          .error (.missingSection (String.ofList text) sec.name (String.ofList marker))
        else do
          let parts ← layOutFrom text start more
          return absentPart start :: parts

def layOut (scheme : Scheme) (text : List Char) : Except Error Layout :=
  layOutFrom text 0 scheme.sections

end Scheme

end KeyExpansion
