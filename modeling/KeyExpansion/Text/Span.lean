-- SUMMARY: Stretches of a text, by character position, and their UTF-8 offsets.

/-! # Spans

A span is a stretch of a text given by character positions. Positions are
answered outside as offsets into the UTF-8 encoding, which are the sizes of
what stands before them. -/

namespace KeyExpansion.Text

/-- The number of bytes of the UTF-8 encoding. -/
def width : List Char → Nat
  | [] => 0
  | c :: cs => c.utf8Size + width cs

/-- The UTF-8 offset of a character position. -/
def offset (cs : List Char) (position : Nat) : Nat :=
  width (cs.take position)

structure Span where
  start : Nat
  stop : Nat
deriving Repr, DecidableEq, Inhabited

namespace Span

def isEmpty (s : Span) : Bool :=
  s.stop ≤ s.start

/-- The stretch of text that a span names. -/
def slice (s : Span) (cs : List Char) : List Char :=
  (cs.drop s.start).take (s.stop - s.start)

/-- The UTF-8 offsets of both ends. -/
def offsets (s : Span) (cs : List Char) : Nat × Nat :=
  (offset cs s.start, offset cs s.stop)

end Span

/-- The spans of words that follow each other with a separator of `gap`
    characters between each two, the first starting at `start`. -/
def spans (gap : Nat) : Nat → List (List Char) → List Span
  | _, [] => []
  | start, word :: words =>
    ⟨start, start + word.length⟩ :: spans gap (start + word.length + gap) words

end KeyExpansion.Text
