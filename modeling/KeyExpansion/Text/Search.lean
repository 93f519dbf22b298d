-- SUMMARY: Finding and cutting at a separator in a list of characters.

/-! # Searching text

Texts are searched as lists of characters. A separator may be any text, and
matches are taken from the left without overlap. -/

namespace KeyExpansion.Text

/-- The text before and after the first occurrence of `sep`. -/
def cut? (sep : List Char) (cs : List Char) : Option (List Char × List Char) :=
  match sep.isPrefixOf? cs with
  | some rest => some ([], rest)
  | none =>
    match cs with
    | [] => none
    | c :: cs => (cut? sep cs).map fun (before, after) => (c :: before, after)

/-- Does `sep` occur in the text? -/
def contains (sep cs : List Char) : Bool :=
  (cut? sep cs).isSome

/-- The position of the first occurrence of `sep`. -/
def find? (sep cs : List Char) : Option Nat :=
  (cut? sep cs).map fun (before, _) => before.length

/-- The position of the last occurrence of `sep`. -/
def findLast? (sep : List Char) : List Char → Option Nat
  | [] => if sep.isEmpty then some 0 else none
  | c :: cs =>
    match findLast? sep cs with
    | some i => some (i + 1)
    | none => if sep.isPrefixOf (c :: cs) then some 0 else none

/-- The text cut at the last occurrence of the character `sep`. -/
def cutLast? (sep : Char) (cs : List Char) : Option (List Char × List Char) :=
  (findLast? [sep] cs).map fun i => (cs.take i, cs.drop (i + 1))

/-- Put `c` in front of the first word. -/
def consFirst (c : Char) : List (List Char) → List (List Char)
  | [] => [[c]]
  | word :: words => (c :: word) :: words

/-- The words between occurrences of `sep`, where the first `skip` characters
    still belong to an occurrence already seen. -/
def splitFrom (sep : List Char) : Nat → List Char → List (List Char)
  | _, [] => [[]]
  | skip + 1, _ :: cs => splitFrom sep skip cs
  | 0, c :: cs =>
    if sep.isPrefixOf (c :: cs) then [] :: splitFrom sep (sep.length - 1) cs
    else consFirst c (splitFrom sep 0 cs)

/-- The words between occurrences of `sep`. An empty separator cuts nowhere. -/
def splitOn (sep cs : List Char) : List (List Char) :=
  if sep.isEmpty then [cs] else splitFrom sep 0 cs

/-- The words with `sep` between each two. -/
def join (sep : List Char) (words : List (List Char)) : List Char :=
  (words.intersperse sep).flatten

/-- Reduce each run of separators to at most two, where the first `skip`
    characters belong to a separator already seen and `run` separators have
    been seen since the last other character. -/
def collapseFrom (sep : List Char) : Nat → Nat → List Char → List Char
  | _, _, [] => []
  | skip + 1, run, _ :: cs => collapseFrom sep skip run cs
  | 0, run, c :: cs =>
    if sep.isPrefixOf (c :: cs) then
      (if run < 2 then sep else []) ++ collapseFrom sep (sep.length - 1) (run + 1) cs
    else c :: collapseFrom sep 0 0 cs

/-- Reduce each run of three or more separators to two. -/
def collapseRuns (sep cs : List Char) : List Char :=
  if sep.isEmpty then cs else collapseFrom sep 0 0 cs

/-- The text without the separators at its end. -/
def stripTrailing (sep : List Char) (cs : List Char) : List Char :=
  go cs.length cs
where
  go : Nat → List Char → List Char
    | 0, cs => cs
    | fuel + 1, cs =>
      if !sep.isEmpty && sep.isSuffixOf cs then go fuel (cs.take (cs.length - sep.length)) else cs

/-- The text without a leading `start`. -/
def stripPrefix? (start cs : List Char) : Option (List Char) :=
  start.isPrefixOf? cs

/-- The text without a closing `stop`. -/
def stripSuffix? (stop cs : List Char) : Option (List Char) :=
  if stop.isSuffixOf cs then some (cs.take (cs.length - stop.length)) else none

end KeyExpansion.Text
