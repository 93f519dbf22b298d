-- SUMMARY: Deriving sectioned texts: push, pop, unique and canonical forms, ancestors.
import KeyExpansion.Sectioned.Basic

/-! # Lineage

An empty word in the last section is a boundary between generations: `a::b`
pushed with `c` is `a::b..c`, and popping that cuts it back at the boundary. Every
derived text is parsed again. -/

namespace KeyExpansion

/-- What can be pushed. A uuid that is not given is a fresh one. -/
inductive Addition where
  | word (word : List Char)
  | int (value : Int64)
  | mark (value : WordMark)
  | uuid (value : Option Uuid)
deriving Repr, DecidableEq

namespace Addition

/-- The word that is written. -/
def render : Addition → List Char
  | .word w => w
  | .int i => (ToString.toString i.toInt).toList
  | .mark m => m.text
  | .uuid (some u) => u.token
  | .uuid none => "<uuid>".toList

/-- Uuid tokens may contain separators: they are found before sections are. -/
def isUuid : Addition → Bool
  | .uuid _ => true
  | _ => false

end Addition

namespace Scheme

/-- The texts that no pushed word may contain. -/
def breaks (scheme : Scheme) : List (List Char) :=
  (scheme.lastSeparator :: scheme.sections.filterMap Section.stop).filter (!·.isEmpty)

/-- The word of an addition, if it stays one word. -/
def wordFor (scheme : Scheme) (value : Addition) : Except Error (List Char) :=
  match scheme.breaks.find? fun sep => !value.isUuid && Text.contains sep value.render with
  | some sep => .error (.separatorInWord (String.ofList value.render) (String.ofList sep))
  | none => .ok value.render

end Scheme

namespace Sectioned

variable {scheme : Scheme}

/-- The position of the last section. -/
def lastSection (s : Sectioned scheme) : SectionRef :=
  .position (s.sectionCount - 1)

/-- Parse a text with words joined to its last section. -/
def withWords (scheme : Scheme) (fresh : Uuid) (text : List Char) (words : List (List Char)) :
    Except Error (Sectioned scheme) := do
  let base ← parse scheme fresh text
  if words.isEmpty || scheme.sections.isEmpty then return base
  else
    let vacant := ((base.layout.getLast?).map (·.bounds.isEmpty)).getD true
    let gap := if vacant then [] else scheme.lastSeparator
    parse scheme fresh (base.text ++ gap ++ Text.join scheme.lastSeparator words)

/-- Does the last section end in a boundary? -/
def endsInBoundary (s : Sectioned scheme) : Bool :=
  match s.word? s.lastSection (-1) with
  | some word => word.isEmpty
  | none => true

/-- Add words to the last section after a boundary. -/
def push (s : Sectioned scheme) (fresh : Uuid) (values : List Addition) :
    Except Error (Sectioned scheme) :=
  if scheme.sections.isEmpty then .ok s
  else do
    let words ← values.mapM scheme.wordFor
    let gap := if s.endsInBoundary then [] else scheme.lastSeparator
    parse scheme fresh (s.text ++ gap ++ words.flatMap (scheme.lastSeparator ++ ·))

/-- The positions of the boundaries in the last section. -/
def boundaries (s : Sectioned scheme) : List Nat :=
  match s.part? s.lastSection with
  | some part => (part.words.dropLast.filter (·.isEmpty)).map (·.start)
  | none => []

/-- The text up to a position, parsed again. -/
def cutAt (s : Sectioned scheme) (fresh : Uuid) (position : Nat) : Except Error (Sectioned scheme) :=
  parse scheme fresh (s.text.take position)

/-- Cut back to the last boundary, or to the first one with `top`. -/
def pop (s : Sectioned scheme) (fresh : Uuid) (top : Bool) : Except Error (Sectioned scheme) :=
  match if top then s.boundaries.head? else s.boundaries.getLast? with
  | some position => s.cutAt fresh position
  | none => .ok s

/-- Push a generation mark and a fresh uuid, unless there is a uuid already. -/
def toUnique (s : Sectioned scheme) (fresh : Uuid) (suffix : List (List Char)) :
    Except Error (Sectioned scheme) :=
  if s.uuid.isSome then .ok s
  else s.push fresh (.mark .gen :: .uuid none :: suffix.map .word)

/-- Cut back to before the first generation mark or uuid of the last section. -/
def deUnique (s : Sectioned scheme) (fresh : Uuid) : Except Error (Sectioned scheme) :=
  let found := do
    let meanings ← s.meanings.getLast?
    let index ← meanings.findIdx? Meaning.isInstance
    s.wordSpan? s.lastSection index
  match found with
  | some span => s.cutAt fresh span.start
  | none => .ok s

/-- The words of a part that tell no instances apart. -/
def lastingWords (s : Sectioned scheme) (part : Part) (meanings : List Meaning) :
    List (List Char) :=
  ((s.wordsOf part).zip meanings).filterMap fun (word, meaning) =>
    if meaning.isInstance then none else some word

/-- The text of sections without what tells instances apart. -/
def lastingText (s : Sectioned scheme) : List (Section × Part × List Meaning) → List Char
  | [] => []
  | [(sec, part, meanings)] => Text.join sec.separator (s.lastingWords part meanings)
  | (sec, part, meanings) :: more =>
    Text.join sec.separator (s.lastingWords part meanings) ++ sec.stop.getD []
      ++ s.lastingText more

/-- The text without uuids and generation marks. -/
def canon (s : Sectioned scheme) (fresh : Uuid) : Except Error (Sectioned scheme) :=
  parse scheme fresh (s.lastingText (scheme.sections.zip (s.layout.zip s.meanings)))

/-- How `b` stands to `a` if all sections but the last agree and the last words of
    `a` start those of `b`: does it have more? -/
def extends? (a b : Sectioned scheme) : Option Bool :=
  let early (s : Sectioned scheme) := s.layout.dropLast.map fun part => part.bounds.slice s.text
  match a.words? a.lastSection, b.words? b.lastSection with
  | some mine, some theirs =>
    if early a == early b && mine.isPrefixOf theirs then some (mine.length < theirs.length)
    else none
  | _, _ => none

/-- Does `b` strictly extend `a`? -/
def isAncestorOf (a b : Sectioned scheme) : Bool :=
  a.extends? b == some true

def isAncestorOrEq (a b : Sectioned scheme) : Bool :=
  a.same b || a.isAncestorOf b

/-- Is `b` an ancestor of `a` or the same? -/
def contains (a b : Sectioned scheme) : Bool :=
  (b.extends? a).isSome

end Sectioned

end KeyExpansion
