-- SUMMARY: What the words of a sectioned text mean.
import KeyExpansion.Decimal.Whole
import KeyExpansion.Sectioned.Clean
import KeyExpansion.Sectioned.Layout

/-! # Meanings

A word may be a uuid, a mark or a number if its section allows it, and is text
otherwise. All uuid words together are at most one, the one that cleaning
found. -/

namespace KeyExpansion

inductive Meaning where
  | text
  | int (value : Int64)
  | uuid (value : Uuid)
  | mark (value : WordMark)
deriving Repr, DecidableEq

/-- Generation marks and uuids tell one instance from another. -/
def Meaning.isInstance : Meaning → Bool
  | .uuid _ => true
  | .mark .gen => true
  | _ => false

/-- The value in a uuid token that is a whole word of hexadecimal digits and
    hyphens. -/
def uuidWord? (word : List Char) : Option (List Char) :=
  match tokenAt? word with
  | some (some value, []) =>
    if !value.isEmpty && value.all (fun c => isHexDigit c || c == '-') then some value else none
  | _ => none

/-- The number of a word of digits. -/
def intWord? (word : List Char) : Option Int64 :=
  (Decimal.readNat? word).bind fun n => Decimal.toInt64? n

/-- What a word means that is no uuid. The word is at an edge if it is the first
    or last of its section. -/
def classify (sec : Section) (edge : Bool) (word : List Char) : Meaning :=
  let special :=
    if sec.marks then (WordMark.ofWord? word).or (if edge then WordMark.implicit? word else none)
    else none
  let int := if sec.ints then intWord? word else none
  match special, int with
  | some value, _ => .mark value
  | none, some n => .int n
  | none, none => .text

/-- The uuid of a text so far, and whether a word has been it. -/
structure Carried where
  uuid : Option Uuid
  seen : Bool := false
deriving Repr, DecidableEq

/-- Take one more uuid word. -/
def Carried.take (carried : Carried) (text : List Char) (value : Uuid) : Except Error Carried :=
  match carried.uuid with
  | some known =>
    if known != value || carried.seen then .error (.tooManyUuids (String.ofList text))
    else .ok ⟨some value, true⟩
  | none => .ok ⟨some value, true⟩

/-- What a word means. -/
def decodeWord (sec : Section) (text : List Char) (edge : Bool) (word : List Char)
    (carried : Carried) : Except Error (Meaning × Carried) :=
  match if sec.uuids then uuidWord? word else none with
  | none => .ok (classify sec edge word, carried)
  | some written =>
    match Uuid.read? written with
    | none => .error (.badUuid (String.ofList text) (String.ofList written))
    | some value => do
      let carried ← carried.take text value
      return (.uuid value, carried)

/-- What the words of a section mean, from the word at `index` on. -/
def decodeWords (sec : Section) (text : List Char) (count : Nat) :
    Nat → List Text.Span → Carried → Except Error (List Meaning × Carried)
  | _, [], carried => .ok ([], carried)
  | index, word :: words, carried => do
    let edge := index == 0 || index + 1 == count
    let (meaning, carried) ← decodeWord sec text edge (word.slice text) carried
    let (meanings, carried) ← decodeWords sec text count (index + 1) words carried
    return (meaning :: meanings, carried)

/-- What the words of sections mean. -/
def decodeParts (text : List Char) :
    List (Section × Part) → Carried → Except Error (List (List Meaning) × Carried)
  | [], carried => .ok ([], carried)
  | (sec, part) :: more, carried => do
    let (meanings, carried) ← decodeWords sec text part.words.length 0 part.words carried
    let (others, carried) ← decodeParts text more carried
    return (meanings :: others, carried)

/-- The meanings of all words and the uuid of the text. -/
structure Decoding where
  meanings : List (List Meaning)
  uuid : Option Uuid
deriving Repr, DecidableEq

namespace Scheme

def decode (scheme : Scheme) (text : List Char) (layout : Layout) (uuid : Option Uuid) :
    Except Error Decoding := do
  let (meanings, carried) ← decodeParts text (scheme.sections.zip layout) ⟨uuid, false⟩
  return ⟨meanings, carried.uuid⟩

end Scheme

end KeyExpansion
