-- SUMMARY: Finding texts, words, marks and uuids in a sectioned text.
import KeyExpansion.Sectioned.Basic
import KeyExpansion.Text.Quoted

/-! # Needles -/

namespace KeyExpansion

/-- Something to look for. -/
inductive Needle where
  | text (text : String)
  | word (sec : SectionRef) (index : Int)
  | mark (value : WordMark)
  | uuid
deriving Repr, DecidableEq

namespace Needle

/-- The words that messages use. -/
def describe : Needle → String
  | .text t => Text.quoted t
  | .word sec index => "word (" ++ sec.toString ++ ", " ++ toString index ++ ")"
  | .mark m => "mark " ++ m.name
  | .uuid => "uuid"

/-- Is this the meaning that is looked for? -/
def isMeant : Needle → Meaning → Bool
  | .mark m, .mark n => m == n
  | .uuid, .uuid _ => true
  | _, _ => false

end Needle

namespace Sectioned

variable {scheme : Scheme}

/-- The positions of the words with the meaning looked for. -/
def meantAt (s : Sectioned scheme) (needle : Needle) : List Nat :=
  (s.meanings.flatten.zip s.layout.flat).filterMap fun (meaning, span) =>
    if needle.isMeant meaning then some span.start else none

/-- The position of the first match, or of the last one. -/
def position? (s : Sectioned scheme) (last : Bool) (needle : Needle) : Option Nat :=
  match needle with
  | .text t => if last then Text.findLast? t.toList s.text else Text.find? t.toList s.text
  | .word sec index => (s.wordSpan? sec index).map (·.start)
  | .mark _ | .uuid => if last then (s.meantAt needle).getLast? else (s.meantAt needle).head?

/-- The UTF-8 offset of the first match, or of the last one. -/
def indexOf (s : Sectioned scheme) (last : Bool) (needle : Needle) : Except Error Nat :=
  match s.position? last needle with
  | some position => .ok (Text.offset s.text position)
  | none => .error (.notFound needle.describe s.toString)

def has (s : Sectioned scheme) (needle : Needle) : Bool :=
  (s.position? false needle).isSome

end Sectioned

end KeyExpansion
