-- SUMMARY: Cleaning a text before it is laid out: uuid tokens, runs of separators, loose ends.
import KeyExpansion.Error
import KeyExpansion.Sectioned.Scheme
import KeyExpansion.Text.Search
import KeyExpansion.Uuid

/-! # Cleaning

The markers of required sections must be there. At most one uuid token may
occur; `<uuid>` stands for a fresh uuid, and a uuid is written back in one form.
Runs of separators are reduced to two, and separators at the end are dropped. -/

namespace KeyExpansion

/-- The canonical token of a uuid. -/
def Uuid.token (u : Uuid) : List Char :=
  "<uuid:".toList ++ u.hyphenated ++ ['>']

/-- The value in a uuid token at the start of the text, if it has one, and what
    follows the token. -/
def tokenAt? (cs : List Char) : Option (Option (List Char) × List Char) :=
  match Text.stripPrefix? "<uuid".toList cs with
  | some ('>' :: rest) => some (none, rest)
  | some (':' :: rest) => (Text.cut? ['>'] rest).map fun (value, rest) => (some value, rest)
  | _ => none

/-- A text cut at its first uuid token. -/
structure TokenCut where
  before : List Char
  value : Option (List Char)
  after : List Char
deriving Repr, DecidableEq

def cutToken? : List Char → Option TokenCut
  | [] => none
  | c :: cs =>
    match tokenAt? (c :: cs) with
    | some (value, rest) => some ⟨[], value, rest⟩
    | none => (cutToken? cs).map fun cut => { cut with before := c :: cut.before }

/-- A cleaned text and the uuid found in it. -/
structure Cleaned where
  text : List Char
  uuid : Option Uuid
deriving Repr, DecidableEq

/-- Write the uuid of a text in its canonical form. -/
def canonUuid (fresh : Uuid) (text : List Char) : Except Error Cleaned :=
  match cutToken? text with
  | none => .ok ⟨text, none⟩
  | some cut =>
    if (cutToken? cut.after).isSome then .error (.tooManyUuids (String.ofList text))
    else
      match cut.value with
      | none => .ok ⟨cut.before ++ fresh.token ++ cut.after, some fresh⟩
      | some value =>
        match Uuid.read? value with
        | some uuid => .ok ⟨cut.before ++ uuid.token ++ cut.after, some uuid⟩
        | none => .error (.badUuid (String.ofList text) (String.ofList value))

/-- Insert a text into an ordered list that has it at most once. -/
def insertOnce (x : List Char) : List (List Char) → List (List Char)
  | [] => [x]
  | y :: ys => if x = y then y :: ys else if x < y then x :: y :: ys else y :: insertOnce x ys

namespace Scheme

/-- The separators in order, each once. -/
def separators (scheme : Scheme) : List (List Char) :=
  (scheme.sections.map Section.separator).foldr insertOnce []

/-- The separator of the last section. -/
def lastSeparator (scheme : Scheme) : List Char :=
  (scheme.sections.getLast?.map Section.separator).getD []

/-- Reduce runs of separators and drop those at the end. -/
def tidy (scheme : Scheme) (text : List Char) : List Char :=
  Text.stripTrailing scheme.lastSeparator
    (scheme.separators.foldl (fun text sep => Text.collapseRuns sep text) text)

/-- The first required section whose marker does not occur. -/
def missing? (scheme : Scheme) (text : List Char) : Option (Section × List Char) :=
  scheme.sections.findSome? fun sec =>
    match sec.required, sec.stop with
    | true, some marker => if Text.contains marker text then none else some (sec, marker)
    | _, _ => none

/-- The text with the first section that may be left out. -/
def withLead (scheme : Scheme) (text : List Char) : List Char :=
  match scheme.lead, scheme.sections.head?.bind Section.stop with
  | some lead, some marker => if Text.contains marker text then text else lead ++ marker ++ text
  | _, _ => text

def cleanLed (scheme : Scheme) (fresh : Uuid) (text : List Char) : Except Error Cleaned :=
  match scheme.missing? text with
  | some (sec, marker) =>
    .error (.missingSection (String.ofList text) sec.name (String.ofList marker))
  | none => do
    let cleaned ← canonUuid fresh text
    return { cleaned with text := scheme.tidy cleaned.text }

/-- The cleaned form of a text. `fresh` is the uuid that `<uuid>` stands for. -/
def clean (scheme : Scheme) (fresh : Uuid) (text : List Char) : Except Error Cleaned :=
  scheme.cleanLed fresh (scheme.withLead text)

end Scheme

end KeyExpansion
