-- SUMMARY: What commands print about keys, sectioned texts, source files and values.
import KeyExpansion.Layer.Merged
import KeyExpansion.Sectioned.Basic
import KeyExpansion.Text.Quoted
import KeyExpansion.Value.Text
import KeyExpansion.Yaml.Writer

/-! # Reports

A report is a list of lines. -/

namespace KeyExpansion

/-- The text of lines, each ended. -/
def linesText (lines : List String) : String :=
  String.join (lines.map (· ++ "\n"))

def spaces (n : Nat) : String :=
  String.ofList (List.replicate n ' ')

/-- A text with spaces behind it up to a number of characters. -/
def padTo (width : Nat) (text : String) : String :=
  text ++ spaces (width - text.length)

namespace Key

/-- What can be said of a key without its parts. -/
def facts (k : Key) : List String :=
  ["class: " ++ k.family.name, "mark: " ++ k.mark.name]
    ++ (if k.isIndirect then ["indirect: " ++ k.indirect] else [])
    ++ k.conversion.toList.map (fun letter => "conv: " ++ String.singleton letter)
    ++ (if k.format.isEmpty then [] else ["format: " ++ k.format])
    ++ k.limit.toList.map (fun limit => "limit: " ++ toString limit)

/-- The keys of a template, numbered from `n`, with the facts about each. -/
def partLines (n : Nat) : List Key → List String
  | [] => []
  | k :: ks =>
    ("  " ++ toString n ++ ". " ++ k.wrapped) :: k.facts.map (spaces 6 ++ ·) ++ partLines (n + 1) ks

/-- What checking a key shows. -/
def report (k : Key) : List String :=
  ("✓ " ++ k.text) :: k.facts.map ("  " ++ ·)
    ++ k.slots?.toList.map (fun slots => "  template: " ++ slots)
    ++ partLines 1 k.subkeys

end Key

namespace Sectioned

variable {scheme : Scheme}

/-- What a word means, where that is more than its text. -/
def meaningNote : Meaning → String
  | .text => ""
  | .int n => "[int " ++ toString n.toInt ++ "]"
  | .uuid u => "[uuid " ++ u.toString ++ "]"
  | .mark m => "[mark " ++ m.name ++ "]"

/-- The words of a section, numbered from `n`. -/
def wordLines (n : Nat) : List (List Char × Meaning) → List String
  | [] => []
  | (word, meaning) :: words =>
    (spaces 5 ++ toString n ++ ". " ++ Text.quoted (String.ofList word) ++ " " ++ meaningNote meaning)
      :: wordLines (n + 1) words

def sectionLines (s : Sectioned scheme) : List (Section × Part × List Meaning) → List String
  | [] => []
  | (sec, part, meanings) :: more =>
    ("  " ++ sec.name ++ ": " ++ String.ofList (part.bounds.slice s.text))
      :: wordLines 0 ((s.wordsOf part).zip meanings) ++ s.sectionLines more

/-- What inspecting a sectioned text shows. -/
def report (label : String) (s : Sectioned scheme) : List String :=
  ("Strang: " ++ s.toString ++ " (" ++ label ++ ")")
    :: s.uuid.toList.map (fun u => "Uuid: " ++ u.toString)
    ++ "" :: s.sectionLines (scheme.sections.zip (s.layout.zip s.meanings))

end Sectioned

namespace Layer

def pathText (layer : Layer) : String :=
  (layer.path.map Path.text).getD "<unknown>"

/-- What is said of source files, numbered from `n`. -/
def listLines (n : Nat) : List Layer → List String
  | [] => []
  | layer :: layers =>
    let inherit := if layer.inherit then " [inherit]" else ""
    let includes :=
      if layer.includes.isEmpty then "" else " [includes: " ++ toString layer.includes.length ++ "]"
    ("  " ++ toString n ++ ". " ++ layer.pathText ++ inherit ++ includes)
      :: layer.description.toList.map (spaces 5 ++ ·) ++ listLines (n + 1) layers

/-- The source files in the order in which they are merged. -/
def reportAll (layers : List Layer) : List String :=
  ["Discovered Files:", ""] ++ listLines 1 layers
    ++ ["", "Total: " ++ toString layers.length ++ " file(s)"]

end Layer

namespace Merged

/-- The values side by side with their names, which are padded to the size in bytes of
    the longest. -/
def valueLines (m : Merged) : List String :=
  let width := (m.values.map (·.1.utf8ByteSize)).foldl max 0
  m.values.map fun (name, v) => "  " ++ padTo width name ++ " = " ++ v.display

def report (m : Merged) : List String :=
  ["Composed Values:", ""]
    ++ (if m.values.isEmpty then ["  (no values)"] else m.valueLines)
    ++ m.limit.toList.flatMap fun limit => ["", "Expansion limit: " ++ toString limit]

/-- The values and the limit as YAML. -/
def toNode (m : Merged) : Yaml.Node :=
  .mapping ((.str "values", (Value.map m.values).toNode)
    :: m.limit.toList.map fun limit => (.str "settings", .mapping [(.str "limit", .int limit)]))

/-- The values as a YAML document that lists the files it comes from. -/
def document (m : Merged) (layers : List Layer) : String :=
  linesText ("# Discovered Files:"
      :: (layers.filterMap (·.path)).map (fun p => "# - " ++ p.text)
      ++ ["", "# Composed Values:"])
    ++ Yaml.write m.toNode

end Merged

end KeyExpansion
