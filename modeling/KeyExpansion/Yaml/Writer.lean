-- SUMMARY: Writing a node as YAML text.
import KeyExpansion.Yaml.Node

/-! # Writing

Collections are written as blocks with an indentation of two, sequences in mappings
without any. A text is written plain where it would be read back as the same text, in
single quotes where it would not, in double quotes where a character has to be escaped,
and as a literal block if it has several lines. -/

namespace KeyExpansion.Yaml

def indentStep : Nat := 2

def padding (n : Nat) : String :=
  String.ofList (List.replicate n ' ')

/-- Does the character have a written form? -/
def isPrintable (c : Char) : Bool :=
  let n := c.toNat
  n == 0x0a || (0x20 ≤ n && n ≤ 0x7e) || (0xa0 ≤ n && n ≤ 0xfffd && n != 0xfeff) || 0xffff < n

/-- Would the plain text be taken for something else? -/
def isAmbiguous (cs : List Char) : Bool :=
  isPaddedNumber cs
    || match Node.ofPlain cs with
      | some (.str _) => false
      | _ => true

/-- The characters that may not start a plain text. -/
def leadingMarks : List Char :=
  ['#', ',', '[', ']', '{', '}', '&', '*', '!', '|', '>', '\'', '"', '%', '@', '\x60']

/-- Is there no character, or a blank? -/
def endsWord : Option Char → Bool
  | none => true
  | some c => c == ' ' || c == '\t' || isBreakChar c
where
  isBreakChar (c : Char) : Bool :=
    c == '\n' || c == '\r' || c == '\u0085' || c == '\u2028' || c == '\u2029'

/-- Does a character behind the first one end a plain text? -/
def hasInnerMark (before : Option Char) : List Char → Bool
  | [] => false
  | c :: cs =>
    (c == ':' && endsWord cs.head?) || (c == '#' && endsWord before) || hasInnerMark (some c) cs

/-- Does the text have a mark that ends or forbids a plain text? -/
def hasMark (cs : List Char) : Bool :=
  match cs with
  | [] => false
  | c :: rest =>
    "---".toList.isPrefixOf cs || "...".toList.isPrefixOf cs || leadingMarks.contains c
      || ((c == '?' || c == ':' || c == '-') && endsWord rest.head?)
      || hasInnerMark (some c) rest

def isLineBreak (c : Char) : Bool :=
  endsWord.isBreakChar c

/-- Does the first of these stand directly before the second anywhere? -/
def hasPair (first second : Char → Bool) : List Char → Bool
  | a :: b :: cs => (first a && second b) || hasPair first second (b :: cs)
  | _ => false

/-- May the text be written without quotes? -/
def allowsPlain (cs : List Char) : Bool :=
  cs.all isPrintable && !cs.any isLineBreak && cs.head? != some ' ' && cs.getLast? != some ' '
    && !hasMark cs

/-- May the text be written in single quotes? -/
def allowsSingle (cs : List Char) : Bool :=
  cs.all isPrintable && !hasPair isLineBreak (· == ' ') cs && !hasPair (· == ' ') isLineBreak cs

/-- May the text be written as a literal block? -/
def allowsLiteral (cs : List Char) : Bool :=
  cs.all isPrintable && cs.getLast? != some ' ' && !hasPair (· == ' ') isLineBreak cs

/-- The letter that stands for a character after a backslash. -/
def escapeLetter? (c : Char) : Option Char :=
  [('\x00', '0'), ('\x07', 'a'), ('\x08', 'b'), ('\t', 't'), ('\n', 'n'), ('\x0b', 'v'),
   ('\x0c', 'f'), ('\r', 'r'), ('\x1b', 'e'), ('"', '"'), ('\\', '\\'), ('\u0085', 'N'),
   ('\u00a0', '_'), ('\u2028', 'L'), ('\u2029', 'P')].lookup c

/-- A number in upper-case hexadecimal with a given number of digits. -/
def upperHex (count n : Nat) : List Char :=
  let digits := (Nat.toDigits 16 n).map Char.toUpper
  List.replicate (count - digits.length) '0' ++ digits

/-- A character between double quotes. -/
def escapeDouble (c : Char) : List Char :=
  if isPrintable c && !isLineBreak c && c != '"' && c != '\\' then [c]
  else
    match escapeLetter? c with
    | some letter => ['\\', letter]
    | none =>
      if c.toNat ≤ 0xff then '\\' :: 'x' :: upperHex 2 c.toNat
      else if c.toNat ≤ 0xffff then '\\' :: 'u' :: upperHex 4 c.toNat
      else '\\' :: 'U' :: upperHex 8 c.toNat

def doubleQuoted (cs : List Char) : String :=
  String.ofList ('"' :: cs.flatMap escapeDouble ++ ['"'])

def singleQuoted (cs : List Char) : String :=
  String.ofList ('\'' :: cs.flatMap (fun c => if c == '\'' then ['\'', '\''] else [c]) ++ ['\''])

/-- How a literal block says where its text starts and how it ends. -/
def literalHints (cs : List Char) : String :=
  (if cs.head?.any fun c => c == ' ' || isLineBreak c then toString indentStep else "")
    ++ match cs.reverse with
      | last :: before =>
        if !isLineBreak last then "-"
        else if before.isEmpty || before.head?.any isLineBreak then "+"
        else ""
      | [] => "-"

/-- The lines of a text. -/
def linesOf : List Char → List (List Char)
  | [] => [[]]
  | c :: cs =>
    match linesOf cs with
    | line :: lines => if c == '\n' then [] :: line :: lines else (c :: line) :: lines
    | [] => [[c]]

/-- A literal block at an indentation. -/
def literal (indent : Nat) (cs : List Char) : String :=
  let body := if cs.getLast? == some '\n' then cs.dropLast else cs
  let line (cs : List Char) :=
    if cs.isEmpty then "\n" else "\n" ++ padding indent ++ String.ofList cs
  "|" ++ literalHints cs ++ String.join ((linesOf body).map line)

/-- A text, as the key of an entry on one line or not. -/
def writeText (indent : Nat) (isKey : Bool) (s : String) : String :=
  let cs := s.toList
  if cs.contains '\n' then
    if allowsLiteral cs && !isKey then literal indent cs else doubleQuoted cs
  else if !isAmbiguous cs && allowsPlain cs then s
  else if allowsSingle cs then singleQuoted cs
  else doubleQuoted cs

/-- A scalar, or a collection without items. -/
def writeScalar (indent : Nat) (isKey : Bool) : Node → String
  | .null => "null"
  | .bool b => toString b
  | .int i => toString i
  | .float x => Node.floatText x
  | .str s => writeText indent isKey s
  | .sequence _ => "[]"
  | .mapping _ => "\x7b\x7d"
  | .tagged tag node => "!" ++ tag ++ " " ++ writeScalar indent isKey node

/-- The longest key that stands on one line with its value, in bytes. -/
def longestKey : Nat := 128

/-- Does the key stand on one line with its value? -/
def isSimpleKey : Node → Bool
  | .str s => !s.toList.any isLineBreak && s.utf8ByteSize ≤ longestKey
  | .sequence items => items.isEmpty
  | .mapping entries => entries.isEmpty
  | _ => true

/-- Lines at an indentation, the first of which is placed already. -/
def atIndent (indent : Nat) (blocks : List String) : String :=
  ("\n" ++ padding indent).intercalate blocks

mutual

/-- A node whose first line is placed at the indentation already. -/
def writeInline (indent : Nat) : Node → String
  | .sequence (item :: items) => atIndent indent (writeItems indent (item :: items))
  | .mapping (entry :: entries) => atIndent indent (writeEntries indent (entry :: entries))
  | node => writeScalar indent false node

def writeItems (indent : Nat) : List Node → List String
  | [] => []
  | item :: items => ("- " ++ writeInline (indent + indentStep) item) :: writeItems indent items

/-- What stands behind the colon of an entry. -/
def writeValue (indent : Nat) : Node → String
  | .sequence (item :: items) =>
    "\n" ++ padding indent ++ atIndent indent (writeItems indent (item :: items))
  | .mapping (entry :: entries) =>
    "\n" ++ padding (indent + indentStep)
      ++ atIndent (indent + indentStep) (writeEntries (indent + indentStep) (entry :: entries))
  | node => " " ++ writeScalar (indent + indentStep) false node

def writeEntries (indent : Nat) : List (Node × Node) → List String
  | [] => []
  | (key, value) :: entries =>
    (if isSimpleKey key then
      writeScalar (indent + indentStep) true key ++ ":" ++ writeValue indent value
    else
      "? " ++ writeInline (indent + indentStep) key ++ "\n" ++ padding indent ++ ": "
        ++ writeInline (indent + indentStep) value)
      :: writeEntries indent entries

end

/-- The text of a node. -/
def write (node : Node) : String :=
  match node with
  | .sequence (_ :: _) | .mapping (_ :: _) => writeInline 0 node ++ "\n"
  | node => writeScalar indentStep false node ++ "\n"

end KeyExpansion.Yaml
