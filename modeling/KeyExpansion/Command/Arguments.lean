-- SUMMARY: A grammar of command lines: switches, their values, and words at places.
import KeyExpansion.Decimal.Whole
import KeyExpansion.Mark
import KeyExpansion.Text.Search

/-! # Arguments

An argument that starts with two hyphens names a switch in full, one that starts with
a single hyphen holds letters of switches. A value follows its switch, in the same
argument or as the next one. Every other argument is a word at the next place, and
after `--` all arguments are words. Arguments are read from left to right; the first
that does not fit ends the reading, as does a wish for help. -/

namespace KeyExpansion.Command

/-- What a value must be written like. -/
inductive Shape where
  | text
  | path
  | mark
  | limit
deriving Repr, DecidableEq

/-- A whole number of 32 bits. -/
def readLimit? (text : String) : Option Int :=
  ((Decimal.readInt64? text.toList).map Int64.toInt).filter (Decimal.isSigned 32)

/-- Does a value have the shape? -/
def Shape.accepts : Shape → String → Bool
  | .text, _ => true
  | .path, s => !s.isEmpty
  | .mark, s => (Mark.parse? s).isSome
  | .limit, s => (readLimit? s).isSome

/-- Why reading ends early. -/
inductive Stop where
  | misuse
  | help
  | version
deriving Repr, DecidableEq

/-- What a switch does. -/
inductive Action where
  /-- Given at most once, without a value. -/
  | flag
  /-- Given any number of times, without a value. -/
  | tally
  /-- Given at most once, with a value. -/
  | value (shape : Shape)
  /-- Given any number of times, each time with a value. -/
  | values
  /-- Ends the reading. -/
  | stop (reason : Stop)
deriving Repr, DecidableEq

namespace Action

def takesValue : Action → Bool
  | value _ | values => true
  | flag | tally | stop _ => false

def isOnce : Action → Bool
  | flag | value _ => true
  | tally | values | stop _ => false

def accepts : Action → String → Bool
  | value shape, s => shape.accepts s
  | _, _ => true

end Action

structure Switch where
  /-- The name in full. -/
  name : String
  letter : Option Char := none
  action : Action := .flag
  /-- May a value that follows start with a hyphen? -/
  hyphens : Bool := false
deriving Repr, DecidableEq

structure Grammar where
  switches : List Switch := []
  /-- The shapes of the words at each place. -/
  places : List Shape := []
  /-- Words that end the reading, the rest being read by another grammar. -/
  commands : List String := []
deriving Repr, DecidableEq

/-- What a command line gives. -/
structure Given where
  /-- Names of switches with their values, in order. A flag has no text as its value. -/
  options : List (String × String) := []
  words : List String := []
deriving Repr, DecidableEq

namespace Given

def has (g : Given) (name : String) : Bool :=
  g.options.any (·.1 == name)

def value? (g : Given) (name : String) : Option String :=
  g.options.lookup name

def values (g : Given) (name : String) : List String :=
  (g.options.filter (·.1 == name)).map (·.2)

/-- Take in a switch with its value. -/
def record (g : Given) (s : Switch) (value : String) : Except Stop Given :=
  match s.action with
  | .stop reason => .error reason
  | action =>
    if action.accepts value && !(action.isOnce && g.has s.name) then
      .ok { g with options := g.options ++ [(s.name, value)] }
    else .error .misuse

/-- Take in a word at the next place. -/
def place (places : List Shape) (g : Given) (word : String) : Except Stop Given :=
  match places[g.words.length]? with
  | some shape =>
    if shape.accepts word then .ok { g with words := g.words ++ [word] } else .error .misuse
  | none => .error .misuse

end Given

/-- How the next argument is taken. -/
inductive Mode where
  | free
  | awaiting (s : Switch)
  | wordsOnly
deriving Repr, DecidableEq

/-- An argument by the way it is written. -/
inductive Written where
  | escape
  | long (name : List Char) (value : Option (List Char))
  | cluster (letters : List Char)
  | word
deriving Repr, DecidableEq

/-- How an argument is written. One hyphen alone is a word. -/
def Written.of : List Char → Written
  | ['-', '-'] => .escape
  | '-' :: '-' :: rest =>
    match Text.cut? ['='] rest with
    | some (name, value) => .long name (some value)
    | none => .long rest none
  | '-' :: letter :: letters => .cluster (letter :: letters)
  | _ => .word

/-- What follows a letter is its value. An equals sign before it is left out. -/
def attached? : List Char → Option String
  | [] => none
  | '=' :: value => some (String.ofList value)
  | value => some (String.ofList value)

namespace Grammar

def named? (g : Grammar) (name : List Char) : Option Switch :=
  g.switches.find? (·.name.toList == name)

def lettered? (g : Grammar) (letter : Char) : Option Switch :=
  g.switches.find? (·.letter == some letter)

/-- Take in a switch that is named in full. -/
def takeLong (given : Given) (s : Switch) (value : Option (List Char)) :
    Except Stop (Mode × Given) := do
  match s.action.takesValue, value with
  | true, some value => return (.free, ← given.record s (String.ofList value))
  | true, none => return (.awaiting s, given)
  | false, none => return (.free, ← given.record s "")
  | false, some _ => throw .misuse

/-- Take in the letters of one argument. -/
def takeLetters (g : Grammar) (given : Given) : List Char → Except Stop (Mode × Given)
  | [] => .ok (.free, given)
  | letter :: letters =>
    match g.lettered? letter with
    | none => .error .misuse
    | some s =>
      if s.action.takesValue then
        match attached? letters with
        | some value => (given.record s value).map (.free, ·)
        | none => .ok (.awaiting s, given)
      else do takeLetters g (← given.record s "") letters

/-- Take in an argument that is not the value of a switch before it. -/
def take (g : Grammar) (given : Given) (arg : String) : Except Stop (Mode × Given) :=
  match Written.of arg.toList with
  | .escape => .ok (.wordsOnly, given)
  | .long name value =>
    match g.named? name with
    | some s => takeLong given s value
    | none => .error .misuse
  | .cluster letters => g.takeLetters given letters
  | .word => (given.place g.places arg).map (.free, ·)

/-- Read arguments up to the first command, and tell what is left. -/
def read (g : Grammar) : Mode → Given → List String → Except Stop (Given × List String)
  | .awaiting _, _, [] => .error .misuse
  | _, given, [] => .ok (given, [])
  | .wordsOnly, given, arg :: args => do
    read g .wordsOnly (← given.place g.places arg) args
  | .awaiting s, given, arg :: args =>
    if s.hyphens || Written.of arg.toList == .word then do
      read g .free (← given.record s arg) args
    else .error .misuse
  | .free, given, arg :: args =>
    if g.commands.contains arg then .ok (given, arg :: args)
    else do
      let (mode, given) ← g.take given arg
      read g mode given args

end Grammar

end KeyExpansion.Command
