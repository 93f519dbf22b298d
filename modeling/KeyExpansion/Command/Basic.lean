-- SUMMARY: The commands as data, and reading them from a command line.
import KeyExpansion.Command.Arguments
import KeyExpansion.Layer.Discovery

/-! # Commands

A command line names a command and gives its options. What does not fit the grammar of
the command is misuse, and no command is made. -/

namespace KeyExpansion

namespace Command

/-- Where to look for source files. -/
structure Search where
  start : Path := ⟨"."⟩
  inherit : Bool := false
  noInherit : Bool := false
  includes : List String := []
deriving Repr, DecidableEq

/-- A key as a command line asks for it. -/
structure Request where
  template : String
  implicit : Bool := false
  mark : Option Mark := none
deriving Repr, DecidableEq

structure ExpandOptions where
  request : Request
  limit : Option Int := none
  fallback : Option String := none
  settings : List String := []
  search : Search := {}
  format : String := "plain"
deriving Repr, DecidableEq

structure ShowOptions where
  search : Search := {}
  files : Bool := false
  values : Bool := false
  format : String := "table"
deriving Repr, DecidableEq

structure InspectOptions where
  text : String
  /-- Is the text a code reference? -/
  code : Bool := false
  additions : List String := []
  pop : Bool := false
  top : Bool := false
  unique : Bool := false
  canon : Bool := false
  /-- Is only the resulting text shown? -/
  plain : Bool := false
deriving Repr, DecidableEq

structure InitOptions where
  directory : Path := ⟨"."⟩
  inherit : Bool := false
  settings : List String := []
  template : String := "standard"
deriving Repr, DecidableEq

end Command

inductive Command where
  | check (request : Command.Request)
  | expand (options : Command.ExpandOptions)
  | showSources (options : Command.ShowOptions)
  | inspect (options : Command.InspectOptions)
  | init (options : Command.InitOptions)
deriving Repr, DecidableEq

namespace Command

/-- The switches of every command. -/
def commonSwitches : List Switch := [
  { name := "verbose", letter := some 'v', action := .tally },
  { name := "quiet", letter := some 'q' },
  { name := "help", letter := some 'h', action := .stop .help }]

def requestSwitches : List Switch := [
  { name := "implicit" },
  { name := "mark", action := .value .mark }]

def searchSwitches : List Switch := [
  { name := "file", letter := some 'f', action := .value .path },
  { name := "inherit" },
  { name := "no-inherit", letter := some 'n' },
  { name := "include", letter := some 'i', action := .values }]

def settingSwitch : Switch :=
  { name := "set", letter := some 's', action := .values }

/-- The grammar of each command. -/
def grammars : List (String × Grammar) := [
  ("init", {
    places := [.path]
    switches := commonSwitches ++ [
      { name := "inherit" }, settingSwitch, { name := "template", action := .value .text }] }),
  ("show", {
    switches := commonSwitches ++ searchSwitches ++ [
      { name := "files" }, { name := "values" }, { name := "format", action := .value .text }] }),
  ("expand", {
    places := [.text]
    switches := commonSwitches ++ requestSwitches ++ searchSwitches ++ [
      { name := "limit", action := .value .limit, hyphens := true },
      { name := "fallback", action := .value .text }, settingSwitch,
      { name := "format", action := .value .text }] }),
  ("check", { places := [.text], switches := commonSwitches ++ requestSwitches }),
  ("strang", {
    places := [.text]
    switches := commonSwitches ++ [
      { name := "code" }, { name := "push", action := .values }, { name := "pop" },
      { name := "top" }, { name := "uniq" }, { name := "canon" }, { name := "plain" }] })]

def commandNames : List String :=
  grammars.map (·.1)

/-- The grammar of what stands before the name of a command. -/
def outerGrammar : Grammar where
  switches := commonSwitches ++ [{ name := "version", letter := some 'V', action := .stop .version }]
  commands := "help" :: commandNames

def needed {α : Type} : Option α → Except Stop α
  | some a => .ok a
  | none => .error .misuse

def requestOf (g : Given) : Except Stop Request := do
  return {
    template := ← needed g.words.head?
    implicit := g.has "implicit"
    mark := (g.value? "mark").bind Mark.parse? }

def searchOf (g : Given) : Search where
  start := ⟨(g.value? "file").getD "."⟩
  inherit := g.has "inherit"
  noInherit := g.has "no-inherit"
  includes := g.values "include"

def expandOf (g : Given) : Except Stop Command := do
  return .expand {
    request := ← requestOf g
    limit := (g.value? "limit").bind readLimit?
    fallback := g.value? "fallback"
    settings := g.values "set"
    search := searchOf g
    format := (g.value? "format").getD "plain" }

def showOf (g : Given) : Command :=
  .showSources {
    search := searchOf g
    files := g.has "files"
    values := g.has "values"
    format := (g.value? "format").getD "table" }

/-- `top` goes with `pop` only, and `canon` does not go with `uniq`. -/
def inspectOf (g : Given) : Except Stop Command := do
  let text ← needed g.words.head?
  if g.has "top" && !g.has "pop" then throw .misuse
  else if g.has "canon" && g.has "uniq" then throw .misuse
  else
    return .inspect {
      text
      code := g.has "code"
      additions := g.values "push"
      pop := g.has "pop"
      top := g.has "top"
      unique := g.has "uniq"
      canon := g.has "canon"
      plain := g.has "plain" }

def initOf (g : Given) : Command :=
  .init {
    directory := ⟨g.words.head?.getD "."⟩
    inherit := g.has "inherit"
    settings := g.values "set"
    template := (g.value? "template").getD "standard" }

/-- The command of a name with what is given to it. -/
def ofGiven (name : String) (g : Given) : Except Stop Command :=
  match name with
  | "init" => .ok (initOf g)
  | "show" => .ok (showOf g)
  | "expand" => expandOf g
  | "check" => (requestOf g).map .check
  | "strang" => inspectOf g
  | _ => .error .misuse

/-- What a wish for help on commands comes to. -/
def helpOn : List String → Stop
  | [] => .help
  | [name] => if outerGrammar.commands.contains name then .help else .misuse
  | _ => .misuse

/-- The command that a command line asks for. -/
def read (args : List String) : Except Stop Command := do
  match ← outerGrammar.read .free {} args with
  | (_, "help" :: args) => throw (helpOn args)
  | (_, name :: args) =>
    let grammar ← needed (grammars.lookup name)
    let (given, _) ← grammar.read .free {} args
    ofGiven name given
  | (_, []) => throw .misuse

end Command

end KeyExpansion
