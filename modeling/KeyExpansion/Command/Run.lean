-- SUMMARY: Running commands: what they print, how they end and what they write.
import KeyExpansion.Command.Report
import KeyExpansion.Command.Starter
import KeyExpansion.Expansion.Expand
import KeyExpansion.Sectioned.Lineage

/-! # Running commands

A command runs on a console and changes nothing there: what it writes is part of its
outcome, like the text that it prints. A miss is told apart from a fault. -/

namespace KeyExpansion

/-- What a command runs on. -/
structure Console where
  machine : Machine
  environment : List (String × String) := []
  memory : Memory := {}

namespace Console

/-- The console of a working directory, of which links are followed. The environment may
    say how the shell sees it and where home is. -/
def ofEnvironment (cwd : Path) (environment : List (String × String)) (files : FileTree)
    (memory : Memory) : Console where
  machine := {
    cwd := (files.canonical? cwd).getD cwd
    shell := ⟨(environment.lookup "PWD").getD cwd.text⟩
    home := ⟨(environment.lookup "HOME").getD "/"⟩
    files }
  environment
  memory

/-- Is a variable set to a word for yes? -/
def isOn (c : Console) (name : String) : Bool :=
  ["1", "true", "yes", "on"].contains ((c.environment.lookup name).getD "")

/-- The files that the environment asks for, between colons. -/
def includes (c : Console) : List String :=
  ((Text.splitOn [':'] ((c.environment.lookup "DKEY_INCLUDE").getD "").toList).filter
    (!·.isEmpty)).map String.ofList

def discoveryOptions (c : Console) (s : Command.Search) : DiscoveryOptions where
  noInherit := s.noInherit || c.isOn "DKEY_NO_INHERIT"
  forceInherit := s.inherit || c.isOn "DKEY_INHERIT"
  includes := s.includes ++ c.includes

/-- The source files of a search. -/
def discover (c : Console) (s : Command.Search) : Except Error (List Layer) :=
  c.machine.discover s.start (c.discoveryOptions s)

/-- Expansions find no code and no coercions of their own here. -/
def surroundings (c : Console) : Surroundings where
  resolve := c.machine.resolve
  custom := fun name _ => .error (.codeNotFound name)
  code := {}

end Console

namespace Command

/-- How a command ends. -/
inductive Ending where
  | done
  /-- Nothing was found for a key. -/
  | missed (key : String)
  | failed (fault : Fault)
  | stopped (reason : Stop)
deriving Repr, DecidableEq

structure Outcome where
  output : String := ""
  ending : Ending := .done
  /-- The file that is written, with its text. -/
  written : Option (Path × String) := none
deriving Repr, DecidableEq

/-- The number that a command reports to its caller. -/
def Ending.status : Ending → Nat
  | done | stopped .help | stopped .version => 0
  | missed _ | failed _ => 1
  | stopped .misuse => 2

/-- An outcome from what may fail. -/
def Outcome.ofExcept : Except Fault Outcome → Outcome
  | .ok outcome => outcome
  | .error fault => { ending := .failed fault }

def Request.key (r : Request) : Except Error Key :=
  Key.makeText { implicit := r.implicit, mark := r.mark } r.template

def runCheck (r : Request) : Outcome :=
  match r.key with
  | .ok k => { output := linesText k.report }
  | .error e => { output := linesText ["✗ " ++ r.template], ending := .failed (.error e) }

/-- Settings are enough to expand with: that there are no source files is then no
    fault. -/
def layersFor (c : Console) (search : Search) (settings : List (String × Value)) :
    Except Error (List Layer) :=
  match c.discover search with
  | .error (.notFoundInTree start) =>
    if settings.isEmpty then .error (.notFoundInTree start) else .ok []
  | .error (.notFoundAtPath start) =>
    if settings.isEmpty then .error (.notFoundAtPath start) else .ok []
  | result => result

def runExpand (c : Console) (o : ExpandOptions) : Except Fault Outcome := do
  let settings ← Setting.readAll o.settings
  let merged := Merged.ofLayers (← ofError (layersFor c o.search settings))
  let k ← ofError o.request.key
  let found := k.expand c.surroundings {} [.table settings, merged.source]
    (o.fallback.map Value.str) (o.limit.or merged.limit)
  match (found.runFrom c.memory).1 with
  | .error e => throw (.error e)
  | .ok none => return { ending := .missed k.text }
  | .ok (some v) =>
    return { output := if o.format == "yaml" then Yaml.write v.toNode else linesText [v.display] }

/-- Without a choice both files and values are shown. -/
def runShow (c : Console) (o : ShowOptions) : Except Fault Outcome := do
  let layers ← ofError (c.discover o.search)
  let merged := Merged.ofLayers layers
  if o.format == "yaml" then return { output := merged.document layers }
  else
    let files := if o.files || !o.values then Layer.reportAll layers else []
    let values := if o.values || !o.files then merged.report else []
    let between := if files.isEmpty || values.isEmpty then [] else [""]
    return { output := linesText (files ++ between ++ values) }

/-- A word to push, as it would be read back. -/
def additionOf (word : String) : Addition :=
  let mark := do
    let inner ← Text.stripPrefix? ['$'] word.toList
    WordMark.named? (String.ofList (← Text.stripSuffix? ['$'] inner))
  let number := (Decimal.readInt64? word.toList).filter fun n => toString n.toInt == word
  if word == "<uuid>" then .uuid none
  else
    match mark, number with
    | some m, _ => .mark m
    | none, some n => .int n
    | none, none => .word word.toList

/-- Derive a sectioned text: pop, then push, then tell it apart or take that away. -/
def derive {scheme : Scheme} (o : InspectOptions) (s : Sectioned scheme) :
    Expand (Sectioned scheme) := do
  let s ← if o.pop then ExceptT.mk (pure (s.pop (← Expand.fresh) o.top)) else pure s
  let s ←
    if o.additions.isEmpty then pure s
    else ExceptT.mk (pure (s.push (← Expand.fresh) (o.additions.map additionOf)))
  let s ← if o.unique then ExceptT.mk (pure (s.toUnique (← Expand.fresh) [])) else pure s
  if o.canon then ExceptT.mk (pure (s.canon (← Expand.fresh))) else pure s

/-- Read a sectioned text and derive another from it. -/
def inspected (scheme : Scheme) (o : InspectOptions) : Expand (Sectioned scheme) := do
  let s ← ExceptT.mk (pure (Sectioned.parse scheme (← Expand.fresh) o.text.toList))
  derive o s

def reportOf {scheme : Scheme} (o : InspectOptions) (label : String) (s : Sectioned scheme) :
    List String :=
  if o.plain then [s.toString] else s.report label

def runInspect (c : Console) (o : InspectOptions) : Except Fault Outcome :=
  if o.code then do
    let r : CodeRef ← ofError ((inspected Scheme.codeRef o).runFrom c.memory).1
    let path := if o.plain then [] else ["Path: " ++ r.path]
    return { output := linesText (path ++ reportOf o "code" r) }
  else do
    let s ← ofError ((inspected Scheme.basic o).runFrom c.memory).1
    return { output := linesText (reportOf o "strang" s) }

/-- What is said of a new source file. -/
def initLines (path : Path) : List String := [
  "Created .dkey.yaml at " ++ Text.quoted path.text,
  "",
  "Next steps:",
  "  1. Edit the file to add your values",
  "  2. Run 'dkey show' to preview the composed values",
  "  3. Run 'dkey expand \"\x7bname\x7d\"' to expand a key"]

/-- Nothing is written over a file that is there. -/
def runInit (c : Console) (o : InitOptions) : Except Fault Outcome := do
  let path := o.directory.join ⟨fileName⟩
  let place := c.machine.fromHere path
  if c.machine.files.exists_ place then throw (.occupied path)
  else
    let text ← Starter.text o
    if (c.machine.files.write? place text).isNone then throw (.unwritable path)
    else return { output := linesText (initLines path), written := some (place, text) }

def run (c : Console) : Command → Outcome
  | .check request => runCheck request
  | .expand options => .ofExcept (runExpand c options)
  | .showSources options => .ofExcept (runShow c options)
  | .inspect options => .ofExcept (runInspect c options)
  | .init options => .ofExcept (runInit c options)

/-- The version of the command line. -/
def versionText : String := "dkey 0.3.0"

def helpLines : List String := [
  "Expandable keys and structured strings",
  "",
  "Usage: dkey [OPTIONS] <COMMAND>",
  "",
  "Commands: " ++ ", ".intercalate commandNames]

/-- What stopping before a command prints. -/
def stopLines : Stop → List String
  | .misuse => []
  | .help => helpLines
  | .version => [versionText]

/-- Run what a command line asks for. -/
def runLine (c : Console) (args : List String) : Outcome :=
  match read args with
  | .ok command => command.run c
  | .error reason => { output := linesText (stopLines reason), ending := .stopped reason }

end Command

/-- The files after an outcome. -/
def Console.filesAfter (c : Console) (outcome : Command.Outcome) : FileTree :=
  (outcome.written.bind fun (path, text) => c.machine.files.write? path text).getD c.machine.files

end KeyExpansion
