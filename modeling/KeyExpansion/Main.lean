-- SUMMARY: The command line: reads the machine, runs a command, prints and writes.
import KeyExpansion.Command.Run

/-! # The command line

A command runs on a picture of the file tree, which starts with the places around the
working directory. When a run asks for a file that the picture lacks, the file is put into
the picture and the command runs again. -/

namespace KeyExpansion.Main

/-- Put what stands at an absolute path on the machine into a picture of its files. -/
def look (tree : FileTree) (path : Path) : IO FileTree := do
  try
    let real : Path := ⟨toString (← IO.FS.realPath path.text)⟩
    let place := real.parts.filter (!Path.isVoid ·)
    let tree ←
      try
        let bytes ← IO.FS.readBinFile real.text
        let content : Content :=
          match String.fromUTF8? bytes with
          | some text => .text text
          | none => .binary bytes.toList
        pure (tree.add place (.file content))
      catch _ => pure (tree.makeDirectories place)
    let asked := path.parts.filter (!Path.isVoid ·)
    if asked == place || asked.contains ".." then return tree
    else return tree.add asked (.link real)
  catch _ => return tree

/-- The places that a command looks at first. -/
def firstPlaces (c : Console) (command : Command) : List Path :=
  let start : Path :=
    match command with
    | .expand o => o.search.start
    | .showSources o => o.search.start
    | .init o => o.directory
    | .check _ | .inspect _ => ⟨"."⟩
  let start := c.machine.startOf start
  start.ancestors ++ start.ancestors.map (·.join ⟨fileName⟩) ++ [start.join ⟨localFileName⟩]

/-- The file that a run missed. -/
def missedFile? : Command.Ending → Option Path
  | .failed (.error (.includeNotFound path)) => some path
  | .failed (.error (.readFailed path)) => some path
  | _ => none

/-- The absolute paths that lines of a text name, and what they lie in. -/
def pathsIn (text : String) : List Path :=
  ((Text.splitOn ['\n'] text.toList).filter (·.head? == some '/')).flatMap fun line =>
    Path.ancestors ⟨String.ofList line⟩

/-- Run a command, looking for missed files at most `rounds` times. -/
def runLooking (command : Command) : (rounds : Nat) → Console → IO Command.Outcome
  | 0, c => return command.run c
  | rounds + 1, c => do
    let outcome := command.run c
    let asked := (missedFile? outcome.ending).toList ++ pathsIn outcome.output
    let mut files := c.machine.files
    for path in asked do
      files ← look files (c.machine.fromHere path)
    if files.entries.length == c.machine.files.entries.length then return outcome
    else runLooking command rounds { c with machine := { c.machine with files } }

/-- The variables that commands look at. -/
def variableNames : List String :=
  ["PWD", "HOME", "DKEY_INHERIT", "DKEY_NO_INHERIT", "DKEY_INCLUDE"]

/-- The most rounds of looking for files. -/
def mostRounds : Nat := 1000

/-- Say on the error output how a command ended. -/
def tell (outcome : Command.Outcome) : IO Unit := do
  match outcome.ending with
  | .done | .stopped .help | .stopped .version => return
  | .missed key => IO.eprintln ("Not found: " ++ key)
  | .stopped .misuse => IO.eprintln "error: the arguments do not fit, see 'dkey --help'"
  | .failed fault =>
    for code in fault.code?.toList do
      IO.eprintln ("Error: " ++ code)
    IO.eprintln fault.message
    for help in fault.help?.toList do
      IO.eprintln ("help: " ++ help)

/-- Run what the arguments ask for on this machine. -/
def runHere (args : List String) : IO Command.Outcome := do
  let mut environment := []
  for name in variableNames do
    if let some value ← IO.getEnv name then
      environment := environment ++ [(name, value)]
  let cwd : Path := ⟨toString (← IO.currentDir)⟩
  let seed := (← IO.getRandomBytes 16).foldl (fun n byte => 256 * n + byte.toNat) 0
  let console := Console.ofEnvironment cwd environment {} { seed }
  match Command.read args with
  | .error _ => return Command.runLine console args
  | .ok command =>
    let mut files : FileTree := {}
    for path in firstPlaces console command do
      files ← look files (console.machine.fromHere path)
    runLooking command mostRounds (Console.ofEnvironment cwd environment files { seed })

end KeyExpansion.Main

def main (args : List String) : IO UInt32 := do
  let outcome ← KeyExpansion.Main.runHere args
  if let some (path, text) := outcome.written then
    IO.FS.writeFile path.text text
  IO.print outcome.output
  KeyExpansion.Main.tell outcome
  return UInt32.ofNat outcome.ending.status
